import Mathlib.Data.Set.Function
import Phiola.File.Name

/-!
# Moving files on Android

The file of a list entry is moved to the trash of its storage, or to a directory of the user. A rename replaces a
file that has the new name already, so the code looks first whether there is one. Any call may fail.
-/

namespace Phiola.Android.Trash

open FileName (ffpath_splitpath_str)

abbrev Name := List UInt8

variable {C : Type}

/-- The files that exist, with what they have, and the directories. -/
structure Disk (C : Type) where
  file : Name → Option C
  dir : Name → Bool

/-- How a call ends that could go on: `ok` as the disk has it, or with an error for another reason. -/
inductive Ans where
  | ok
  | notexist
  | other
deriving DecidableEq

def moved (file : Name → Option C) (old new : Name) : Name → Option C :=
  Function.update (Function.update file new (file old)) old none

def parent (p : Name) : Name := (ffpath_splitpath_str 47 p).1

/-- `fffile_rename()`; the error is whether `fferr_notexist()` holds, which is so for a missing directory as well. -/
def fffile_rename (d : Disk C) (old new : Name) : Ans → Except Bool (Disk C)
  | .ok =>
    if (d.file old).isNone ∨ d.dir (parent new) = false then .error true
    else if d.dir new then .error false
    else .ok {d with file := moved d.file old new}
  | .notexist => .error true
  | .other => .error false

/-- `ffdir_make()` -/
def ffdir_make (d : Disk C) (p : Name) (ok : Bool) : Disk C :=
  if ok ∧ d.dir (parent p) ∧ d.file p = none then {d with dir := Function.update d.dir p true} else d

/-- The loop of `file_trash()`. The directory may be made once, and once another name may be tried. -/
def trash_loop (trash_dir fn second : Name) (made mkdir again : Bool) (trash_fn : Name) (ans : List Ans)
    (d : Disk C) : Bool × Disk C :=
  if (d.file trash_fn).isSome then
    if again then trash_loop trash_dir fn second made mkdir false second ans d else (false,d)
  else
    match fffile_rename d fn trash_fn (ans.headD .other) with
    | .ok d' => (true,d')
    | .error true =>
      if mkdir then
        trash_loop trash_dir fn second made false again trash_fn ans.tail (ffdir_make d trash_dir made)
      else (false,d)
    | .error false => (false,d)
termination_by mkdir.toNat + again.toNat
decreasing_by all_goals simp_all

/-- `now` is the time as the second name has it, and `made` is whether `ffdir_make()` does not fail. -/
def file_trash (trash_dir fn now : Name) (made : Bool) (ans : List Ans) (d : Disk C) : Bool × Disk C :=
  let name := (ffpath_splitpath_str 47 fn).2
  trash_loop trash_dir fn (trash_dir ++ 47 :: (name ++ 45 :: now)) made true true (trash_dir ++ 47 :: name) ans d

/-- The trash of the storage that the file is in. -/
def trash_dir_abs (storage_paths : List Name) (trash_dir_rel fn : Name) : Option Name :=
  (storage_paths.find? fun stg => stg.isPrefixOf fn && stg ≠ [] && fn[stg.length]? = some 47).map
    fun stg => stg ++ 47 :: trash_dir_rel

/-- `Phiola.trash()`; `true` is the empty text. -/
def trash (storage_paths : List Name) (trash_dir_rel fn now : Name) (made : Bool) (ans : List Ans) (d : Disk C) :
    Bool × Disk C :=
  match trash_dir_abs storage_paths trash_dir_rel fn with
  | some trash_dir => file_trash trash_dir fn now made ans d
  | none => (true,d)

/-- `Phiola.fileMove()` -/
def fileMove (fn tgt_dir : Name) (ans : Ans) (d : Disk C) : Bool × Disk C :=
  let newfn := tgt_dir ++ 47 :: (ffpath_splitpath_str 47 fn).2
  if (d.file newfn).isSome then (false,d)
  else match fffile_rename d fn newfn ans with
    | .ok d' => (true,d')
    | .error _ => (false,d)

/-! ### One call -/

/-- The file has the new name, which was free, or no file is changed. -/
def Moved (d : Disk C) (fn : Name) (dir : Name) (r : Bool × Disk C) : Prop :=
  if r.1 then
    ∃ new,dir ++ [47] <+: new ∧ d.file new = none ∧ (d.file fn).isSome ∧ r.2.file = moved d.file fn new
  else r.2.file = d.file

theorem rename_ok {d d' : Disk C} {old new : Name} {a : Ans} (h : fffile_rename d old new a = .ok d') :
    (d.file old).isSome ∧ d'.file = moved d.file old new := by
  cases a with
  | ok =>
    simp only [fffile_rename] at h
    split at h
    · exact nomatch h
    · next hold =>
      split at h
      · exact nomatch h
      · obtain rfl := Except.ok.inj h
        exact ⟨Option.isSome_iff_ne_none.mpr fun hnone => hold (.inl (by simp [hnone])),rfl⟩
  | notexist => exact nomatch h
  | other => exact nomatch h

theorem ffdir_make_file (d : Disk C) (p : Name) (ok : Bool) : (ffdir_make d p ok).file = d.file := by
  unfold ffdir_make
  split <;> rfl

theorem trash_loop_moved {trash_dir fn second dir : Name} (hsecond : dir ++ [47] <+: second)
    (made mkdir again : Bool) {trash_fn : Name} (hfirst : dir ++ [47] <+: trash_fn) (ans : List Ans) (d : Disk C) :
    Moved d fn dir (trash_loop trash_dir fn second made mkdir again trash_fn ans d) := by
  fun_induction trash_loop trash_dir fn second made mkdir again trash_fn ans d with
  | case1 mkdir trash_fn ans d hsome ih => exact ih hsecond
  | case2 => rfl
  | case3 mkdir again trash_fn ans d hnone d' hr =>
    have hok := rename_ok hr
    exact ⟨trash_fn,hfirst,by simpa using hnone,hok.1,hok.2⟩
  | case4 again trash_fn ans d hnone hr ih =>
    have hmoved := ih hfirst
    rw [Moved,ffdir_make_file] at hmoved
    exact hmoved
  | case5 => rfl
  | case6 => rfl

theorem file_trash_moved (trash_dir fn now : Name) (made : Bool) (ans : List Ans) (d : Disk C) :
    Moved d fn trash_dir (file_trash trash_dir fn now made ans d) :=
  trash_loop_moved ⟨(ffpath_splitpath_str 47 fn).2 ++ 45 :: now,by simp⟩ made true true
    ⟨(ffpath_splitpath_str 47 fn).2,by simp⟩ ans d

theorem fileMove_moved (fn tgt_dir : Name) (ans : Ans) (d : Disk C) :
    Moved d fn tgt_dir (fileMove fn tgt_dir ans d) := by
  unfold fileMove
  dsimp only
  split
  · rfl
  · split
    · rename_i hnone _ d' hr
      have hok := rename_ok hr
      exact ⟨_,⟨(ffpath_splitpath_str 47 fn).2,by simp⟩,by simpa using hnone,hok.1,hok.2⟩
    · rfl

/-- The text is empty when the file was moved into the trash, and when no storage has it: then it stays where
it is. Otherwise no file is changed. -/
theorem trash_result (storage_paths : List Name) (trash_dir_rel fn now : Name) (made : Bool) (ans : List Ans)
    (d : Disk C) :
    match trash_dir_abs storage_paths trash_dir_rel fn with
    | some trash_dir => Moved d fn trash_dir (trash storage_paths trash_dir_rel fn now made ans d)
    | none => trash storage_paths trash_dir_rel fn now made ans d = (true,d) := by
  unfold trash
  cases trash_dir_abs storage_paths trash_dir_rel fn with
  | some trash_dir => exact file_trash_moved trash_dir fn now made ans d
  | none => rfl

/-! ### The retries -/

theorem parent_join {dir name : Name} (hname : 47 ∉ name) : parent (dir ++ 47 :: name) = dir := by
  have hpos : ∀ b ∈ name.reverse,(!FileName.is_slash 47 b) = true := by
    intro b hb
    have hne : b ≠ 47 := fun he => hname (he ▸ List.mem_reverse.mp hb)
    simp [FileName.is_slash,hne]
  have hdrop : (dir ++ 47 :: name).rdropWhile (!FileName.is_slash 47 ·) = dir ++ [47] := by
    rw [List.rdropWhile,List.reverse_append,List.reverse_cons,List.append_assoc,
      List.dropWhile_append_of_pos hpos]
    simp [FileName.is_slash]
  rw [parent,ffpath_splitpath_str,hdrop,List.dropLast_concat]

theorem name_slash (fn : Name) : 47 ∉ (ffpath_splitpath_str 47 fn).2 := by
  intro hm
  have hslash := List.mem_rtakeWhile_imp hm
  exact absurd hslash (by decide)

section Retries

variable {trash_dir fn second new : Name} {made again : Bool} {d : Disk C}

/-- The rename of a file to a free name works when there is the directory. -/
theorem rename_there (hfn : (d.file fn).isSome) (hparent : parent new = trash_dir) (hdir : d.dir trash_dir = true)
    (hnew : d.dir new = false) : fffile_rename d fn new .ok = .ok {d with file := moved d.file fn new} := by
  have hold : (d.file fn).isNone = false := by
    obtain ⟨c,hc⟩ := Option.isSome_iff_exists.mp hfn
    simp [hc]
  simp [fffile_rename,hold,hparent,hdir,hnew]

theorem free_succeeds (hfn : (d.file fn).isSome) (hparent : parent new = trash_dir) (hne : new ≠ trash_dir)
    (hfree : d.file new = none) (hnew : d.dir new = false) {ans : List Ans} (hans : ans = [.ok,.ok])
    (hdir : d.dir trash_dir = true ∨ d.dir (parent trash_dir) = true ∧ d.file trash_dir = none) :
    (trash_loop trash_dir fn second true true again new ans d).1 = true := by
  subst hans
  have hnone : ¬(d.file new).isSome := by simp [hfree]
  rw [trash_loop,if_neg hnone]
  cases hthere : d.dir trash_dir with
  | true => rw [List.headD_cons,rename_there hfn hparent hthere hnew]
  | false =>
    have hmake := hdir.resolve_left (by simp [hthere])
    have hfails : fffile_rename d fn new .ok = .error true := by simp [fffile_rename,hparent,hthere]
    have hmade : ffdir_make d trash_dir true = {d with dir := Function.update d.dir trash_dir true} :=
      if_pos ⟨rfl,hmake⟩
    have hagain : fffile_rename {d with dir := Function.update d.dir trash_dir true} fn new .ok =
        .ok ⟨moved d.file fn new,Function.update d.dir trash_dir true⟩ :=
      rename_there hfn hparent (Function.update_self ..) ((Function.update_of_ne hne ..).trans hnew)
    simp only [List.headD_cons,hfails,if_true,List.tail_cons,hmade]
    rw [trash_loop,if_neg hnone,List.headD_cons,hagain]

end Retries

/-- With one of the two names free the file is moved, whether the directory is there or has to be made. -/
theorem file_trash_succeeds {trash_dir fn now : Name} {d : Disk C} (hfn : (d.file fn).isSome) (hnow : 47 ∉ now)
    (hdir : d.dir trash_dir = true ∨ d.dir (parent trash_dir) = true ∧ d.file trash_dir = none)
    (hnames : ∀ name ∈ [(ffpath_splitpath_str 47 fn).2,(ffpath_splitpath_str 47 fn).2 ++ 45 :: now],
      d.dir (trash_dir ++ 47 :: name) = false)
    (hfree : ∃ name ∈ [(ffpath_splitpath_str 47 fn).2,(ffpath_splitpath_str 47 fn).2 ++ 45 :: now],
      d.file (trash_dir ++ 47 :: name) = none) :
    (file_trash trash_dir fn now true [.ok,.ok] d).1 = true := by
  have hone := name_slash fn
  have htwo : 47 ∉ (ffpath_splitpath_str 47 fn).2 ++ 45 :: now := by simp [hone,hnow]
  have hlonger : ∀ name,trash_dir ++ 47 :: name ≠ trash_dir := fun name he => by simp at he
  simp only [List.forall_mem_cons,List.not_mem_nil,false_imp_iff,implies_true,and_true] at hnames
  simp only [List.mem_cons,List.not_mem_nil,or_false,exists_eq_or_imp,exists_eq_left] at hfree
  unfold file_trash
  dsimp only
  by_cases hfirst : d.file (trash_dir ++ 47 :: (ffpath_splitpath_str 47 fn).2) = none
  · exact free_succeeds hfn (parent_join hone) (hlonger _) hfirst hnames.1 rfl hdir
  · rw [trash_loop,if_pos (Option.isSome_iff_ne_none.mpr hfirst),if_pos rfl]
    exact free_succeeds hfn (parent_join htwo) (hlonger _) (hfree.resolve_left hfirst) hnames.2 rfl hdir

/-- The storage `S` has a file `a`, and perhaps a trash with another one. -/
def storage (trash : Bool) : Disk Nat where
  file p := if p = [83,47,97] then some 0 else if p = [83,47,84,47,97] ∧ trash then some 1 else none
  dir p := p = [83] ∨ p = [83,47,84] ∧ trash

theorem file_trash_succeeds_storage :
    (file_trash [83,47,84] [83,47,97] [49] true [.ok,.ok] (storage false)).1 = true ∧
      (file_trash [83,47,84] [83,47,97] [49] true [.ok,.ok] (storage true)).1 = true :=
  ⟨file_trash_succeeds (by decide) (by decide) (by decide) (by decide) (by decide),
    file_trash_succeeds (by decide) (by decide) (by decide) (by decide) (by decide)⟩

/-! ### Runs -/

/-- Each file is still there under a name of its own. -/
def Kept (fs fs' : Name → Option C) : Prop :=
  ∃ σ : Name → Name,Set.InjOn σ {p | (fs p).isSome} ∧ ∀ p c,fs p = some c → fs' (σ p) = some c

theorem Kept.refl (fs : Name → Option C) : Kept fs fs := ⟨id,Set.injOn_id _,fun _ _ h => h⟩

theorem Kept.trans {fs fs' fs'' : Name → Option C} (h : Kept fs fs') (h' : Kept fs' fs'') : Kept fs fs'' := by
  obtain ⟨σ,hσ,hc⟩ := h
  obtain ⟨τ,hτ,hd⟩ := h'
  refine ⟨τ ∘ σ,hτ.comp hσ ?_,fun p c hp => hd (σ p) c (hc p c hp)⟩
  intro p hp
  obtain ⟨c,hpc⟩ := Option.isSome_iff_exists.mp hp
  exact Option.isSome_iff_exists.mpr ⟨c,hc p c hpc⟩

theorem kept_moved {fs : Name → Option C} {old new : Name} (hnew : fs new = none) (hold : (fs old).isSome) :
    Kept fs (moved fs old new) := by
  have hne : new ≠ old := fun he => by simp [← he,hnew] at hold
  refine ⟨fun p => if p = old then new else p,?_,?_⟩
  · intro p hp q hq hpq
    change (fs p).isSome = true at hp
    change (fs q).isSome = true at hq
    dsimp only at hpq
    split at hpq
    · split at hpq
      · simp_all
      · rw [← hpq,hnew] at hq
        exact nomatch hq
    · split at hpq
      · rw [hpq,hnew] at hp
        exact nomatch hp
      · exact hpq
  · intro p c hp
    by_cases hpo : p = old
    · subst hpo
      simp [moved,Function.update_of_ne hne,hp]
    · have hpn : p ≠ new := fun he => by simp [he,hnew] at hp
      simp [moved,hpo,hpn,hp]

theorem Moved.kept {d : Disk C} {fn dir : Name} {r : Bool × Disk C} (h : Moved d fn dir r) :
    Kept d.file r.2.file := by
  unfold Moved at h
  split at h
  · obtain ⟨new,-,hnew,hfn,hr⟩ := h
    rw [hr]
    exact kept_moved hnew hfn
  · rw [h]
    exact Kept.refl d.file

inductive Op where
  | trash (trash_dir_rel fn now : Name) (made : Bool) (ans : List Ans)
  | fileMove (fn tgt_dir : Name) (ans : Ans)

def step (storage_paths : List Name) (d : Disk C) : Op → Disk C
  | .trash trash_dir_rel fn now made ans => (trash storage_paths trash_dir_rel fn now made ans d).2
  | .fileMove fn tgt_dir ans => (fileMove fn tgt_dir ans d).2

theorem step_kept (storage_paths : List Name) (d : Disk C) (op : Op) :
    Kept d.file (step storage_paths d op).file := by
  cases op with
  | trash trash_dir_rel fn now made ans =>
    simp only [step,trash]
    cases trash_dir_abs storage_paths trash_dir_rel fn with
    | some trash_dir => exact (file_trash_moved trash_dir fn now made ans d).kept
    | none => exact Kept.refl d.file
  | fileMove fn tgt_dir ans => exact (fileMove_moved fn tgt_dir ans d).kept

/-- However many files are moved, and whichever calls fail, no file is lost or replaced. -/
theorem every_file_kept (storage_paths : List Name) (ops : List Op) (d : Disk C) :
    Kept d.file (ops.foldl (step storage_paths) d).file := by
  induction ops generalizing d with
  | nil => exact Kept.refl d.file
  | cons op ops ih => exact (step_kept storage_paths d op).trans (ih _)

end Phiola.Android.Trash
