import Phiola.Framework.Machine
import Mathlib.Data.List.Count

/-!
# Module loading

The core keeps one object per requested module: the library handle `dl` and the module's
descriptor `mod`, which lies in the library. What is done with libraries is logged.
-/

namespace Phiola.Modules

abbrev Name := List Char

/-- `struct core_mod`: a descriptor is named by the library it lies in. -/
structure CoreMod where
  name : Name
  dl : Option Nat
  mod : Option Nat
deriving DecidableEq, Repr

/-- The operations on a library: `ffdl_open`, a call into it or a read of its data, the
module's `close()` and `ffdl_close`. -/
inductive Use
  | opened (h : Nat)
  | call (h : Nat)
  | modClose (h : Nat)
  | closed (h : Nat)
deriving DecidableEq, Repr

def Use.lib : Use → Nat
  | .opened h | .call h | .modClose h | .closed h => h

/-- How the steps of a load go. -/
inductive Outcome
  | refused
  | missing
  | noSymbol
  | initNull
  | mismatch
  | success
deriving DecidableEq, Repr

/-- What the libraries offer: their interfaces and whether they have `close()`. -/
structure Lib where
  iface : Name → Name → Bool
  close : Name → Bool

/-- An interface pointer, named by its module and its name there. -/
structure Iface where
  file : Name
  iface : Name
deriving DecidableEq, Repr

/-- `fault`: the descriptor is NULL or lies in a library that is closed. -/
inductive Reply
  | value (p : Option Iface)
  | fault
deriving DecidableEq, Repr

structure State where
  mods : List CoreMod
  next : Nat
  log : List Use
deriving DecidableEq, Repr

def init : State := ⟨[],0,[]⟩

/-- A request and how a load goes, if it needs one. -/
structure Request where
  name : Name
  outcome : Outcome
deriving DecidableEq, Repr

/-- The part of a name before the dot. -/
def Request.file (r : Request) : Name := r.name.takeWhile (· ≠ '.')

/-- The part of a name after the dot. -/
def Request.iface (r : Request) : Name := (r.name.dropWhile (· ≠ '.')).tail

def core_ifaces : List Name :=
  ["auto-input".toList,"auto-output".toList,"auto-play".toList,"auto-rec".toList,
    "dir-read".toList,"file-read".toList,"file-write".toList,"queue".toList,"stdin".toList,
    "stdout".toList,"tee".toList]

def core_iface (name : Name) : Option Iface :=
  if name ∈ core_ifaces then some ⟨"core".toList,name⟩ else none

def mod_find (mods : List CoreMod) (file : Name) : Option CoreMod :=
  mods.find? (fun m => m.name = file)

/-- The module object and the list that holds it. -/
def mod_create (mods : List CoreMod) (file : Name) : List CoreMod := mods ++ [⟨file,none,none⟩]

/-- What a load does up to its `end` label: the module's descriptor, the local `dl`, `done`
and the uses of the library `h` it gets. -/
def mod_load_steps (m : CoreMod) (h : Nat) :
    Outcome → Option Nat × Option Nat × Bool × List Use
  | .refused => (m.mod,none,false,[])
  | .missing => (m.mod,none,false,[])
  | .noSymbol => (m.mod,some h,false,[.opened h])
  | .initNull => (none,some h,false,[.opened h,.call h])
  | .mismatch => (some h,some h,false,[.opened h,.call h,.call h])
  | .success => (some h,some h,true,[.opened h,.call h,.call h])

/-- The handle `mod_load` returns is its local `dl`, closed or not. -/
def mod_load (m : CoreMod) (h : Nat) (o : Outcome) : CoreMod × List Use :=
  let (mod,dl,done,uses) := mod_load_steps m h o
  (⟨m.name,dl,mod⟩,uses ++ if done then [] else dl.toList.map Use.closed)

/-- The write to the module object that `mod_find` returns. -/
def mod_set (file : Name) (m' : CoreMod) : List CoreMod → List CoreMod
  | [] => []
  | m :: ms => if m.name = file then m' :: ms else m :: mod_set file m' ms

/-- `m->mod->iface(iface)`. -/
def mod_iface (lib : Lib) (log : List Use) (m : CoreMod) (iface : Name) : Reply × List Use :=
  match m.mod with
  | none => (.fault,[])
  | some h =>
    if .closed h ∈ log then (.fault,[.call h])
    else (.value (if lib.iface m.name iface then some ⟨m.name,iface⟩ else none),[.call h])

/-- The end of a request, after the module is loaded. -/
def mod_reply (lib : Lib) (log : List Use) (m : CoreMod) (iface : Name) : Reply × List Use :=
  if iface = [] then (.value none,[]) else mod_iface lib log m iface

/-- The request once its module object is there. -/
def mod_request (lib : Lib) (s : State) (m : CoreMod) (r : Request) : State × Reply :=
  if m.dl = none then
    let loaded := mod_load m s.next r.outcome
    let log := s.log ++ loaded.2
    let mods := mod_set r.file loaded.1 s.mods
    if loaded.1.dl = none then (⟨mods,s.next + 1,log⟩,.value none)
    else
      let answer := mod_reply lib log loaded.1 r.iface
      (⟨mods,s.next + 1,log ++ answer.2⟩,answer.1)
  else
    let answer := mod_reply lib s.log m r.iface
    (⟨s.mods,s.next,s.log ++ answer.2⟩,answer.1)

def core_mod (lib : Lib) (s : State) (r : Request) : State × Reply :=
  if r.file = [] then (s,.value none)
  else if r.file = "core".toList then (s,.value (core_iface r.iface))
  else
    match mod_find s.mods r.file with
    | some m => mod_request lib s m r
    | none => mod_request lib {s with mods := mod_create s.mods r.file} ⟨r.file,none,none⟩ r

/-- `mod_destroy` of one module object. -/
def mod_destroy (lib : Lib) (m : CoreMod) : List Use :=
  (match m.mod with
    | none => []
    | some h => .call h :: if lib.close m.name then [.modClose h] else []) ++
  m.dl.toList.map Use.closed

/-- What happened to the libraries by the end of `phi_core_destroy`. -/
def destroyed (lib : Lib) (s : State) : List Use := s.log ++ s.mods.flatMap (mod_destroy lib)

def step (lib : Lib) (s : State) (r : Request) : Option State := some (core_mod lib s r).1

/-! ## What a request promises -/

/-- A request for the core's own interfaces loads nothing. -/
def Request.ofModule (r : Request) : Prop := r.file ≠ [] ∧ r.file ≠ "core".toList

instance (r : Request) : Decidable r.ofModule :=
  inferInstanceAs (Decidable (r.file ≠ [] ∧ r.file ≠ "core".toList))

/-- The handle the core keeps for a module. -/
def State.handle (s : State) (file : Name) : Option Nat := (mod_find s.mods file).bind CoreMod.dl

def interface (lib : Lib) (r : Request) : Option Iface :=
  if r.iface ≠ [] ∧ lib.iface r.file r.iface then some ⟨r.file,r.iface⟩ else none

/-- A failed load returns NULL and keeps no handle, a load that succeeds and every request
after it return the interface, and only the first of them opens the library. -/
structure Answers (lib : Lib) (s : State) (r : Request) : Prop where
  failed : r.ofModule → s.handle r.file = none → r.outcome ≠ .success →
    (core_mod lib s r).2 = .value none ∧ (core_mod lib s r).1.handle r.file = none
  loaded : r.ofModule → s.handle r.file = none → r.outcome = .success →
    (core_mod lib s r).2 = .value (interface lib r) ∧
      (core_mod lib s r).1.handle r.file ≠ none
  again : r.ofModule → s.handle r.file ≠ none →
    (core_mod lib s r).2 = .value (interface lib r) ∧
      (core_mod lib s r).1.mods = s.mods ∧
      ∀ h, (core_mod lib s r).1.log.count (.opened h) = s.log.count (.opened h)

/-- Nothing is done with a library after it is closed. -/
def Orderly (log : List Use) : Prop := log.Pairwise fun u v => u ≠ .closed v.lib

/-- Every library that was opened is closed once, and a kept one after its `close()`. -/
structure ClosedOnce (lib : Lib) (s : State) : Prop where
  once : ∀ h, .opened h ∈ s.log → (destroyed lib s).count (.closed h) = 1
  after : ∀ m ∈ s.mods, ∀ h, m.dl = some h → lib.close m.name →
    [.modClose h,.closed h].Sublist (destroyed lib s)

/-- A load that fails does so before the library is open. -/
def EarlyFailure (s : State) (r : Request) : Prop :=
  r.ofModule → s.handle r.file = none →
    r.outcome = .refused ∨ r.outcome = .missing ∨ r.outcome = .success

instance (s : State) (r : Request) : Decidable (EarlyFailure s r) :=
  inferInstanceAs (Decidable (_ → _ → _))

/-! ## The list of module objects -/

section List

variable {mods : List CoreMod} {file : Name} {m m' x : CoreMod}

theorem mod_find_name (h : mod_find mods file = some m) : m.name = file := by
  simpa using List.find?_some h

theorem mod_find_create (h : mod_find mods file = none) :
    mod_find (mod_create mods file) file = some ⟨file,none,none⟩ := by
  simp only [mod_find] at h
  simp [mod_find,mod_create,List.find?_append,h]

theorem mem_mod_set (h : x ∈ mod_set file m' mods) : x = m' ∨ x ∈ mods := by
  induction mods with
  | nil => cases h
  | cons a ms ih =>
    simp only [mod_set] at h
    split at h
    · exact (List.mem_cons.mp h).imp id (List.mem_cons_of_mem a)
    · rcases List.mem_cons.mp h with rfl | h
      · exact .inr List.mem_cons_self
      · exact (ih h).imp id (List.mem_cons_of_mem a)

theorem mod_find_set (h : mod_find mods file = some m) (hm : m'.name = file) :
    mod_find (mod_set file m' mods) file = some m' := by
  induction mods with
  | nil => cases h
  | cons a ms ih =>
    by_cases ha : a.name = file
    · simp [mod_find,mod_set,ha,hm]
    · simp only [mod_find,mod_set,ha,if_false,List.find?_cons,decide_false] at h ⊢
      exact ih h

/-- The handles the core keeps. -/
def kept (mods : List CoreMod) : List Nat := mods.filterMap CoreMod.dl

theorem kept_create : kept (mod_create mods file) = kept mods := by
  simp [kept,mod_create,List.filterMap_append]

theorem kept_set (m' : CoreMod) (h : mod_find mods file = some m) (hm : m.dl = none) :
    (kept (mod_set file m' mods)).Perm (m'.dl.toList ++ kept mods) := by
  induction mods with
  | nil => cases h
  | cons a ms ih =>
    by_cases ha : a.name = file
    · obtain rfl : a = m := by simpa [mod_find,ha] using h
      cases hd : m'.dl <;> simp [kept,mod_set,ha,hm,hd]
    · have hrest := ih (by simpa [mod_find,ha] using h)
      simp only [kept,mod_set,ha,if_false] at hrest ⊢
      cases hd : a.dl with
      | none => simpa [hd] using hrest
      | some d =>
        simp only [List.filterMap_cons,hd]
        exact (hrest.cons d).trans List.perm_middle.symm

end List

/-! ## Destruction -/

section Destruction

variable {lib : Lib} {mods : List CoreMod} {m : CoreMod} {u : Use} {h : Nat}

theorem lib_of_mem_destroy (hm : m.dl = m.mod) (hu : u ∈ mod_destroy lib m) :
    m.dl = some u.lib := by
  cases hd : m.mod with
  | none => simp [mod_destroy,hm,hd] at hu
  | some d =>
    simp only [mod_destroy,hm,hd,Option.toList_some,List.map_cons,List.map_nil,List.cons_append,
      List.mem_cons,List.mem_append,List.not_mem_nil,or_false] at hu
    rcases hu with rfl | hu | rfl
    · exact hm.trans hd
    · split at hu
      · rw [List.mem_singleton.mp hu]
        exact hm.trans hd
      · cases hu
    · exact hm.trans hd

theorem mem_kept_of_destroy (hsame : ∀ m ∈ mods, m.dl = m.mod)
    (hu : u ∈ mods.flatMap (mod_destroy lib)) : u.lib ∈ kept mods := by
  obtain ⟨m,hm,hu⟩ := List.mem_flatMap.mp hu
  exact List.mem_filterMap.mpr ⟨m,hm,lib_of_mem_destroy (hsame m hm) hu⟩

theorem orderly_mod_destroy : Orderly (mod_destroy lib m) := by
  cases hd : m.mod with
  | none => cases hl : m.dl <;> simp [Orderly,mod_destroy,hd,hl]
  | some d => cases hl : m.dl <;> by_cases hc : lib.close m.name <;> simp [Orderly,mod_destroy,hd,hl,hc]

theorem orderly_destroy (hsame : ∀ m ∈ mods, m.dl = m.mod) (hnodup : (kept mods).Nodup) :
    Orderly (mods.flatMap (mod_destroy lib)) := by
  induction mods with
  | nil => exact List.Pairwise.nil
  | cons a ms ih =>
    have ha := hsame a List.mem_cons_self
    have hms (m : CoreMod) (hm : m ∈ ms) : m.dl = m.mod := hsame m (List.mem_cons_of_mem a hm)
    rw [List.flatMap_cons]
    refine List.pairwise_append.mpr ⟨orderly_mod_destroy,ih hms ?_,fun u hu v hv huv => ?_⟩
    · exact hnodup.sublist ((List.sublist_cons_self a ms).filterMap _)
    · -- the two uses are of libraries that different objects keep
      have hd := lib_of_mem_destroy ha hu
      have hv := mem_kept_of_destroy hms hv
      subst huv
      simp only [kept,List.filterMap_cons,hd] at hnodup
      exact (List.nodup_cons.mp hnodup).1 hv

theorem count_mod_destroy (hm : m.dl = m.mod) :
    (mod_destroy lib m).count (.closed h) = m.dl.toList.count h := by
  cases hd : m.mod with
  | none => simp [mod_destroy,hm,hd]
  | some d => by_cases hc : lib.close m.name <;> simp [mod_destroy,hm,hd,hc,List.count_cons]

theorem count_destroy (hsame : ∀ m ∈ mods, m.dl = m.mod) :
    (mods.flatMap (mod_destroy lib)).count (.closed h) = (kept mods).count h := by
  induction mods with
  | nil => rfl
  | cons a ms ih =>
    have hrest := ih fun m hm => hsame m (List.mem_cons_of_mem a hm)
    rw [List.flatMap_cons,List.count_append,hrest,count_mod_destroy (hsame a List.mem_cons_self)]
    cases hd : a.dl with
    | none => simp [kept,hd]
    | some d =>
      simp only [kept,List.filterMap_cons,hd,Option.toList_some,List.count_cons,List.count_nil]
      omega

theorem close_before (hm : m ∈ mods) (hsame : m.dl = m.mod) (hd : m.dl = some h)
    (hc : lib.close m.name) : [.modClose h,.closed h].Sublist (mods.flatMap (mod_destroy lib)) := by
  have hone : mod_destroy lib m = [.call h,.modClose h,.closed h] := by
    simp [mod_destroy,← hsame,hd,hc]
  have hpart : (mod_destroy lib m).Sublist (mods.flatMap (mod_destroy lib)) :=
    List.sublist_flatten_of_mem (List.mem_map_of_mem hm)
  rw [hone] at hpart
  exact (List.sublist_cons_self _ _).trans hpart

end Destruction

/-! ## Runs -/

/-- Nothing is closed yet, and the libraries that were opened are the kept ones. -/
structure Inv (s : State) : Prop where
  same : ∀ m ∈ s.mods, m.dl = m.mod
  nodup : (kept s.mods).Nodup
  opened : ∀ h, .opened h ∈ s.log ↔ h ∈ kept s.mods
  below : ∀ h ∈ kept s.mods, h < s.next
  live : ∀ h, .closed h ∉ s.log

theorem inv_init : Inv init where
  same := by simp [init]
  nodup := List.nodup_nil
  opened := by simp [init,kept]
  below := by simp [init,kept]
  live := by simp [init]

variable {lib : Lib} {s s' : State} {r : Request} {m : CoreMod}

/-- The state in which a request finds its module object. -/
def State.created (s : State) (file : Name) : State :=
  match mod_find s.mods file with
  | some _ => s
  | none => {s with mods := mod_create s.mods file}

theorem created_cases (s : State) (file : Name) :
    (s.created file = s ∧ ∃ m, mod_find s.mods file = some m ∧ s.handle file = m.dl) ∨
      (mod_find s.mods file = none ∧ s.handle file = none ∧
        s.created file = {s with mods := mod_create s.mods file}) := by
  cases h : mod_find s.mods file with
  | none => exact .inr ⟨rfl,by simp [State.handle,h],by simp [State.created,h]⟩
  | some m => exact .inl ⟨by simp [State.created,h],m,rfl,by simp [State.handle,h]⟩

theorem created_inv (file : Name) (hs : Inv s) : Inv (s.created file) := by
  rcases created_cases s file with ⟨h,-⟩ | ⟨-,-,h⟩
  · rw [h]
    exact hs
  · rw [h]
    refine ⟨fun m hm => ?_,?_,?_,?_,hs.live⟩
    · rcases List.mem_append.mp hm with hm | hm
      · exact hs.same m hm
      · rw [List.mem_singleton.mp hm]
    · exact kept_create.symm ▸ hs.nodup
    · exact fun h => kept_create.symm ▸ hs.opened h
    · exact kept_create.symm ▸ hs.below

theorem core_mod_object (lib : Lib) (s : State) (hr : r.ofModule) :
    ∃ m, mod_find (s.created r.file).mods r.file = some m ∧ m.dl = s.handle r.file ∧
      core_mod lib s r = mod_request lib (s.created r.file) m r := by
  simp only [core_mod,hr.1,hr.2,if_false]
  rcases created_cases s r.file with ⟨hs,m,hm,hd⟩ | ⟨hnone,hd,hs⟩
  · exact ⟨m,hs.symm ▸ hm,hd.symm,by simp [hm,hs]⟩
  · exact ⟨⟨r.file,none,none⟩,hs.symm ▸ mod_find_create hnone,hd.symm,by simp [hnone,hs]⟩

/-- While nothing is closed, a loaded module answers with its interface and only uses its
library. -/
theorem mod_reply_live (lib : Lib) {log : List Use} {h : Nat} (hm : m.mod = some h) (hn : m.name = r.file)
    (hlive : .closed h ∉ log) :
    (mod_reply lib log m r.iface).1 = .value (interface lib r) ∧
      ∀ u ∈ (mod_reply lib log m r.iface).2, u = .call h := by
  by_cases hi : r.iface = []
  · simp [mod_reply,interface,hi]
  · simp [mod_reply,mod_iface,interface,hi,hm,hn,hlive]

theorem Inv.calls (hs : Inv s) {us : List Use} {h : Nat} (hus : ∀ u ∈ us, u = .call h) :
    Inv {s with log := s.log ++ us} where
  same := hs.same
  nodup := hs.nodup
  opened k := by
    have hno : .opened k ∉ us := fun hk => by cases hus _ hk
    simp [List.mem_append,hno,hs.opened k]
  below := hs.below
  live k hk := by
    rcases List.mem_append.mp hk with hk | hk
    · exact hs.live k hk
    · cases hus _ hk

/-- The write of a module object that keeps the new library, or none. -/
theorem Inv.set (hs : Inv s) {file : Name} (m' : CoreMod) (us : List Use)
    (hfind : mod_find s.mods file = some m) (hm : m.dl = none) (hsame : m'.dl = m'.mod)
    (hdl : ∀ h, m'.dl = some h → h = s.next) (hopened : ∀ h, .opened h ∈ us ↔ m'.dl = some h)
    (hlive : ∀ h, .closed h ∉ us) :
    Inv ⟨mod_set file m' s.mods,s.next + 1,s.log ++ us⟩ := by
  have hperm := kept_set m' hfind hm
  have hmem (h : Nat) : h ∈ kept (mod_set file m' s.mods) ↔ m'.dl = some h ∨ h ∈ kept s.mods := by
    rw [hperm.mem_iff,List.mem_append,Option.mem_toList]
  refine ⟨fun x hx => ?_,?_,fun h => ?_,fun h hh => ?_,fun h hh => ?_⟩
  · rcases mem_mod_set hx with rfl | hx
    · exact hsame
    · exact hs.same x hx
  · rw [hperm.nodup_iff,List.nodup_append]
    refine ⟨by cases m'.dl <;> simp,hs.nodup,fun a ha b hb hab => ?_⟩
    have hnew := hdl a (Option.mem_toList.mp ha)
    exact absurd (hs.below b hb) (by omega)
  · rw [List.mem_append,hmem,hs.opened h,hopened h,or_comm]
  · rcases (hmem h).mp hh with hh | hh
    · exact Nat.lt_succ_of_le (Nat.le_of_eq (hdl h hh))
    · exact Nat.lt_succ_of_lt (hs.below h hh)
  · rcases List.mem_append.mp hh with hh | hh
    · exact hs.live h hh
    · exact hlive h hh

theorem handle_set {mods : List CoreMod} {file : Name} {m' : CoreMod} {n : Nat} {log : List Use}
    (h : mod_find mods file = some m) (hm : m'.name = file) :
    State.handle ⟨mod_set file m' mods,n,log⟩ file = m'.dl := by
  simp only [State.handle,mod_find_set h hm,Option.bind_some]

theorem mod_request_early (lib : Lib) (hs : Inv s) (hfind : mod_find s.mods r.file = some m)
    (hm : m.dl = none) (ho : r.outcome = .refused ∨ r.outcome = .missing) :
    Inv (mod_request lib s m r).1 ∧ (mod_request lib s m r).2 = .value none ∧
      (mod_request lib s m r).1.handle r.file = none := by
  have hmod : m.mod = none := (hs.same m (List.mem_of_find?_eq_some hfind)).symm.trans hm
  have hload : mod_load m s.next r.outcome = (⟨m.name,none,none⟩,[]) := by
    rcases ho with ho | ho <;> simp [mod_load,mod_load_steps,ho,hmod]
  have hreq : mod_request lib s m r =
      (⟨mod_set r.file ⟨m.name,none,none⟩ s.mods,s.next + 1,s.log ++ []⟩,.value none) := by
    simp [mod_request,hm,hload]
  rw [hreq]
  refine ⟨hs.set _ _ hfind hm rfl ?_ ?_ ?_,rfl,?_⟩
  · intro h hh
    cases hh
  · simp
  · simp
  · have hname : m.name = r.file := mod_find_name hfind
    exact handle_set hfind hname

theorem mod_request_success (lib : Lib) (hs : Inv s) (hfind : mod_find s.mods r.file = some m)
    (hm : m.dl = none) (ho : r.outcome = .success) :
    Inv (mod_request lib s m r).1 ∧ (mod_request lib s m r).2 = .value (interface lib r) ∧
      (mod_request lib s m r).1.handle r.file ≠ none := by
  have hname : m.name = r.file := mod_find_name hfind
  have hload : mod_load m s.next r.outcome =
      (⟨m.name,some s.next,some s.next⟩,[.opened s.next,.call s.next,.call s.next]) := by
    simp [mod_load,mod_load_steps,ho]
  have hset := hs.set ⟨m.name,some s.next,some s.next⟩
    [.opened s.next,.call s.next,.call s.next] hfind hm rfl (by simp) (by simp [eq_comm]) (by simp)
  have hlive := hset.live s.next
  have hreply := mod_reply_live lib (m := ⟨m.name,some s.next,some s.next⟩) rfl hname hlive
  have hsome : some s.next ≠ none := Option.some_ne_none s.next
  simp only [mod_request,hm,hload,if_true,hsome,if_false]
  refine ⟨hset.calls hreply.2,hreply.1,?_⟩
  have hkept : (⟨m.name,some s.next,some s.next⟩ : CoreMod).name = r.file := hname
  rw [handle_set hfind hkept]
  exact hsome

theorem mod_request_loaded (lib : Lib) (hs : Inv s) (hfind : mod_find s.mods r.file = some m)
    (hm : m.dl ≠ none) :
    Inv (mod_request lib s m r).1 ∧ (mod_request lib s m r).2 = .value (interface lib r) ∧
      (mod_request lib s m r).1.mods = s.mods ∧
      ∀ h, (mod_request lib s m r).1.log.count (.opened h) = s.log.count (.opened h) := by
  obtain ⟨d,hd⟩ := Option.ne_none_iff_exists'.mp hm
  have hmod : m.mod = some d := (hs.same m (List.mem_of_find?_eq_some hfind)).symm.trans hd
  have hreply := mod_reply_live lib hmod (mod_find_name hfind) (hs.live d)
  simp only [mod_request,hm,if_false]
  refine ⟨hs.calls hreply.2,hreply.1,trivial,fun h => ?_⟩
  have hno : .opened h ∉ (mod_reply lib s.log m r.iface).2 := fun hh => by cases hreply.2 _ hh
  rw [List.count_append,List.count_eq_zero.mpr hno,Nat.add_zero]

theorem core_mod_other (hr : ¬r.ofModule) : (core_mod lib s r).1 = s := by
  by_cases hf : r.file = []
  · simp [core_mod,hf]
  · have hc : r.file = "core".toList := by
      by_contra hc
      exact hr ⟨hf,hc⟩
    rw [core_mod,if_neg hf,if_pos hc]

theorem core_mod_spec (hs : Inv s) (hearly : EarlyFailure s r) :
    Inv (core_mod lib s r).1 ∧ Answers lib s r := by
  by_cases hr : r.ofModule
  · obtain ⟨m,hfind,hd,hreq⟩ := core_mod_object lib s hr
    have hcreated := created_inv r.file hs
    by_cases hm : s.handle r.file = none
    · rcases hearly hr hm with ho | ho | ho
      · have h := mod_request_early lib hcreated hfind (hd.trans hm) (.inl ho)
        rw [← hreq] at h
        exact ⟨h.1,fun _ _ _ => h.2,fun _ _ hs => by simp [ho] at hs,fun _ hl => (hl hm).elim⟩
      · have h := mod_request_early lib hcreated hfind (hd.trans hm) (.inr ho)
        rw [← hreq] at h
        exact ⟨h.1,fun _ _ _ => h.2,fun _ _ hs => by simp [ho] at hs,fun _ hl => (hl hm).elim⟩
      · have h := mod_request_success lib hcreated hfind (hd.trans hm) ho
        rw [← hreq] at h
        exact ⟨h.1,fun _ _ hf => (hf ho).elim,fun _ _ _ => h.2,fun _ hl => (hl hm).elim⟩
    · have hsame : s.created r.file = s := by
        rcases created_cases s r.file with ⟨h,-⟩ | ⟨-,h,-⟩
        · exact h
        · exact (hm h).elim
      have h := mod_request_loaded lib hcreated hfind (hd ▸ hm)
      rw [← hreq,hsame] at h
      exact ⟨h.1,fun _ hn => (hm hn).elim,fun _ hn => (hm hn).elim,fun _ _ => h.2⟩
  · rw [core_mod_other hr]
    exact ⟨hs,fun h => (hr h).elim,fun h => (hr h).elim,fun h => (hr h).elim⟩

theorem late_failure_kept (hr : r.ofModule) (hm : s.handle r.file = none)
    (ho : r.outcome ≠ .refused ∧ r.outcome ≠ .missing ∧ r.outcome ≠ .success) :
    (core_mod lib s r).1.handle r.file ≠ none := by
  obtain ⟨m,hfind,hd,hreq⟩ := core_mod_object lib s hr
  have hname := mod_find_name hfind
  rw [hreq]
  have hload : (mod_load m (s.created r.file).next r.outcome).1.dl ≠ none ∧
      (mod_load m (s.created r.file).next r.outcome).1.name = r.file := by
    cases h : r.outcome <;> simp_all [mod_load,mod_load_steps]
  simp only [mod_request,hd.trans hm,if_true,hload.1,if_false,State.handle,
    mod_find_set hfind hload.2,Option.bind_some]
  exact hload.1

/-- The libraries of a state in which nothing is closed are destroyed in order. -/
theorem Inv.destroyed (hs : Inv s) : Orderly (destroyed lib s) ∧ ClosedOnce lib s := by
  refine ⟨List.pairwise_append.mpr ⟨?_,orderly_destroy hs.same hs.nodup,?_⟩,fun h hh => ?_,?_⟩
  · exact List.pairwise_of_forall_mem_list fun u hu v _ huv => hs.live v.lib (huv ▸ hu)
  · exact fun u hu v _ huv => hs.live v.lib (huv ▸ hu)
  · rw [Modules.destroyed,List.count_append,List.count_eq_zero.mpr (hs.live h),Nat.zero_add,
      count_destroy hs.same]
    exact Nat.le_antisymm (List.nodup_iff_count.mp hs.nodup h)
      (List.count_pos_iff.mpr ((hs.opened h).mp hh))
  · intro m hm h hd hc
    exact (close_before hm (hs.same m hm) hd hc).trans (List.sublist_append_right _ _)

/-- Every request of a run is answered as promised and the libraries are closed in order
exactly when each load that fails does so before the library is open. -/
theorem requests_answered (lib : Lib) (rs : List Request) :
    (Machine.AllSteps (step lib) (Answers lib) init rs ∧
      ∀ s, Machine.run (step lib) init rs = some s → Orderly (destroyed lib s) ∧ ClosedOnce lib s) ↔
    Machine.AllSteps (step lib) EarlyFailure init rs := by
  constructor
  · rintro ⟨h,-⟩
    refine Machine.AllSteps.mono (fun s r hr hmod hnone => ?_) h
    by_contra ho
    simp only [not_or] at ho
    exact late_failure_kept hmod hnone ho (hr.failed hmod hnone ho.2.2).2
  · intro h
    have hstep (s : State) (r : Request) (s' : State) (hs : Inv s) (hr : EarlyFailure s r)
        (heq : step lib s r = some s') : Inv s' := by
      obtain rfl := Option.some.inj heq
      exact (core_mod_spec hs hr).1
    refine ⟨?_,fun s hrun => (Machine.guarded_invariant hstep h hrun inv_init).destroyed⟩
    exact Machine.AllSteps.of_invariant hstep (fun s r hs hr => (core_mod_spec hs hr).2) h inv_init

/-- A library without `phi_mod_init` is closed and stays the module's library: the request
reads a NULL descriptor, the next one does not load again, and the library is closed twice. -/
theorem symbol_missing_kept :
    ¬(Machine.AllSteps (step ⟨fun _ _ => true,fun _ => true⟩) (Answers ⟨fun _ _ => true,fun _ => true⟩)
        init [⟨"mp3.decode".toList,.noSymbol⟩] ∧
      ∀ s, Machine.run (step ⟨fun _ _ => true,fun _ => true⟩) init
          [⟨"mp3.decode".toList,.noSymbol⟩] = some s →
        Orderly (destroyed ⟨fun _ _ => true,fun _ => true⟩ s) ∧
          ClosedOnce ⟨fun _ _ => true,fun _ => true⟩ s) ∧
    (core_mod ⟨fun _ _ => true,fun _ => true⟩ init ⟨"mp3.decode".toList,.noSymbol⟩).2 = .fault ∧
    ((Machine.run (step ⟨fun _ _ => true,fun _ => true⟩) init
        [⟨"mp3.decode".toList,.noSymbol⟩,⟨"mp3.decode".toList,.success⟩]).map
      (destroyed ⟨fun _ _ => true,fun _ => true⟩)) =
        some [.opened 0,.closed 0,.closed 0] := by
  refine ⟨fun h => ?_,by decide,by decide⟩
  have hkept := (h.1.1.failed (by decide) (by decide) (by decide)).2
  exact absurd hkept (by decide)

end Phiola.Modules
