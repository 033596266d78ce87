import Mathlib.Data.List.Basic
import Mathlib.Algebra.Group.Nat.Defs
import Phiola.Framework.Fuel

/-!
# Editing the tags of a file

An MP3 file is edited in place when the new ID3v2 tag has room in the old one, else it is copied to
`FILE.phiolatemp`, which is renamed in the end. Tag formats are parameters; reading and writing may be
short, and any call may fail.
-/

namespace Phiola.TagEdit

open Fuel

abbrev Bytes := List UInt8

/-- The calls to the system. -/
inductive Op
  | start
  | read
  | reread
  | write
  | create
  | write_new
  | copy_read (i : Nat)
  | copy_write (i : Nat)
  | read_v1
  | write_v1
  | rename

/-- A call fails, or reads or writes this many bytes at most. -/
abbrev Env := Op → Option Nat

/-- The readers and writers of tags, for the user's pairs: `size` is `id3v2read_size()`, `build` is what is
written before `id3v2write_finish()` (`none` for an invalid pair), `v1` is whether `id3v1read_process()` finds
a tag, and `v1_new` is the new ID3v1 tag, after the bytes that were read. -/
structure Tags where
  size : Bytes → Nat
  build : Bytes → Option Bytes
  finish : Bytes → Nat → Option Bytes
  v1 : Bytes → Bool
  v1_new : Bytes → Bytes

/-- `fffile_readat()` -/
def readat (count : Option Nat) (file : Bytes) (off cap : Nat) : Option Bytes :=
  count.map fun n => (file.drop off).take (min n cap)

/-- `fffile_writeat()`: the file, and the number of bytes. -/
def writeat (count : Option Nat) (file : Bytes) (off : Nat) (data : Bytes) : Option (Bytes × Nat) :=
  count.map fun n =>
    (file.take off ++ List.replicate (off - file.length) 0 ++ data.take n ++ file.drop (off + min n data.length),
      min n data.length)

/-! ## Copying -/

structure Copy where
  i : Nat
  offsrc : Nat
  offdst : Nat
  size : Nat
  dst : Bytes

/-- The space for copying. -/
def copy_cap : Nat := 8 * 1024 * 1024

/-- A round of the loop of `file_copydata()`. -/
def copy_step (env : Env) (src : Bytes) (c : Copy) : Copy ⊕ (Bytes × Bool) :=
  if c.size = 0 then .inr (c.dst,true)
  else
    match readat (env (.copy_read c.i)) src c.offsrc (min c.size copy_cap) with
    | none => .inr (c.dst,false)
    | some data =>
      match writeat (env (.copy_write c.i)) c.dst c.offdst data with
      | none => .inr (c.dst,false)
      | some (dst,n) => .inl ⟨c.i + 1,c.offsrc + data.length,c.offdst + n,c.size - n,dst⟩

/-- `file_copydata()` in at most `fuel` rounds: the new file, and whether the result is `0`. -/
def file_copydata (fuel : Nat) (env : Env) (src : Bytes) (offsrc : Nat) (dst : Bytes) (offdst size : Nat) :
    Option (Bytes × Bool) :=
  loop (copy_step env src) fuel ⟨0,offsrc,offdst,size,dst⟩

/-! ## The edit -/

/-- The file, `FILE.phiolatemp`, whether `fdw` is the latter, and the buffer. -/
structure Edit where
  orig : Bytes
  temp : Option Bytes
  moved : Bool
  buf : Bytes
deriving DecidableEq

/-- The contents of the file that `fdw` is for. -/
def Edit.fdw (t : Edit) : Bytes := if t.moved then t.temp.getD [] else t.orig

/-- `mp3_id3v2()` up to the new tag: the size of the old tag, and the new one. -/
def id3v2_new (tags : Tags) (env : Env) (orig : Bytes) : Option (Nat × Bytes) :=
  match readat (env .read) orig 0 1024 with
  | none => none
  | some buf =>
    let id3v2_size := tags.size buf
    let full :=
      if 1024 < id3v2_size then
        if 100 * 1024 * 1024 < id3v2_size then none else readat (env .reread) orig 0 id3v2_size
      else some buf
    match full.bind tags.build with
    | none => none
    | some w =>
      let padding := if w.length ≤ id3v2_size then id3v2_size - w.length else 1000 - w.length
      (tags.finish w padding).map fun new => (id3v2_size,new)

/-- `fffile_open()` of a new file. -/
def create_new (env : Env) (temp : Option Bytes) : Bool := (env .create).isSome && temp.isNone

/-- `mp3_id3v2()`: whether the result is `0`. -/
def mp3_id3v2 (fuel : Nat) (tags : Tags) (env : Env) (t : Edit) : Option (Edit × Bool) :=
  match id3v2_new tags env t.orig with
  | none => some (t,false)
  | some (id3v2_size,new) =>
    if new.length ≤ id3v2_size then
      match writeat (env .write) t.orig 0 new with
      | none => some ({t with buf := new},false)
      | some (orig,_) => some ({t with orig := orig, buf := new},true)
    else if !create_new env t.temp then some ({t with buf := new, moved := true},false)
    else
      match writeat (env .write_new) [] 0 new with
      | none => some (⟨t.orig,some [],true,new⟩,false)
      | some (temp,_) =>
        -- the size that is left is negative for a file that ends inside its tag, and is taken as unsigned
        let size := if id3v2_size ≤ t.orig.length then t.orig.length - id3v2_size
          else t.orig.length + 2 ^ 64 - id3v2_size
        (file_copydata fuel env t.orig id3v2_size temp new.length size).map fun r =>
          (⟨t.orig,some r.1,true,new⟩,r.2)

/-- The contents of the file that `fdw` is for are these. -/
def Edit.put (t : Edit) (file : Bytes) : Edit :=
  if t.moved then {t with temp := some file} else {t with orig := file}

/-- The bytes that `mp3_id3v1()` looks for an old tag in. -/
def id3v1_old (env : Env) (t : Edit) : Option Bytes :=
  if 0 < t.orig.length - 128 then readat (env .read_v1) t.orig (t.orig.length - 128) 128 else some t.buf

/-- `mp3_id3v1()` -/
def mp3_id3v1 (tags : Tags) (env : Env) (t : Edit) : Edit × Bool :=
  match id3v1_old env t with
  | none => (t,false)
  | some data =>
    let id3v1_off := if tags.v1 data then t.fdw.length - 128 else t.fdw.length
    match writeat (env .write_v1) t.fdw id3v1_off (tags.v1_new data) with
    | none => (t,false)
    | some r => (t.put r.1,true)

/-- `tag_edit_process()` for an MP3 file; `start` is all that comes before. -/
def tag_edit_process (fuel : Nat) (tags : Tags) (env : Env) (t : Edit) : Option (Edit × Bool) :=
  match env .start with
  | none => some (t,false)
  | some _ =>
    (mp3_id3v2 fuel tags env t).map fun r => if r.2 then mp3_id3v1 tags env r.1 else r

/-- `tag_edit_close()`: whether the edit is done. -/
def tag_edit_close (env : Env) (r : Edit × Bool) : Edit × Bool :=
  if r.1.moved && r.2 then
    match env .rename with
    | none => (r.1,false)
    | some _ => ({r.1 with orig := r.1.temp.getD [], temp := none},true)
  else r

/-- `tag_edit_edit()`: the files after it, whether it returns `0`, which `tag_edit_close()` has no part in, and
whether the edit is done. -/
def tag_edit_edit (fuel : Nat) (tags : Tags) (env : Env) (orig : Bytes) (temp : Option Bytes) :
    Option (Edit × Bool × Bool) :=
  (tag_edit_process fuel tags env ⟨orig,temp,false,[]⟩).map fun r =>
    ((tag_edit_close env r).1,r.2,(tag_edit_close env r).2)

/-! ## After a failure -/

/-- The edit comes to writing `FILE.phiolatemp`. -/
def Creates (tags : Tags) (env : Env) (orig : Bytes) : Prop :=
  (env .start).isSome ∧ (id3v2_new tags env orig).isSome ∧ (env .create).isSome

/-- The new tag has no room in the old one. -/
def Moves (tags : Tags) (env : Env) (orig : Bytes) : Prop :=
  ∀ r, id3v2_new tags env orig = some r → r.1 < r.2.length

/-- The file is as it was, nothing is left behind, and a later edit can create its file. -/
def NoTrace (orig : Bytes) (t : Edit) : Prop :=
  t.orig = orig ∧ t.temp = none ∧ ∀ env : Env, (env .create).isSome → create_new env t.temp

variable {fuel : Nat} {tags : Tags} {env : Env} {orig : Bytes} {temp : Option Bytes} {t : Edit}

/-- There is a new file to be renamed. -/
def Edit.Left (t : Edit) : Prop := t.moved = true ∧ t.temp.isSome

/-- The place of the new ID3v1 tag. -/
def id3v1_off (tags : Tags) (t : Edit) (data : Bytes) : Nat :=
  if tags.v1 data then t.fdw.length - 128 else t.fdw.length

theorem v1_none (hold : id3v1_old env t = none) : mp3_id3v1 tags env t = (t,false) := by
  unfold mp3_id3v1
  rw [hold]

theorem v1_some {data : Bytes} (hold : id3v1_old env t = some data) : mp3_id3v1 tags env t =
    match writeat (env .write_v1) t.fdw (id3v1_off tags t data) (tags.v1_new data) with
    | none => (t,false)
    | some r => (t.put r.1,true) := by
  unfold mp3_id3v1
  rw [hold]
  rfl

theorem v1_left (h : t.Left) : (mp3_id3v1 tags env t).1.Left := by
  cases hold : id3v1_old env t with
  | none =>
    rw [v1_none hold]
    exact h
  | some data =>
    rw [v1_some hold]
    cases writeat (env .write_v1) t.fdw (id3v1_off tags t data) (tags.v1_new data) with
    | none => exact h
    | some r =>
      have hput : t.put r.1 = {t with temp := some r.1} := if_pos h.1
      change (t.put r.1).Left
      rw [hput]
      exact ⟨h.1,rfl⟩

theorem no_trace_of {moved : Bool} {buf : Bytes} : NoTrace orig ⟨orig,none,moved,buf⟩ :=
  ⟨rfl,rfl,fun env h => by simp [create_new,h]⟩

theorem id3v2_left {r : Nat × Bytes} {e : Edit × Bool} (hnew : id3v2_new tags env t.orig = some r)
    (hlt : r.1 < r.2.length) (hcreate : create_new env t.temp)
    (h : mp3_id3v2 fuel tags env t = some e) : e.1.Left := by
  unfold mp3_id3v2 at h
  simp only [hnew,if_neg (Nat.not_le.mpr hlt),hcreate,Bool.not_true,Bool.false_eq_true,if_false] at h
  split at h
  · cases h
    exact ⟨rfl,rfl⟩
  · obtain ⟨c,-,rfl⟩ := Option.map_eq_some_iff.mp h
    exact ⟨rfl,rfl⟩

/-- A failed edit whose new tag has no room in the old one leaves no trace if and only if it does not come to
creating its file. -/
theorem no_trace_iff {e : Edit} {ok : Bool} (hmoves : Moves tags env orig)
    (h : tag_edit_edit fuel tags env orig none = some (e,ok,false)) :
    NoTrace orig e ↔ ¬ Creates tags env orig := by
  obtain ⟨r,hr,hboth⟩ := Option.map_eq_some_iff.mp h
  simp only [Prod.mk.injEq] at hboth
  have hclose : tag_edit_close env r = (e,false) := Prod.ext hboth.1 hboth.2.2
  clear hboth h
  unfold tag_edit_process at hr
  split at hr
  case h_1 hstart =>
    cases hr
    cases hclose
    exact iff_of_true no_trace_of fun hc => by simp [Creates,hstart] at hc
  case h_2 hstart =>
    obtain ⟨e2,he2,hr⟩ := Option.map_eq_some_iff.mp hr
    cases hnew : id3v2_new tags env orig with
    | none =>
      simp only [mp3_id3v2,hnew] at he2
      cases he2
      cases hr
      cases hclose
      exact iff_of_true no_trace_of fun hc => by simp [Creates,hnew] at hc
    | some new =>
      have hlt := hmoves new hnew
      cases hcreate : env .create with
      | none =>
        simp only [mp3_id3v2,hnew,if_neg (Nat.not_le.mpr hlt),create_new,hcreate,Option.isSome_none,
          Bool.false_and,Bool.not_false,if_true] at he2
        cases he2
        cases hr
        cases hclose
        exact iff_of_true no_trace_of fun hc => by simp [Creates,hcreate] at hc
      | some n =>
        have hleft := id3v2_left (t := ⟨orig,none,false,[]⟩) hnew hlt (by simp [create_new,hcreate]) he2
        have hleft' : r.1.Left := by
          rw [← hr]
          split
          · exact v1_left hleft
          · exact hleft
        have hkept : e.Left := by
          unfold tag_edit_close at hclose
          split at hclose
          · split at hclose
            · cases hclose
              exact hleft'
            · cases hclose
          · rw [hclose] at hleft'
            exact hleft'
        have hcreates : Creates tags env orig := by
          simp [Creates,hstart,hnew,hcreate]
        refine iff_of_false (fun h => ?_) (not_not_intro hcreates)
        have := hkept.2
        rw [h.2.1] at this
        cases this

/-- A tag of one byte for a file without a tag. -/
def one : Tags := ⟨fun _ => 0,fun _ => some [73],fun w _ => some w,fun _ => false,fun _ => List.replicate 128 0⟩

/-- The new file cannot be written. -/
def no_space : Env := fun op => match op with
  | .write_new => none
  | _ => some 1

/-- The new file cannot be created. -/
def no_create : Env := fun op => match op with
  | .create => none
  | _ => some 1

theorem no_trace_no_space : (NoTrace [255] ⟨[255],some [],true,[73]⟩ ↔ ¬ Creates one no_space [255]) ∧
    (NoTrace [255] ⟨[255],none,true,[73]⟩ ↔ ¬ Creates one no_create [255]) ∧ ¬ Creates one no_create [255] := by
  have hmoves {env : Env} (hread : env .read = some 1) : Moves one env [255] := fun r hr => by
    rw [id3v2_new,hread] at hr
    obtain rfl := Option.some.inj hr
    decide
  have hspace : tag_edit_edit 0 one no_space [255] none = some (⟨[255],some [],true,[73]⟩,false,false) := rfl
  have hcreate : tag_edit_edit 0 one no_create [255] none = some (⟨[255],none,true,[73]⟩,false,false) := rfl
  exact ⟨no_trace_iff (hmoves rfl) hspace,no_trace_iff (hmoves rfl) hcreate,fun h => nomatch h.2.2⟩

/-- The file that could not be written is left behind. -/
theorem no_space_fails :
    tag_edit_edit 0 one no_space [255] none = some (⟨[255],some [],true,[73]⟩,false,false) ∧
    ¬ NoTrace [255] ⟨[255],some [],true,[73]⟩ := ⟨rfl,fun h => nomatch h.2.1⟩

/-! ## The audio -/

theorem readat_some {n cap off : Nat} {file : Bytes} (hn : cap ≤ n) :
    readat (some n) file off cap = some ((file.drop off).take cap) := by
  rw [readat,Option.map_some,Nat.min_eq_right hn]

theorem writeat_some {n : Nat} {pre old post data : Bytes} (hn : data.length ≤ n)
    (hold : old.length = data.length ∨ post = [] ∧ old.length ≤ data.length) :
    writeat (some n) (pre ++ old ++ post) pre.length data = some (pre ++ data ++ post,data.length) := by
  have hpad : pre.length - (pre ++ old ++ post).length = 0 := by
    rw [List.length_append,List.length_append]
    omega
  have hdrop : (pre ++ old ++ post).drop (pre.length + data.length) = post := by
    rcases hold with hlen | ⟨rfl,hlen⟩
    · rw [← hlen,← List.length_append,List.drop_left]
    · rw [List.append_nil]
      exact List.drop_of_length_le (by rw [List.length_append]; omega)
  rw [writeat,Option.map_some,Nat.min_eq_right hn,hpad,List.take_of_length_le hn,hdrop,List.append_assoc pre,
    List.take_left,List.replicate_zero,List.append_nil]

/-- The calls of `file_copydata()`: a read gives something, and a write takes all. -/
structure CopyFull (env : Env) : Prop where
  read : ∀ i n, env (.copy_read i) = some n → 0 < n
  write : ∀ i n, env (.copy_write i) = some n → copy_cap ≤ n

/-- `file_copydata()` returns, and with `0` only if all was copied. -/
theorem copy_returns (henv : CopyFull env) (src : Bytes) (c : Copy) (hsrc : c.offsrc + c.size ≤ src.length)
    (hdst : c.dst.length = c.offdst) :
    ∃ r, Returns (copy_step env src) c r ∧
      (r.2 = true → r.1 = c.dst ++ (src.drop c.offsrc).take c.size) := by
  obtain ⟨i,offsrc,offdst,size,dst⟩ := c
  dsimp only at *
  induction size using Nat.strongRecOn generalizing i offsrc offdst dst with
  | ind size ih =>
    by_cases hzero : size = 0
    · refine ⟨(dst,true),Returns.ends (by rw [copy_step,if_pos hzero]),fun _ => ?_⟩
      rw [hzero,List.take_zero,List.append_nil]
    cases hread : env (.copy_read i) with
    | none =>
      refine ⟨(dst,false),Returns.ends ?_,nofun⟩
      simp only [copy_step,if_neg hzero,hread,readat,Option.map_none]
    | some n =>
      cases hwrite : env (.copy_write i) with
      | none =>
        refine ⟨(dst,false),Returns.ends ?_,nofun⟩
        simp only [copy_step,if_neg hzero,hread,hwrite,readat,writeat,Option.map_none,Option.map_some]
      | some m =>
        have hn := henv.read i n hread
        have hm := henv.write i m hwrite
        have hcap : 0 < copy_cap := by decide
        generalize hdata : (src.drop offsrc).take (min n (min size copy_cap)) = data
        have hlen : data.length = min n (min size copy_cap) := by
          rw [← hdata,List.length_take,List.length_drop]
          omega
        have hput : writeat (some m) dst offdst data = some (dst ++ data,data.length) := by
          have hend : writeat (some m) (dst ++ [] ++ []) dst.length data = some (dst ++ data ++ [],data.length) :=
            writeat_some (by omega) (.inr ⟨rfl,Nat.zero_le _⟩)
          rwa [List.append_nil,List.append_nil,List.append_nil,hdst] at hend
        have hstep : copy_step env src ⟨i,offsrc,offdst,size,dst⟩ =
            .inl ⟨i + 1,offsrc + data.length,offdst + data.length,size - data.length,dst ++ data⟩ := by
          simp only [copy_step,if_neg hzero,hread,hwrite,readat,Option.map_some,hdata,hput]
        obtain ⟨r,hr,hall⟩ := ih (size - data.length) (by omega) (i + 1) (offsrc + data.length)
          (offdst + data.length) (dst ++ data) (by omega) (by rw [List.length_append,hdst])
        refine ⟨r,Fuel.Reaches.goes hstep _ hr,fun h => ?_⟩
        have htake : data = (src.drop offsrc).take data.length := by
          rw [hlen,hdata]
        have hsplit : (src.drop offsrc).take size =
            (src.drop offsrc).take data.length ++ ((src.drop offsrc).drop data.length).take (size - data.length) := by
          rw [← List.take_add,Nat.add_sub_cancel' (by omega)]
        rw [hall h,hsplit,← htake,List.drop_drop,List.append_assoc]

/-- A tag is as long as what was written and the padding, and an ID3v1 tag has its size. -/
structure Faithful (tags : Tags) : Prop where
  finish : ∀ w padding new, tags.finish w padding = some new → new.length = w.length + padding
  v1_new : ∀ data, (tags.v1_new data).length = 128

/-- The parts of the file. -/
structure Mp3 (tags : Tags) (orig tag2 audio tag1 : Bytes) : Prop where
  eq : orig = tag2 ++ audio ++ tag1
  size : tags.size (orig.take 1024) = tag2.length
  v1 : tag1 = [] ∨ tag1.length = 128 ∧ tags.v1 tag1 = true

/-- The calls read what is there, and write all, and the new file gets its name. -/
structure Full (tags : Tags) (env : Env) (orig : Bytes) : Prop extends CopyFull env where
  first : ∀ n, env .read = some n → 1024 ≤ n
  old : ∀ n, env .read_v1 = some n → 128 ≤ n
  inplace : ∀ r n, id3v2_new tags env orig = some r → env .write = some n → r.2.length ≤ n
  moved : ∀ r n, id3v2_new tags env orig = some r → env .write_new = some n → r.2.length ≤ n
  new : ∀ n, env .write_v1 = some n → 128 ≤ n
  rename : ∀ r, id3v2_new tags env orig = some r → r.1 < r.2.length → env .rename ≠ none

/-- The contents of the file that the old ID3v1 tag is looked for in. -/
def edited (tag2 audio tag1 new : Bytes) : Bytes :=
  (if new.length ≤ tag2.length then new else tag2) ++ audio ++ tag1

/-- The bytes that the old ID3v1 tag is looked for in. -/
def looked_at (tag2 audio tag1 new : Bytes) : Bytes :=
  let file := edited tag2 audio tag1 new
  if 0 < file.length - 128 then file.drop (file.length - 128) else new

/-- An old ID3v1 tag is not all there is, and nothing else is taken for one. -/
def Distinct (tags : Tags) (tag2 audio tag1 new : Bytes) : Prop :=
  if tag1 = [] then tags.v1 (looked_at tag2 audio tag1 new) = false
  else 0 < (edited tag2 audio tag1 new).length - 128

theorem looked_at_tag {tag2 audio tag1 new : Bytes} (hlen : tag1.length = 128)
    (hpos : 0 < (edited tag2 audio tag1 new).length - 128) : looked_at tag2 audio tag1 new = tag1 := by
  have hoff : (edited tag2 audio tag1 new).length - 128 =
      ((if new.length ≤ tag2.length then new else tag2) ++ audio).length := by
    rw [edited,List.length_append,hlen,Nat.add_sub_cancel]
  rw [looked_at,if_pos hpos,hoff,edited,List.drop_left]

variable {tag2 audio tag1 : Bytes}

theorem new_size (hf : Faithful tags) (hm : Mp3 tags orig tag2 audio tag1) (henv : Full tags env orig)
    {r : Nat × Bytes} (h : id3v2_new tags env orig = some r) :
    r.1 = tag2.length ∧ (r.2.length ≤ tag2.length → r.2.length = tag2.length) := by
  unfold id3v2_new at h
  cases hread : env .read with
  | none =>
    rw [hread] at h
    cases h
  | some n =>
    rw [hread,readat_some (henv.first n hread),List.drop_zero] at h
    simp only [hm.size] at h
    split at h
    · cases h
    · rename_i w hw
      obtain ⟨new,hnew,rfl⟩ := Option.map_eq_some_iff.mp h
      have hlen := hf.finish _ _ _ hnew
      refine ⟨rfl,fun hle => ?_⟩
      dsimp only at hle ⊢
      split at hlen <;> omega

theorem new_written (henv : Full tags env orig) {r : Nat × Bytes} (h : id3v2_new tags env orig = some r) :
    writeat (env .write_new) [] 0 r.2 = none ∨ writeat (env .write_new) [] 0 r.2 = some (r.2,r.2.length) := by
  cases hwrite : env .write_new with
  | none => exact .inl rfl
  | some n =>
    have hput : writeat (some n) ([] ++ [] ++ []) ([] : Bytes).length r.2 =
        some ([] ++ r.2 ++ [],r.2.length) :=
      writeat_some (henv.moved _ n h hwrite) (.inr ⟨rfl,Nat.zero_le _⟩)
    simp only [List.nil_append,List.append_nil,List.length_nil] at hput
    exact .inr hput

theorem id3v2_right (hf : Faithful tags) (hm : Mp3 tags orig tag2 audio tag1) (henv : Full tags env orig)
    (h : mp3_id3v2 fuel tags env ⟨orig,temp,false,[]⟩ = some (t,true)) :
    ∃ r, id3v2_new tags env orig = some r ∧ t.fdw = r.2 ++ audio ++ tag1 ∧ t.buf = r.2 ∧
      t.orig = edited tag2 audio tag1 r.2 := by
  unfold mp3_id3v2 at h
  cases hnew : id3v2_new tags env orig with
  | none =>
    simp only [hnew] at h
    cases h
  | some r =>
    obtain ⟨size,new⟩ := r
    obtain ⟨hsize,hfit⟩ := new_size hf hm henv hnew
    dsimp only at hsize hfit
    subst hsize
    simp only [hnew] at h
    by_cases hle : new.length ≤ tag2.length
    · rw [if_pos hle] at h
      cases hwrite : env .write with
      | none =>
        rw [hwrite] at h
        cases h
      | some n =>
        have hput : writeat (some n) ([] ++ tag2 ++ (audio ++ tag1)) ([] : Bytes).length new =
            some ([] ++ new ++ (audio ++ tag1),new.length) :=
          writeat_some (henv.inplace _ n hnew hwrite) (.inl (hfit hle).symm)
        simp only [List.nil_append,List.length_nil] at hput
        rw [hwrite,hm.eq,List.append_assoc,hput] at h
        cases h
        refine ⟨_,rfl,?_,rfl,?_⟩
        · rw [List.append_assoc]
          rfl
        · rw [edited,if_pos hle,List.append_assoc]
    · rw [if_neg hle] at h
      split at h
      · cases h
      · rcases new_written henv hnew with hput | hput
        · rw [hput] at h
          cases h
        · have hlen : tag2.length ≤ orig.length := by
            rw [hm.eq,List.append_assoc,List.length_append]
            omega
          rw [hput] at h
          simp only [if_pos hlen] at h
          obtain ⟨c,hc,heq⟩ := Option.map_eq_some_iff.mp h
          obtain ⟨rfl,hok⟩ := Prod.mk.inj heq
          obtain ⟨c',hret,hall⟩ := copy_returns henv.toCopyFull orig
            ⟨0,tag2.length,new.length,orig.length - tag2.length,new⟩ (by dsimp only; omega) rfl
          obtain rfl := Returns.unique ⟨fuel,hc⟩ hret
          have htail : (orig.drop tag2.length).take (orig.length - tag2.length) = audio ++ tag1 := by
            rw [List.take_of_length_le (Nat.le_of_eq List.length_drop),hm.eq,List.append_assoc,List.drop_left]
          refine ⟨_,rfl,?_,rfl,?_⟩
          · rw [Edit.fdw,if_pos rfl,Option.getD_some,hall hok,htail,List.append_assoc]
          · rw [edited,if_neg hle]
            exact hm.eq

theorem v1_right (hf : Faithful tags) (hm : Mp3 tags orig tag2 audio tag1) (henv : Full tags env orig)
    {new : Bytes} (hd : Distinct tags tag2 audio tag1 new) (hfdw : t.fdw = new ++ audio ++ tag1)
    (hbuf : t.buf = new) (horig : t.orig = edited tag2 audio tag1 new) {e : Edit}
    (h : mp3_id3v1 tags env t = (e,true)) :
    e = t.put (new ++ audio ++ tags.v1_new (looked_at tag2 audio tag1 new)) := by
  cases hold : id3v1_old env t with
  | none =>
    rw [v1_none hold] at h
    cases h
  | some data =>
    rw [v1_some hold] at h
    have hnew := hf.v1_new data
    cases hwrite : env .write_v1 with
    | none =>
      rw [hwrite] at h
      cases h
    | some n =>
      have hn := henv.new n hwrite
      -- the bytes that are looked at
      have hdata : data = looked_at tag2 audio tag1 new := by
        unfold id3v1_old at hold
        rw [horig,hbuf] at hold
        rw [looked_at]
        split at hold
        · rename_i hpos
          rw [if_pos hpos]
          cases hread : env .read_v1 with
          | none =>
            rw [hread] at hold
            cases hold
          | some k =>
            rw [hread,readat_some (henv.old k hread)] at hold
            obtain rfl := Option.some.inj hold
            exact List.take_of_length_le (by rw [List.length_drop]; omega)
        · rename_i hpos
          rw [if_neg hpos]
          exact (Option.some.inj hold).symm
      have hput : writeat (some n) t.fdw (id3v1_off tags t data) (tags.v1_new data) =
          some (new ++ audio ++ tags.v1_new data,128) := by
        unfold Distinct at hd
        rcases hm.v1 with rfl | ⟨hlen,hv1⟩
        · rw [if_pos rfl,← hdata] at hd
          have hend : writeat (some n) (new ++ audio ++ [] ++ []) (new ++ audio).length (tags.v1_new data) =
              some (new ++ audio ++ tags.v1_new data ++ [],(tags.v1_new data).length) :=
            writeat_some (by omega) (.inr ⟨rfl,Nat.zero_le _⟩)
          rw [id3v1_off,hd,hfdw,if_neg Bool.false_ne_true]
          simpa only [List.append_nil,hnew] using hend
        · have hne : tag1 ≠ [] := fun h => by
            rw [h] at hlen
            cases hlen
          rw [if_neg hne] at hd
          have htag : data = tag1 := hdata.trans (looked_at_tag hlen hd)
          have hend : writeat (some n) (new ++ audio ++ tag1 ++ []) (new ++ audio).length (tags.v1_new data) =
              some (new ++ audio ++ tags.v1_new data ++ [],(tags.v1_new data).length) :=
            writeat_some (by omega) (.inl (by omega))
          have hoff : (new ++ audio ++ tag1).length - 128 = (new ++ audio).length := by
            rw [List.length_append,hlen,Nat.add_sub_cancel]
          rw [id3v1_off,hfdw,htag,hv1,if_pos rfl,hoff]
          rw [htag] at hend
          simpa only [List.append_nil,hf.v1_new] using hend
      rw [hwrite,hput] at h
      rw [← hdata]
      exact (Prod.mk.inj h).1.symm

theorem put_fdw (t : Edit) (file : Bytes) : (t.put file).fdw = file ∧ (t.put file).moved = t.moved := by
  unfold Edit.put Edit.fdw
  cases t.moved <;> simp

/-- An edit in a new file is one whose tag has no room in the old one. -/
theorem moved_iff {e : Edit} (h : mp3_id3v2 fuel tags env ⟨orig,temp,false,[]⟩ = some (e,true)) {r : Nat × Bytes}
    (hnew : id3v2_new tags env orig = some r) : e.moved = true → r.1 < r.2.length := by
  unfold mp3_id3v2 at h
  simp only [hnew] at h
  intro hmoved
  by_contra hle
  rw [if_pos (Nat.not_lt.mp hle)] at h
  split at h <;> cases h
  cases hmoved

/-- In every edit whose calls read what is there, write all and give the new file its name, `file_copydata()`
returns, the edit ends, and a success leaves the new tag, the audio as it was, and one ID3v1 tag, which is
written over the old one. -/
theorem audio_kept (hf : Faithful tags) (hm : Mp3 tags orig tag2 audio tag1) (henv : Full tags env orig)
    (hd : ∀ r, id3v2_new tags env orig = some r → Distinct tags tag2 audio tag1 r.2) :
    (∀ (src dst : Bytes) (offsrc size : Nat), offsrc + size ≤ src.length →
      ∃ fuel r, file_copydata fuel env src offsrc dst dst.length size = some r ∧
        (r.2 = true → r.1 = dst ++ (src.drop offsrc).take size)) ∧
    (∃ fuel, (tag_edit_edit fuel tags env orig temp).isSome) ∧
    ∀ fuel e done, tag_edit_edit fuel tags env orig temp = some (e,true,done) → done = true ∧
      ∃ r data, id3v2_new tags env orig = some r ∧ e.orig = r.2 ++ audio ++ tags.v1_new data ∧
        (tag1 ≠ [] → data = tag1) ∧ (tag1 = [] → tags.v1 data = false) := by
  have hcopy (src dst : Bytes) (offsrc size : Nat) (hsrc : offsrc + size ≤ src.length) :
      ∃ fuel r, file_copydata fuel env src offsrc dst dst.length size = some r ∧
        (r.2 = true → r.1 = dst ++ (src.drop offsrc).take size) := by
    obtain ⟨r,⟨fuel,hr⟩,hall⟩ := copy_returns henv.toCopyFull src ⟨0,offsrc,dst.length,size,dst⟩ hsrc rfl
    exact ⟨fuel,r,hr,hall⟩
  refine ⟨hcopy,?_,fun fuel e done h => ?_⟩
  · obtain ⟨fuel,h⟩ : ∃ fuel, (mp3_id3v2 fuel tags env ⟨orig,temp,false,[]⟩).isSome := by
      cases hnew : id3v2_new tags env orig with
      | none => exact ⟨0,by simp only [mp3_id3v2,hnew,Option.isSome_some]⟩
      | some r =>
        have hwrite := new_written henv hnew
        obtain ⟨size,new⟩ := r
        obtain rfl := (new_size hf hm henv hnew).1
        have hlen : tag2.length ≤ orig.length := by
          rw [hm.eq,List.append_assoc,List.length_append]
          omega
        obtain ⟨fuel,r,hr,-⟩ := hcopy orig new tag2.length (orig.length - tag2.length) (by omega)
        refine ⟨fuel,?_⟩
        simp only [mp3_id3v2,hnew]
        split
        · split <;> rfl
        · split
          · rfl
          · rcases hwrite with hnone | hsome
            · rw [hnone]
              rfl
            · rw [hsome]
              simp only [hr]
              rfl
    refine ⟨fuel,?_⟩
    unfold tag_edit_edit tag_edit_process
    cases env .start with
    | none => rfl
    | some _ => simpa using h
  · obtain ⟨⟨u,ok⟩,hr,hboth⟩ := Option.map_eq_some_iff.mp h
    simp only [Prod.mk.injEq] at hboth
    obtain ⟨hfile,rfl,hdone⟩ := hboth
    unfold tag_edit_process at hr
    split at hr
    · cases hr
    · obtain ⟨⟨t,ok⟩,ht,hr⟩ := Option.map_eq_some_iff.mp hr
      cases ok with
      | false => cases hr
      | true =>
        obtain ⟨new,hnew,hfdw,hbuf,horig⟩ := id3v2_right hf hm henv ht
        dsimp only at hr
        rw [if_pos rfl] at hr
        have hu := v1_right hf hm henv (hd new hnew) hfdw hbuf horig hr
        obtain ⟨hput,hmoved⟩ := put_fdw t (new.2 ++ audio ++ tags.v1_new (looked_at tag2 audio tag1 new.2))
        rw [← hu] at hput hmoved
        -- a file that was moved gets its name
        have hclose : tag_edit_close env (u,true) = ((tag_edit_close env (u,true)).1,true) ∧
            (tag_edit_close env (u,true)).1.orig = u.fdw := by
          unfold tag_edit_close Edit.fdw
          cases hum : u.moved with
          | false => simp
          | true =>
            have hname := henv.rename new hnew (moved_iff ht hnew (hmoved.symm.trans hum))
            cases hren : env .rename with
            | none => exact absurd hren hname
            | some _ => simp
        rw [hclose.1] at hdone
        rw [← hfile,hclose.2,hput]
        refine ⟨hdone.symm,new,_,hnew,rfl,fun hne => ?_,fun hnil => ?_⟩
        · have hpos := hd new hnew
          rw [Distinct,if_neg hne] at hpos
          exact looked_at_tag (hm.v1.resolve_left hne).1 hpos
        · have hold := hd new hnew
          rwa [Distinct,if_pos hnil] at hold

/-- Tags of which the first byte is 73 and the old one has 4 bytes; the new one has 5 bytes before its padding. -/
def four : Tags where
  size buf := if buf.head? = some 73 then 4 else 0
  build _ := some [73,0,0,0,0]
  finish w padding := some (w ++ List.replicate padding 0)
  v1 data := data.take 3 = [84,65,71]
  v1_new data := 84 :: 65 :: 71 :: data.getD 3 0 :: List.replicate 124 0

/-- A file with both tags. -/
def both_tags : Bytes := [73,68,51,0] ++ [255,251] ++ (84 :: 65 :: 71 :: 77 :: List.replicate 124 1)

theorem audio_kept_four : ∃ e new, id3v2_new four (fun _ => some (2 ^ 31)) both_tags = some (4,new) ∧
    new.length = 1000 ∧ tag_edit_edit 2 four (fun _ => some (2 ^ 31)) both_tags none = some (e,true,true) ∧
    e.orig = new ++ [255,251] ++ (84 :: 65 :: 71 :: 77 :: List.replicate 124 0) := by
  have hnew : id3v2_new four (fun _ => some (2 ^ 31)) both_tags =
      some (4,[73,0,0,0,0] ++ List.replicate 995 0) := by
    decide +kernel
  have hf : Faithful four := by
    refine ⟨fun w padding new h => ?_,fun _ => rfl⟩
    rw [← Option.some.inj h,List.length_append,List.length_replicate]
  have hm : Mp3 four both_tags [73,68,51,0] [255,251] (84 :: 65 :: 71 :: 77 :: List.replicate 124 1) :=
    ⟨rfl,by decide +kernel,.inr ⟨by simp,by decide +kernel⟩⟩
  have hlen {r : Nat × Bytes} (h : id3v2_new four (fun _ => some (2 ^ 31)) both_tags = some r) :
      r.2.length ≤ 2 ^ 31 := by
    rw [hnew] at h
    rw [← Option.some.inj h]
    decide +kernel
  have henv : Full four (fun _ => some (2 ^ 31)) both_tags :=
    { read := fun _ n h => by rw [← Option.some.inj h]; decide
      write := fun _ n h => by rw [← Option.some.inj h]; decide
      first := fun n h => by rw [← Option.some.inj h]; decide
      old := fun n h => by rw [← Option.some.inj h]; decide
      inplace := fun r n h h' => by rw [← Option.some.inj h']; exact hlen h
      moved := fun r n h h' => by rw [← Option.some.inj h']; exact hlen h
      new := fun n h => by rw [← Option.some.inj h]; decide
      rename := fun _ _ _ => Option.some_ne_none _ }
  have hd : ∀ r, id3v2_new four (fun _ => some (2 ^ 31)) both_tags = some r → Distinct four [73,68,51,0]
      [255,251] (84 :: 65 :: 71 :: 77 :: List.replicate 124 1) r.2 := by
    intro r h
    rw [hnew] at h
    rw [← Option.some.inj h,Distinct]
    decide +kernel
  obtain ⟨e,he⟩ : ∃ e, tag_edit_edit 2 four (fun _ => some (2 ^ 31)) both_tags none = some (e,true,true) := by
    have hsome : (tag_edit_edit 2 four (fun _ => some (2 ^ 31)) both_tags none).map Prod.snd =
        some (true,true) := by decide +kernel
    obtain ⟨⟨e,r⟩,he,rfl⟩ := Option.map_eq_some_iff.mp hsome
    exact ⟨e,he⟩
  obtain ⟨-,r,data,hr,horig,hdata,-⟩ :=
    (audio_kept hf hm henv hd).2.2 2 e true he
  obtain rfl := Option.some.inj (hnew.symm.trans hr)
  rw [hdata (List.cons_ne_nil _ _)] at horig
  exact ⟨e,_,hnew,by rw [List.length_append,List.length_replicate]; rfl,he,horig⟩

/-- The new file cannot be renamed. -/
def no_rename : Env := fun op => match op with
  | .rename => none
  | _ => some (2 ^ 31)

/-- From a file that is shorter than expected nothing more can be read, and the loop goes on. An edit returns `0`
also when its file does not get its name and the old one stays. -/
theorem copy_short_fails : (¬∃ fuel r, file_copydata fuel (fun _ => some 1) [] 0 [] 0 1 = some r) ∧
    ∃ e, tag_edit_edit 2 one no_rename [255] none = some (e,true,false) ∧ e.orig = [255] := by
  have hloop (fuel i : Nat) : loop (copy_step (fun _ => some 1) []) fuel ⟨i,0,0,1,[]⟩ = none := by
    induction fuel generalizing i with
    | zero => rfl
    | succ fuel ih => exact ih (i + 1)
  refine ⟨?_,_,rfl,rfl⟩
  rintro ⟨fuel,r,hr⟩
  cases (hloop fuel 0).symm.trans hr

end Phiola.TagEdit
