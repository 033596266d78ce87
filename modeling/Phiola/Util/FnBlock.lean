import Mathlib.Algebra.Group.Nat.Defs
import Phiola.Framework.Memory

/-!
# Blocks of a tree of file names

The bytes of a block: a header, the path, and entries that are found one after another by their lengths.
-/

namespace Phiola.FnBlock

open Memory

/-- `ffint_align_ceil2()` -/
def align_ceil2 (n align : Nat) : Nat := (n + align - 1) / align * align

/-- `struct fntree_block` with its bytes; the header takes 16 of them, and the path follows. -/
structure Block where
  cap : Nat
  size : Nat
  path_len : Nat
  entries : Nat
  mem : Mem UInt8

/-- The length of the name of the entry at an offset. -/
def Block.name_len (b : Block) (e : Nat) : Nat :=
  (b.mem 0 (e + 8)).toNat + 256 * (b.mem 0 (e + 9)).toNat

def Block.data_len (b : Block) (e : Nat) : Nat := (b.mem 0 (e + 10)).toNat

def fntree_name (b : Block) (e : Nat) : List UInt8 := b.mem.load ⟨0,e + 11⟩ (b.name_len e)

def _fntr_ent_size (name_len data_len : Nat) : Nat := align_ceil2 (11 + 1 + name_len + data_len) 8

def _fntr_ent_first (b : Block) : Nat := 16 + align_ceil2 (b.path_len + 1) 8

def _fntr_ent_next (b : Block) (e : Nat) : Nat := e + align_ceil2 (11 + 1 + b.name_len e + b.data_len e) 8

/-- The next entry after the cursor's. -/
def fntree_cur_next (b : Block) (cur : Option Nat) : Option Nat :=
  let e := cur.elim (_fntr_ent_first b) (_fntr_ent_next b)
  if e = b.size then none else some e

/-- Places that are written, each an offset and a number of bytes. -/
abbrev Written := List (Nat × Nat)

/-- The block comes with what is written. -/
def fntree_create (path : List UInt8) (mem : Mem UInt8) : Block × Written :=
  let cap := align_ceil2 (max (path.length + 1) 512 % 2 ^ 32) 512 % 2 ^ 32
  let path_len := path.length % 2 ^ 32
  (⟨cap,align_ceil2 (16 + path_len + 1) 8 % 2 ^ 32,path_len,0,mem.store ⟨0,16⟩ (path ++ [0])⟩,
    [(0,16),(16,path.length),(16 + path.length,1)])

/-- `none` is for a name or data that is not accepted. -/
def fntree_add (b : Block) (name : List UInt8) (data_len : Nat) : Option (Block × Written) :=
  if 0xffff < name.length ∨ 255 < data_len then none
  else
    let newsize := (b.size + _fntr_ent_size name.length data_len) % 2 ^ 32
    let cap := if b.cap < newsize then b.cap * 2 % 2 ^ 32 else b.cap
    let e := b.size
    let head : List UInt8 := List.replicate 8 0 ++
      [UInt8.ofNat name.length,UInt8.ofNat (name.length / 256),UInt8.ofNat data_len]
    some (⟨cap,newsize,b.path_len,b.entries + 1,b.mem.store ⟨0,e⟩ (head ++ name)⟩,
      [(e,11),(e + 11,name.length),(0,16)])

/-- The entries after the cursor's have these names, and then there is none. -/
def Walks (b : Block) (cur : Option Nat) : List (List UInt8) → Prop
  | [] => fntree_cur_next b cur = none
  | name :: names => ∃ e, fntree_cur_next b cur = some e ∧ fntree_name b e = name ∧ Walks b (some e) names

/-- What is expected of a block with these names. -/
def Fine (names : List (List UInt8)) (r : Block × Written) : Prop :=
  r.1.size ≤ r.1.cap ∧ (∀ w ∈ r.2, w.1 + w.2 ≤ r.1.cap) ∧ Walks r.1 none names

/-- It is so after every call. -/
def FineAfter (b : Block) (names : List (List UInt8)) : List (List UInt8 × Nat) → Prop
  | [] => True
  | (name,data_len) :: calls =>
    match fntree_add b name data_len with
    | none => FineAfter b names calls
    | some r => Fine (names ++ [name]) r ∧ FineAfter r.1 (names ++ [name]) calls

/-- There is room for every entry, at most after the space was doubled once. -/
def Room (cap size : Nat) : List (List UInt8 × Nat) → Prop
  | [] => True
  | (name,data_len) :: calls =>
    if 0xffff < name.length ∨ 255 < data_len then Room cap size calls
    else
      let newsize := size + _fntr_ent_size name.length data_len
      if newsize ≤ cap then Room cap newsize calls
      else newsize ≤ cap * 2 ∧ cap * 2 < 2 ^ 32 ∧ Room (cap * 2) newsize calls

instance decidableRoom : ∀ (cap size : Nat) (calls : List (List UInt8 × Nat)), Decidable (Room cap size calls)
  | _,_,[] => isTrue trivial
  | cap,size,(name,data_len) :: calls =>
    let newsize := size + _fntr_ent_size name.length data_len
    have := decidableRoom cap size calls
    have := decidableRoom cap newsize calls
    have := decidableRoom (cap * 2) newsize calls
    decidable_of_iff (if 0xffff < name.length ∨ 255 < data_len then Room cap size calls
      else if newsize ≤ cap then Room cap newsize calls
      else newsize ≤ cap * 2 ∧ cap * 2 < 2 ^ 32 ∧ Room (cap * 2) newsize calls) (Iff.of_eq (by rw [Room]))

/-! ## The walk -/

/-- The entries from an offset on have these names, up to the end. -/
def Entries (b : Block) (e : Nat) : List (List UInt8) → Prop
  | [] => e = b.size
  | name :: names => e < b.size ∧ fntree_name b e = name ∧ Entries b (_fntr_ent_next b e) names

theorem walks_of_entries {b : Block} {cur : Option Nat} {names : List (List UInt8)}
    (h : Entries b (cur.elim (_fntr_ent_first b) (_fntr_ent_next b)) names) : Walks b cur names := by
  induction names generalizing cur with
  | nil => exact if_pos h
  | cons name names ih =>
    obtain ⟨hlt,hname,hrest⟩ := h
    exact ⟨_,if_neg (Nat.ne_of_lt hlt),hname,ih hrest⟩

theorem Entries.le {b : Block} {e : Nat} {names : List (List UInt8)} (h : Entries b e names) : e ≤ b.size := by
  cases names with
  | nil => exact Nat.le_of_eq h
  | cons name names => exact Nat.le_of_lt h.1

theorem le_align (n : Nat) : n ≤ align_ceil2 n 8 ∧ align_ceil2 n 8 < n + 8 ∧ align_ceil2 n 8 % 8 = 0 := by
  unfold align_ceil2
  omega

theorem Entries.snoc {b b' : Block} {e : Nat} {name : List UInt8} {names : List (List UInt8)}
    (h : Entries b e names) (hsame : ∀ o < b.size, b'.mem 0 o = b.mem 0 o) (hsize : b.size < b'.size)
    (hname : fntree_name b' b.size = name) (hnext : _fntr_ent_next b' b.size = b'.size) :
    Entries b' e (names ++ [name]) := by
  induction names generalizing e with
  | nil =>
    rw [show e = b.size from h]
    exact ⟨hsize,hname,hnext⟩
  | cons n names ih =>
    obtain ⟨hlt,hn,hrest⟩ := h
    have hin : e + (12 + b.name_len e + b.data_len e) ≤ b.size :=
      Nat.le_trans (Nat.add_le_add_left (by have := (le_align (11 + 1 + b.name_len e + b.data_len e)).1; omega) e)
        (show e + align_ceil2 (11 + 1 + b.name_len e + b.data_len e) 8 ≤ b.size from hrest.le)
    have hlen : b'.name_len e = b.name_len e := by
      rw [Block.name_len,Block.name_len,hsame _ (by omega),hsame _ (by omega)]
    have hdata : b'.data_len e = b.data_len e := by
      rw [Block.data_len,Block.data_len,hsame _ (by omega)]
    refine ⟨Nat.lt_trans hlt hsize,?_,?_⟩
    · rw [← hn,fntree_name,fntree_name,hlen]
      exact load_congr fun k hk => hsame _ (by dsimp only; omega)
    · rw [_fntr_ent_next,hlen,hdata]
      exact ih hrest

/-! ## Adding an entry -/

/-- What is kept from call to call. -/
structure Inv (b : Block) (names : List (List UInt8)) : Prop where
  le : b.size ≤ b.cap
  cap : b.cap < 2 ^ 32
  head : 16 ≤ b.size
  entries : Entries b (_fntr_ent_first b) names

theorem store_before {m : Mem UInt8} {e o : Nat} (vs : List UInt8) (h : o < e) :
    m.store ⟨0,e⟩ vs 0 o = m 0 o := by
  unfold Mem.store
  rw [if_neg fun h' => absurd h'.2 (Nat.not_le.mpr h)]

theorem store_at {m : Mem UInt8} {e i : Nat} {vs : List UInt8} (h : i < vs.length) :
    m.store ⟨0,e⟩ vs 0 (e + i) = vs[i] := by
  unfold Mem.store
  rw [if_pos ⟨rfl,Nat.le_add_right ..⟩,Nat.add_sub_cancel_left,List.getElem?_eq_getElem h]
  rfl

theorem new_entry {b : Block} {e data_len : Nat} {name : List UInt8} {m : Mem UInt8}
    (hname : name.length ≤ 0xffff) (hdata : data_len ≤ 255)
    (hmem : b.mem = m.store ⟨0,e⟩ (List.replicate 8 0 ++
      [UInt8.ofNat name.length,UInt8.ofNat (name.length / 256),UInt8.ofNat data_len] ++ name)) :
    fntree_name b e = name ∧ _fntr_ent_next b e = e + _fntr_ent_size name.length data_len := by
  have hlen : b.name_len e = name.length := by
    rw [Block.name_len,hmem,store_at (by simp),store_at (by simp)]
    simp only [List.replicate_succ,List.replicate_zero,List.cons_append,List.nil_append,
      List.getElem_cons_succ,List.getElem_cons_zero,UInt8.toNat_ofNat']
    omega
  have hdlen : b.data_len e = data_len := by
    rw [Block.data_len,hmem,store_at (by simp)]
    simp only [List.replicate_succ,List.replicate_zero,List.cons_append,List.nil_append,
      List.getElem_cons_succ,List.getElem_cons_zero,UInt8.toNat_ofNat']
    omega
  constructor
  · rw [fntree_name,hlen,hmem]
    refine (load_store_part (i := 11) (k := name.length) (by simp; omega)).trans ?_
    rw [List.drop_append_of_le_length (by simp),List.drop_of_length_le (by simp),List.nil_append,
      List.take_length]
  · rw [_fntr_ent_next,hlen,hdlen]
    rfl

theorem add_fine {b : Block} {names : List (List UInt8)} {name : List UInt8} {data_len : Nat}
    (h : Inv b names) (hok : ¬(0xffff < name.length ∨ 255 < data_len))
    (hroom : b.size + _fntr_ent_size name.length data_len ≤ b.cap ∨
      b.size + _fntr_ent_size name.length data_len ≤ b.cap * 2 ∧ b.cap * 2 < 2 ^ 32) :
    ∃ r, fntree_add b name data_len = some r ∧ Fine (names ++ [name]) r ∧ Inv r.1 (names ++ [name]) ∧
      r.1.size = b.size + _fntr_ent_size name.length data_len ∧
      r.1.cap = if b.size + _fntr_ent_size name.length data_len ≤ b.cap then b.cap else b.cap * 2 := by
  obtain ⟨hle,hcap,hhead,hentries⟩ := h
  have hsize := le_align (11 + 1 + name.length + data_len)
  change _ ≤ _fntr_ent_size name.length data_len ∧ _fntr_ent_size name.length data_len < _ ∧ _ at hsize
  generalize hent : _fntr_ent_size name.length data_len = ent at *
  have hmod : (b.size + ent) % 2 ^ 32 = b.size + ent := Nat.mod_eq_of_lt (by omega)
  have hnew : (if b.cap < b.size + ent then b.cap * 2 % 2 ^ 32 else b.cap) =
      if b.size + ent ≤ b.cap then b.cap else b.cap * 2 := by
    split <;> split <;> omega
  have hfit : b.size + ent ≤ if b.size + ent ≤ b.cap then b.cap else b.cap * 2 := by
    split <;> omega
  have hadd : fntree_add b name data_len = some _ := if_neg hok
  simp only [hent,hmod,hnew] at hadd
  refine ⟨_,hadd,?_⟩
  obtain ⟨hname,hnext⟩ : fntree_name ⟨if b.size + ent ≤ b.cap then b.cap else b.cap * 2,b.size + ent,
      b.path_len,b.entries + 1,_⟩ b.size = name ∧ _fntr_ent_next _ b.size =
        b.size + _fntr_ent_size name.length data_len :=
    new_entry (m := b.mem) (by omega) (by omega) rfl
  rw [hent] at hnext
  have hall : Entries ⟨if b.size + ent ≤ b.cap then b.cap else b.cap * 2,b.size + ent,b.path_len,
      b.entries + 1,_⟩ (_fntr_ent_first b) (names ++ [name]) :=
    hentries.snoc (fun o ho => store_before _ ho) (by dsimp only; omega) hname hnext
  refine ⟨⟨hfit,?_,walks_of_entries hall⟩,⟨hfit,?_,by dsimp only; omega,hall⟩,rfl,rfl⟩
  · intro w hw
    simp only [List.mem_cons,List.not_mem_nil,or_false] at hw
    rcases hw with rfl | rfl | rfl <;> dsimp only <;> omega
  · dsimp only
    split <;> omega

/-- After every call the block is what is expected of it, if there is room for every entry. -/
theorem fine_after {b : Block} {names : List (List UInt8)} {calls : List (List UInt8 × Nat)}
    (h : Inv b names) (hroom : Room b.cap b.size calls) : FineAfter b names calls := by
  induction calls generalizing b names with
  | nil => trivial
  | cons call calls ih =>
    obtain ⟨name,data_len⟩ := call
    rw [Room] at hroom
    rw [FineAfter]
    by_cases hok : 0xffff < name.length ∨ 255 < data_len
    · rw [if_pos hok] at hroom
      have hadd : fntree_add b name data_len = none := if_pos hok
      rw [hadd]
      exact ih h hroom
    · rw [if_neg hok] at hroom
      dsimp only at hroom
      obtain ⟨r,hadd,hfine,hinv,hsize,hcap⟩ := add_fine h hok (by
        split at hroom
        · exact .inl ‹_›
        · exact .inr ⟨hroom.1,hroom.2.1⟩)
      rw [hadd]
      refine ⟨hfine,ih hinv ?_⟩
      rw [hsize,hcap]
      split at hroom
      · rwa [if_pos ‹_›]
      · rw [if_neg ‹_›]
        exact hroom.2.2

/-- From a path that its first space has room for, with room for every entry, the size is never more than the
space, what is written is in it, and the walk gives the names that were added. -/
theorem block_fine {path : List UInt8} {mem : Mem UInt8} {calls : List (List UInt8 × Nat)}
    (hpath : 16 + path.length + 1 ≤ align_ceil2 (max (path.length + 1) 512) 512)
    (hcap : align_ceil2 (max (path.length + 1) 512) 512 < 2 ^ 32)
    (hroom : Room (align_ceil2 (max (path.length + 1) 512) 512) (align_ceil2 (16 + path.length + 1) 8) calls) :
    Fine [] (fntree_create path mem) ∧ FineAfter (fntree_create path mem).1 [] calls := by
  have hmax : path.length + 1 ≤ max (path.length + 1) 512 := Nat.le_max_left ..
  have hsize := le_align (16 + path.length + 1)
  have halign : align_ceil2 (max (path.length + 1) 512) 512 % 8 = 0 ∧
      max (path.length + 1) 512 ≤ align_ceil2 (max (path.length + 1) 512) 512 := by
    unfold align_ceil2
    omega
  generalize hc : align_ceil2 (max (path.length + 1) 512) 512 = cap at *
  have hfirst : 16 + align_ceil2 (path.length + 1) 8 = align_ceil2 (16 + path.length + 1) 8 := by
    unfold align_ceil2
    omega
  have hcreate : fntree_create path mem =
      (⟨cap,align_ceil2 (16 + path.length + 1) 8,path.length,0,mem.store ⟨0,16⟩ (path ++ [0])⟩,
        [(0,16),(16,path.length),(16 + path.length,1)]) := by
    simp only [fntree_create]
    rw [Nat.mod_eq_of_lt (show max (path.length + 1) 512 < 2 ^ 32 by omega),hc,Nat.mod_eq_of_lt hcap,
      Nat.mod_eq_of_lt (show path.length < 2 ^ 32 by omega),Nat.mod_eq_of_lt (by omega)]
  rw [hcreate]
  have hinv : Inv ⟨cap,align_ceil2 (16 + path.length + 1) 8,path.length,0,
      mem.store ⟨0,16⟩ (path ++ [0])⟩ [] :=
    ⟨by dsimp only; omega,hcap,by dsimp only; omega,hfirst⟩
  refine ⟨⟨hinv.le,?_,walks_of_entries hinv.entries⟩,fine_after hinv hroom⟩
  intro w hw
  simp only [List.mem_cons,List.not_mem_nil,or_false] at hw
  rcases hw with rfl | rfl | rfl <;> dsimp only <;> omega

/-- The second name doubles the space. -/
def growing : List (List UInt8 × Nat) := [([97],0),(List.replicate 500 98,3),([99],0)]

theorem block_fine_two : (fntree_create [47] fun _ _ => 0).1.cap = 512 ∧
    Fine [] (fntree_create [47] fun _ _ => 0) ∧ FineAfter (fntree_create [47] fun _ _ => 0).1 [] growing :=
  ⟨rfl,block_fine (by decide) (by decide) (by simp [growing,Room,_fntr_ent_size,align_ceil2,-List.reduceReplicate])⟩

/-- A path of 500 bytes: the header does not count for the space. -/
theorem long_path_fails : ¬ Fine [] (fntree_create (List.replicate 500 47) fun _ _ => 0) :=
  fun h => absurd h.1 (by simp [fntree_create,align_ceil2,-List.reduceReplicate])

end Phiola.FnBlock
