import Mathlib.Data.List.Basic

/-!
# Memory of blocks

A pointer is a block and an offset in it. Stores that do not overlap can all be read back, in whatever
order they are made.
-/

namespace Phiola.Memory

/-- What holds of 256 numbers holds of every byte. -/
theorem byte_all {P : UInt8 → Bool} (h : ∀ i < 256, P (UInt8.ofNat i) = true) (b : UInt8) : P b = true := by
  have := h b.toNat b.toNat_lt
  rwa [UInt8.ofNat_toNat] at this

structure Ptr where
  block : Nat
  off : Nat
deriving DecidableEq, Repr

def Ptr.add (p : Ptr) (n : Nat) : Ptr := ⟨p.block,p.off + n⟩

abbrev Mem (V : Type) := Nat → Nat → V

structure Store (V : Type) where
  dst : Ptr
  bytes : List V

variable {V : Type}

def Mem.load (m : Mem V) (p : Ptr) (n : Nat) : List V :=
  (List.range n).map fun k => m p.block (p.off + k)

def Mem.store (m : Mem V) (p : Ptr) (vs : List V) : Mem V := fun b o =>
  if b = p.block ∧ p.off ≤ o then (vs[o - p.off]?).getD (m b o) else m b o

def Mem.stores (m : Mem V) (ws : List (Store V)) : Mem V :=
  ws.foldl (fun m w => m.store w.dst w.bytes) m

/-- `n` bytes at `p` and `k` bytes at `q` do not overlap. -/
def Apart (p : Ptr) (n : Nat) (q : Ptr) (k : Nat) : Prop :=
  p.block = q.block → p.off + n ≤ q.off ∨ q.off + k ≤ p.off

def Store.Apart (v w : Store V) : Prop := Memory.Apart v.dst v.bytes.length w.dst w.bytes.length

theorem Ptr.add_add (p : Ptr) (n k : Nat) : (p.add n).add k = p.add (n + k) := by
  simp [Ptr.add,Nat.add_assoc]

@[simp] theorem Ptr.add_zero (p : Ptr) : p.add 0 = p := rfl

theorem Apart.symm {p q : Ptr} {n k : Nat} (h : Apart p n q k) : Apart q k p n :=
  fun hb => (h hb.symm).symm

/-- Parts of what does not overlap do not overlap. -/
theorem Apart.part {p q : Ptr} {n k i j n' k' : Nat} (h : Apart p n q k) (hi : i + n' ≤ n)
    (hj : j + k' ≤ k) : Apart (p.add i) n' (q.add j) k' := fun hb => by
  have := h hb
  dsimp only [Ptr.add]
  omega

theorem apart_add {p : Ptr} {i j n k : Nat} (h : i + n ≤ j ∨ j + k ≤ i) :
    Apart (p.add i) n (p.add j) k := fun _ => by
  dsimp only [Ptr.add]
  omega

@[simp] theorem load_length (m : Mem V) (p : Ptr) (n : Nat) : (m.load p n).length = n := by
  simp [Mem.load]

theorem load_getElem? (m : Mem V) (p : Ptr) {n k : Nat} (h : k < n) :
    (m.load p n)[k]? = some (m p.block (p.off + k)) := by
  simp [Mem.load,h]

/-- A part of what is loaded is loaded from the part's place. -/
theorem load_part (m : Mem V) (p : Ptr) {n i k : Nat} (h : i + k ≤ n) :
    ((m.load p n).drop i).take k = m.load (p.add i) k := by
  apply List.ext_getElem?
  intro j
  by_cases hj : j < k
  · rw [List.getElem?_take_of_lt hj,List.getElem?_drop,load_getElem? m p (by omega),
      load_getElem? m _ hj]
    simp [Ptr.add,Nat.add_assoc]
  · rw [List.getElem?_take,if_neg hj,List.getElem?_eq_none (by rw [load_length]; omega)]

theorem load_congr {m m' : Mem V} {p : Ptr} {n : Nat}
    (h : ∀ k < n, m p.block (p.off + k) = m' p.block (p.off + k)) : m.load p n = m'.load p n :=
  List.map_congr_left fun k hk => h k (List.mem_range.mp hk)

theorem load_store_apart {m : Mem V} {p q : Ptr} {vs : List V} {n : Nat}
    (h : Apart p vs.length q n) : (m.store p vs).load q n = m.load q n := by
  refine load_congr fun k hk => ?_
  unfold Mem.store
  split
  · rename_i hb
    have := h hb.1.symm
    rw [List.getElem?_eq_none (by omega)]
    rfl
  · rfl

/-- What has been stored is loaded, also in part. -/
theorem load_store_part {m : Mem V} {p : Ptr} {vs : List V} {i k : Nat} (h : i + k ≤ vs.length) :
    (m.store p vs).load (p.add i) k = (vs.drop i).take k := by
  apply List.ext_getElem?
  intro j
  by_cases hj : j < k
  · rw [load_getElem? _ _ hj,List.getElem?_take_of_lt hj,List.getElem?_drop]
    have hoff : p.off + i + j - p.off = i + j := by omega
    dsimp only [Mem.store,Ptr.add]
    rw [if_pos ⟨rfl,by omega⟩,hoff,List.getElem?_eq_getElem (by omega)]
    rfl
  · rw [List.getElem?_take,if_neg hj,List.getElem?_eq_none (by rw [load_length]; omega)]

theorem stores_cons (m : Mem V) (w : Store V) (ws : List (Store V)) :
    m.stores (w :: ws) = (m.store w.dst w.bytes).stores ws := rfl

theorem load_stores_apart {m : Mem V} {ws : List (Store V)} {q : Ptr} {n : Nat}
    (h : ∀ w ∈ ws, Apart w.dst w.bytes.length q n) : (m.stores ws).load q n = m.load q n := by
  induction ws generalizing m with
  | nil => rfl
  | cons w ws ih =>
    rw [stores_cons,ih fun v hv => h v (List.mem_cons_of_mem w hv)]
    exact load_store_apart (h w List.mem_cons_self)

/-- With stores that do not overlap, each can be read back. -/
theorem load_stores_part {m : Mem V} {ws : List (Store V)} (hp : ws.Pairwise Store.Apart)
    {w : Store V} (hw : w ∈ ws) {i k : Nat} (h : i + k ≤ w.bytes.length) :
    (m.stores ws).load (w.dst.add i) k = (w.bytes.drop i).take k := by
  induction ws generalizing m with
  | nil => cases hw
  | cons v ws ih =>
    rw [List.pairwise_cons] at hp
    rcases List.mem_cons.mp hw with rfl | hw
    · rw [stores_cons,load_stores_apart fun u hu => ?_,load_store_part h]
      have hpart := (hp.1 u hu).symm.part (i := 0) (j := i) (Nat.le_of_eq (Nat.zero_add _)) h
      rwa [Ptr.add_zero] at hpart
    · exact ih hp.2 hw

theorem load_stores {m : Mem V} {ws : List (Store V)} (hp : ws.Pairwise Store.Apart)
    {w : Store V} (hw : w ∈ ws) : (m.stores ws).load w.dst w.bytes.length = w.bytes := by
  have := load_stores_part (m := m) hp hw (i := 0) (Nat.le_of_eq (Nat.zero_add _))
  rwa [Ptr.add_zero,List.drop_zero,List.take_length] at this

/-! ## Elements of several sequences -/

/-- The places of the elements `(c,i)` of several sequences, when no two overlap. -/
def Places (at_ : Nat → Nat → Ptr) (size n k : Nat) : Prop :=
  ∀ c < n, ∀ i < k, ∀ d < n, ∀ j < k, (c,i) ≠ (d,j) → Apart (at_ c i) size (at_ d j) size

theorem mul_add_le {i j : Nat} (h : i < j) (n : Nat) : i * n + n ≤ j * n := by
  rw [← Nat.succ_mul]
  exact Nat.mul_le_mul_right n h

/-- Sequences whose elements alternate do not overlap. -/
theorem places_alternate (p : Ptr) (size n k : Nat) :
    Places (fun c i => p.add ((i * n + c) * size)) size n k := by
  intro c hc i _ d hd j _ hne
  have hlt : i * n + c < j * n + d ∨ j * n + d < i * n + c := by
    rcases Nat.lt_trichotomy i j with hij | rfl | hij
    · have := mul_add_le hij n
      omega
    · have : c ≠ d := fun h => hne (by rw [h])
      omega
    · have := mul_add_le hij n
      omega
  exact apart_add (hlt.imp (mul_add_le · size) (mul_add_le · size))

/-- Sequences in regions that do not overlap do not overlap. -/
theorem places_apart {a : Nat → Ptr} {size n k : Nat}
    (h : ∀ c < n, ∀ d < n, c ≠ d → Apart (a c) (k * size) (a d) (k * size)) :
    Places (fun c i => (a c).add (i * size)) size n k := by
  intro c hc i hi d hd j hj hne
  by_cases hcd : c = d
  · subst hcd
    have hij : i ≠ j := fun h => hne (by rw [h])
    exact apart_add ((Nat.lt_or_gt_of_ne hij).imp (mul_add_le · size) (mul_add_le · size))
  · exact (h c hc d hd hcd).part (mul_add_le hi size) (mul_add_le hj size)

/-- The store of each element, sequence by sequence. -/
def fill (at_ : Nat → Nat → Ptr) (n k : Nat) (f : Nat → Nat → List V) : List (Store V) :=
  (List.range n).flatMap fun c => (List.range k).map fun i => ⟨at_ c i,f c i⟩

theorem mem_fill {at_ : Nat → Nat → Ptr} {n k : Nat} {f : Nat → Nat → List V} {w : Store V} :
    w ∈ fill at_ n k f ↔ ∃ c < n, ∃ i < k, w = ⟨at_ c i,f c i⟩ := by
  simp [fill,eq_comm]

theorem fill_apart {at_ : Nat → Nat → Ptr} {size n k : Nat} (h : Places at_ size n k)
    {f : Nat → Nat → List V} (hf : ∀ c i, (f c i).length = size) :
    (fill at_ n k f).Pairwise Store.Apart := by
  have hapart {c i d j : Nat} (hc : c < n) (hi : i < k) (hd : d < n) (hj : j < k)
      (hne : (c,i) ≠ (d,j)) : Store.Apart (⟨at_ c i,f c i⟩ : Store V) ⟨at_ d j,f d j⟩ := by
    unfold Store.Apart
    rw [hf,hf]
    exact h c hc i hi d hd j hj hne
  refine List.pairwise_flatMap.mpr ⟨fun c hc => List.pairwise_map.mpr ?_,?_⟩
  · refine List.Pairwise.imp_of_mem ?_ (List.nodup_range (n := k))
    intro i j hi hj hne
    exact hapart (List.mem_range.mp hc) (List.mem_range.mp hi) (List.mem_range.mp hc)
      (List.mem_range.mp hj) (by simpa using hne)
  · refine List.Pairwise.imp_of_mem ?_ (List.nodup_range (n := n))
    intro c d hc hd hne v hv w hw
    obtain ⟨i,hi,rfl⟩ := List.mem_map.mp hv
    obtain ⟨j,hj,rfl⟩ := List.mem_map.mp hw
    exact hapart (List.mem_range.mp hc) (List.mem_range.mp hi) (List.mem_range.mp hd)
      (List.mem_range.mp hj) (by simp [hne])

/-- After the stores each element is what was stored for it. -/
theorem load_fill {m : Mem V} {at_ : Nat → Nat → Ptr} {size n k : Nat} (h : Places at_ size n k)
    {f : Nat → Nat → List V} (hf : ∀ c i, (f c i).length = size) {c i : Nat} (hc : c < n)
    (hi : i < k) : (m.stores (fill at_ n k f)).load (at_ c i) size = f c i := by
  have := load_stores (m := m) (fill_apart h hf) (mem_fill.mpr ⟨c,hc,i,hi,rfl⟩)
  rwa [hf] at this

end Phiola.Memory
