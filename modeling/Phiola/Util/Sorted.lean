import Mathlib.Data.List.Basic
import Phiola.Framework.Fuel

/-!
# Sorted tables

`ffcharr_findsorted_padding()`, the binary search in a table of keys of fixed width, next to the index of
the key in the list of keys.
-/

namespace Phiola.Sorted

abbrev Bytes := List UInt8

/-! ## The search -/

/-- `ffmem_cmp(search, ptr, search_len)`: the difference of the first bytes that differ. -/
def ffmem_cmp : Bytes → Bytes → Int
  | a :: search,b :: ptr => if a = b then ffmem_cmp search ptr else a.toNat - b.toNat
  | _,_ => 0

/-- `r` for the element at `ptr`, where `ptr` is the memory from there; nothing when the byte that is looked
at is not there. -/
def cmp (elsize : Nat) (search ptr : Bytes) : Option Int :=
  let r := ffmem_cmp search ptr
  if r = 0 ∧ search.length ≠ elsize then
    ptr[search.length]?.map fun c => if c ≠ 0 then -1 else r
  else if search.length ≤ ptr.length then some r
  else none

/-- A round of the loop from `(start, n)`; it ends with what is returned, or with a read outside of the
table. -/
def round (ar : Bytes) (elsize padding : Nat) (search : Bytes) : Nat × Nat → (Nat × Nat) ⊕ Option Int
  | (start,n) =>
    if start = n then .inr (some (-1))
    else
      let i := start + (n - start) / 2
      match cmp elsize search (ar.drop (i * (elsize + padding))) with
      | none => .inr none
      | some r =>
        if r = 0 then .inr (some i)
        else if r < 0 then .inl (start,i)
        else .inl (i + 1,n)

/-- `ffcharr_findsorted_padding()` with at most so many rounds -/
def ffcharr_findsorted_padding (rounds : Nat) (ar : Bytes) (n elsize padding : Nat) (search : Bytes) :
    Option (Option Int) :=
  if search.length > elsize then some (some (-1))
  else Fuel.loop (round ar elsize padding search) rounds (0,n)

/-! ## The table -/

/-- A key with zeros up to the width, and what follows it. -/
def element (w : Nat) (e : Bytes × Bytes) : Bytes := e.1 ++ List.replicate (w - e.1.length) 0 ++ e.2

def table (w : Nat) (es : List (Bytes × Bytes)) : Bytes := (es.map (element w)).flatten

/-- The keys have no zero byte and fit, and what follows each has the length of the padding. -/
def Fits (w p : Nat) (es : List (Bytes × Bytes)) : Prop :=
  ∀ e ∈ es, 0 ∉ e.1 ∧ e.1.length ≤ w ∧ e.2.length = p

/-- Strictly sorted, in the order of the bytes. -/
def InOrder (es : List (Bytes × Bytes)) : Prop := (es.map Prod.fst).Pairwise (· < ·)

variable {w p : Nat} {es : List (Bytes × Bytes)} {e : Bytes × Bytes} {search text key rest ar : Bytes}

theorem element_length (h : e.1.length ≤ w) (hp : e.2.length = p) : (element w e).length = w + p := by
  simp only [element,List.length_append,List.length_replicate,hp]
  omega

theorem table_drop (hf : Fits w p es) {i : Nat} (hi : es[i]? = some e) :
    ∃ rest, (table w es).drop (i * (w + p)) = element w e ++ rest := by
  induction es generalizing i with
  | nil => simp at hi
  | cons d es ih =>
    have hd := hf d (List.mem_cons_self ..)
    have hlen := element_length hd.2.1 hd.2.2
    cases i with
    | zero =>
      obtain rfl : d = e := by simpa using hi
      exact ⟨table w es,by simp [table]⟩
    | succ i =>
      have hi' : es[i]? = some e := by simpa using hi
      obtain ⟨rest,hr⟩ := ih (fun x hx => hf x (List.mem_cons_of_mem _ hx)) hi'
      refine ⟨rest,?_⟩
      have hm : (i + 1) * (w + p) = (element w d).length + i * (w + p) := by
        rw [hlen,Nat.succ_mul,Nat.add_comm]
      rw [hm,table,List.map_cons,List.flatten_cons,List.drop_append,List.drop_eq_nil_of_le (by omega),
        List.nil_append,Nat.add_sub_cancel_left]
      exact hr

/-! ## One probe -/

/-- The sign of the comparison is the order of the text and the key. -/
def Agrees (text key : Bytes) (r : Int) : Prop :=
  (r = 0 ↔ text = key) ∧ (r < 0 ↔ text < key) ∧ (0 < r ↔ key < text)

theorem cmp_cons (w : Nat) (a : UInt8) (search ptr : Bytes) :
    cmp (w + 1) (a :: search) (a :: ptr) = cmp w search ptr := by
  simp [cmp,ffmem_cmp]

theorem agrees_cons {a : UInt8} {r : Int} (h : Agrees text key r) : Agrees (a :: text) (a :: key) r := by
  obtain ⟨h0,hl,hg⟩ := h
  refine ⟨?_,?_,?_⟩
  · rw [h0,List.cons.injEq]
    exact ⟨fun h => ⟨rfl,h⟩,fun h => h.2⟩
  · rw [hl,List.cons_lt_cons_iff]
    simp
  · rw [hg,List.cons_lt_cons_iff]
    simp

theorem cmp_differs {a b : UInt8} (h : a ≠ b) (w : Nat) (search ptr : Bytes)
    (hl : search.length ≤ ptr.length) :
    cmp w (a :: search) (b :: ptr) = some ((a.toNat : Int) - b.toNat) := by
  have hne : (a.toNat : Int) - b.toNat ≠ 0 := by
    intro h0
    apply h
    apply UInt8.toNat_inj.mp
    omega
  simp [cmp,ffmem_cmp,h,hne,hl]

theorem agrees_differs {a b : UInt8} (h : a ≠ b) :
    Agrees (a :: text) (b :: key) ((a.toNat : Int) - b.toNat) := by
  have hne : a.toNat ≠ b.toNat := fun h' => h (UInt8.toNat_inj.mp h')
  refine ⟨?_,?_,?_⟩
  · simp only [List.cons.injEq,h,false_and,iff_false]
    omega
  · simp only [List.cons_lt_cons_iff,h,false_and,or_false,UInt8.lt_iff_toNat_lt]
    omega
  · simp only [List.cons_lt_cons_iff,Ne.symm h,false_and,or_false,UInt8.lt_iff_toNat_lt]
    omega

/-- A text that fits, against an element whose key has no zero byte. -/
theorem cmp_agrees (ht : 0 ∉ text) (hk : 0 ∉ key) (htw : text.length ≤ w) (hkw : key.length ≤ w)
    (rest : Bytes) :
    ∃ r, cmp w text (key ++ List.replicate (w - key.length) 0 ++ rest) = some r ∧ Agrees text key r := by
  induction text generalizing key w with
  | nil =>
    cases key with
    | nil =>
      refine ⟨0,?_,by simp [Agrees]⟩
      cases w with
      | zero => simp [cmp,ffmem_cmp]
      | succ w => simp [cmp,ffmem_cmp,List.replicate_succ]
    | cons b key =>
      have hb : b ≠ 0 := fun h => hk (h ▸ List.mem_cons_self ..)
      have hw : 0 ≠ w := by
        simp only [List.length_cons] at hkw
        omega
      exact ⟨-1,by simp [cmp,ffmem_cmp,hb,hw],by simp [Agrees]⟩
  | cons a text ih =>
    have ha : a ≠ 0 := fun h => ht (h ▸ List.mem_cons_self ..)
    have ht' : 0 ∉ text := fun h => ht (List.mem_cons_of_mem _ h)
    simp only [List.length_cons] at htw
    obtain ⟨w,rfl⟩ : ∃ v, w = v + 1 := ⟨w - 1,by omega⟩
    cases key with
    | nil =>
      rw [List.length_nil,Nat.sub_zero,List.replicate_succ,List.nil_append,List.cons_append]
      refine ⟨_,cmp_differs ha _ _ _ (by simp; omega),?_⟩
      have hpos : 0 < a.toNat := Nat.pos_of_ne_zero fun h => ha (UInt8.toNat_inj.mp h)
      refine ⟨?_,?_,?_⟩ <;> simp <;> omega
    | cons b key =>
      simp only [List.length_cons] at hkw
      have hsub : w + 1 - (key.length + 1) = w - key.length := by omega
      rw [List.length_cons,hsub,List.cons_append,List.cons_append]
      by_cases hab : a = b
      · subst hab
        obtain ⟨r,hr,hag⟩ := ih ht' (fun h => hk (List.mem_cons_of_mem _ h)) (by omega)
          (by omega : key.length ≤ w)
        exact ⟨r,(cmp_cons w a _ _).trans hr,agrees_cons hag⟩
      · refine ⟨_,cmp_differs hab _ _ _ ?_,agrees_differs hab⟩
        simp only [List.length_append,List.length_replicate]
        omega

/-! ## The loop -/

/-- What is not below `start` and not from `n` on is still to be searched. -/
structure Inv (es : List (Bytes × Bytes)) (text : Bytes) (start n : Nat) : Prop where
  le : start ≤ n
  n_le : n ≤ es.length
  below : ∀ i e, es[i]? = some e → i < start → e.1 < text
  above : ∀ i e, es[i]? = some e → n ≤ i → text < e.1

/-- The index of the key, or -1. -/
def Found (es : List (Bytes × Bytes)) (text : Bytes) (r : Int) : Prop :=
  (∀ i : Nat, r = i ↔ (es.map Prod.fst)[i]? = some text) ∧ (text ∉ es.map Prod.fst → r = -1)

theorem order_of_lt (hs : InOrder es) {i j : Nat} {d e : Bytes × Bytes} (hi : es[i]? = some d)
    (hj : es[j]? = some e) (hij : i < j) : d.1 < e.1 := by
  obtain ⟨hj',rfl⟩ := List.getElem?_eq_some_iff.mp hj
  obtain ⟨hi',rfl⟩ := List.getElem?_eq_some_iff.mp hi
  have h := List.pairwise_iff_getElem.mp hs i j (by simpa using hi') (by simpa using hj') hij
  simpa using h

theorem found_self (hs : InOrder es) {i : Nat} (hi : es[i]? = some e) : Found es e.1 i := by
  have hm : (es.map Prod.fst)[i]? = some e.1 := by simp [hi]
  refine ⟨fun j => ⟨?_,?_⟩,fun h => absurd (List.mem_of_getElem? hm) h⟩
  · intro hj
    obtain rfl : i = j := by omega
    exact hm
  · intro hj
    rw [List.getElem?_map,Option.map_eq_some_iff] at hj
    obtain ⟨d,hd,hde⟩ := hj
    rcases Nat.lt_trichotomy i j with hij | rfl | hij
    · exact absurd (order_of_lt hs hi hd hij) (hde ▸ List.lt_irrefl _)
    · rfl
    · exact absurd (order_of_lt hs hd hi hij) (hde ▸ List.lt_irrefl _)

theorem found_none (h : text ∉ es.map Prod.fst) : Found es text (-1) :=
  ⟨fun i => ⟨fun hi => absurd hi (by omega),fun hi => absurd (List.mem_of_getElem? hi) h⟩,fun _ => rfl⟩

theorem Inv.none {n : Nat} (h : Inv es text n n) : text ∉ es.map Prod.fst := by
  intro hm
  obtain ⟨i,hi⟩ := List.mem_iff_getElem?.mp hm
  rw [List.getElem?_map,Option.map_eq_some_iff] at hi
  obtain ⟨e,he,rfl⟩ := hi
  rcases Nat.lt_or_ge i n with hlt | hge
  · exact List.lt_irrefl _ (h.below i e he hlt)
  · exact List.lt_irrefl _ (h.above i e he hge)

theorem round_cases (hf : Fits w p es) (hs : InOrder es) (ht : 0 ∉ text) (hw : text.length ≤ w)
    {start n : Nat} (hi : Inv es text start n) :
    (∃ r, round (table w es) w p text (start,n) = .inr (some r) ∧ Found es text r) ∨
      ∃ start' n', round (table w es) w p text (start,n) = .inl (start',n') ∧
        Inv es text start' n' ∧ n' - start' < n - start := by
  by_cases hsn : start = n
  · subst hsn
    exact .inl ⟨-1,by simp [round],found_none hi.none⟩
  · have hle := hi.le
    have hnl := hi.n_le
    have hil : start + (n - start) / 2 < n := by omega
    generalize hm : start + (n - start) / 2 = i at hil
    obtain ⟨e,he⟩ : ∃ e, es[i]? = some e := ⟨_,List.getElem?_eq_getElem (by omega)⟩
    have hfe := hf e (List.mem_of_getElem? he)
    obtain ⟨rest,hrest⟩ := table_drop hf he
    obtain ⟨r,hr,h0,hl,hg⟩ := cmp_agrees ht hfe.1 hw hfe.2.1 (e.2 ++ rest)
    have hel : element w e ++ rest = e.1 ++ List.replicate (w - e.1.length) 0 ++ (e.2 ++ rest) := by
      simp [element]
    rw [← hel,← hrest] at hr
    simp only [round,hsn,if_false,hm,hr]
    rcases Int.lt_trichotomy r 0 with hneg | hz | hpos
    · have hlt := hl.mp hneg
      refine .inr ⟨start,i,by simp [hneg,Int.ne_of_lt hneg],⟨by omega,by omega,hi.below,?_⟩,by omega⟩
      intro j d hd hij
      rcases Nat.eq_or_lt_of_le hij with rfl | hij
      · rw [he,Option.some.injEq] at hd
        exact hd ▸ hlt
      · exact List.lt_trans hlt (order_of_lt hs he hd hij)
    · have heq := h0.mp hz
      exact .inl ⟨i,by simp [hz],heq ▸ found_self hs he⟩
    · have hgt := hg.mp hpos
      have hn0 : ¬ r < 0 := by omega
      refine .inr ⟨i + 1,n,by simp [hn0,Int.ne_of_gt hpos],⟨by omega,by omega,?_,hi.above⟩,by omega⟩
      intro j d hd hij
      rcases Nat.eq_or_lt_of_le (Nat.le_of_lt_succ hij) with rfl | hij
      · rw [he,Option.some.injEq] at hd
        exact hd ▸ hgt
      · exact List.lt_trans (order_of_lt hs hd he hij) hgt

theorem loop_found (hf : Fits w p es) (hs : InOrder es) (ht : 0 ∉ text) (hw : text.length ≤ w) (m : Nat)
    {start n : Nat} (hi : Inv es text start n) (hm : n - start < m) :
    ∃ r, Fuel.loop (round (table w es) w p text) m (start,n) = some (some r) ∧ Found es text r := by
  induction m generalizing start n with
  | zero => omega
  | succ m ih =>
    rcases round_cases hf hs ht hw hi with ⟨r,hr,hfound⟩ | ⟨start',n',hr,hi',hlt⟩
    · exact ⟨r,Fuel.loop_ends hr,hfound⟩
    · obtain ⟨r,hl,hfound⟩ := ih hi' (by omega)
      exact ⟨r,(Fuel.loop_goes hr).trans hl,hfound⟩

theorem search_found (hf : Fits w p es) (hs : InOrder es) (ht : 0 ∉ text) :
    ∃ r, ffcharr_findsorted_padding (es.length + 1) (table w es) es.length w p text = some (some r) ∧
      Found es text r := by
  unfold ffcharr_findsorted_padding
  by_cases hw : text.length > w
  · refine ⟨-1,by rw [if_pos hw],found_none ?_⟩
    intro hm
    obtain ⟨e,he,rfl⟩ := List.mem_map.mp hm
    exact absurd (hf e he).2.1 (by omega)
  · rw [if_neg hw]
    apply loop_found hf hs ht (by omega)
    · refine ⟨by omega,Nat.le_refl _,fun i e _ h => by omega,fun i e he h => ?_⟩
      exact absurd (List.getElem?_eq_some_iff.mp he).1 (by omega)
    · omega

/-- With one round more than there are elements, the search returns the index of the element whose key is
the text, and -1 when there is none. -/
theorem key_found (w p : Nat) (es : List (Bytes × Bytes)) (text : Bytes) (hf : Fits w p es)
    (hs : InOrder es) (ht : 0 ∉ text) :
    ∃ r : Int,
      ffcharr_findsorted_padding (es.length + 1) (table w es) es.length w p text = some (some r) ∧
        (∀ i : Nat, r = i ↔ (es.map Prod.fst)[i]? = some text) ∧
        (text ∉ es.map Prod.fst → r = -1) :=
  search_found hf hs ht

theorem key_found_extended :
    ∃ r : Int,
      ffcharr_findsorted_padding 4 (table 3 [([1],[9]),([1,2],[9]),([1,2,3],[9])]) 3 3 1 [1,2] =
          some (some r) ∧
        (∀ i : Nat, r = i ↔ ([[1],[1,2],[1,2,3]] : List Bytes)[i]? = some [1,2]) ∧
        ([1,2] ∉ ([[1],[1,2],[1,2,3]] : List Bytes) → r = -1) :=
  key_found 3 1 [([1],[9]),([1,2],[9]),([1,2,3],[9])] [1,2] (by simp [Fits]) (by simp [InOrder])
    (by decide)

end Phiola.Sorted
