import Mathlib.Data.List.Induction
import Mathlib.Tactic.Common

/-!
# Overlays

A piece is a run of cells laid at an offset. Pieces laid one after another hide what is below
them, and a sheet says for each position what is seen from above, if anything lies there.
-/

namespace Overlay

variable {β : Type*}

/-- What is seen at each position. -/
abbrev Sheet (β : Type*) := Nat → Option β

def blank : Sheet β := fun _ => none

/-- The position lies under the piece of this length at this offset. -/
def Covers (off len x : Nat) : Prop := off ≤ x ∧ x < off + len

instance (off len x : Nat) : Decidable (Covers off len x) :=
  inferInstanceAs (Decidable (off ≤ x ∧ x < off + len))

def lay (s : Sheet β) (off : Nat) (bs : List β) : Sheet β :=
  fun x => if Covers off bs.length x then bs[x - off]? else s x

/-- The pieces laid in order. -/
def layAll (s : Sheet β) (ps : List (Nat × List β)) : Sheet β :=
  ps.foldl (fun s p => lay s p.1 p.2) s

@[simp] theorem layAll_nil (s : Sheet β) : layAll s [] = s := rfl

@[simp] theorem layAll_cons (s : Sheet β) (p : Nat × List β) (ps : List (Nat × List β)) :
    layAll s (p :: ps) = layAll (lay s p.1 p.2) ps := rfl

theorem layAll_append (s : Sheet β) (ps qs : List (Nat × List β)) :
    layAll s (ps ++ qs) = layAll (layAll s ps) qs := by simp [layAll]

theorem layAll_snoc (s : Sheet β) (ps : List (Nat × List β)) (off : Nat) (bs : List β) :
    layAll s (ps ++ [(off, bs)]) = lay (layAll s ps) off bs := by simp [layAll]

@[simp] theorem lay_nil (s : Sheet β) (off : Nat) : lay s off [] = s := by
  funext x
  simp only [lay, List.length_nil]
  rw [if_neg (by rintro ⟨h,h'⟩; omega)]

theorem lay_covered {s : Sheet β} {off x : Nat} {bs : List β} (h : Covers off bs.length x) :
    lay s off bs x = bs[x - off]? := if_pos h

theorem lay_outside {s : Sheet β} {off x : Nat} {bs : List β} (h : ¬ Covers off bs.length x) :
    lay s off bs x = s x := if_neg h

/-- A piece laid in two parts. -/
theorem lay_append (s : Sheet β) (off : Nat) (as bs : List β) :
    lay (lay s off as) (off + as.length) bs = lay s off (as ++ bs) := by
  funext x
  by_cases hall : Covers off (as ++ bs).length x
  · rw [lay_covered hall]
    obtain ⟨h1,h2⟩ := hall
    rw [List.length_append] at h2
    by_cases hbs : Covers (off + as.length) bs.length x
    · rw [lay_covered hbs]
      obtain ⟨h3,h4⟩ := hbs
      rw [List.getElem?_append_right (by omega)]
      congr 1; omega
    · have has : x < off + as.length := by
        simp only [Covers, not_and] at hbs
        by_contra hge
        have := hbs (by omega)
        omega
      rw [lay_outside hbs, lay_covered ⟨h1,has⟩, List.getElem?_append_left (by omega)]
  · rw [lay_outside hall, lay_outside, lay_outside]
    · rintro ⟨h1,h2⟩
      exact hall ⟨h1, by rw [List.length_append]; omega⟩
    · rintro ⟨h1,h2⟩
      exact hall ⟨by omega, by rw [List.length_append]; omega⟩

theorem lay_take_drop (s : Sheet β) (off n : Nat) (bs : List β) (hn : n ≤ bs.length) :
    lay (lay s off (bs.take n)) (off + n) (bs.drop n) = lay s off bs := by
  have h := lay_append s off (bs.take n) (bs.drop n)
  rwa [List.length_take_of_le hn, List.take_append_drop] at h

/-- A piece that begins inside of another one, or at its end, is the same as one piece with
the cells replaced. -/
theorem lay_splice (s : Sheet β) (off k : Nat) (as bs : List β) (hk : k ≤ as.length) :
    lay (lay s off as) (off + k) bs = lay s off (as.take k ++ bs ++ as.drop (k + bs.length)) := by
  funext x
  have hlen : (as.take k ++ bs).length = k + bs.length := by
    rw [List.length_append, List.length_take_of_le hk]
  by_cases hnew : Covers (off + k) bs.length x
  · obtain ⟨h1,h2⟩ := hnew
    rw [lay_covered ⟨h1,h2⟩, lay_covered ⟨by omega, by rw [List.length_append, hlen]; omega⟩,
      List.getElem?_append_left (by omega),
      List.getElem?_append_right (by rw [List.length_take_of_le hk]; omega)]
    congr 1
    rw [List.length_take_of_le hk]
    omega
  · rw [lay_outside hnew]
    by_cases hold : Covers off as.length x
    · obtain ⟨h1,h2⟩ := hold
      rw [lay_covered ⟨h1,h2⟩, lay_covered
        ⟨h1, by rw [List.length_append, hlen, List.length_drop]; omega⟩]
      by_cases hbefore : x < off + k
      · rw [List.getElem?_append_left (by omega),
          List.getElem?_append_left (by rw [List.length_take_of_le hk]; omega),
          List.getElem?_take_of_lt (by omega)]
      · have hafter : k + bs.length ≤ x - off := by
          simp only [Covers, not_and] at hnew
          have := hnew (by omega)
          omega
        rw [List.getElem?_append_right (by omega), hlen, List.getElem?_drop]
        congr 1; omega
    · rw [lay_outside hold, lay_outside]
      rintro ⟨h1,h2⟩
      rw [List.length_append, hlen, List.length_drop] at h2
      apply hnew
      simp only [Covers, not_and] at hold ⊢
      have := hold h1
      omega

/-- The last piece over a position is what is seen there. -/
theorem layAll_last {s : Sheet β} {ps qs : List (Nat × List β)} {p : Nat × List β} {x : Nat}
    (hp : Covers p.1 p.2.length x) (hqs : ∀ q ∈ qs, ¬ Covers q.1 q.2.length x) :
    layAll s (ps ++ p :: qs) x = p.2[x - p.1]? := by
  rw [layAll_append, layAll_cons]
  have huntouched : ∀ (rs : List (Nat × List β)) (s : Sheet β),
      (∀ r ∈ rs, ¬ Covers r.1 r.2.length x) → layAll s rs x = s x := by
    intro rs
    induction rs with
    | nil => intro s _; rfl
    | cons r rs ih =>
      intro s h
      rw [layAll_cons, ih _ fun q hq => h q (List.mem_cons_of_mem r hq),
        lay_outside (h r List.mem_cons_self)]
  rw [huntouched qs _ hqs, lay_covered hp]

theorem layAll_isSome {ps : List (Nat × List β)} {x : Nat} :
    (layAll blank ps x).isSome = true ↔ ∃ p ∈ ps, Covers p.1 p.2.length x := by
  induction ps using List.reverseRecOn with
  | nil => simp [blank]
  | append_singleton ps p ih =>
    obtain ⟨off,bs⟩ := p
    rw [layAll_snoc]
    by_cases h : Covers off bs.length x
    · have hin : x - off < bs.length := by obtain ⟨_,_⟩ := h; omega
      rw [lay_covered h, List.getElem?_eq_getElem hin]
      simp only [Option.isSome_some, true_iff]
      exact ⟨(off, bs), by simp, h⟩
    · rw [lay_outside h, ih]
      constructor
      · rintro ⟨p, hp, hc⟩
        exact ⟨p, List.mem_append_left _ hp, hc⟩
      · rintro ⟨p, hp, hc⟩
        rcases List.mem_append.mp hp with hp | hp
        · exact ⟨p, hp, hc⟩
        · exact absurd hc (List.mem_singleton.mp hp ▸ h)

/-- `m` is the end of what lies on the sheet, `0` for a blank one. -/
structure Extent (s : Sheet β) (m : Nat) : Prop where
  below : ∀ x, (s x).isSome = true → x < m
  last : 0 < m → (s (m - 1)).isSome = true

theorem extent_blank : Extent (blank : Sheet β) 0 :=
  ⟨fun x h => by simp [blank] at h, fun h => absurd h (Nat.lt_irrefl 0)⟩

theorem Extent.unique {s : Sheet β} {m n : Nat} (hm : Extent s m) (hn : Extent s n) : m = n := by
  have hle : ∀ {m n}, Extent s m → Extent s n → m ≤ n := by
    intro m n hm hn
    rcases Nat.eq_zero_or_pos m with h | h
    · omega
    · have := hn.below _ (hm.last h)
      omega
  exact Nat.le_antisymm (hle hm hn) (hle hn hm)

/-- A piece moves the end of the sheet to its own end, if that is farther. -/
theorem Extent.lay {s : Sheet β} {m : Nat} (h : Extent s m) (off : Nat) {bs : List β}
    (hbs : bs ≠ []) : Extent (lay s off bs) (max m (off + bs.length)) := by
  have hpos : 0 < bs.length := List.length_pos_iff.mpr hbs
  constructor
  · intro x hx
    by_cases hc : Covers off bs.length x
    · exact Nat.lt_of_lt_of_le hc.2 (Nat.le_max_right _ _)
    · rw [lay_outside hc] at hx
      exact Nat.lt_of_lt_of_le (h.below x hx) (Nat.le_max_left _ _)
  · intro _
    by_cases hc : Covers off bs.length (max m (off + bs.length) - 1)
    · obtain ⟨h1,h2⟩ := hc
      rw [lay_covered ⟨h1,h2⟩, List.getElem?_eq_getElem (by omega)]
      rfl
    · rw [lay_outside hc]
      have hm : off + bs.length ≤ m := by
        by_contra hlt
        apply hc
        rw [Nat.max_eq_right (by omega)]
        exact ⟨by omega, by omega⟩
      rw [Nat.max_eq_left hm]
      exact h.last (by omega)

/-- The largest end of a piece that is not empty. -/
def reach (ps : List (Nat × List β)) : Nat :=
  ps.foldl (fun m p => if p.2 = [] then m else max m (p.1 + p.2.length)) 0

theorem reach_snoc (ps : List (Nat × List β)) (p : Nat × List β) :
    reach (ps ++ [p]) = if p.2 = [] then reach ps else max (reach ps) (p.1 + p.2.length) := by
  simp [reach]

theorem extent_reach (ps : List (Nat × List β)) : Extent (layAll blank ps) (reach ps) := by
  induction ps using List.reverseRecOn with
  | nil => exact extent_blank
  | append_singleton ps p ih =>
    obtain ⟨off,bs⟩ := p
    rw [layAll_snoc, reach_snoc]
    by_cases hbs : bs = []
    · subst hbs
      simpa using ih
    · simpa [hbs] using ih.lay off hbs

end Overlay
