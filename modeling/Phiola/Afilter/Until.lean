import Phiola.Framework.Runs
import Phiola.Track.Conveyor

/-!
# The limit of a track

`until_process()` over the chunks of a stream. A chunk is its number of samples.
-/

namespace Phiola.UntilFilter

open Runs

/-- `struct until` -/
structure Until where
  until_ : Nat
  total : Nat

/-- `until_process()` without stream copy: what is passed on of a chunk of `n` samples. -/
def until_process (u : Until) (first : Bool) (audio_pos : Option Nat) (n : Nat) : Until × PhiR × Nat :=
  if first then (u,.done,n)
  else
    let (u,pos) := match audio_pos with
      | some pos => (u,pos)
      | none => ({u with total := u.total + n},u.total)
    let samps := n % 2 ^ 32
    if u.until_ ≤ pos + samps then (u,.lastout,if pos < u.until_ then u.until_ - pos else 0)
    else (u,.ok,n)

/-- The filter over chunks from position `p` on, the last of which may arrive with `PHI_FFIRST`: the samples
that are passed on, and where the chunk ends for which it returns `PHI_LASTOUT`. -/
def run (known first : Bool) (u : Until) (p : Nat) : List Nat → List Nat × Option Nat
  | [] => ([],none)
  | n :: ns =>
    match until_process u (first && ns.isEmpty) (if known then some p else none) n with
    | (u,.ok,k) => (List.range' p k ++ (run known first u (p + n) ns).1,(run known first u (p + n) ns).2)
    | (_,.lastout,k) => (List.range' p k,some (p + n))
    | (_,_,k) => (List.range' p k,none)

/-- The samples before the limit are passed on, and the filter does not leave before them. -/
def Exact (limit p : Nat) (ns : List Nat) (x : List Nat × Option Nat) : Prop :=
  x.1 = clip 0 limit (p,ns.sum) ∧ ∀ e, x.2 = some e → limit ≤ e

/-- A chunk that is passed on whole ends before the limit. -/
def Whole (first : Bool) (limit p : Nat) : List Nat → Prop
  | [] => True
  | n :: ns =>
    if first && ns.isEmpty then n = 0 ∨ p + n ≤ limit
    else limit ≤ p + n % 2 ^ 32 ∨ p + n ≤ limit ∧ Whole first limit (p + n) ns

variable {known first : Bool} {limit total p n : Nat} {ns : List Nat}

theorem clip_limit : clip 0 limit (p,n) = List.range' p (min (p + n) limit - p) := by
  simp only [clip,Nat.max_zero]

/-- With `PHI_FFIRST` a chunk is passed on whole. -/
theorem exact_first : Exact limit p [n] (List.range' p n,none) ↔ n = 0 ∨ p + n ≤ limit := by
  rw [Exact,clip_limit,range'_inj,List.sum_singleton]
  constructor
  · rintro ⟨h,-⟩
    omega
  · intro h
    exact ⟨by omega,nofun⟩

theorem exact_cut (h : limit ≤ p + n % 2 ^ 32) :
    Exact limit p (n :: ns) (List.range' p (if p < limit then limit - p else 0),some (p + n)) := by
  have hmod := Nat.mod_le n (2 ^ 32)
  constructor
  · rw [clip_limit,range'_inj,List.sum_cons]
    split <;> omega
  · rintro e ⟨⟩
    omega

/-- A chunk that is passed on whole has samples after the limit, or the rest decides. -/
theorem exact_cons {x : List Nat × Option Nat} (h : p + n % 2 ^ 32 < limit) :
    Exact limit p (n :: ns) (List.range' p n ++ x.1,x.2) ↔ p + n ≤ limit ∧ Exact limit (p + n) ns x := by
  by_cases hn : p + n ≤ limit
  · rw [Exact,Exact,List.sum_cons,← clip_append,clip_all (Nat.zero_le _) hn,List.append_cancel_left_eq]
    exact ⟨fun h => ⟨hn,h⟩,fun h => h.2⟩
  · refine iff_of_false (fun hexact => ?_) fun hh => hn hh.1
    have hmem : p + (n - 1) ∈ clip 0 limit (p,(n :: ns).sum) := by
      rw [← hexact.1]
      exact List.mem_append_left _ (List.mem_range'_1.mpr (by omega))
    have := (mem_clip.mp hmem).2.2
    omega

theorem run_iff (htotal : known = false → total = p) :
    Exact limit p ns (run known first ⟨limit,total⟩ p ns) ↔ Whole first limit p ns := by
  induction ns generalizing total p with
  | nil => exact iff_of_true ⟨(clip_nil (by dsimp only [List.sum_nil]; omega)).symm,nofun⟩ trivial
  | cons n ns ih =>
    rw [run,Whole]
    by_cases hfirst : (first && ns.isEmpty) = true
    · obtain rfl : ns = [] := List.isEmpty_iff.mp (Bool.and_eq_true _ _ ▸ hfirst).2
      rw [hfirst,if_pos rfl]
      exact exact_first
    · have hpos : until_process ⟨limit,total⟩ false (if known then some p else none) n =
          if limit ≤ p + n % 2 ^ 32 then
            (⟨limit,if known then total else total + n⟩,.lastout,if p < limit then limit - p else 0)
          else (⟨limit,if known then total else total + n⟩,.ok,n) := by
        cases known with
        | true => rfl
        | false =>
          obtain rfl := htotal rfl
          rfl
      rw [Bool.eq_false_iff.mpr hfirst,hpos,if_neg Bool.false_ne_true]
      by_cases hcut : limit ≤ p + n % 2 ^ 32
      · rw [if_pos hcut]
        exact iff_of_true (exact_cut hcut) (.inl hcut)
      · rw [if_neg hcut]
        dsimp only
        rw [exact_cons (Nat.lt_of_not_le hcut),ih fun hk => by rw [hk,← htotal hk]; rfl]
        exact ⟨.inr,fun h => h.resolve_left hcut⟩

/-- The limit cuts at the sample if and only if every chunk that is passed on whole ends at or before it: the
one with `PHI_FFIRST`, and one whose length in 32 bits does not reach the limit. -/
theorem until_iff (limit : Nat) (start : Option Nat) (first : Bool) (ns : List Nat) :
    Exact limit (start.getD 0) ns (run start.isSome first ⟨limit,0⟩ (start.getD 0) ns) ↔
      Whole first limit (start.getD 0) ns := by
  refine run_iff fun h => ?_
  cases start with
  | none => rfl
  | some p => cases h

/-- The only chunk, after the filters before it have left, is not cut. -/
theorem last_not_cut : ¬Exact 2 0 [3] (run true true ⟨2,0⟩ 0 [3]) := by
  intro h
  exact absurd h.1 (by decide)

end Phiola.UntilFilter
