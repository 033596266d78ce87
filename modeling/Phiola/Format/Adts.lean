import Phiola.Framework.Runs

/-!
# Frames of an AAC stream

`aac_adts_process()` and the filter behind it that ends the track at a limit. A frame is its start and its
number of samples.
-/

namespace Phiola.Adts

open Runs

/-- A frame that is passed on, with `audio.pos`. -/
abbrev Passed := Nat × (Nat × Nat)

/-- `case AACREAD_FRAME` of `aac_adts_process()`: `pos`, and the target while `seek_req` is set. -/
def aac_adts_process (a : Nat × Option Nat) (x : Nat × Nat) : (Nat × Option Nat) × Option Passed :=
  let pos := a.1 + x.2
  match a.2 with
  | some seek => if pos < seek then ((pos,some seek),none) else ((pos,none),some (pos,x))
  | none => ((pos,none),some (pos,x))

/-- `until_process()` with stream copy, over what it is given: it leaves with `PHI_LASTOUT`, and the frame is
passed on. -/
def until_process (limit : Nat) : List Passed → List Passed
  | [] => []
  | c :: cs => if limit ≤ c.1 then [c] else c :: until_process limit cs

variable {p s limit n : Nat} {ns : List Nat}

theorem play_none : play aac_adts_process (p,none) (runs p ns) = (runs p ns).map fun x => (x.1 + x.2,x) := by
  induction ns generalizing p with
  | nil => rfl
  | cons n ns ih => exact congrArg _ ih

/-- From a frame before the limit on, the frames before the limit are passed on. -/
theorem until_frames (hp : p < limit) :
    (until_process limit ((runs p ns).map fun x => (x.1 + x.2,x))).map Prod.snd =
      (runs p ns).filter (·.1 < limit) := by
  induction ns generalizing p with
  | nil => rfl
  | cons n ns ih =>
    rw [runs,List.map_cons,until_process,List.filter_cons_of_pos (by simpa using hp)]
    by_cases hend : limit ≤ p + n
    · rw [if_pos hend,List.filter_eq_nil_iff.mpr]
      · rfl
      · intro x hx
        have := (le_of_mem_runs hx).1
        simp only [decide_eq_true_eq]
        omega
    · rw [if_neg hend,List.map_cons,ih (Nat.lt_of_not_le hend)]

/-- The frame with the target. -/
def target (s : Nat) (x : Nat × Nat) : Bool := x.1 ≤ s ∧ s < x.1 + x.2

/-- The frames from that one on which start before the limit. -/
def wanted (s limit : Nat) (x : Nat × Nat) : Bool := s < x.1 + x.2 ∧ x.1 < limit

/-- No frame ends at the target. -/
def Inside (s p : Nat) (ns : List Nat) : Prop := ∀ x ∈ runs p ns, x.1 + x.2 ≠ s

instance (s p : Nat) (ns : List Nat) : Decidable (Inside s p ns) :=
  inferInstanceAs (Decidable (∀ x ∈ runs p ns, x.1 + x.2 ≠ s))

theorem inside_cons : Inside s p (n :: ns) ↔ p + n ≠ s ∧ Inside s (p + n) ns := by
  simp only [Inside,runs,List.forall_mem_cons]

theorem inside_of_lt (hns : ∀ n ∈ ns, 0 < n) (h : s ≤ p) : Inside s p ns := by
  intro x hx
  have := (le_of_mem_runs hx).1
  have := hns _ (snd_of_mem_runs hx)
  omega

/-- The first frame that is passed on is the one with the target if and only if no frame ends there. -/
theorem seek_iff_inside (hns : ∀ n ∈ ns, 0 < n) (hp : p ≤ s) :
    (play aac_adts_process (p,some s) (runs p ns)).head?.map Prod.snd = (runs p ns).find? (target s) ↔
      Inside s p ns := by
  induction ns generalizing p with
  | nil => exact iff_of_true rfl nofun
  | cons n ns ih =>
    obtain ⟨hn,hns⟩ := List.forall_mem_cons.mp hns
    rw [runs,play,aac_adts_process,inside_cons]
    by_cases hend : p + n < s
    · have htarget : ¬target s (p,n) = true := by simp [target]; omega
      simp only [if_pos hend]
      rw [List.find?_cons_of_neg htarget,← ih hns (Nat.le_of_lt hend)]
      exact ⟨fun h => ⟨by omega,h⟩,fun h => h.2⟩
    · simp only [if_neg hend]
      by_cases heq : p + n = s
      · refine iff_of_false (fun h => ?_) fun h => h.1 heq
        have htarget : ¬target s (p,n) = true := by simp [target]; omega
        rw [List.find?_cons_of_neg htarget] at h
        have hmem := List.mem_of_find?_eq_some h.symm
        have := (le_of_mem_runs hmem).1
        dsimp only at this
        omega
      · refine iff_of_true ?_ ⟨heq,inside_of_lt hns (by omega)⟩
        rw [List.find?_cons_of_pos (by simp [target]; omega)]
        rfl

/-- The frames from the target to the limit are passed on if and only if, moreover, the frame with the target
starts before the limit. -/
theorem until_iff_inside (hns : ∀ n ∈ ns, 0 < n) (hp : p ≤ s) :
    (until_process limit (play aac_adts_process (p,some s) (runs p ns))).map Prod.snd =
        (runs p ns).filter (wanted s limit) ↔
      Inside s p ns ∧ ∀ x ∈ runs p ns, target s x → x.1 < limit := by
  induction ns generalizing p with
  | nil => exact iff_of_true rfl ⟨nofun,nofun⟩
  | cons n ns ih =>
    obtain ⟨hn,hns⟩ := List.forall_mem_cons.mp hns
    rw [runs,play,aac_adts_process,inside_cons,List.forall_mem_cons]
    by_cases hend : p + n < s
    · have htarget : ¬target s (p,n) = true := by simp [target]; omega
      simp only [if_pos hend]
      rw [List.filter_cons_of_neg (by simp [wanted]; omega)]
      refine Iff.trans (ih hns (Nat.le_of_lt hend)) ?_
      exact ⟨fun h => ⟨⟨by omega,h.1⟩,fun ht => absurd ht htarget,h.2⟩,fun h => ⟨h.1.2,h.2.2⟩⟩
    · simp only [if_neg hend]
      by_cases heq : p + n = s
      · refine iff_of_false (fun h => ?_) fun h => h.1.1 heq
        have hmem : (p,n) ∈ ((p,n) :: runs (p + n) ns).filter (wanted s limit) := by
          rw [← h,Option.toList_some,List.singleton_append,until_process]
          split <;> exact List.mem_cons_self ..
        have := (List.mem_filter.mp hmem).2
        simp [wanted,heq] at this
      · have hrest : ∀ x ∈ runs (p + n) ns, ¬target s x = true := by
          intro x hx
          have := (le_of_mem_runs hx).1
          simp [target]
          omega
        have hinside : p + n ≠ s ∧ Inside s (p + n) ns := ⟨heq,inside_of_lt hns (by omega)⟩
        have hhead : target s (p,n) = true := by simp [target]; omega
        have hwanted : (runs (p + n) ns).filter (wanted s limit) = (runs (p + n) ns).filter (·.1 < limit) := by
          refine List.filter_congr fun x hx => ?_
          have := (le_of_mem_runs hx).1
          simp [wanted]
          omega
        rw [Option.toList_some,List.singleton_append,play_none,until_process]
        by_cases hlimit : p < limit
        · refine iff_of_true ?_ ⟨hinside,fun _ => hlimit,fun x hx ht => absurd ht (hrest x hx)⟩
          rw [List.filter_cons_of_pos (by simp [wanted]; omega),hwanted]
          by_cases hcut : limit ≤ p + n
          · rw [if_pos hcut,List.filter_eq_nil_iff.mpr]
            · rfl
            · intro x hx
              have := (le_of_mem_runs hx).1
              simp only [decide_eq_true_eq]
              omega
          · rw [if_neg hcut,List.map_cons,until_frames (Nat.lt_of_not_le hcut)]
        · refine iff_of_false (fun h => ?_) fun h => hlimit (h.2.1 hhead)
          have hmem : (p,n) ∈ ((p,n) :: runs (p + n) ns).filter (wanted s limit) := by
            rw [← h]
            split <;> exact List.mem_cons_self ..
          have := (List.mem_filter.mp hmem).2
          simp [wanted,hlimit] at this

/-- `audio.pos` is the end of the frame. -/
theorem pos_iff (hns : ∀ n ∈ ns, 0 < n) :
    (∀ c ∈ play aac_adts_process (p,none) (runs p ns), c.1 = c.2.1) ↔ ns = [] := by
  rw [play_none,List.forall_mem_map]
  cases ns with
  | nil => exact iff_of_true nofun rfl
  | cons n ns =>
    have hn := hns n (List.mem_cons_self ..)
    refine iff_of_false (fun h => ?_) nofun
    have := h (p,n) (List.mem_cons_self ..)
    dsimp only at this
    omega

/-- No frame is passed on with its start for `audio.pos`; after a request to seek the frame with the target is
the first one if and only if no frame ends there; and the frames from it to the limit are passed on if and only
if, moreover, that frame starts before the limit. -/
theorem adts_iff (p s limit : Nat) (ns : List Nat) (hns : ∀ n ∈ ns, 0 < n) (hp : p ≤ s) :
    ((∀ c ∈ play aac_adts_process (p,none) (runs p ns), c.1 = c.2.1) ↔ ns = []) ∧
    ((play aac_adts_process (p,some s) (runs p ns)).head?.map Prod.snd = (runs p ns).find? (target s) ↔
      Inside s p ns) ∧
    ((until_process limit (play aac_adts_process (p,some s) (runs p ns))).map Prod.snd =
        (runs p ns).filter (wanted s limit) ↔
      Inside s p ns ∧ ∀ x ∈ runs p ns, target s x → x.1 < limit) :=
  ⟨pos_iff hns,seek_iff_inside hns hp,until_iff_inside hns hp⟩

theorem adts_iff_two :
    (play aac_adts_process (0,some 3) (runs 0 [2,2])).head?.map Prod.snd = some (2,2) ∧
      (until_process 4 (play aac_adts_process (0,some 3) (runs 0 [2,2]))).map Prod.snd = [(2,2)] :=
  ⟨(adts_iff 0 3 4 [2,2] (by decide) (by decide)).2.1.mpr (by decide),
    (adts_iff 0 3 4 [2,2] (by decide) (by decide)).2.2.mpr ⟨by decide,by decide⟩⟩

/-- The first frame is passed on with its end for `audio.pos`, and for a target where the next one starts. -/
theorem adts_ends :
    ¬(∀ c ∈ play aac_adts_process (0,none) (runs 0 [2,2]), c.1 = c.2.1) ∧
      (play aac_adts_process (0,some 2) (runs 0 [2,2])).head?.map Prod.snd ≠ (runs 0 [2,2]).find? (target 2) := by
  decide

end Phiola.Adts
