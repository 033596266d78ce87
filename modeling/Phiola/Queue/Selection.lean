import Phiola.Queue.Choice

/-!
# The selected list

`selected` is a position in the array of lists. A list that is destroyed is taken out of the array,
and the lists behind it move up.
-/

namespace Phiola

namespace QueueMgr

/-- The list that was last selected, as long as it is not destroyed. -/
def nextLast (s : QueueMgr) (last : Option Nat) : Op → Option Nat
  | .select pos => s.lists[pos]?.or last
  | .qselect q => if q ∈ s.lists then some q else last
  | .destroy y => if s.theQueue y = last then none else last
  | _ => last

/-- A step, with the last selected list beside it. -/
def selStep (x : QueueMgr × Option Nat) (a : Op) : Option (QueueMgr × Option Nat) :=
  (x.1.step a).map fun s => (s,nextLast x.1 x.2 a)

/-- The destroyed list is not before the last selected one, and another list takes the position of
the selected list if any list is left. -/
def DestroysBehind (x : QueueMgr × Option Nat) : Op → Prop
  | .destroy y => ∀ q ∈ x.1.theQueue y,
    (x.1.selected + 1 < x.1.lists.length ∨ x.1.lists.length = 1) ∧
      ∀ d ∈ x.2, d ≠ q → x.1.selected < x.1.lists.idxOf q
  | _ => True

structure Selected (x : QueueMgr × Option Nat) : Prop where
  nodup : x.1.lists.Nodup
  below : ∀ q ∈ x.1.lists, q < x.1.nq
  range : x.1.selected < max 1 x.1.lists.length
  last : ∀ d, x.2 = some d → x.1.lists[x.1.selected]? = some d

theorem Selected.same {x y : QueueMgr × Option Nat} (h : Selected x)
    (hlists : y.1.lists = x.1.lists) (hselected : y.1.selected = x.1.selected)
    (hnq : x.1.nq ≤ y.1.nq) (hlast : y.2 = x.2) : Selected y where
  nodup := hlists ▸ h.nodup
  below q hq := Nat.lt_of_lt_of_le (h.below q (hlists ▸ hq)) hnq
  range := by
    rw [hlists,hselected]
    exact h.range
  last d hd := by
    rw [hlists,hselected]
    exact h.last d (hlast ▸ hd)

theorem Selected.push {x y : QueueMgr × Option Nat} (h : Selected x)
    (hlists : y.1.lists = x.1.lists ++ [x.1.nq]) (hselected : y.1.selected = x.1.selected)
    (hnq : y.1.nq = x.1.nq + 1) (hlast : y.2 = x.2) : Selected y := by
  have hnew : x.1.nq ∉ x.1.lists := fun hm => Nat.lt_irrefl _ (h.below _ hm)
  have hrange := h.range
  refine ⟨?_,fun q hq => ?_,?_,fun d hd => ?_⟩
  · rw [hlists]
    exact h.nodup.append (List.nodup_singleton _) (List.disjoint_singleton.mpr hnew)
  · rw [hlists,List.mem_append,List.mem_singleton] at hq
    obtain hq | rfl := hq
    · have := h.below q hq
      omega
    · omega
  · rw [hlists,hselected,List.length_append,List.length_singleton]
    omega
  · rw [hlists,hselected]
    have hget := h.last d (hlast ▸ hd)
    rw [List.getElem?_append_left (List.getElem?_eq_some_iff.mp hget).1]
    exact hget

theorem Selected.select {x y : QueueMgr × Option Nat} {d i : Nat} (h : Selected x)
    (hi : x.1.lists[i]? = some d) (hlists : y.1.lists = x.1.lists) (hselected : y.1.selected = i)
    (hnq : y.1.nq = x.1.nq) (hlast : y.2 = some d) : Selected y := by
  have hlt := (List.getElem?_eq_some_iff.mp hi).1
  refine ⟨hlists ▸ h.nodup,fun q hq => ?_,?_,fun c hc => ?_⟩
  · rw [hnq]
    exact h.below q (hlists ▸ hq)
  · rw [hlists,hselected]
    omega
  · rw [hlast] at hc
    rw [hlists,hselected,hi,hc]

theorem Selected.destroy {x y : QueueMgr × Option Nat} {q : Nat} (h : Selected x)
    (hpos : x.1.selected + 1 < x.1.lists.length ∨ x.1.lists.length = 1)
    (hbefore : ∀ d ∈ x.2, d ≠ q → x.1.selected < x.1.lists.idxOf q)
    (hlists : y.1.lists = x.1.lists.erase q) (hselected : y.1.selected = x.1.selected)
    (hnq : y.1.nq = x.1.nq) (hlast : y.2 = if some q = x.2 then none else x.2) : Selected y := by
  have hrange := h.range
  have hlength : (x.1.lists.erase q).length + 1 ≥ x.1.lists.length := by
    by_cases hq : q ∈ x.1.lists
    · rw [List.length_erase_of_mem hq]
      omega
    · rw [List.erase_of_not_mem hq]
      omega
  refine ⟨hlists ▸ h.nodup.erase q,fun c hc => ?_,?_,fun d hd => ?_⟩
  · rw [hnq]
    exact h.below c (List.mem_of_mem_erase (hlists ▸ hc))
  · rw [hlists,hselected]
    omega
  · rw [hlast] at hd
    split at hd
    · cases hd
    · rename_i hne
      have hdq : d ≠ q := fun heq => hne (heq ▸ hd.symm)
      rw [hlists,hselected,← List.eraseIdx_idxOf_eq_erase,
        List.getElem?_eraseIdx_of_lt (hbefore d hd hdq)]
      exact h.last d hd

theorem step_selected (x : QueueMgr × Option Nat) (a : Op) (y : QueueMgr × Option Nat)
    (h : Selected x) (ha : DestroysBehind x a) (hx : selStep x a = some y) : Selected y := by
  obtain ⟨s,hs,rfl⟩ := Option.map_eq_some_iff.mp hx
  have hrest := step_lists hs
  cases a with
  | create c r a =>
    cases hs
    exact h.push rfl rfl rfl rfl
  | destroy z =>
    obtain ⟨q,hq,-,hs⟩ := onQueue_some hs
    cases hs
    have hfold := Steady.foldl_unref (x.1.queue q).index { x.1 with lists := x.1.lists.erase q }
    refine h.destroy (q := q) (ha q hq).1 (ha q hq).2 hfold.lists hfold.selected hfold.nq ?_
    change (if x.1.theQueue z = x.2 then none else x.2) = _
    rw [hq]
  | select pos =>
    cases hs
    split
    · rename_i hpos
      have hget := List.getElem?_eq_getElem hpos
      refine h.select hget rfl rfl rfl ?_
      change x.1.lists[pos]?.or x.2 = _
      rw [hget]
      rfl
    · rename_i hpos
      refine h.same rfl rfl (Nat.le_refl _) ?_
      change x.1.lists[pos]?.or x.2 = x.2
      rw [List.getElem?_eq_none (by omega)]
      rfl
  | qselect q =>
    cases hs
    split
    · rename_i hnone
      have hq : q ∉ x.1.lists := by simpa [List.idxOf?_eq_none_iff] using hnone
      exact h.same rfl rfl (Nat.le_refl _) (if_neg hq)
    · rename_i i hi
      have hget : x.1.lists[i]? = some q := by
        obtain ⟨hlt,heq,-⟩ := List.idxOf?_eq_some_iff.mp hi
        rw [List.getElem?_eq_getElem hlt,heq]
      exact h.select hget rfl rfl rfl (if_pos (List.mem_of_getElem? hget))
  | filter z keep =>
    obtain ⟨q,-,-,hs⟩ := onQueue_some hs
    cases hs
    have hfold (l : List Nat) (u : QueueMgr) : (l.foldl qeRef u).lists = u.lists ∧
        (l.foldl qeRef u).selected = u.selected := by
      induction l generalizing u with
      | nil => exact ⟨rfl,rfl⟩
      | cons e l ih => exact ih _
    obtain ⟨hl,hk⟩ := hfold ((x.1.queue q).index.filter keep) x.1
    refine h.push ?_ hk rfl rfl
    change (List.foldl qeRef x.1 _).lists ++ [x.1.nq] = _
    rw [hl]
  | _ => exact h.same hrest.1 hrest.2.1 (Nat.le_of_eq hrest.2.2.symm) rfl

/-- In every history that destroys lists only in this way, the selected position is in the array as
long as there is a list, and holds the list that was last selected. -/
theorem selection {as : List Op} {s : QueueMgr} {last : Option Nat}
    (hbehind : Machine.AllSteps selStep DestroysBehind (init,none) as)
    (hrun : Machine.run selStep (init,none) as = some (s,last)) :
    (s.lists ≠ [] → s.selected < s.lists.length) ∧ ∀ d, last = some d → s.qmDefault = some d := by
  have hinit : Selected (init,none) :=
    ⟨List.nodup_nil,(fun q hq => by cases hq),Nat.zero_lt_one,(fun d hd => by cases hd)⟩
  have h := Machine.guarded_invariant step_selected hbehind hrun hinit
  refine ⟨fun hne => ?_,fun d hd => h.last d hd⟩
  have hrange := h.range
  have hpos := List.length_pos_of_ne_nil hne
  dsimp only at hrange
  omega

instance (x : QueueMgr × Option Nat) (a : Op) : Decidable (DestroysBehind x a) :=
  match a with
  | .destroy y => inferInstanceAs (Decidable (∀ q ∈ x.1.theQueue y, _ ∧ _))
  | .create _ _ _ | .select _ | .qselect _ | .conf _ _ _ _ | .add _ _ _ _ | .insertAt _ _ _
  | .insert _ _ | .clear _ | .filter _ _ | .play _ _ _ _ | .playNext _ _ _ | .playPrev _ _ _
  | .ref _ _ | .unref _ | .removeAt _ _ | .remove _ | .sort _ _ | .readerInsert _ _
  | .close _ _ _ _ _ => instDecidableTrue

/-- Three lists, the second one is selected. -/
def secondSelected : List Op :=
  [.create false false false,.create false false false,.create false false false,.select 1]

theorem selection_third_destroyed : ∃ s,
    Machine.run selStep (init,none) (secondSelected ++ [Op.destroy (some 2)]) = some (s,some 1) ∧
      s.lists = [0,1] ∧ (s.lists ≠ [] → s.selected < s.lists.length) ∧
      ∀ d, some 1 = some d → s.qmDefault = some d := by
  have hbehind : Machine.AllSteps selStep DestroysBehind (init,none)
      (secondSelected ++ [Op.destroy (some 2)]) := by decide
  exact ⟨_,rfl,rfl,selection hbehind rfl⟩

/-- The first two lists are destroyed: the position is past the end of the array. -/
theorem selected_past_end : ¬ ∀ as s last, Machine.run selStep (init,none) as = some (s,last) →
    (s.lists ≠ [] → s.selected < s.lists.length) ∧ ∀ d, last = some d → s.qmDefault = some d := by
  intro h
  have hlost := h (secondSelected ++ [Op.destroy (some 0),Op.destroy (some 1)]) _ _ rfl
  exact absurd (hlost.1 (by decide)) (by decide)

end QueueMgr

end Phiola
