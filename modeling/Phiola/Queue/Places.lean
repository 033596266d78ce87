import Mathlib.Data.List.Nodup
import Phiola.Queue.Workers

/-!
# One entry after the other

Where a process stands says what it has read and not yet used. While it is between the read of the
cursor and the write of the next one it must be alone there; behind that write it only works on the
entry it has chosen.
-/

namespace Phiola

/-- The position of the entry that the process is about to make the cursor. -/
def QPc.target : QPc → Option Nat
  | .readPlace => some 0
  | .nextIndex c | .indexCheck .playNext c | .indexFind .playNext c | .indexReturn .playNext c
  | .nextEntry c => some (c + 1)
  | .setCursor e => some e
  | _ => none

/-- The entry that the process has made the cursor and not yet started. -/
def QPc.placing : QPc → Option Nat
  | .indexCheck .play e | .indexFind .play e | .indexReturn .play e | .setPlace e _ | .create e
  | .setTrk e _ | .usedRead e _ | .usedInc e _ _ | .countRead e _ | .countInc e _ _
  | .start e _ => some e
  | _ => none

/-- The track that the process has created and not yet started. -/
def QPc.making : QPc → Option (Nat × Phase)
  | .setTrk _ t | .usedRead _ t | .usedInc _ t _ => some (t,.created)
  | .countRead _ t | .countInc _ t _ => some (t,.referenced)
  | .start _ t => some (t,.counted)
  | _ => none

/-- How far the track is that the process closes. -/
def QPc.closes : QPc → Phase
  | .closeTrk | .clearTrk | .activeRead | .activeDec _ => .closing
  | _ => .uncounted

/-- The process will start a track or find no next entry. -/
def QPc.goesOn : QPc → Bool
  | .idle | .available _ | .unrefRead | .unrefDec _ | .freeRead | .freeClear => false
  | _ => true

namespace ParQueue

/-- How many entries have been the cursor. -/
def reached (s : ParQueue) : Nat :=
  match s.cursor with
  | none => 0
  | some c => c + 1

/-- Nobody but `p` is between the read of the cursor and the write of the next one. -/
def Alone (s : ParQueue) (p : Nat) : Prop :=
  ∀ r < s.wx.cap, r ≠ p → (s.pc r).target = none

/-- A process that looks for the entry behind the cursor does it alone, unless the cursor is at the
last entry; from `workers_available()` it only goes on if nobody else has moved the cursor; and it
writes `active_n` only if that is still what it has read. -/
def Undisturbed (s : ParQueue) : Act → Prop
  | .step p _ =>
    match s.pc p with
    | .nextCursor => s.reached < s.n → s.Alone p
    | .available e => s.wx.available = true → e + 1 < s.n → s.reached = e + 1 ∧ s.Alone p
    | .activeDec v | .countInc _ _ v => s.activeN = v
    | _ => True
  | _ => True

/-- The steps that a process may take next in its place. -/
def QPc.Sound (s : ParQueue) : QPc → Prop
  | .setCursor e => e < s.n
  | .available e => e ∈ s.started
  | _ => True

/-- The entries before `reached` are started, once, or about to be. -/
structure InLine (s : ParQueue) : Prop where
  le : s.reached ≤ s.n
  index : ∀ e, e < s.n → (s.ent e).index = e
  place : s.cursor = none → s.cursorIndex = 0
  outside : ∀ p, s.wx.cap ≤ p → s.pc p = .idle
  target : ∀ p i, (s.pc p).target = some i → s.reached = i
  one : s.reached < s.n → ∀ p r, (s.pc p).target.isSome → (s.pc r).target.isSome → p = r
  sound : ∀ p, QPc.Sound s (s.pc p)
  placing : ∀ p e, (s.pc p).placing = some e → e < s.reached ∧ e ∉ s.started
  onePlacing : ∀ p r e, (s.pc p).placing = some e → (s.pc r).placing = some e → p = r
  done : ∀ e, e < s.reached → e ∈ s.started ∨ ∃ p, (s.pc p).placing = some e
  nodup : s.started.Nodup
  below : ∀ e ∈ s.started, e < s.reached

theorem goto_self (s : ParQueue) (p : Nat) (x : QPc) : (s.goto p x).pc p = x := by
  simp [goto]

theorem goto_of_ne (s : ParQueue) {p r : Nat} (x : QPc) (h : r ≠ p) : (s.goto p x).pc r = s.pc r := by
  simp [goto,h]

/-- What is the same for the old and the new place of `p` is the same for all processes. -/
theorem goto_same {β : Type} (f : QPc → β) {s : ParQueue} {p : Nat} {x y : QPc} (hp : s.pc p = y)
    (h : f x = f y) (r : Nat) : f ((s.goto p x).pc r) = f (s.pc r) := by
  by_cases hr : r = p
  · subst hr
    rw [goto_self,hp,h]
  · rw [goto_of_ne s x hr]

namespace InLine

variable {s s' : ParQueue} {p : Nat} {x y : QPc}

theorem same (h : InLine s) (hn : s'.n = s.n) (hcap : s'.wx.cap = s.wx.cap) (hpc : s'.pc = s.pc)
    (hcursor : s'.cursor = s.cursor) (hstarted : s'.started = s.started)
    (hindex : ∀ e, e < s.n → (s'.ent e).index = e) (hplace : s.cursor = none → s'.cursorIndex = 0) :
    InLine s' := by
  have hreached : s'.reached = s.reached := by simp only [reached,hcursor]
  have hsound (pc : QPc) : QPc.Sound s' pc ↔ QPc.Sound s pc := by
    unfold QPc.Sound
    rw [hn,hstarted]
  constructor
  · rw [hreached,hn]; exact h.le
  · rw [hn]; exact hindex
  · rw [hcursor]; exact hplace
  · rw [hcap,hpc]; exact h.outside
  · rw [hpc,hreached]; exact h.target
  · rw [hpc,hreached,hn]; exact h.one
  · intro p
    rw [hsound,hpc]
    exact h.sound p
  · rw [hpc,hreached,hstarted]; exact h.placing
  · rw [hpc]; exact h.onePlacing
  · rw [hpc,hreached,hstarted]; exact h.done
  · rw [hstarted]; exact h.nodup
  · rw [hstarted,hreached]; exact h.below

/-- A process moves on. It has looked for the next entry already or does so alone from now on. -/
theorem move (h : InLine s) (hlt : p < s.wx.cap) (hp : s.pc p = y)
    (ht : ∀ i, x.target = some i → s.reached = i ∧ (y.target.isSome ∨ (s.reached < s.n → s.Alone p)))
    (hpl : x.placing = y.placing) (hx : QPc.Sound s x) : InLine (s.goto p x) := by
  have hplacing := goto_same QPc.placing hp hpl
  have hout (r : Nat) (hr : s.wx.cap ≤ r) : (s.goto p x).pc r = .idle := by
    rw [goto_of_ne s x (Nat.ne_of_gt (Nat.lt_of_lt_of_le hlt hr))]
    exact h.outside r hr
  -- whoever looks for the next entry beside `p` is `p`
  have hone (hn : s.reached < s.n) (r : Nat) (hx : x.target.isSome)
      (hr : ((s.goto p x).pc r).target.isSome) : p = r := by
    by_contra hne
    rw [goto_of_ne s x (Ne.symm hne)] at hr
    obtain ⟨i,hi⟩ := Option.isSome_iff_exists.mp hx
    obtain hy | halone := (ht i hi).2
    · exact hne (h.one hn p r (hp ▸ hy) hr)
    · have hcap : r < s.wx.cap := by
        by_contra hge
        rw [h.outside r (by omega)] at hr
        cases hr
      rw [halone hn r hcap (Ne.symm hne)] at hr
      cases hr
  refine ⟨h.le,h.index,h.place,hout,fun r i hi => ?_,fun hn r r' hr hr' => ?_,fun r => ?_,?_,?_,?_,
    h.nodup,h.below⟩
  · by_cases hr : r = p
    · subst hr
      rw [goto_self] at hi
      exact (ht i hi).1
    · rw [goto_of_ne s x hr] at hi
      exact h.target r i hi
  · by_cases hrp : r = p
    · subst hrp
      exact hone hn r' (by rwa [goto_self] at hr) hr'
    · by_cases hrp' : r' = p
      · subst hrp'
        exact (hone hn r (by rwa [goto_self] at hr') hr).symm
      · rw [goto_of_ne s x hrp] at hr
        rw [goto_of_ne s x hrp'] at hr'
        exact h.one hn r r' hr hr'
  · by_cases hr : r = p
    · subst hr
      rw [goto_self]
      exact hx
    · rw [goto_of_ne s x hr]
      exact h.sound r
  · intro r e he
    rw [hplacing] at he
    exact h.placing r e he
  · intro r r' e he he'
    rw [hplacing] at he he'
    exact h.onePlacing r r' e he he'
  · intro e he
    obtain hs | ⟨r,hr⟩ := h.done e he
    · exact .inl hs
    · exact .inr ⟨r,by rw [hplacing]; exact hr⟩

theorem goto (h : InLine s) (hlt : p < s.wx.cap) (hp : s.pc p = y)
    (ht : x.target = none ∨ x.target = y.target) (hpl : x.placing = y.placing)
    (hx : QPc.Sound s x) : InLine (s.goto p x) := by
  refine h.move hlt hp (fun i hi => ?_) hpl hx
  obtain ht | ht := ht
  · rw [ht] at hi
    cases hi
  · rw [ht] at hi
    exact ⟨h.target p i (by rw [hp]; exact hi),.inl (by rw [hi]; rfl)⟩

/-- `q->cursor = e;` -/
theorem setCursor (h : InLine s) (hlt : p < s.wx.cap) {e : Nat} (hp : s.pc p = .setCursor e) :
    InLine ({ s with cursor := some e }.goto p (.indexCheck .play e)) := by
  have hreached : s.reached = e := h.target p e (by rw [hp]; rfl)
  have hn : e < s.n := by
    have := h.sound p
    rwa [hp] at this
  generalize hs' : ({ s with cursor := some e } : ParQueue) = s'
  have hpc : s'.pc = s.pc := by rw [← hs']
  have hreached' : s'.reached = e + 1 := by rw [← hs']; rfl
  have hself := goto_self s' p (.indexCheck .play e)
  have hother {r : Nat} (hr : r ≠ p) : (s'.goto p (.indexCheck .play e)).pc r = s.pc r := by
    rw [goto_of_ne s' _ hr,hpc]
  -- nobody else is looking for the next entry
  have hnone (r : Nat) : ((s'.goto p (.indexCheck .play e)).pc r).target = none := by
    by_cases hr : r = p
    · subst hr
      rw [hself]
      rfl
    · rw [hother hr]
      by_contra hne
      exact hr (h.one (by omega) r p (Option.isSome_iff_ne_none.mpr hne) (by rw [hp]; rfl))
  have hplacing (r e' : Nat) (he : ((s'.goto p (.indexCheck .play e)).pc r).placing = some e') :
      r = p ∧ e' = e ∨ r ≠ p ∧ (s.pc r).placing = some e' := by
    by_cases hr : r = p
    · subst hr
      rw [hself] at he
      cases he
      exact .inl ⟨rfl,rfl⟩
    · rw [hother hr] at he
      exact .inr ⟨hr,he⟩
  constructor
  · change s'.reached ≤ s'.n
    rw [hreached',← hs']
    exact hn
  · rw [← hs']
    exact h.index
  · rw [← hs']
    intro hc
    cases hc
  · rw [← hs'] at hother ⊢
    intro r hr
    rw [hother (Nat.ne_of_gt (Nat.lt_of_lt_of_le hlt hr))]
    exact h.outside r hr
  · intro r i hi
    rw [hnone] at hi
    cases hi
  · intro _ r r' hr
    rw [hnone] at hr
    cases hr
  · intro r
    by_cases hr : r = p
    · subst hr
      rw [hself]
      trivial
    · rw [hother hr]
      have := h.sound r
      rw [← hs']
      exact this
  · intro r e' he
    change e' < s'.reached ∧ e' ∉ s'.started
    rw [hreached',← hs']
    obtain ⟨-,rfl⟩ | ⟨-,he⟩ := hplacing r e' he
    · refine ⟨Nat.lt_succ_self e',fun hm => ?_⟩
      have := h.below e' hm
      omega
    · obtain ⟨hlt,hm⟩ := h.placing r e' he
      exact ⟨by omega,hm⟩
  · intro r r' e' hr hr'
    obtain ⟨hrp,he⟩ | ⟨-,hold⟩ := hplacing r e' hr
    · obtain ⟨hrp',-⟩ | ⟨-,hold'⟩ := hplacing r' e' hr'
      · rw [hrp,hrp']
      · have := (h.placing r' e' hold').1
        omega
    · obtain ⟨-,he⟩ | ⟨-,hold'⟩ := hplacing r' e' hr'
      · have := (h.placing r e' hold).1
        omega
      · exact h.onePlacing r r' e' hold hold'
  · intro e' he
    change e' < s'.reached at he
    rw [hreached'] at he
    by_cases hee : e' = e
    · subst hee
      exact .inr ⟨p,by rw [hself]; rfl⟩
    · obtain hm | ⟨r,hr⟩ := h.done e' (by omega)
      · refine .inl ?_
        rw [← hs']
        exact hm
      · refine .inr ⟨r,?_⟩
        rw [hother]
        · exact hr
        · rintro rfl
          rw [hp] at hr
          cases hr
  · rw [← hs']
    exact h.nodup
  · intro e' he
    change e' < s'.reached
    rw [hreached']
    have := h.below e' (by rw [← hs'] at he; exact he)
    omega

/-- `track->start(t);` -/
theorem start (h : InLine s) (hlt : p < s.wx.cap) {e t : Nat} (hp : s.pc p = .start e t)
    (hs' : s' = { s with started := s.started ++ [e] }) : InLine (s'.goto p (.available e)) := by
  have hplace : (s.pc p).placing = some e := by rw [hp]; rfl
  obtain ⟨he,hnew⟩ := h.placing p e hplace
  have hpc : s'.pc = s.pc := by rw [hs']
  have hreached : s'.reached = s.reached := by rw [hs']; rfl
  have hstarted : s'.started = s.started ++ [e] := by rw [hs']
  have hself := goto_self s' p (.available e)
  have hother {r : Nat} (hr : r ≠ p) : (s'.goto p (.available e)).pc r = s.pc r := by
    rw [goto_of_ne s' _ hr,hpc]
  have htarget (r i : Nat) (hi : ((s'.goto p (.available e)).pc r).target = some i) :
      (s.pc r).target = some i := by
    by_cases hr : r = p
    · subst hr
      rw [hself] at hi
      cases hi
    · rwa [hother hr] at hi
  have hplacing (r e' : Nat) (hr : ((s'.goto p (.available e)).pc r).placing = some e') :
      r ≠ p ∧ (s.pc r).placing = some e' := by
    by_cases hrp : r = p
    · subst hrp
      rw [hself] at hr
      cases hr
    · rw [hother hrp] at hr
      exact ⟨hrp,hr⟩
  constructor
  · rw [hs']
    exact h.le
  · rw [hs']
    exact h.index
  · rw [hs']
    exact h.place
  · intro r hr
    have hr : s.wx.cap ≤ r := by rwa [hs'] at hr
    rw [hother (Nat.ne_of_gt (Nat.lt_of_lt_of_le hlt hr))]
    exact h.outside r hr
  · intro r i hi
    change s'.reached = i
    rw [hreached]
    exact h.target r i (htarget r i hi)
  · intro hn r r' hr hr'
    obtain ⟨i,hi⟩ := Option.isSome_iff_exists.mp hr
    obtain ⟨i',hi'⟩ := Option.isSome_iff_exists.mp hr'
    refine h.one (by rw [hs'] at hn; exact hn) r r' ?_ ?_
    · rw [htarget r i hi]; rfl
    · rw [htarget r' i' hi']; rfl
  · intro r
    by_cases hr : r = p
    · subst hr
      rw [hself]
      change e ∈ s'.started
      rw [hstarted]
      exact List.mem_append_right _ List.mem_cons_self
    · rw [hother hr]
      have := h.sound r
      rw [hs']
      revert this
      cases s.pc r with
      | available e' => exact fun hm => List.mem_append_left _ hm
      | _ => exact id
  · intro r e' hr
    obtain ⟨hrp,hold⟩ := hplacing r e' hr
    obtain ⟨hlt,hm⟩ := h.placing r e' hold
    change e' < s'.reached ∧ e' ∉ s'.started
    rw [hreached,hstarted,List.mem_append,List.mem_singleton]
    refine ⟨hlt,?_⟩
    rintro (hm' | rfl)
    · exact hm hm'
    · exact hrp (h.onePlacing r p e' hold hplace)
  · intro r r' e' hr hr'
    exact h.onePlacing r r' e' (hplacing r e' hr).2 (hplacing r' e' hr').2
  · intro e' he'
    change e' < s'.reached at he'
    change e' ∈ s'.started ∨ _
    rw [hreached] at he'
    rw [hstarted,List.mem_append,List.mem_singleton]
    obtain hm | ⟨r,hr⟩ := h.done e' he'
    · exact .inl (.inl hm)
    · by_cases hrp : r = p
      · subst hrp
        rw [hplace] at hr
        cases hr
        exact .inl (.inr rfl)
      · exact .inr ⟨r,by rw [hother hrp]; exact hr⟩
  · change s'.started.Nodup
    rw [hstarted]
    exact h.nodup.append (List.nodup_singleton e) (List.disjoint_singleton.mpr hnew)
  · intro e' hm
    change e' < s'.reached
    change e' ∈ s'.started at hm
    rw [hreached]
    rw [hstarted,List.mem_append,List.mem_singleton] at hm
    obtain hm | rfl := hm
    · exact h.below e' hm
    · exact he

end InLine

end ParQueue

end Phiola
