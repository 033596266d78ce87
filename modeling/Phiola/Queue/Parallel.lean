import Mathlib.Algebra.BigOperators.Group.Finset.Piecewise
import Phiola.Queue.Handlers

/-!
# Completions at the same time

Each step of a process keeps the order of the entries, the hands that the tracks are in and the
counters, and as long as there are entries to start some track or some process will get there.
-/

namespace Phiola

namespace ParQueue

open Finset

/-- No worker is in `qe_close()` or `q_play()`. -/
def Quiet (s : ParQueue) : Prop := ∀ p < s.wx.cap, s.pc p = .idle

instance (s : ParQueue) : Decidable s.Quiet := inferInstanceAs (Decidable (∀ p < s.wx.cap, _))

/-- The tracks that were started and are not closed. -/
def openTracks (s : ParQueue) : Nat := ((range s.nt).filter fun t => (s.trk t).phase ≠ .closed).card

/-- Those of them that are on entry `e`. -/
def openOn (s : ParQueue) (e : Nat) : Nat :=
  ((range s.nt).filter fun t => (s.trk t).qent = e ∧ (s.trk t).phase ≠ .closed).card

structure Inv (n : Nat) (s : ParQueue) : Prop where
  len : s.n = n
  line : InLine s
  handled : Handled s
  accounted : Accounted s
  driven : s.reached < s.n →
    (∃ p, (s.pc p).goesOn = true) ∨ ∃ t, t < s.nt ∧ (s.trk t).phase = .running

/-- The same but for indexes, places and what no counter depends on. -/
structure Alike (s s' : ParQueue) : Prop where
  n : s'.n = s.n
  len : s'.wx.len = s.wx.len
  cap : s'.wx.cap = s.wx.cap
  pc : s'.pc = s.pc
  job : s'.job = s.job
  cursor : s'.cursor = s.cursor
  started : s'.started = s.started
  nt : s'.nt = s.nt
  active : s'.activeN = s.activeN
  trk : ∀ t, (s'.trk t).qent = (s.trk t).qent ∧ (s'.trk t).worker = (s.trk t).worker ∧
    (s'.trk t).phase = (s.trk t).phase
  used : ∀ e, (s'.ent e).used = (s.ent e).used

theorem alike_setEnt (s : ParQueue) (e : Nat) (x : ParEntry) (hx : x.used = (s.ent e).used) :
    Alike s (s.setEnt e x) := by
  refine ⟨rfl,rfl,rfl,rfl,rfl,rfl,rfl,rfl,rfl,fun _ => ⟨rfl,rfl,rfl⟩,fun y => ?_⟩
  by_cases hy : y = e
  · subst hy
    simpa [setEnt] using hx
  · simp [setEnt,hy]

theorem setEnt_index {s : ParQueue} {e : Nat} {x : ParEntry}
    (h : ∀ y, y < s.n → (s.ent y).index = y) (hx : e < s.n → x.index = e) :
    ∀ y, y < s.n → ((s.setEnt e x).ent y).index = y := by
  intro y hy
  by_cases hye : y = e
  · subst hye
    simpa [setEnt] using hx hy
  · simpa [setEnt,hye] using h y hy

namespace Inv

variable {n p : Nat} {s s' : ParQueue} {x y : QPc}

theorem same (h : Inv n s) (ha : Alike s s') (hindex : ∀ e, e < s.n → (s'.ent e).index = e)
    (hplace : s.cursor = none → s'.cursorIndex = 0) : Inv n s' where
  len := ha.n.trans h.len
  line := h.line.same ha.n ha.cap ha.pc ha.cursor ha.started hindex hplace
  handled := h.handled.same ⟨ha.len,ha.cap⟩ ha.nt ha.pc ha.job ha.trk ha.started
  accounted := h.accounted.same ha.n ha.active ha.nt ha.pc ha.job
    (fun t => ⟨(ha.trk t).1,(ha.trk t).2.2⟩) ha.used
  driven := by
    have hreached : s'.reached = s.reached := by simp only [reached,ha.cursor]
    rw [hreached,ha.n,ha.pc,ha.nt]
    simp only [(ha.trk _).2.2]
    exact h.driven

/-- Nothing that the order depends on changes but the place of `p`, which still goes on. -/
theorem goesOn_goto (h : s.reached < s.n →
    (∃ p, (s.pc p).goesOn = true) ∨ ∃ t, t < s.nt ∧ (s.trk t).phase = .running)
    (hx : (s.pc p).goesOn = true → x.goesOn = true) : (s.goto p x).reached < (s.goto p x).n →
      (∃ r, ((s.goto p x).pc r).goesOn = true) ∨
        ∃ t, t < (s.goto p x).nt ∧ ((s.goto p x).trk t).phase = .running := by
  intro hn
  refine (h hn).imp_left fun ⟨r,hr⟩ => ⟨r,?_⟩
  by_cases hrp : r = p
  · subst hrp
    rw [goto_self]
    exact hx hr
  · rw [goto_of_ne s x hrp]
    exact hr

theorem goto (h : Inv n s) (hlt : p < s.wx.cap) (hp : s.pc p = y) (ht : x.target = y.target)
    (hpl : x.placing = y.placing) (hm : x.making = y.making) (hc : x.closes = y.closes)
    (hgo : x.goesOn = y.goesOn) (hidle : x ≠ .idle) (hx : QPc.Sound s x) (hf : s.Fresh p x) :
    Inv n (s.goto p x) where
  len := h.len
  line := h.line.goto hlt hp (.inr ht) hpl hx
  handled := h.handled.goto hp hm hc (.inr hpl) fun hi => absurd hi hidle
  accounted := h.accounted.goto hf
  driven := goesOn_goto h.driven fun hgoes => by rw [hgo,← hp]; exact hgoes

/-- The return from `q_play()`, when there is no next entry or another worker will start it. -/
theorem return_ (h : Inv n s) (hlt : p < s.wx.cap) (hp : s.pc p = y) (hpl : y.placing = none)
    (hm : y.making = none) (hc : y.closes = .uncounted)
    (hgo : y.goesOn = true → s.n ≤ s.reached) : Inv n (s.return_ p) := by
  have hdriven (x : QPc) : (s.goto p x).reached < (s.goto p x).n →
      (∃ r, ((s.goto p x).pc r).goesOn = true) ∨
        ∃ t, t < (s.goto p x).nt ∧ ((s.goto p x).trk t).phase = .running := by
    intro hn
    refine goesOn_goto h.driven (fun hgoes => ?_) hn
    rw [hp] at hgoes
    have := hgo hgoes
    have : s.reached < s.n := hn
    omega
  unfold ParQueue.return_
  split
  · rename_i hj
    exact ⟨h.len,h.line.goto hlt hp (.inl rfl) hpl.symm trivial,
      h.handled.goto hp hm.symm hc.symm (.inl rfl) fun _ => hj,h.accounted.goto trivial,hdriven _⟩
  · exact ⟨h.len,h.line.goto hlt hp (.inl rfl) hpl.symm trivial,
      h.handled.goto hp hm.symm hc.symm (.inl rfl) (by simp),h.accounted.goto trivial,hdriven _⟩

/-- On with the entry at the position that the process was looking for. -/
theorem pick (h : Inv n s) (hlt : p < s.wx.cap) (hp : s.pc p = y) {i : Nat}
    (ht : y.target = some i) (hpl : y.placing = none) (hm : y.making = none)
    (hc : y.closes = .uncounted) (hgo : y.goesOn = true) : Inv n (s.pick p i) := by
  have hreached : s.reached = i := h.line.target p i (by rw [hp]; exact ht)
  unfold ParQueue.pick qGet
  by_cases hi : i < s.n
  · rw [if_pos (by omega)]
    exact h.goto hlt hp ht.symm hpl.symm hm.symm hc.symm hgo.symm (by simp) hi trivial
  · rw [if_neg (by omega)]
    exact h.return_ hlt hp hpl hm hc fun _ => by omega

/-- One track gets further in the hands of process `p`. -/
theorem driven_setPhase {t : Nat} (ph : Phase) (h : s.reached < s.n →
    (∃ p, (s.pc p).goesOn = true) ∨ ∃ t, t < s.nt ∧ (s.trk t).phase = .running)
    (hrun : (s.trk t).phase ≠ .running) : (s.setPhase t ph).reached < (s.setPhase t ph).n →
      (∃ r, ((s.setPhase t ph).pc r).goesOn = true) ∨
        ∃ u, u < (s.setPhase t ph).nt ∧ ((s.setPhase t ph).trk u).phase = .running := by
  intro hn
  refine (h hn).imp_right fun ⟨u,hu,hr⟩ => ⟨u,hu,?_⟩
  rw [setPhase_of_ne s ph (by rintro rfl; exact hrun hr)]
  exact hr

/-- `active_n--` -/
theorem activeDec (h : Inv n s) (hlt : p < s.wx.cap) {t : Nat} (hp : s.pc p = .activeDec s.activeN)
    (hj : s.job p = some t) :
    Inv n (({ s with activeN := s.activeN - 1 }.setPhase t .uncounted).goto p .nextCursor) := by
  have hheld : s.Holds p t .closing := .inr ⟨hj,by rw [hp]; rfl⟩
  obtain ⟨ht,hphase⟩ := h.handled.holds p t _ hheld
  refine ⟨h.len,?_,?_,?_,?_⟩
  · refine InLine.goto ?_ hlt (y := .activeDec s.activeN) hp (.inl rfl) rfl trivial
    exact h.line.same rfl rfl rfl rfl rfl h.line.index h.line.place
  · refine h.handled.move .uncounted ht ⟨rfl,rfl⟩ rfl
      (fun r hr => ⟨goto_of_ne _ _ hr,rfl⟩) (fun u => ?_) (fun r ph' hr => h.handled.one r p t ph' _ hr hheld)
      (fun u ph' hu => ?_)
      (fun ph' => ?_) (fun hi => ?_) (fun u ph' hm => ?_) (List.Subset.refl _)
      fun _ => h.handled.started t ht (by rw [hphase]; rfl)
    · by_cases hu : u = t
      · subst hu
        simp [ParQueue.goto,ParQueue.setPhase]
      · simp [ParQueue.goto,ParQueue.setPhase,hu]
    · unfold Holds
      rw [goto_self,hp]
      have hjob : s.job p ≠ some u := by
        rw [hj]
        exact fun heq => hu (Option.some.inj heq).symm
      simp [QPc.making,ParQueue.goto,ParQueue.setPhase,hjob]
    · unfold Holds
      rw [goto_self]
      simp [QPc.making,QPc.closes,ParQueue.goto,ParQueue.setPhase,hj,eq_comm]
    · rw [goto_self] at hi
      cases hi
    · rw [goto_self] at hm
      cases hm
  · refine Accounted.goto ?_ trivial
    refine h.accounted.setPhase ht ?_ (by rw [hphase]; rfl)
    rw [hphase]
    simp [Phase.active]
  · refine goesOn_goto (s := { s with activeN := s.activeN - 1 }.setPhase t .uncounted)
      (x := .nextCursor) ?_ fun _ => rfl
    exact driven_setPhase (s := { s with activeN := s.activeN - 1 }) .uncounted h.driven
      (by change (s.trk t).phase ≠ _; rw [hphase]; exact (by simp))

/-- The end of `qe_close()`: the entry is still in the list, and `used` is not 0. -/
theorem unrefDec (h : Inv n s) (hlt : p < s.wx.cap) {t : Nat} {v : Int} (hp : s.pc p = .unrefDec v)
    (hj : s.job p = some t) (hs : s.closeStep p t (.unrefDec v) = some s') : Inv n s' := by
  have hheld : s.Holds p t .uncounted := .inr ⟨hj,by rw [hp]; rfl⟩
  obtain ⟨ht,hphase⟩ := h.handled.holds p t _ hheld
  have hstarted := h.handled.started t ht (by rw [hphase]; rfl)
  have hreached := h.line.below _ hstarted
  have hv : v = (s.ent (s.trk t).qent).used := by
    have := h.accounted.fresh p
    rw [hp] at this
    exact this t hj
  have hpos : 1 ≤ s.onTracks (s.trk t).qent := by
    have hle := Cells.le_sum ht fun u =>
      if (s.trk u).qent = (s.trk t).qent then (s.trk u).phase.onEntry else 0
    rw [if_pos rfl,hphase] at hle
    exact hle
  have hused := h.accounted.used (s.trk t).qent (Nat.lt_of_lt_of_le hreached h.line.le)
  unfold closeStep at hs
  dsimp only at hs
  rw [if_pos (by omega)] at hs
  cases hs
  generalize hy : ({ s.ent (s.trk t).qent with used := v - 1 } : ParEntry) = y
  have halike : (s.setEnt (s.trk t).qent y).finish p t =
      { ((s.setEnt (s.trk t).qent y).setPhase t .closed).goto p .idle with
        job := Function.update s.job p none } := rfl
  have hpc : ((s.setEnt (s.trk t).qent y).finish p t).pc = (s.goto p .idle).pc := rfl
  rw [halike]
  refine ⟨h.len,?_,?_,?_,?_⟩
  · have hline : InLine (s.goto p .idle) := h.line.goto hlt hp (.inl rfl) rfl trivial
    refine hline.same rfl rfl rfl rfl rfl ?_ h.line.place
    exact setEnt_index h.line.index fun he => by rw [← hy]; exact h.line.index _ he
  · refine h.handled.move .closed ht ⟨rfl,rfl⟩ rfl
      (fun r hr => ⟨goto_of_ne _ _ hr,?_⟩) (fun u => ?_) (fun r ph' hr => h.handled.one r p t ph' _ hr hheld)
      (fun u ph' hu => ?_)
      (fun ph' => ?_) (fun _ => ?_) (fun u ph' hm => ?_) (List.Subset.refl _) fun _ => hstarted
    · exact Function.update_of_ne hr _ _
    · by_cases hu : u = t
      · subst hu
        simp [ParQueue.goto,ParQueue.setPhase,setEnt]
      · simp [ParQueue.goto,ParQueue.setPhase,setEnt,hu]
    · unfold Holds
      have hjob : s.job p ≠ some u := by
        rw [hj]
        exact fun heq => hu (Option.some.inj heq).symm
      simp [QPc.making,ParQueue.goto,hp,hjob]
    · unfold Holds
      simp [QPc.making,ParQueue.goto]
    · exact Function.update_self _ _ _
    · change (((s.goto p .idle).pc p).making) = _ at hm
      rw [goto_self] at hm
      cases hm
  · refine Accounted.setJob (s := ((s.setEnt (s.trk t).qent y).setPhase t .closed).goto p .idle) ?_
      (fun v => by rw [goto_self]; exact (by simp)) none
    refine h.accounted.setUsed ht (u := v - 1) ?_ (by rw [← hy]) (by rw [hphase]; rfl)
      (fun r hr t' v' hr' => ?_) (fun r hr t' v' hr' hj' hq => ?_) fun _ => trivial
    · rw [hphase]
      simp only [Phase.onEntry]
      omega
    · have := (h.line.placing r _ (by rw [hr']; rfl)).2
      exact this hstarted
    · have hheld' : s.Holds r t' .uncounted := .inr ⟨hj',by rw [hr']; rfl⟩
      obtain rfl := h.handled.own t' t (h.handled.holds r t' _ hheld').1 ht hq
      exact hr (h.handled.one r p t' _ _ hheld' hheld)
  · have hdriven := driven_setPhase .closed h.driven (by rw [hphase]; exact (by simp))
    exact goesOn_goto hdriven fun hgo => by
      change (s.pc p).goesOn = true at hgo
      rw [hp] at hgo
      cases hgo

/-- A step in `qe_close()`. -/
theorem closeStep (h : Inv n s) (hlt : p < s.wx.cap) {t : Nat} (hp : s.pc p = y)
    (hj : s.job p = some t) (hok : ∀ v, y = .activeDec v → s.activeN = v)
    (hs : s.closeStep p t y = some s') : Inv n s' := by
  cases y with
  | closeTrk =>
    cases hs
    split
    · exact h.goto hlt hp rfl rfl rfl rfl rfl (by simp) trivial trivial
    · exact h.goto hlt hp rfl rfl rfl rfl rfl (by simp) trivial trivial
  | clearTrk =>
    cases hs
    refine Inv.goto ?_ hlt (y := .clearTrk) hp rfl rfl rfl rfl rfl (by simp) trivial trivial
    exact h.same (alike_setEnt s _ _ rfl) (setEnt_index h.line.index (h.line.index _)) h.line.place
  | activeRead =>
    cases hs
    exact h.goto hlt hp rfl rfl rfl rfl rfl (by simp) trivial trivial
  | activeDec v =>
    cases hs
    obtain rfl := hok v rfl
    exact h.activeDec hlt hp hj
  | unrefRead =>
    cases hs
    refine h.goto hlt hp rfl rfl rfl rfl rfl (by simp) trivial fun t' ht' => ?_
    rw [hj] at ht'
    cases ht'
    rfl
  | unrefDec v => exact h.unrefDec hlt hp hj hs
  | freeRead =>
    have := h.accounted.fresh p
    rw [hp] at this
    exact this.elim
  | freeClear =>
    have := h.accounted.fresh p
    rw [hp] at this
    exact this.elim
  | _ => cases hs

/-- `track->create(c);` -/
theorem create (h : Inv n s) (hlt : p < s.wx.cap) {e w : Nat} {wx : WrkCtx}
    (hp : s.pc p = .create e) (hw : s.wx.assign w = some wx) :
    Inv n ({ s with
      wx := wx
      trk := Function.update s.trk s.nt ⟨e,w,.created,false⟩
      nt := s.nt + 1 }.goto p (.setTrk e s.nt)) := by
  obtain ⟨hcap,-,-⟩ := WrkCtx.assign_some hw h.handled.workers
  refine ⟨h.len,?_,h.handled.create h.line hp hw rfl,?_,?_⟩
  · have hline : InLine (s.goto p (.setTrk e s.nt)) := h.line.goto hlt hp (.inl rfl) rfl trivial
    exact hline.same rfl hcap rfl rfl rfl h.line.index h.line.place
  · refine Accounted.goto ?_ trivial
    exact h.accounted.create rfl fun r t hj => (h.handled.holds r t _ (.inr ⟨hj,rfl⟩)).1
  · intro _
    exact .inl ⟨p,by rw [goto_self]; rfl⟩

/-- `e->used++` -/
theorem usedInc (h : Inv n s) (hlt : p < s.wx.cap) {e t : Nat} {v : Int}
    (hp : s.pc p = .usedInc e t v) :
    Inv n (((s.setEnt e { s.ent e with used := v + 1 }).setPhase t .referenced).goto p
      (.countRead e t)) := by
  have hheld : s.Holds p t .created := .inl (by rw [hp]; rfl)
  obtain ⟨ht,hphase⟩ := h.handled.holds p t _ hheld
  have hplace : (s.pc p).placing = some e := by rw [hp]; rfl
  have hqent : (s.trk t).qent = e := by
    have := h.handled.making p t .created (by rw [hp]; rfl)
    rw [hplace] at this
    exact (Option.some.inj this).symm
  have hv : v = (s.ent e).used := by
    have := h.accounted.fresh p
    rwa [hp] at this
  refine ⟨h.len,?_,?_,?_,?_⟩
  · have hline : InLine (s.goto p (.countRead e t)) := h.line.goto hlt hp (.inl rfl) rfl trivial
    exact hline.same rfl rfl rfl rfl rfl (setEnt_index h.line.index (h.line.index e)) h.line.place
  · exact h.handled.make hp rfl rfl rfl rfl (fun _ => rfl) (by simp) (.inl rfl) rfl
      ⟨rfl,rfl⟩ rfl rfl rfl rfl (List.Subset.refl _) (fun h => by cases h)
  · subst hqent
    refine h.accounted.setUsed ht (u := v + 1) ?_ rfl (by rw [hphase]; rfl)
      (fun r hr t' v' hr' => ?_) (fun r hr t' v' hr' hj' hq => ?_) fun _ => trivial
    · rw [hphase]
      simp only [Phase.onEntry]
      omega
    · exact hr (h.line.onePlacing r p _ (by rw [hr']; rfl) hplace)
    · have hph' := h.handled.holds r t' .uncounted (.inr ⟨hj',by rw [hr']; rfl⟩)
      have := h.handled.started t' hph'.1 (by rw [hph'.2]; rfl)
      rw [hq] at this
      exact (h.line.placing p _ hplace).2 this
  · intro _
    exact .inl ⟨p,by rw [goto_self]; rfl⟩

/-- `e->q->active_n++` -/
theorem countInc (h : Inv n s) (hlt : p < s.wx.cap) {e t : Nat}
    (hp : s.pc p = .countInc e t s.activeN) :
    Inv n (({ s with activeN := s.activeN + 1 }.setPhase t .counted).goto p (.start e t)) := by
  obtain ⟨ht,hphase⟩ := h.handled.holds p t .referenced (.inl (by rw [hp]; rfl))
  refine ⟨h.len,?_,?_,?_,?_⟩
  · have hline : InLine (s.goto p (.start e t)) := h.line.goto hlt hp (.inl rfl) rfl trivial
    exact hline.same rfl rfl rfl rfl rfl h.line.index h.line.place
  · exact h.handled.make hp rfl rfl rfl
      rfl (fun _ => rfl) (by simp) (.inl rfl) rfl ⟨rfl,rfl⟩ rfl rfl rfl rfl (List.Subset.refl _)
      (fun h => by cases h)
  · refine Accounted.goto ?_ trivial
    refine h.accounted.setPhase ht ?_ (by rw [hphase]; rfl)
    rw [hphase]
    simp [Phase.active]
  · intro _
    exact .inl ⟨p,by rw [goto_self]; rfl⟩

/-- `track->start(t);` -/
theorem start (h : Inv n s) (hlt : p < s.wx.cap) {e t : Nat} (hp : s.pc p = .start e t) :
    Inv n (({ s with started := s.started ++ [e] }.setPhase t .running).goto p (.available e)) := by
  obtain ⟨ht,hphase⟩ := h.handled.holds p t .counted (.inl (by rw [hp]; rfl))
  have hqent : (s.trk t).qent = e := by
    have := h.handled.making p t .counted (by rw [hp]; rfl)
    rw [hp] at this
    exact (Option.some.inj this).symm
  refine ⟨h.len,?_,?_,?_,?_⟩
  · exact (h.line.start hlt hp rfl).same rfl rfl rfl rfl rfl h.line.index h.line.place
  · exact h.handled.make hp rfl rfl
      rfl rfl (fun h => by cases h) (fun h => by cases h) (.inr rfl) rfl ⟨rfl,rfl⟩ rfl rfl rfl rfl
      (List.subset_append_left _ _)
      fun _ => by rw [hqent]; exact List.mem_append_right _ List.mem_cons_self
  · refine Accounted.goto ?_ trivial
    have hacc : Accounted { s with started := s.started ++ [e] } :=
      h.accounted.same rfl rfl rfl rfl rfl (fun _ => ⟨rfl,rfl⟩) fun _ => rfl
    refine hacc.setPhase ht ?_ ?_
    · rw [hphase]
      simp [Phase.active]
    · change (s.trk t).phase.onEntry = _
      rw [hphase]
      rfl
  · intro _
    refine .inr ⟨t,ht,?_⟩
    change (({ s with started := s.started ++ [e] }.setPhase t .running).trk t).phase = _
    rw [setPhase_self]

/-- A step in `q_play_next()` or `q_play()`. -/
theorem playStep (h : Inv n s) (hlt : p < s.wx.cap) {w : Nat} (hp : s.pc p = y)
    (hok : s.Undisturbed (.step p w)) (hs : s.playStep p w y = some s') : Inv n s' := by
  unfold Undisturbed at hok
  dsimp only at hok
  rw [hp] at hok
  have hreached {i : Nat} (ht : y.target = some i) : s.reached = i :=
    h.line.target p i (by rw [hp]; exact ht)
  have hplaced {e : Nat} (hpl : y.placing = some e) : e < s.reached :=
    (h.line.placing p e (by rw [hp]; exact hpl)).1
  cases y with
  | nextCursor =>
    cases hs
    have hmove (i : Nat) (x : QPc) (hx : x.target = some i) (hi : s.reached = i)
        (hpl : x.placing = none) (hm : x.making = none) (hc : x.closes = .uncounted)
        (hgo : x.goesOn = true) (hidle : x ≠ .idle) (hsound : QPc.Sound s x) (hf : s.Fresh p x) :
        Inv n (s.goto p x) := by
      refine ⟨h.len,?_,?_,h.accounted.goto hf,goesOn_goto h.driven fun _ => hgo⟩
      · refine h.line.move hlt hp (fun j hj => ?_) hpl hsound
        rw [hx] at hj
        cases hj
        exact ⟨hi,.inr hok⟩
      · exact h.handled.goto hp hm hc (.inl hm) fun hi => absurd hi hidle
    split
    · rename_i hcur
      exact hmove 0 _ rfl (by simp [reached,hcur]) rfl rfl rfl rfl (by simp) trivial trivial
    · rename_i c hcur
      exact hmove (c + 1) _ rfl (by simp [reached,hcur]) rfl rfl rfl rfl (by simp) trivial trivial
  | nextIndex c =>
    cases hs
    have hc : c + 1 ≤ s.n := (hreached (i := c + 1) rfl) ▸ h.line.le
    have hi := h.line.index c (by omega)
    rw [if_pos (by omega)]
    exact h.goto hlt hp rfl rfl rfl rfl rfl (by simp) trivial trivial
  | readPlace =>
    cases hs
    have hnone : s.cursor = none := by
      have := hreached (i := 0) rfl
      unfold reached at this
      split at this
      · assumption
      · omega
    rw [h.line.place hnone]
    exact h.pick hlt hp (i := 0) rfl rfl rfl rfl rfl
  | indexCheck k e =>
    cases hs
    split
    · cases k <;> exact h.goto hlt hp rfl rfl rfl rfl rfl (by simp) trivial trivial
    · cases k <;> exact h.goto hlt hp rfl rfl rfl rfl rfl (by simp) trivial trivial
  | indexFind k e =>
    cases hs
    have hfound : Inv n (s.setEnt e { s.ent e with index := s.qFind e }) := by
      refine h.same (alike_setEnt s _ _ rfl) (setEnt_index h.line.index fun he => ?_) h.line.place
      simp [qFind,he]
    cases k <;> exact hfound.goto hlt hp rfl rfl rfl rfl rfl (by simp) trivial trivial
  | indexReturn k e =>
    cases k with
    | playNext =>
      cases hs
      have hc : e + 1 ≤ s.n := (hreached (i := e + 1) rfl) ▸ h.line.le
      rw [h.line.index e (by omega)]
      exact h.pick hlt hp (i := e + 1) rfl rfl rfl rfl rfl
    | play =>
      cases hs
      exact h.goto hlt hp rfl rfl rfl rfl rfl (by simp) trivial trivial
  | setCursor e =>
    cases hs
    refine ⟨h.len,h.line.setCursor hlt hp,?_,?_,?_⟩
    · refine Handled.goto (y := .setCursor e) ?_ hp rfl rfl (.inl rfl) (by simp)
      exact h.handled.same ⟨rfl,rfl⟩ rfl rfl rfl (fun _ => ⟨rfl,rfl,rfl⟩) rfl
    · refine Accounted.goto ?_ trivial
      exact h.accounted.same rfl rfl rfl rfl rfl (fun _ => ⟨rfl,rfl⟩) fun _ => rfl
    · intro _
      exact .inl ⟨p,by rw [goto_self]; rfl⟩
  | setPlace e i =>
    cases hs
    refine Inv.goto ?_ hlt (y := .setPlace e i) hp rfl rfl rfl rfl rfl (by simp) trivial trivial
    refine h.same ⟨rfl,rfl,rfl,rfl,rfl,rfl,rfl,rfl,rfl,fun _ => ⟨rfl,rfl,rfl⟩,fun _ => rfl⟩
      h.line.index fun hnone => ?_
    have := hplaced (e := e) rfl
    simp [reached,hnone] at this
  | create e =>
    obtain ⟨wx,hw,rfl⟩ := Option.map_eq_some_iff.mp hs
    exact h.create hlt hp hw
  | setTrk e t =>
    cases hs
    refine Inv.goto ?_ hlt (y := .setTrk e t) hp rfl rfl rfl rfl rfl (by simp) trivial trivial
    exact h.same (alike_setEnt s _ _ rfl) (setEnt_index h.line.index (h.line.index e)) h.line.place
  | usedRead e t =>
    cases hs
    exact h.goto hlt hp rfl rfl rfl rfl rfl (by simp) trivial rfl
  | usedInc e t v =>
    cases hs
    exact h.usedInc hlt hp
  | countRead e t =>
    cases hs
    exact h.goto hlt hp rfl rfl rfl rfl rfl (by simp) trivial trivial
  | countInc e t v =>
    cases hs
    obtain rfl : s.activeN = v := hok
    exact h.countInc hlt hp
  | start e t =>
    cases hs
    exact h.start hlt hp
  | available e =>
    cases hs
    have he : e < s.reached := by
      have := h.line.sound p
      rw [hp] at this
      exact h.line.below e this
    have hle := h.line.le
    split
    · rename_i hav
      have hat : s.reached = e + 1 := by
        by_cases hlast : e + 1 < s.n
        · exact (hok hav hlast).1
        · omega
      refine ⟨h.len,?_,?_,h.accounted.goto trivial,goesOn_goto h.driven fun _ => rfl⟩
      · refine h.line.move hlt hp (fun i hi => ?_) rfl trivial
        cases hi
        exact ⟨hat,.inr fun hlast => (hok hav (by omega)).2⟩
      · exact h.handled.goto hp rfl rfl (.inl rfl) (by simp)
    · exact h.return_ hlt hp rfl rfl rfl (fun h => by cases h)
  | nextEntry e =>
    cases hs
    have hc : e + 1 ≤ s.n := (hreached (i := e + 1) rfl) ▸ h.line.le
    rw [h.line.index e (by omega)]
    exact h.pick hlt hp (i := e + 1) rfl rfl rfl rfl rfl
  | _ => cases hs

theorem complete (h : Inv n s) {t : Nat} (ht : t < s.nt) (hrun : (s.trk t).phase = .running)
    (hidle : s.pc (s.trk t).worker = .idle) :
    Inv n { (s.setPhase t .closing).goto (s.trk t).worker .closeTrk with
      job := Function.update s.job (s.trk t).worker (some t) } := by
  have hlt := h.handled.worker t ht
  generalize (s.trk t).worker = w at hidle hlt ⊢
  have hjob : s.job w = none := h.handled.idle w hidle
  have hnot (r : Nat) (ph : Phase) : ¬s.Holds r t ph := by
    intro hr
    have := (h.handled.holds r t ph hr).2
    rw [hrun] at this
    subst this
    obtain hm | ⟨-,hc⟩ := hr
    · cases hpc : s.pc r <;> rw [hpc] at hm <;> cases hm
    · cases hpc : s.pc r <;> rw [hpc] at hc <;> cases hc
  refine ⟨h.len,?_,?_,?_,?_⟩
  · have hline : InLine (s.goto w .closeTrk) := h.line.goto hlt hidle (.inl rfl) rfl trivial
    exact hline.same rfl rfl rfl rfl rfl h.line.index h.line.place
  · refine h.handled.move (p := w) .closing ht ⟨rfl,rfl⟩ rfl
      (fun r hr => ⟨goto_of_ne _ _ hr,?_⟩) (fun u => ?_) (fun r ph' hr => absurd hr (hnot r ph'))
      (fun u ph' hu => ?_)
      (fun ph' => ?_) (fun hi => ?_) (fun u ph' hm => ?_) (List.Subset.refl _)
      fun _ => h.handled.started t ht (by rw [hrun]; rfl)
    · exact Function.update_of_ne hr _ _
    · by_cases hu : u = t
      · subst hu
        simp [ParQueue.goto,ParQueue.setPhase]
      · simp [ParQueue.goto,ParQueue.setPhase,hu]
    · unfold Holds
      simp [QPc.making,ParQueue.goto,ParQueue.setPhase,hidle,hjob,hu.symm]
    · unfold Holds
      simp [QPc.making,QPc.closes,ParQueue.goto,ParQueue.setPhase,eq_comm]
    · change (s.goto w .closeTrk).pc w = .idle at hi
      rw [goto_self] at hi
      cases hi
    · change ((s.goto w .closeTrk).pc w).making = _ at hm
      rw [goto_self] at hm
      cases hm
  · have hacc : Accounted ((s.setPhase t .closing).goto w .closeTrk) := by
      refine Accounted.goto ?_ trivial
      refine h.accounted.setPhase ht ?_ (by rw [hrun]; rfl)
      rw [hrun]
      simp [Phase.active]
    refine hacc.setJob (fun v => ?_) (some t)
    rw [goto_self]
    exact (by simp)
  · intro _
    refine .inl ⟨w,?_⟩
    change ((s.goto w .closeTrk).pc w).goesOn = true
    rw [goto_self]
    rfl

end Inv

theorem inv_init (n m : Nat) : Inv n (init n m) := by
  have hpc (p : Nat) : p = 0 ∧ (init n m).pc p = .readPlace ∨ p ≠ 0 ∧ (init n m).pc p = .idle := by
    by_cases hp : p = 0
    · exact .inl ⟨hp,by simp [init,hp]⟩
    · exact .inr ⟨hp,by simp [init,hp]⟩
  have hplacing (p : Nat) : ((init n m).pc p).placing = none := by
    obtain ⟨-,hp⟩ | ⟨-,hp⟩ := hpc p <;> rw [hp] <;> rfl
  have hholds (p t : Nat) (ph : Phase) : ¬(init n m).Holds p t ph := by
    rintro (hm | ⟨hj,-⟩)
    · obtain ⟨-,hp⟩ | ⟨-,hp⟩ := hpc p <;> rw [hp] at hm <;> cases hm
    · cases hj
  refine ⟨rfl,?_,?_,?_,fun _ => .inl ⟨0,rfl⟩⟩
  · refine ⟨Nat.zero_le n,fun _ _ => rfl,fun _ => rfl,fun p hp => ?_,fun p i hi => ?_,
      fun _ p r hp hr => ?_,fun p => ?_,fun p e he => ?_,fun p r e he => ?_,
      fun e he => absurd he (Nat.not_lt_zero e),List.nodup_nil,(fun e he => by cases he)⟩
    · obtain ⟨rfl,-⟩ | ⟨-,hp'⟩ := hpc p
      · exact absurd hp (by simp [init])
      · exact hp'
    · obtain ⟨-,hp⟩ | ⟨-,hp⟩ := hpc p <;> rw [hp] at hi <;> cases hi
      rfl
    · obtain ⟨rfl,-⟩ | ⟨-,hp'⟩ := hpc p
      · obtain ⟨rfl,-⟩ | ⟨-,hr'⟩ := hpc r
        · rfl
        · rw [hr'] at hr
          cases hr
      · rw [hp'] at hp
        cases hp
    · obtain ⟨-,hp⟩ | ⟨-,hp⟩ := hpc p <;> rw [hp] <;> trivial
    · rw [hplacing] at he
      cases he
    · rw [hplacing] at he
      cases he
  · refine ⟨by simp [init],fun t ht => absurd ht (Nat.not_lt_zero t),fun _ _ => rfl,
      fun p t ph hp => absurd hp (hholds p t ph),
      fun p r t ph ph' hp => absurd hp (hholds p t ph),
      fun t ht => absurd ht (Nat.not_lt_zero t),fun p t ph hm => ?_,
      fun t ht => absurd ht (Nat.not_lt_zero t),fun t _ ht => absurd ht (Nat.not_lt_zero t)⟩
    exact absurd (.inl hm) (hholds p t ph)
  · refine ⟨rfl,fun _ _ => rfl,fun p => ?_⟩
    obtain ⟨-,hp⟩ | ⟨-,hp⟩ := hpc p <;> rw [hp] <;> trivial

theorem step_inv {n : Nat} (s : ParQueue) (a : Act) (s' : ParQueue) (h : Inv n s)
    (hok : s.Undisturbed a) (hs : s.step a = some s') : Inv n s' := by
  cases a with
  | step p w =>
    simp only [step,Option.ite_none_right_eq_some,Option.or_eq_some_iff] at hs
    obtain ⟨hlt,hs | ⟨-,hs⟩⟩ := hs
    · exact h.playStep hlt rfl hok hs
    · obtain ⟨t,hj,hs⟩ := Option.bind_eq_some_iff.mp hs
      refine h.closeStep hlt rfl hj (fun v hv => ?_) hs
      unfold Undisturbed at hok
      dsimp only at hok
      rwa [hv] at hok
  | complete t =>
    simp only [step,Option.ite_none_right_eq_some] at hs
    obtain ⟨⟨ht,hrun,hidle⟩,hs⟩ := hs
    cases hs
    exact h.complete ht hrun hidle
  | release t =>
    simp only [step,Option.ite_none_right_eq_some] at hs
    obtain ⟨⟨ht,hclosed,-⟩,hs⟩ := hs
    cases hs
    refine h.same ⟨rfl,rfl,rfl,rfl,rfl,rfl,rfl,rfl,rfl,fun u => ?_,fun _ => rfl⟩ h.line.index
      h.line.place
    by_cases hu : u = t
    · subst hu
      simp
    · simp [hu]

theorem Inv.idle {n : Nat} {s : ParQueue} (h : Inv n s) (hq : s.Quiet) (p : Nat) :
    s.pc p = .idle := by
  by_cases hp : p < s.wx.cap
  · exact hq p hp
  · exact h.line.outside p (by omega)

theorem Inv.quiet {n t : Nat} {s : ParQueue} (h : Inv n s) (hq : s.Quiet) (ht : t < s.nt) :
    (s.trk t).phase = .running ∨ (s.trk t).phase = .closed := by
  by_contra hne
  rw [not_or] at hne
  obtain ⟨p,ph,hm | ⟨hj,-⟩⟩ := h.handled.held t ht hne.1 hne.2
  · rw [h.idle hq p] at hm
    cases hm
  · rw [h.handled.idle p (h.idle hq p)] at hj
    cases hj

theorem Inv.quiet_counts {n : Nat} {s : ParQueue} (h : Inv n s) (hq : s.Quiet) :
    s.activeTracks = s.openTracks ∧ ∀ e, s.onTracks e = s.openOn e := by
  unfold activeTracks openTracks onTracks openOn
  simp only [card_filter]
  refine ⟨sum_congr rfl fun t ht => ?_,fun e => sum_congr rfl fun t ht => ?_⟩
  · obtain hph | hph := h.quiet hq (mem_range.mp ht) <;> rw [hph] <;> rfl
  · by_cases he : (s.trk t).qent = e
    · obtain hph | hph := h.quiet hq (mem_range.mp ht) <;> rw [if_pos he,hph] <;>
        simp [Phase.onEntry,he]
    · simp [he]

/-- In a run without disturbance no file is started twice; whenever no handler is under way the
counters are right; and when no track is open either, every file was started. -/
theorem parallel_conversion {n m : Nat} {as : List Act} {s : ParQueue}
    (hs : Machine.run step (init n m) as = some s)
    (hok : Machine.AllSteps step Undisturbed (init n m) as) :
    (∀ e, s.started.count e ≤ 1) ∧
      (s.Quiet → s.activeN = s.openTracks ∧ (∀ e < n, (s.ent e).used = 1 + s.openOn e) ∧
        (s.openTracks = 0 → ∀ e < n, s.started.count e = 1)) := by
  have h : Inv n s := Machine.guarded_invariant step_inv hok hs (inv_init n m)
  refine ⟨fun e => List.nodup_iff_count_le_one.mp h.line.nodup e,fun hq => ?_⟩
  obtain ⟨hactive,hon⟩ := h.quiet_counts hq
  refine ⟨?_,fun e he => ?_,fun hnone e he => ?_⟩
  · rw [h.accounted.active,hactive]
  · rw [h.accounted.used e (h.len.symm ▸ he),hon]
  · have hreached : n ≤ s.reached := by
      by_contra hlt
      obtain ⟨p,hp⟩ | ⟨t,ht,hrun⟩ := h.driven (by rw [h.len]; omega)
      · rw [h.idle hq p] at hp
        cases hp
      · have hmem : t ∈ (range s.nt).filter fun t => (s.trk t).phase ≠ .closed :=
          mem_filter.mpr ⟨mem_range.mpr ht,by rw [hrun]; exact (by simp)⟩
        rw [card_eq_zero.mp hnone] at hmem
        cases hmem
    refine List.count_eq_one_of_mem h.line.nodup ?_
    obtain hm | ⟨p,hp⟩ := h.line.done e (by omega)
    · exact hm
    · rw [h.idle hq p] at hp
      cases hp

instance (s : ParQueue) (p : Nat) : Decidable (s.Alone p) :=
  inferInstanceAs (Decidable (∀ r < s.wx.cap, _))

instance (s : ParQueue) (a : Act) : Decidable (s.Undisturbed a) := by
  unfold Undisturbed
  cases a with
  | step p w =>
    dsimp only
    cases s.pc p with
    | nextCursor => exact inferInstanceAs (Decidable (_ → _))
    | available e => exact inferInstanceAs (Decidable (_ → _ → _ ∧ _))
    | activeDec v => exact inferInstanceAs (Decidable (_ = _))
    | countInc e t v => exact inferInstanceAs (Decidable (_ = _))
    | _ => exact isTrue trivial
  | _ => exact isTrue trivial

/-- `k` steps of process `p`, whose new track is assigned to worker `w`. -/
def steps (k p w : Nat) : List Act := List.replicate k (.step p w)

/-- Two workers have started a track each. -/
def twoRunning : List Act := steps 12 0 0 ++ steps 14 0 1

/-- The tracks end one after the other. -/
def inTurn : List Act :=
  twoRunning ++ [Act.complete 0] ++ steps 22 0 0 ++ [Act.release 0,Act.complete 1] ++ steps 10 1 1 ++
    [Act.release 1,Act.complete 2] ++ steps 10 0 0

def afterTurns : ParQueue := (Machine.run step (init 3 1) inTurn).getD (init 3 1)

theorem parallel_conversion_in_turn : (afterTurns.Quiet ∧ afterTurns.openTracks = 0) ∧
    (∀ e, afterTurns.started.count e ≤ 1) ∧
      (afterTurns.Quiet → afterTurns.activeN = afterTurns.openTracks ∧
        (∀ e < 3, (afterTurns.ent e).used = 1 + afterTurns.openOn e) ∧
        (afterTurns.openTracks = 0 → ∀ e < 3, afterTurns.started.count e = 1)) :=
  have hrun : Machine.run step (init 3 1) inTurn = some afterTurns :=
    Machine.run_eq_getD (by decide +kernel)
  ⟨by decide +kernel,parallel_conversion hrun (by decide +kernel)⟩

/-- The tracks end at once, and both workers read the cursor before either moves it. -/
def atOnce : List Act :=
  twoRunning ++ [Act.complete 0,Act.complete 1] ++ steps 4 0 0 ++ steps 4 1 1 ++ steps 1 0 0 ++
    steps 1 1 1 ++ steps 17 0 0 ++ steps 17 1 1

/-- Then both start the third file. -/
theorem both_start_third : ¬ ∀ (n m : Nat) (as : List Act) (s : ParQueue),
    Machine.run step (init n m) as = some s → (∀ e, s.started.count e ≤ 1) ∧
      (s.Quiet → s.activeN = s.openTracks ∧ (∀ e < n, (s.ent e).used = 1 + s.openOn e) ∧
        (s.openTracks = 0 → ∀ e < n, s.started.count e = 1)) := by
  intro h
  have htwice := (h 3 1 atOnce ((Machine.run step (init 3 1) atOnce).getD (init 3 1))
    (Machine.run_eq_getD (by decide +kernel))).1 2
  exact absurd htwice (by decide +kernel)

end ParQueue

end Phiola
