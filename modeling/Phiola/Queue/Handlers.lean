import Phiola.Framework.Cells
import Phiola.Queue.Places

/-!
# Who holds a track

From its creation to its start, and again while it is closed, a track is in the hands of one
process. What `active_n` and `used` should be follows from how far each track is.
-/

namespace Phiola

/-- The track is not started yet. -/
def Phase.early : Phase → Bool
  | .created | .referenced | .counted => true
  | _ => false

/-- `active_n` counts the track. -/
def Phase.active : Phase → Nat
  | .counted | .running | .closing => 1
  | _ => 0

/-- The entry counts the track. -/
def Phase.onEntry : Phase → Nat
  | .created | .closed => 0
  | _ => 1

namespace ParQueue

open Finset

/-- The process is between the creation and the start of the track, or closes it. -/
def Holds (s : ParQueue) (p t : Nat) (ph : Phase) : Prop :=
  (s.pc p).making = some (t,ph) ∨ s.job p = some t ∧ (s.pc p).closes = ph

/-- A track that neither runs nor is closed is in the hands of one process, and no two tracks are on
one entry. -/
structure Handled (s : ParQueue) : Prop where
  workers : s.wx.len ≤ s.wx.cap
  worker : ∀ t, t < s.nt → (s.trk t).worker < s.wx.cap
  idle : ∀ p, s.pc p = .idle → s.job p = none
  holds : ∀ p t ph, s.Holds p t ph → t < s.nt ∧ (s.trk t).phase = ph
  one : ∀ p r t ph ph', s.Holds p t ph → s.Holds r t ph' → p = r
  held : ∀ t, t < s.nt → (s.trk t).phase ≠ .running → (s.trk t).phase ≠ .closed →
    ∃ p ph, s.Holds p t ph
  making : ∀ p t ph, (s.pc p).making = some (t,ph) → (s.pc p).placing = some (s.trk t).qent
  started : ∀ t, t < s.nt → (s.trk t).phase.early = false → (s.trk t).qent ∈ s.started
  own : ∀ t u, t < s.nt → u < s.nt → (s.trk t).qent = (s.trk u).qent → t = u

namespace Handled

variable {s s' : ParQueue} {p t : Nat} {x y : QPc} {ph : Phase}

theorem same (h : Handled s) (hwx : s'.wx.len = s.wx.len ∧ s'.wx.cap = s.wx.cap)
    (hnt : s'.nt = s.nt) (hpc : s'.pc = s.pc) (hjob : s'.job = s.job)
    (htrk : ∀ u, (s'.trk u).qent = (s.trk u).qent ∧ (s'.trk u).worker = (s.trk u).worker ∧
      (s'.trk u).phase = (s.trk u).phase) (hstarted : s'.started = s.started) : Handled s' := by
  have hholds (r u : Nat) (ph : Phase) : s'.Holds r u ph ↔ s.Holds r u ph := by
    unfold Holds
    rw [hpc,hjob]
  constructor
  · rw [hwx.1,hwx.2]; exact h.workers
  · intro u hu
    rw [(htrk u).2.1,hwx.2]
    exact h.worker u (hnt ▸ hu)
  · rw [hpc,hjob]; exact h.idle
  · intro r u ph hr
    rw [hnt,(htrk u).2.2]
    exact h.holds r u ph ((hholds r u ph).mp hr)
  · intro r r' u ph ph' hr hr'
    exact h.one r r' u ph ph' ((hholds r u ph).mp hr) ((hholds r' u ph').mp hr')
  · intro u hu
    rw [(htrk u).2.2]
    intro hrun hclosed
    obtain ⟨r,ph,hr⟩ := h.held u (hnt ▸ hu) hrun hclosed
    exact ⟨r,ph,(hholds r u ph).mpr hr⟩
  · intro r u ph hr
    rw [(htrk u).1]
    rw [hpc] at hr ⊢
    exact h.making r u ph hr
  · intro u hu he
    rw [(htrk u).1,hstarted]
    exact h.started u (hnt ▸ hu) ((htrk u).2.2 ▸ he)
  · intro u v hu hv
    rw [(htrk u).1,(htrk v).1]
    exact h.own u v (hnt ▸ hu) (hnt ▸ hv)

/-- Process `p` moves on with track `t`. -/
theorem move (h : Handled s) (ph : Phase) (ht : t < s.nt)
    (hwx : s'.wx.len = s.wx.len ∧ s'.wx.cap = s.wx.cap) (hnt : s'.nt = s.nt)
    (hother : ∀ r, r ≠ p → s'.pc r = s.pc r ∧ s'.job r = s.job r)
    (htrk : ∀ u, (s'.trk u).qent = (s.trk u).qent ∧ (s'.trk u).worker = (s.trk u).worker ∧
      (s'.trk u).phase = if u = t then ph else (s.trk u).phase)
    (hfree : ∀ r ph', s.Holds r t ph' → r = p)
    (hkeep : ∀ u ph', u ≠ t → (s'.Holds p u ph' ↔ s.Holds p u ph'))
    (hnow : ∀ ph', s'.Holds p t ph' ↔ ph' = ph ∧ ph ≠ .running ∧ ph ≠ .closed)
    (hidle : s'.pc p = .idle → s'.job p = none)
    (hmaking : ∀ u ph', (s'.pc p).making = some (u,ph') →
      (s'.pc p).placing = some (s.trk u).qent)
    (hstarted : s.started ⊆ s'.started) (hnew : ph.early = false → (s.trk t).qent ∈ s'.started) :
    Handled s' := by
  have hrest {r u : Nat} {ph' : Phase} (hr : r ≠ p) : s'.Holds r u ph' ↔ s.Holds r u ph' := by
    unfold Holds
    rw [(hother r hr).1,(hother r hr).2]
  -- a process other than `p` does not hold `t`, before and after
  have hold {r u : Nat} {ph' : Phase} (hu : u ≠ t) : s'.Holds r u ph' ↔ s.Holds r u ph' := by
    by_cases hr : r = p
    · subst hr
      exact hkeep u ph' hu
    · exact hrest hr
  have honly {r : Nat} {ph' : Phase} (hr : s'.Holds r t ph') : r = p := by
    by_contra hne
    exact hne (hfree r ph' ((hrest hne).mp hr))
  constructor
  · rw [hwx.1,hwx.2]; exact h.workers
  · intro u hu
    rw [(htrk u).2.1,hwx.2]
    exact h.worker u (hnt ▸ hu)
  · intro r hr
    by_cases hrp : r = p
    · subst hrp
      exact hidle hr
    · rw [(hother r hrp).1] at hr
      rw [(hother r hrp).2]
      exact h.idle r hr
  · intro r u ph' hr
    rw [hnt,(htrk u).2.2]
    by_cases hu : u = t
    · subst hu
      obtain rfl := honly hr
      rw [if_pos rfl]
      exact ⟨ht,((hnow ph').mp hr).1.symm⟩
    · rw [if_neg hu]
      exact h.holds r u ph' ((hold hu).mp hr)
  · intro r r' u ph₁ ph₂ hr hr'
    by_cases hu : u = t
    · subst hu
      rw [honly hr,honly hr']
    · exact h.one r r' u ph₁ ph₂ ((hold hu).mp hr) ((hold hu).mp hr')
  · intro u hu
    rw [(htrk u).2.2]
    by_cases hut : u = t
    · subst hut
      rw [if_pos rfl]
      exact fun hrun hclosed => ⟨p,ph,(hnow ph).mpr ⟨rfl,hrun,hclosed⟩⟩
    · rw [if_neg hut]
      intro hrun hclosed
      obtain ⟨r,ph',hr⟩ := h.held u (hnt ▸ hu) hrun hclosed
      exact ⟨r,ph',(hold hut).mpr hr⟩
  · intro r u ph' hr
    rw [(htrk u).1]
    by_cases hrp : r = p
    · subst hrp
      exact hmaking u ph' hr
    · rw [(hother r hrp).1] at hr ⊢
      exact h.making r u ph' hr
  · intro u hu
    rw [(htrk u).1,(htrk u).2.2]
    by_cases hut : u = t
    · subst hut
      rw [if_pos rfl]
      exact hnew
    · rw [if_neg hut]
      exact fun he => hstarted (h.started u (hnt ▸ hu) he)
  · intro u v hu hv
    rw [(htrk u).1,(htrk v).1]
    exact h.own u v (hnt ▸ hu) (hnt ▸ hv)

/-- `qe_play()` gets on with the track that it makes. -/
theorem make (h : Handled s) {ph₀ : Phase} (hp : s.pc p = y) (hy : y.making = some (t,ph₀))
    (hearly : ph₀.early = true) (hc : x.closes = y.closes)
    (hx : x.making = if ph.early then some (t,ph) else none)
    (hpl : ph.early = true → x.placing = y.placing) (hidle : x ≠ .idle)
    (hph : ph.early = true ∨ ph = .running) (hcl : y.closes = .uncounted)
    (hwx : s'.wx.len = s.wx.len ∧ s'.wx.cap = s.wx.cap) (hnt : s'.nt = s.nt) (hpc : s'.pc = s.pc)
    (hjob : s'.job = s.job) (htrk : s'.trk = s.trk) (hstarted : s.started ⊆ s'.started)
    (hnew : ph.early = false → (s.trk t).qent ∈ s'.started) :
    Handled ((s'.setPhase t ph).goto p x) := by
  have hheld : s.Holds p t ph₀ := .inl (by rw [hp]; exact hy)
  obtain ⟨ht,hphase⟩ := h.holds p t ph₀ hheld
  have hself := goto_self (s'.setPhase t ph) p x
  have hother {r : Nat} (hr : r ≠ p) : ((s'.setPhase t ph).goto p x).pc r = s.pc r := by
    rw [goto_of_ne _ x hr]
    exact congrFun hpc r
  have hjob' : ((s'.setPhase t ph).goto p x).job = s.job := hjob
  -- a process closes no track that it still makes
  have hnot (ph' : Phase) : ¬(s.job p = some t ∧ x.closes = ph') := by
    rintro ⟨hj,-⟩
    have := (h.holds p t y.closes (.inr ⟨hj,by rw [hp]⟩)).2
    rw [hphase,hcl] at this
    subst this
    cases hearly
  refine h.move ph ht hwx hnt (fun r hr => ⟨hother hr,congrFun hjob' r⟩) (fun u => ?_)
    (fun r ph' hr => h.one r p t ph' ph₀ hr hheld) (fun u ph' hu => ?_) (fun ph' => ?_)
    (fun hi => ?_) (fun u ph' hm => ?_) hstarted hnew
  · change ((s'.setPhase t ph).trk u).qent = _ ∧ ((s'.setPhase t ph).trk u).worker = _ ∧
      ((s'.setPhase t ph).trk u).phase = _
    by_cases hu : u = t
    · subst hu
      rw [setPhase_self,htrk,if_pos rfl]
      exact ⟨rfl,rfl,rfl⟩
    · rw [setPhase_of_ne _ ph hu,htrk,if_neg hu]
      exact ⟨rfl,rfl,rfl⟩
  · unfold Holds
    rw [hself,hjob',hp,hc,hx,hy]
    have hut : (t,ph₀) ≠ (u,ph') := fun heq => hu (congrArg Prod.fst heq).symm
    have hut' : (t,ph) ≠ (u,ph') := fun heq => hu (congrArg Prod.fst heq).symm
    cases ph.early <;> simp [hut,hut']
  · unfold Holds
    rw [hself,hjob',hx]
    obtain he | rfl := hph
    · rw [if_pos he]
      constructor
      · rintro (hm | hj)
        · cases hm
          refine ⟨rfl,?_,?_⟩ <;> rintro rfl <;> cases he
        · exact absurd hj (hnot ph')
      · rintro ⟨rfl,-⟩
        exact .inl rfl
    · constructor
      · rintro (hm | hj)
        · cases hm
        · exact absurd hj (hnot ph')
      · rintro ⟨-,hrun,-⟩
        exact absurd rfl hrun
  · rw [hself] at hi
    exact absurd hi hidle
  · rw [hself] at hm ⊢
    rw [hx] at hm
    split at hm
    · rename_i he
      cases hm
      rw [hpl he,← hp]
      exact h.making p t ph₀ (by rw [hp]; exact hy)
    · cases hm

theorem goto (h : Handled s) (hp : s.pc p = y) (hm : x.making = y.making)
    (hc : x.closes = y.closes) (hpl : x.making = none ∨ x.placing = y.placing)
    (hidle : x = .idle → s.job p = none) : Handled (s.goto p x) := by
  have hmaking := goto_same QPc.making hp hm
  have hholds (r u : Nat) (ph : Phase) : (s.goto p x).Holds r u ph ↔ s.Holds r u ph := by
    unfold Holds
    rw [hmaking,goto_same QPc.closes hp hc]
    rfl
  refine ⟨h.workers,h.worker,fun r hr => ?_,fun r u ph hr => ?_,fun r r' u ph ph' hr hr' => ?_,
    fun u hu hrun hclosed => ?_,fun r u ph hr => ?_,h.started,h.own⟩
  · by_cases hrp : r = p
    · subst hrp
      rw [goto_self] at hr
      exact hidle hr
    · rw [goto_of_ne s x hrp] at hr
      exact h.idle r hr
  · exact h.holds r u ph ((hholds r u ph).mp hr)
  · exact h.one r r' u ph ph' ((hholds r u ph).mp hr) ((hholds r' u ph').mp hr')
  · obtain ⟨r,ph,hr⟩ := h.held u hu hrun hclosed
    exact ⟨r,ph,(hholds r u ph).mpr hr⟩
  · by_cases hrp : r = p
    · subst hrp
      rw [goto_self] at hr ⊢
      obtain hnone | hpl := hpl
      · rw [hnone] at hr
        cases hr
      · rw [hpl,← hp]
        exact h.making r u ph (by rw [hp,← hm]; exact hr)
    · rw [goto_of_ne s x hrp] at hr ⊢
      exact h.making r u ph hr

/-- `track->create(c);` -/
theorem create (h : Handled s) (hline : InLine s) {e w : Nat} {wx : WrkCtx}
    (hp : s.pc p = .create e) (hw : s.wx.assign w = some wx)
    (hs' : s' = { s with
      wx := wx
      trk := Function.update s.trk s.nt ⟨e,w,.created,false⟩
      nt := s.nt + 1 }) : Handled (s'.goto p (.setTrk e s.nt)) := by
  obtain ⟨hcap,hlen,hwcap⟩ := WrkCtx.assign_some hw h.workers
  have hnt : s'.nt = s.nt + 1 := by rw [hs']
  have hnew : s'.trk s.nt = ⟨e,w,.created,false⟩ := by rw [hs']; simp
  have hold {u : Nat} (hu : u < s.nt) : s'.trk u = s.trk u := by
    rw [hs']
    simp [Nat.ne_of_lt hu]
  have hself := goto_self s' p (.setTrk e s.nt)
  have hother {r : Nat} (hr : r ≠ p) : (s'.goto p (.setTrk e s.nt)).pc r = s.pc r := by
    rw [goto_of_ne s' _ hr,hs']
  have hjob : (s'.goto p (.setTrk e s.nt)).job = s.job := by rw [hs']; rfl
  have hplace : (s.pc p).placing = some e := by rw [hp]; rfl
  -- process `p` held no track that it was making, and now holds the new one
  have hholds (r u : Nat) (ph : Phase) (hr : (s'.goto p (.setTrk e s.nt)).Holds r u ph) :
      r = p ∧ u = s.nt ∧ ph = .created ∨ s.Holds r u ph := by
    unfold Holds at hr
    rw [hjob] at hr
    by_cases hrp : r = p
    · subst hrp
      rw [hself] at hr
      obtain hr | ⟨hj,hc⟩ := hr
      · cases hr
        exact .inl ⟨rfl,rfl,rfl⟩
      · exact .inr (.inr ⟨hj,by rw [hp]; exact hc⟩)
    · rw [hother hrp] at hr
      exact .inr hr
  -- no track is on the entry yet: it would be started or in the hands of its placer
  have hfresh (u : Nat) (hu : u < s.nt) : (s.trk u).qent ≠ e := by
    intro hq
    have hnot := (hline.placing p e hplace).2
    cases hearly : (s.trk u).phase.early with
    | false => exact hnot (hq ▸ h.started u hu hearly)
    | true =>
      obtain ⟨r,ph,hr⟩ := h.held u hu (by rintro hph; rw [hph] at hearly; cases hearly)
        (by rintro hph; rw [hph] at hearly; cases hearly)
      obtain hm | ⟨hj,hc⟩ := hr
      · have hrp := hline.onePlacing r p e (hq ▸ h.making r u ph hm) hplace
        rw [hrp,hp] at hm
        cases hm
      · have hph := (h.holds r u ph (.inr ⟨hj,hc⟩)).2
        rw [hph,← hc] at hearly
        cases hpc : s.pc r <;> rw [hpc] at hearly <;> cases hearly
  constructor
  · rw [hs']
    change wx.len ≤ wx.cap
    omega
  · intro u hu
    have hu : u < s.nt + 1 := hnt ▸ hu
    change (s'.trk u).worker < s'.wx.cap
    rw [show s'.wx.cap = s.wx.cap by rw [hs']; exact hcap]
    by_cases hun : u = s.nt
    · rw [hun,hnew]
      exact hwcap
    · rw [hold (by omega)]
      exact h.worker u (by omega)
  · intro r hr
    rw [hjob]
    by_cases hrp : r = p
    · subst hrp
      rw [hself] at hr
      cases hr
    · rw [hother hrp] at hr
      exact h.idle r hr
  · intro r u ph hr
    change u < s'.nt ∧ (s'.trk u).phase = ph
    rw [hnt]
    obtain ⟨-,rfl,rfl⟩ | hr := hholds r u ph hr
    · rw [hnew]
      exact ⟨Nat.lt_succ_self _,rfl⟩
    · obtain ⟨hu,hph⟩ := h.holds r u ph hr
      rw [hold hu]
      exact ⟨by omega,hph⟩
  · intro r r' u ph ph' hr hr'
    obtain ⟨hrp,hu,-⟩ | hr := hholds r u ph hr
    · obtain ⟨hrp',-⟩ | hr' := hholds r' u ph' hr'
      · rw [hrp,hrp']
      · have := (h.holds r' u ph' hr').1
        omega
    · obtain ⟨-,hu,-⟩ | hr' := hholds r' u ph' hr'
      · have := (h.holds r u ph hr).1
        omega
      · exact h.one r r' u ph ph' hr hr'
  · intro u hu
    have hu : u < s.nt + 1 := hnt ▸ hu
    change (s'.trk u).phase ≠ _ → (s'.trk u).phase ≠ _ → _
    by_cases hun : u = s.nt
    · rw [hun]
      exact fun _ _ => ⟨p,.created,.inl (by rw [hself]; rfl)⟩
    · rw [hold (by omega)]
      intro hrun hclosed
      obtain ⟨r,ph,hr⟩ := h.held u (by omega) hrun hclosed
      refine ⟨r,ph,?_⟩
      unfold Holds at hr ⊢
      rw [hjob]
      by_cases hrp : r = p
      · subst hrp
        rw [hself]
        rw [hp] at hr
        obtain hr | hr := hr
        · cases hr
        · exact .inr hr
      · rw [hother hrp]
        exact hr
  · intro r u ph hr
    change _ = some (s'.trk u).qent
    by_cases hrp : r = p
    · subst hrp
      rw [hself] at hr ⊢
      cases hr
      rw [hnew]
      rfl
    · rw [hother hrp] at hr ⊢
      rw [hold (h.holds r u ph (.inl hr)).1]
      exact h.making r u ph hr
  · intro u hu he
    have hu : u < s.nt + 1 := hnt ▸ hu
    change (s'.trk u).phase.early = false at he
    change (s'.trk u).qent ∈ s'.started
    rw [show s'.started = s.started by rw [hs']]
    by_cases hun : u = s.nt
    · rw [hun,hnew] at he
      cases he
    · rw [hold (by omega)] at he ⊢
      exact h.started u (by omega) he
  · intro u v hu hv huv
    have hu : u < s.nt + 1 := hnt ▸ hu
    have hv : v < s.nt + 1 := hnt ▸ hv
    change (s'.trk u).qent = (s'.trk v).qent at huv
    by_cases hun : u = s.nt
    · by_cases hvn : v = s.nt
      · rw [hun,hvn]
      · rw [hun,hnew,hold (u := v) (by omega)] at huv
        exact absurd huv.symm (hfresh v (by omega))
    · rw [hold (u := u) (by omega)] at huv
      by_cases hvn : v = s.nt
      · rw [hvn,hnew] at huv
        exact absurd huv (hfresh u (by omega))
      · rw [hold (by omega)] at huv
        exact h.own u v (by omega) (by omega) huv

end Handled

/-- What `active_n` should be. -/
def activeTracks (s : ParQueue) : Nat := ∑ t ∈ range s.nt, (s.trk t).phase.active

/-- How many tracks entry `e` should count. -/
def onTracks (s : ParQueue) (e : Nat) : Nat :=
  ∑ t ∈ range s.nt, if (s.trk t).qent = e then (s.trk t).phase.onEntry else 0

/-- A counter of an entry that a process has read is still the current one. -/
def Fresh (s : ParQueue) (p : Nat) : QPc → Prop
  | .usedInc e _ v => v = (s.ent e).used
  | .unrefDec v => ∀ t, s.job p = some t → v = (s.ent (s.trk t).qent).used
  | .freeRead | .freeClear => False
  | _ => True

/-- The counters are right. -/
structure Accounted (s : ParQueue) : Prop where
  active : s.activeN = s.activeTracks
  used : ∀ e, e < s.n → (s.ent e).used = 1 + s.onTracks e
  fresh : ∀ p, s.Fresh p (s.pc p)

theorem activeTracks_setPhase {s : ParQueue} {t : Nat} (ht : t < s.nt) (ph : Phase) :
    (s.setPhase t ph).activeTracks + (s.trk t).phase.active = s.activeTracks + ph.active := by
  have hsum := Cells.sum_change ht (f := fun u => (s.trk u).phase.active)
    (g := fun u => ((s.setPhase t ph).trk u).phase.active)
    (fun u hu => by rw [setPhase_of_ne s ph hu])
  simp only [setPhase_self] at hsum
  exact hsum

theorem onTracks_setPhase {s : ParQueue} {t : Nat} (ht : t < s.nt) (ph : Phase) (e : Nat) :
    (s.setPhase t ph).onTracks e + (if (s.trk t).qent = e then (s.trk t).phase.onEntry else 0) =
      s.onTracks e + if (s.trk t).qent = e then ph.onEntry else 0 := by
  have hsum := Cells.sum_change ht
    (f := fun u => if (s.trk u).qent = e then (s.trk u).phase.onEntry else 0)
    (g := fun u => if ((s.setPhase t ph).trk u).qent = e then ((s.setPhase t ph).trk u).phase.onEntry
      else 0) (fun u hu => by rw [setPhase_of_ne s ph hu])
  simp only [setPhase_self] at hsum
  exact hsum

namespace Accounted

variable {s s' : ParQueue} {p : Nat} {x : QPc}

/-- What has been read is still right if no counter and no track changed. -/
theorem fresh_same (h : Accounted s) (hpc : s'.pc = s.pc) (hjob : s'.job = s.job)
    (hqent : ∀ t, (s'.trk t).qent = (s.trk t).qent)
    (hused : ∀ e, (s'.ent e).used = (s.ent e).used) (r : Nat) : s'.Fresh r (s'.pc r) := by
  have := h.fresh r
  rw [hpc]
  revert this
  unfold Fresh
  cases s.pc r with
  | usedInc e _ v => exact fun hv => hv.trans (hused e).symm
  | unrefDec v =>
    intro hv t ht
    rw [hqent,hused]
    exact hv t (hjob ▸ ht)
  | freeRead => exact id
  | freeClear => exact id
  | _ => exact fun _ => trivial

theorem goto (h : Accounted s) (hx : s.Fresh p x) : Accounted (s.goto p x) := by
  refine ⟨h.active,h.used,fun r => ?_⟩
  by_cases hr : r = p
  · subst hr
    rw [goto_self]
    exact hx
  · rw [goto_of_ne s x hr]
    exact h.fresh r

theorem same (h : Accounted s) (hn : s'.n = s.n) (hactive : s'.activeN = s.activeN)
    (hnt : s'.nt = s.nt) (hpc : s'.pc = s.pc) (hjob : s'.job = s.job)
    (htrk : ∀ t, (s'.trk t).qent = (s.trk t).qent ∧ (s'.trk t).phase = (s.trk t).phase)
    (hused : ∀ e, (s'.ent e).used = (s.ent e).used) : Accounted s' := by
  refine ⟨?_,fun e he => ?_,h.fresh_same hpc hjob (fun t => (htrk t).1) hused⟩
  · rw [hactive,h.active]
    simp only [activeTracks,hnt,htrk]
  · rw [hused,h.used e (hn ▸ he)]
    simp only [onTracks,hnt,htrk]

/-- A track gets further, and `active_n` with it. -/
theorem setPhase (h : Accounted s) {t : Nat} {ph : Phase} (ht : t < s.nt)
    (hs' : s' = { s with activeN := s.activeN + ph.active - (s.trk t).phase.active })
    (hon : (s.trk t).phase.onEntry = ph.onEntry) : Accounted (s'.setPhase t ph) := by
  have hactive := activeTracks_setPhase ht ph
  have hon' (e : Nat) := onTracks_setPhase ht ph e
  refine ⟨?_,fun e he => ?_,fun r => ?_⟩
  · have hsame : (s'.setPhase t ph).activeTracks = (s.setPhase t ph).activeTracks := by
      rw [hs']
      rfl
    have hval : (s'.setPhase t ph).activeN =
        s.activeN + ph.active - (s.trk t).phase.active := by rw [hs']; rfl
    rw [hsame,hval,h.active]
    omega
  · have hsame : (s'.setPhase t ph).onTracks e = (s.setPhase t ph).onTracks e := by
      rw [hs']
      rfl
    have hval : (s'.setPhase t ph).ent = s.ent := by rw [hs']; rfl
    have hn : e < s.n := by rw [hs'] at he; exact he
    have := hon' e
    rw [hon] at this
    rw [hsame,hval,h.used e hn]
    omega
  · refine h.fresh_same (by rw [hs']; rfl) (by rw [hs']; rfl) (fun u => ?_)
      (fun e => by rw [hs']; rfl) r
    rw [hs']
    by_cases hu : u = t
    · subst hu
      simp [ParQueue.setPhase]
    · simp [ParQueue.setPhase,hu]

/-- The track is given to `qe_close()`, or `qe_close()` is done with it. -/
theorem setJob (h : Accounted s) (hp : ∀ v, s.pc p ≠ .unrefDec v) (j : Option Nat) :
    Accounted { s with job := Function.update s.job p j } := by
  refine ⟨h.active,h.used,fun r => ?_⟩
  have hr := h.fresh r
  change Fresh _ r (s.pc r)
  by_cases hrp : r = p
  · subst hrp
    revert hr hp
    unfold Fresh
    cases s.pc r with
    | unrefDec v => exact fun _ hp => absurd rfl (hp v)
    | _ => exact fun hr _ => hr
  · revert hr
    unfold Fresh
    simp only [Function.update_of_ne hrp]
    exact id

theorem setUsed (h : Accounted s) {t : Nat} {ph : Phase} {u : Int} {y : ParEntry} (ht : t < s.nt)
    (hu : u + (s.trk t).phase.onEntry = (s.ent (s.trk t).qent).used + ph.onEntry)
    (hy : y.used = u) (hactive : (s.trk t).phase.active = ph.active)
    (hinc : ∀ r, r ≠ p → ∀ t' v, s.pc r ≠ .usedInc (s.trk t).qent t' v)
    (hdec : ∀ r, r ≠ p → ∀ t' v, s.pc r = .unrefDec v → s.job r = some t' →
      (s.trk t').qent ≠ (s.trk t).qent)
    (hx : ∀ z : ParQueue, z.Fresh p x) :
    Accounted (((s.setEnt (s.trk t).qent y).setPhase t ph).goto p x) := by
  have hused {e : Nat} (he : e ≠ (s.trk t).qent) :
      (((s.setEnt (s.trk t).qent y).setPhase t ph).ent e).used = (s.ent e).used := by
    simp [ParQueue.setPhase,setEnt,he]
  have hself : (((s.setEnt (s.trk t).qent y).setPhase t ph).ent (s.trk t).qent).used = u := by
    simp [ParQueue.setPhase,setEnt,hy]
  have hqent (u : Nat) : (((s.setEnt (s.trk t).qent y).setPhase t ph).trk u).qent =
      (s.trk u).qent := by
    by_cases hut : u = t
    · subst hut
      rw [setPhase_self]
      rfl
    · rw [setPhase_of_ne _ ph hut]
      rfl
  refine ⟨?_,fun e he => ?_,fun r => ?_⟩
  · have hsum := activeTracks_setPhase ht ph
    rw [hactive] at hsum
    change s.activeN = ((s.setPhase t ph).activeTracks : Int)
    rw [h.active]
    omega
  · have hsum := onTracks_setPhase ht ph e
    have he : e < s.n := he
    change (((s.setEnt (s.trk t).qent y).setPhase t ph).ent e).used =
      1 + ((s.setPhase t ph).onTracks e : Int)
    by_cases heq : e = (s.trk t).qent
    · rw [if_pos heq.symm,if_pos heq.symm] at hsum
      have hold := h.used e he
      rw [heq] at hold hsum ⊢
      rw [hself]
      omega
    · rw [if_neg (Ne.symm heq),if_neg (Ne.symm heq)] at hsum
      rw [hused heq,h.used e he]
      omega
  · by_cases hr : r = p
    · subst hr
      rw [goto_self]
      exact hx _
    · rw [goto_of_ne _ x hr]
      have hf := h.fresh r
      change Fresh _ r (s.pc r)
      have hinc := hinc r hr
      have hdec := hdec r hr
      revert hf hinc hdec
      unfold Fresh
      cases s.pc r with
      | usedInc e t' v =>
        intro hv hinc _
        exact hv.trans (hused fun heq => hinc t' v (heq ▸ rfl)).symm
      | unrefDec v =>
        intro hv _ hdec t' ht'
        change v = (((s.setEnt (s.trk t).qent y).setPhase t ph).ent
          (((s.setEnt (s.trk t).qent y).setPhase t ph).trk t').qent).used
        rw [hqent,hused (hdec t' v rfl ht')]
        exact hv t' ht'
      | freeRead => exact fun hf _ _ => hf
      | freeClear => exact fun hf _ _ => hf
      | _ => exact fun _ _ _ => trivial

theorem create (h : Accounted s) {x : ParTrack} {wx : WrkCtx} (hx : x.phase = .created)
    (hjobs : ∀ r t, s.job r = some t → t < s.nt) :
    Accounted { s with wx := wx, trk := Function.update s.trk s.nt x, nt := s.nt + 1 } := by
  have hold {u : Nat} (hu : u < s.nt) : Function.update s.trk s.nt x u = s.trk u := by
    rw [Function.update_of_ne (Nat.ne_of_lt hu)]
  refine ⟨?_,fun e he => ?_,fun r => ?_⟩
  · change s.activeN = ((∑ u ∈ range (s.nt + 1), (Function.update s.trk s.nt x u).phase.active : Nat) : Int)
    rw [sum_range_succ,Function.update_self,hx,h.active]
    have hrest : ∑ u ∈ range s.nt, (Function.update s.trk s.nt x u).phase.active = s.activeTracks :=
      sum_congr rfl fun u hu => by rw [hold (mem_range.mp hu)]
    rw [hrest]
    rfl
  · change (s.ent e).used = 1 + ((∑ u ∈ range (s.nt + 1),
      if (Function.update s.trk s.nt x u).qent = e then
        (Function.update s.trk s.nt x u).phase.onEntry else 0 : Nat) : Int)
    rw [sum_range_succ,Function.update_self,hx,h.used e he]
    have hrest : (∑ u ∈ range s.nt, if (Function.update s.trk s.nt x u).qent = e then
        (Function.update s.trk s.nt x u).phase.onEntry else 0) = s.onTracks e :=
      sum_congr rfl fun u hu => by rw [hold (mem_range.mp hu)]
    rw [hrest]
    simp [Phase.onEntry]
  · have hf := h.fresh r
    change Fresh _ r (s.pc r)
    revert hf
    unfold Fresh
    cases s.pc r with
    | unrefDec v =>
      intro hv t ht
      change v = (s.ent (Function.update s.trk s.nt x t).qent).used
      rw [hold (hjobs r t ht)]
      exact hv t ht
    | usedInc e t v => exact id
    | freeRead => exact id
    | freeClear => exact id
    | _ => exact fun _ => trivial

end Accounted

end ParQueue

end Phiola
