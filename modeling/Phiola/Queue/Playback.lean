import Mathlib.Algebra.BigOperators.Group.Finset.Piecewise
import Phiola.Queue.Accounts
import Phiola.Track.Guard

/-!
# The queue and its tracks

The queue manager and the tracks that it started run side by side. A track opens the queue-guard on
its way down the chain; the close of the guard in the conveyor of the track is the call of
`qe_close()`.
-/

namespace Phiola

/-- `phi_queue_guard` -/
def phiQueueGuard : PhiFilter := ⟨"queue-guard",true,true⟩

/-- The chain of a track: the first filter of its queue, if it has one and the track plays its
entry, and the filters behind the queue-guard. -/
structure ChainConf where
  firstFilter : Option PhiFilter
  rest : List PhiFilter

namespace ChainConf

def filters (c : ChainConf) : List PhiFilter := c.firstFilter.toList ++ phiQueueGuard :: c.rest

/-- The place of the queue-guard in the pool. -/
def guard (c : ChainConf) : Nat := c.firstFilter.toList.length

end ChainConf

structure Playback where
  mgr : QueueMgr
  run : Nat → TrackRun

def OpenRet.opens : OpenRet → Bool
  | .obj _ => true
  | _ => false

theorem OpenRet.opens_iff {o : OpenRet} : o.opens = true ↔ ∃ i, o = .obj i := by
  cases o with
  | obj i => exact ⟨fun _ => ⟨i,rfl⟩,fun _ => rfl⟩
  | skip | err => exact ⟨(fun h => by cases h),fun h => by obtain ⟨_,h⟩ := h; cases h⟩

namespace Playback

open QueueMgr (Op Counted Accounts Opened)
open Event (closes)

/-- A call of the queue manager, or a step of a track that it started. Should the step close the
queue-guard, `tags`, `rnd` and `ans` are for `qe_close()`. -/
inductive Act
  | queue (a : Op)
  | track (t : Nat) (a : Phiola.Act) (tags : Meta) (rnd : Nat) (ans : List Answer)

def init : Playback := ⟨QueueMgr.init,fun _ => ⟨PhiTrack.create [],.freed⟩⟩

/-- `qe_open()` and `qe_process()` -/
def qeBehaviour (t : PhiTrack) (e : Nat) : Behaviour where
  openAdds := []
  openOut := t.dataOut
  openError := none
  openRet := .obj e
  adds := []
  dataIn := t.dataIn
  dataOut := t.dataIn
  setError := none
  ret := .done

variable (chain : Nat → ChainConf)

/-- The queue-guard is not left to the environment. -/
def act (x : Playback) (t : Nat) : Phiola.Act → Phiola.Act
  | .turn b => .turn (if (x.run t).t.current = (chain t).guard then
      qeBehaviour (x.run t).t (x.mgr.trk t).qent else b)
  | a => a

/-- The tracks after a call in which the queue manager went from `s` to `s'`: it may have started
some and stopped others. -/
def follow (s s' : QueueMgr) (run : Nat → TrackRun) (t : Nat) : TrackRun :=
  if s.nt ≤ t ∧ t < s'.nt then (TrackRun.create (chain t).filters).start
  else if (s.trk t).stopped = false ∧ (s'.trk t).stopped = true then
    ((run t).step .stop).getD (run t)
  else run t

def step (x : Playback) : Act → Option Playback
  | .queue a =>
    if a.closesTrack then none
    else (x.mgr.step a).map fun s => ⟨s,follow chain x.mgr s x.run⟩
  | .track t a tags rnd ans =>
    if t < x.mgr.nt then
      match (x.run t).step (x.act chain t a) with
      | none => none
      | some r =>
        let run := Function.update x.run t r
        if closes (chain t).guard (x.run t).t.log < closes (chain t).guard r.t.log then
          (x.mgr.closeTrack t r.t.chainFlags.stop tags rnd ans).map fun s =>
            ⟨s,follow chain x.mgr s run⟩
        else some ⟨x.mgr,run⟩
    else none

/-- The first filter opens and passes control on, and so does what it puts in front of the guard. -/
def FirstPasses (x : Playback) : Act → Prop
  | .track t (.turn b) _ _ _ => (x.run t).t.obj (chain t).guard = none →
      (x.run t).t.current ≠ (chain t).guard →
        b.openRet.opens = true ∧ (b.ret.passesOn = true ∨ b.ret = .async)
  | _ => True

instance (x : Playback) : ∀ a, Decidable (FirstPasses chain x a)
  | .track _ (.turn b) _ _ _ => inferInstanceAs (Decidable (_ → _ → b.openRet.opens = true ∧ _))
  | .queue _ | .track _ .start _ _ _ | .track _ .discard _ _ _ | .track _ .enter _ _ _
  | .track _ .fin _ _ _ | .track _ .delTask _ _ _ | .track _ .free _ _ _
  | .track _ .stop _ _ _ => inferInstanceAs (Decidable True)

/-- How many tracks were started for entries of queue `q` whose queue-guard is not closed. -/
def active (x : Playback) (q : Nat) : Nat :=
  ((Finset.range x.mgr.nt).filter fun t => closes (chain t).guard (x.run t).t.log = 0 ∧
    (x.mgr.ent (x.mgr.trk t).qent).q = q).card

/-- What holds of a track of the queue: the manager knows whether its guard is closed. -/
structure Tracked (s : QueueMgr) (t : Nat) (r : TrackRun) : Prop where
  guarded : r.Guarded (chain t).guard
  closed : (s.trk t).closed = true ↔ closes (chain t).guard r.t.log = 1

structure Kept (x : Playback) : Prop where
  counted : Counted x.mgr []
  accounts : Accounts x.mgr
  tracked : ∀ t, t < x.mgr.nt → Tracked chain x.mgr t (x.run t)

variable {chain} {x x' : Playback} {s s' : QueueMgr} {t : Nat} {r : TrackRun}

theorem Tracked.keep (h : Tracked chain s t r) (hc : (s'.trk t).closed = (s.trk t).closed) :
    Tracked chain s' t r := ⟨h.guarded,by rw [hc]; exact h.closed⟩

theorem Tracked.open_ (h : Tracked chain s t r) (ht : (s.trk t).closed = false) :
    closes (chain t).guard r.t.log = 0 ∧ r.pc ≠ .freed := by
  rcases h.guarded.closes_eq with ⟨hzero,-,hpc⟩ | ⟨hone,-⟩
  · exact ⟨hzero,hpc⟩
  · rw [h.closed.mpr hone] at ht
    cases ht

/-- `stop()` closes no filter. -/
theorem Tracked.stop (h : Tracked chain s t r) : Tracked chain s t ((r.step .stop).getD r) := by
  cases hs : r.step .stop with
  | none => exact h
  | some r' =>
    refine ⟨TrackRun.step_guarded h.guarded (fun b hb => by cases hb) hs,?_⟩
    simp only [TrackRun.step,Option.ite_none_left_eq_some,Option.some.injEq] at hs
    obtain ⟨-,rfl⟩ := hs
    show _ ↔ closes (chain t).guard (TrackRun.stop r.t).log = 1
    rw [TrackRun.stop_log]
    exact h.closed

theorem start_tracked (ht : (s.trk t).closed = false) :
    Tracked chain s t (TrackRun.create (chain t).filters).start := by
  refine ⟨TrackRun.create_guarded (chain t).firstFilter phiQueueGuard (chain t).rest rfl,?_⟩
  rw [ht,TrackRun.create_start_log]
  simp [closes]

theorem follow_tracked {run : Nat → TrackRun} (hold : ∀ t, t < s.nt → Tracked chain s' t (run t))
    (hnew : ∀ t, s.nt ≤ t → t < s'.nt → (s'.trk t).closed = false) :
    ∀ t, t < s'.nt → Tracked chain s' t (follow chain s s' run t) := by
  intro t ht
  unfold follow
  by_cases hlt : t < s.nt
  · rw [if_neg fun h => absurd h.1 (Nat.not_le.mpr hlt)]
    split
    · exact (hold t hlt).stop
    · exact hold t hlt
  · have hle := Nat.not_lt.mp hlt
    rw [if_pos ⟨hle,ht⟩]
    exact start_tracked (hnew t hle ht)

theorem act_passes {a : Phiola.Act} {tags : Meta} {rnd : Nat} {ans : List Answer}
    (hf : FirstPasses chain x (.track t a tags rnd ans)) (b : Behaviour)
    (hb : x.act chain t a = .turn b) : (x.run t).t.PassesOn (chain t).guard b := by
  intro hnone
  cases a with
  | turn b' =>
    simp only [act,Phiola.Act.turn.injEq] at hb
    subst hb
    by_cases hcur : (x.run t).t.current = (chain t).guard
    · rw [if_pos hcur]
      exact ⟨⟨_,rfl⟩,fun hne => absurd hcur hne⟩
    · rw [if_neg hcur]
      obtain ⟨hopen,hret⟩ := hf hnone hcur
      exact ⟨OpenRet.opens_iff.mp hopen,fun _ => hret⟩
  | _ => cases hb

theorem step_kept (x : Playback) (a : Act) (x' : Playback) (h : Kept chain x)
    (hf : FirstPasses chain x a) (hs : step chain x a = some x') : Kept chain x' ∧
      ∀ t, t < x.mgr.nt → (x'.mgr.trk t).stopped = true → (x.mgr.trk t).stopped = true ∨
        (x.run t).pc ≠ .freed := by
  have hopen {t : Nat} (ht : x.mgr.openTrk t) : (x.run t).pc ≠ .freed :=
    ((h.tracked t ht.1).open_ ht.2).2
  cases a with
  | queue a =>
    simp only [step,Option.ite_none_left_eq_some,Option.map_eq_some_iff] at hs
    obtain ⟨ha,s,hs,rfl⟩ := hs
    obtain ⟨haccounts,hopened⟩ := QueueMgr.step_accounts h.counted h.accounts (by simpa using ha) hs
    refine ⟨⟨QueueMgr.step_counted _ _ _ h.counted hs,haccounts,?_⟩,fun t ht hst => ?_⟩
    · exact follow_tracked (fun t ht => (h.tracked t ht).keep (hopened.old t ht)) hopened.new
    · exact (hopened.stopped t ht hst).imp_right hopen
  | track t a tags rnd ans =>
    simp only [step,Option.ite_none_right_eq_some] at hs
    obtain ⟨ht,hs⟩ := hs
    split at hs
    · cases hs
    · rename_i r hr
      have hguarded := TrackRun.step_guarded (h.tracked t ht).guarded (act_passes hf) hr
      have hle := (h.tracked t ht).guarded.closes_le hr
      split at hs
      · rename_i hup
        obtain ⟨s,hclose,rfl⟩ := Option.map_eq_some_iff.mp hs
        have hone : closes (chain t).guard r.t.log = 1 := by
          rcases hguarded.closes_eq with ⟨hzero,-⟩ | ⟨hone,-⟩
          · omega
          · exact hone
        have hopenT : x.mgr.openTrk t := by
          refine ⟨ht,Bool.eq_false_iff.mpr fun hc => ?_⟩
          have := (h.tracked t ht).closed.mp hc
          omega
        obtain ⟨haccounts,hopened⟩ := h.accounts.closeTrack hopenT hclose
        refine ⟨⟨h.counted.closeTrack hopenT hclose,haccounts,?_⟩,fun y hy hst => ?_⟩
        · apply follow_tracked (s := x.mgr) _ hopened.new
          intro y hy
          have hold := hopened.old y hy
          by_cases hyt : y = t
          · subst hyt
            rw [QueueMgr.setTrk_self] at hold
            rw [Function.update_self]
            exact ⟨hguarded,by rw [hold,hone]; simp⟩
          · rw [QueueMgr.setTrk_of_ne _ hyt] at hold
            rw [Function.update_of_ne hyt]
            exact (h.tracked y hy).keep hold
        · by_cases hyt : y = t
          · subst hyt
            exact .inr (hopen hopenT)
          · have hstop := hopened.stopped y hy hst
            rw [QueueMgr.openTrk,QueueMgr.setTrk_of_ne _ hyt] at hstop
            exact hstop.imp_right fun ho => hopen ⟨hy,ho.2⟩
      · rename_i hup
        cases hs
        refine ⟨⟨h.counted,h.accounts,fun y hy => ?_⟩,fun y hy hst => .inl hst⟩
        by_cases hyt : y = t
        · subst hyt
          have hsame : closes (chain y).guard r.t.log = closes (chain y).guard (x.run y).t.log := by
            omega
          refine ⟨by simpa using hguarded,?_⟩
          show _ ↔ closes (chain y).guard (Function.update x.run y r y).t.log = 1
          rw [Function.update_self,hsame]
          exact (h.tracked y hy).closed
        · show Tracked chain x.mgr y (Function.update x.run t r y)
          rw [Function.update_of_ne hyt]
          exact h.tracked y hy

theorem init_kept : Kept chain init where
  counted := QueueMgr.init_counted
  accounts := QueueMgr.init_accounts
  tracked t ht := by cases ht

theorem Kept.active_eq (h : Kept chain x) (q : Nat) : x.active chain q = x.mgr.openOn q := by
  unfold active QueueMgr.openOn
  rw [Finset.card_filter]
  apply Finset.sum_congr rfl
  intro t ht
  have htracked := h.tracked t (Finset.mem_range.mp ht)
  unfold QueueMgr.onEntryOf
  congr 1
  apply propext
  apply and_congr_left'
  constructor
  · intro hzero
    refine Bool.eq_false_iff.mpr fun hc => ?_
    have := htracked.closed.mp hc
    omega
  · exact fun hc => (htracked.open_ hc).1

/-- As long as the first filters pass control on: `active_n` is the number of tracks whose queue-guard
is not closed, `q_status()` says whether there is one, and an entry points to a track that was not
freed, so no call stops a freed track. -/
theorem accounting {as : List Act} (hfirst : Machine.AllSteps (step chain) (FirstPasses chain) init as)
    (hrun : Machine.run (step chain) init as = some x) :
    (∀ q, (x.mgr.queue q).activeN = x.active chain q ∧
      (x.mgr.qStatus q = QueueMgr.qPlaying ↔ x.active chain q ≠ 0)) ∧
    (∀ e t, (x.mgr.ent e).trk = some t → t < x.mgr.nt ∧ (x.run t).pc ≠ .freed) ∧
    ∀ a, FirstPasses chain x a → ∀ x', step chain x a = some x' → ∀ t, t < x.mgr.nt →
      (x.mgr.trk t).stopped = false → (x'.mgr.trk t).stopped = true → (x.run t).pc ≠ .freed := by
  have h := Machine.guarded_invariant (fun s a s' h hf hs => (step_kept s a s' h hf hs).1) hfirst hrun
    init_kept
  refine ⟨fun q => ?_,fun e t he => ?_,fun a ha x' hx' t ht hbefore hafter => ?_⟩
  · have hcount := h.accounts.count q
    rw [← h.active_eq] at hcount
    refine ⟨hcount,?_⟩
    unfold QueueMgr.qStatus QueueMgr.qPlaying
    rw [hcount]
    simp
  · have hopen := (h.accounts.pointer e t he).1
    exact ⟨hopen.1,((h.tracked t hopen.1).open_ hopen.2).2⟩
  · rcases (step_kept x a x' h ha hx').2 t ht hafter with hold | hpc
    · rw [hbefore] at hold
      cases hold
    · exact hpc

/-- The chain of a play command whose queue has a first filter. -/
def playChain : ChainConf := ⟨some ⟨"guard",false,true⟩,[⟨"core.auto-input",true,true⟩]⟩

/-- A filter that opens as `o` says and returns `r`. -/
def behaviour (o : OpenRet) (r : PhiR) : Behaviour :=
  ⟨[],none,.null,none,o,[],.null,.null,none,r⟩

/-- The entry is played again while its track is in the middle of its chain, where the input fails to
open then. -/
def replay : List Act :=
  [.queue (.create false false false),.queue (.add none false none false),
    .queue (.play none none 0 [⟨true,true⟩]),.track 0 .enter [] 0 [],
    .track 0 (.turn (behaviour (.obj 0) .done)) [] 0 [],
    .track 0 (.turn (behaviour (.obj 0) .done)) [] 0 [],.queue (.play none none 0 [⟨true,true⟩]),
    .track 0 (.turn (behaviour .err .err)) [] 0 [],.track 0 .fin [] 0 [],.track 0 .delTask [] 0 [],
    .track 0 .free [] 0 []]

def replayed : Playback := (Machine.run (step fun _ => playChain) init replay).getD init

theorem accounting_replay : Machine.run (step fun _ => playChain) init replay = some replayed ∧
    (replayed.run 0).pc = .freed ∧ (replayed.mgr.ent 0).trk = some 1 ∧
    (replayed.run 1).pc ≠ .freed ∧ (replayed.mgr.queue 0).activeN = 1 ∧
    (1 : Int) = replayed.active (fun _ => playChain) 0 := by
  have hrun : Machine.run (step fun _ => playChain) init replay = some replayed :=
    Machine.run_eq_getD (by decide +kernel)
  have hfirst : Machine.AllSteps (step fun _ => playChain) (FirstPasses fun _ => playChain) init
      replay := by decide +kernel
  obtain ⟨hactive,hpointer,-⟩ := accounting hfirst hrun
  have htrk : (replayed.mgr.ent 0).trk = some 1 := by decide +kernel
  have hone : (replayed.mgr.queue 0).activeN = 1 := by decide +kernel
  exact ⟨hrun,by decide +kernel,htrk,(hpointer 0 1 htrk).2,hone,hone.symm.trans (hactive 0).1⟩

end Playback

end Phiola
