import Phiola.Track.Chain

/-!
# Tracks on workers

Every worker has a FIFO queue of the tracks whose task is posted and runs one handler at a time.
The owner of a track starts it, wakes it any number of times and stops it once; `stop()` is an
exchange on the state word followed by the posting of the task, and the worker can run in between.
-/

namespace Phiola

/-- A track with its worker. `stopped`, `posting` and `destroyed` are no fields of the source: the
owner has called `stop()`, it is between the exchange and the posting, and how often the track
was freed. -/
structure TrackCell where
  run : TrackRun
  worker : Nat
  stopped : Bool
  posting : Bool
  destroyed : Nat

/-- The tracks, the task queue of each worker and the track whose handler it is running. -/
structure Tracks where
  n : Nat
  cell : Nat → TrackCell
  queue : Nat → List Nat
  busy : Nat → Option Nat

namespace Tracks

/-- `work w a` is the step `a` of the handler that worker `w` is running. -/
inductive Act
  | create (ifs : List PhiFilter) (w : Nat)
  | start (i : Nat)
  | wake (i : Nat)
  | stopXchg (i : Nat)
  | stopPost (i : Nat)
  | take (w : Nat)
  | work (w : Nat) (a : Phiola.Act)

def init : Tracks := ⟨0,fun _ => ⟨TrackRun.create [],0,false,false,0⟩,fun _ => [],fun _ => none⟩

def setCell (s : Tracks) (i : Nat) (c : TrackCell) : Tracks :=
  { s with cell := Function.update s.cell i c }

/-- `core->task()`: the task is added unless it is in the queue. -/
def post (s : Tracks) (i : Nat) : Tracks :=
  let w := (s.cell i).worker
  if i ∈ s.queue w then s
  else { s with queue := Function.update s.queue w (s.queue w ++ [i]) }

/-- `core->task()` with a null handler. -/
def unpost (s : Tracks) (i : Nat) : Tracks :=
  let w := (s.cell i).worker
  { s with queue := Function.update s.queue w ((s.queue w).erase i) }

/-- The memory of a freed track is still as it was left: a task that refers to it enters
`track_run()` with the old state word. -/
def revive (r : TrackRun) : TrackRun := if r.pc = .freed then ⟨r.t,.idle⟩ else r

/-- The handler has returned. -/
def atRest (pc : Pc) : Bool := pc = .idle ∨ pc = .finished ∨ pc = .freed

/-- The steps of `track_run()`. -/
def isHandler : Phiola.Act → Bool
  | .enter | .turn _ | .fin | .delTask | .free => true
  | _ => false

/-- A step of the handler that worker `w` runs for track `i`. -/
def workOn (s : Tracks) (w i : Nat) (a : Phiola.Act) : Option Tracks :=
  let c := s.cell i
  match (if a matches .enter then revive c.run else c.run).step a with
  | none => none
  | some r =>
    let s := s.setCell i { c with
      run := r
      destroyed := if a matches .free then c.destroyed + 1 else c.destroyed }
    let s := if a matches .delTask then s.unpost i else s
    some { s with busy := if atRest r.pc then Function.update s.busy w none else s.busy }

def step (s : Tracks) : Act → Option Tracks
  | .create ifs w =>
    some { s.setCell s.n ⟨TrackRun.create ifs,w,false,false,0⟩ with n := s.n + 1 }
  | .start i =>
    let c := s.cell i
    if i < s.n ∧ c.run.pc = .created ∧ c.run.t.conveyor.filters ≠ [] then
      some ((s.setCell i { c with run := c.run.start }).post i)
    else none
  | .wake i =>
    let c := s.cell i
    if c.run.pc ≠ .created ∧ c.stopped = false then some (s.post i) else none
  | .stopXchg i =>
    let c := s.cell i
    if c.run.pc ≠ .created ∧ c.stopped = false then
      some (s.setCell i { c with
        run := ⟨TrackRun.stop c.run.t,c.run.pc⟩
        stopped := true
        posting := c.run.t.state = .running ∨ c.run.t.state = .finished })
    else none
  | .stopPost i =>
    let c := s.cell i
    if c.posting then some ((s.setCell i { c with posting := false }).post i) else none
  | .take w =>
    match s.busy w, s.queue w with
    | none, i :: q =>
      some { s with
        busy := Function.update s.busy w (some i)
        queue := Function.update s.queue w q }
    | _, _ => none
  | .work w a =>
    match s.busy w with
    | none => none
    | some i => if isHandler a then s.workOn w i a else none

/-- The branch that goes wrong is not taken: `track_run()` is not entered for a track that finished
by itself while `stop()` is still to come, and no worker goes through `track_close()` between
the two halves of `stop()`. -/
def InTime (s : Tracks) : Act → Prop
  | .work w .enter => ∀ i, s.busy w = some i →
      (s.cell i).run.t.state = .finished → (s.cell i).stopped = true
  | .work w .delTask => ∀ i, s.busy w = some i → (s.cell i).posting = false
  | _ => True

instance (s : Tracks) (a : Act) : Decidable (InTime s a) :=
  match a with
  | .work w .enter => inferInstanceAs (Decidable (∀ i ∈ s.busy w,
      (s.cell i).run.t.state = .finished → (s.cell i).stopped = true))
  | .work w .delTask => inferInstanceAs (Decidable (∀ i ∈ s.busy w, (s.cell i).posting = false))
  | .work _ (.turn _) | .work _ .start | .work _ .discard | .work _ .fin | .work _ .free
  | .work _ .stop | .create .. | .start _ | .wake _ | .stopXchg _ | .stopPost _ | .take _ =>
    isTrue trivial

end Tracks

namespace PhiTrack

@[simp] theorem filterOpen_state (t : PhiTrack) (f : Nat) (b : Behaviour) :
    (t.filterOpen f b).1.state = t.state := by
  unfold filterOpen
  split
  · cases b.openRet <;> rfl
  · rfl

@[simp] theorem trkFilterRun_state (t : PhiTrack) (f : Nat) (b : Behaviour) :
    (t.trkFilterRun f b).1.state = t.state := by
  have hopen := filterOpen_state (t.clearMark f).setFirst f b
  unfold trkFilterRun
  dsimp only
  split
  · rfl
  · split
    · rfl
    · split
      · rename_i he
        rw [he] at hopen
        exact hopen
      · rename_i he
        rw [he] at hopen
        exact hopen

@[simp] theorem goFwd_state (t : PhiTrack) : t.goFwd.1.state = t.state := by
  unfold goFwd; dsimp only; split <;> rfl

@[simp] theorem trkFilterHandleResult_state (t : PhiTrack) (f : Nat) (r : PhiR) :
    (t.trkFilterHandleResult f r).1.state = t.state := by
  cases r <;> simp only [trkFilterHandleResult] <;> (try split) <;> simp

@[simp] theorem handOver_state (t : PhiTrack) (r : PhiR) : (t.handOver r).state = t.state := by
  cases r <;> rfl

theorem turn_state (t : PhiTrack) (b : Behaviour) :
    (t.turn b).1.state = if t.state = .stop then .stopping else t.state := by
  simp only [turn,emit_state,handOver_state,trkFilterHandleResult_state,trkFilterRun_state,loopTop]
  split <;> rfl

end PhiTrack

namespace Tracks

@[simp] theorem setCell_n (s : Tracks) (i : Nat) (c : TrackCell) : (s.setCell i c).n = s.n := rfl
@[simp] theorem setCell_queue (s : Tracks) (i : Nat) (c : TrackCell) :
    (s.setCell i c).queue = s.queue := rfl
@[simp] theorem setCell_busy (s : Tracks) (i : Nat) (c : TrackCell) :
    (s.setCell i c).busy = s.busy := rfl
@[simp] theorem setCell_self (s : Tracks) (i : Nat) (c : TrackCell) :
    (s.setCell i c).cell i = c := by simp [setCell]

theorem setCell_of_ne (s : Tracks) {i j : Nat} (c : TrackCell) (h : j ≠ i) :
    (s.setCell i c).cell j = s.cell j := by simp [setCell,h]

@[simp] theorem post_n (s : Tracks) (i : Nat) : (s.post i).n = s.n := by
  simp only [post]; split <;> rfl
@[simp] theorem post_cell (s : Tracks) (i : Nat) : (s.post i).cell = s.cell := by
  simp only [post]; split <;> rfl
@[simp] theorem post_busy (s : Tracks) (i : Nat) : (s.post i).busy = s.busy := by
  simp only [post]; split <;> rfl

theorem mem_post {s : Tracks} {i j w : Nat} (h : j ∈ (s.post i).queue w) :
    j ∈ s.queue w ∨ j = i ∧ w = (s.cell i).worker := by
  simp only [post] at h
  split at h
  · exact .inl h
  · by_cases hw : w = (s.cell i).worker
    · subst hw
      simp only [Function.update_self,List.mem_append,List.mem_singleton] at h
      exact h.imp_right fun hj => ⟨hj,rfl⟩
    · simp only [Function.update_of_ne hw] at h
      exact .inl h

/-- What the state word, the place in the code and the owner's calls say about each other. -/
structure CellOk (c : TrackCell) : Prop where
  created : c.run.pc = .created → c.stopped = false ∧ c.run.t.state = .running
  stopped : c.stopped = true → c.run.t.state ≠ .running
  asked : c.run.t.state = .stop ∨ c.run.t.state = .stopping → c.stopped = true
  posting : c.posting = true → c.stopped = true
  inside : c.run.pc = .loop ∨ c.run.pc = .fin → c.run.t.state ≠ .finished
  closing : c.run.pc = .closing ∨ c.run.pc = .deleted ∨ c.run.pc = .freed → c.stopped = true
  gone : c.run.pc = .deleted ∨ c.run.pc = .freed → c.posting = false
  count : c.destroyed = if c.run.pc = .freed then 1 else 0

structure Inv (s : Tracks) : Prop where
  cell : ∀ i, CellOk (s.cell i)
  fresh : ∀ i, s.n ≤ i → (s.cell i).run.pc = .created
  queued : ∀ w i, i ∈ s.queue w → (s.cell i).worker = w ∧ (s.cell i).run.pc ≠ .created ∧
    (s.cell i).run.pc ≠ .deleted ∧ (s.cell i).run.pc ≠ .freed
  nodup : ∀ w, (s.queue w).Nodup
  busy : ∀ w i, s.busy w = some i → (s.cell i).worker = w ∧ (s.cell i).run.pc ≠ .created ∧
    (s.cell i).run.pc ≠ .freed

theorem Inv.known {s : Tracks} (h : Inv s) {i : Nat} (hc : (s.cell i).run.pc ≠ .created) :
    i < s.n := by
  by_contra hlt
  exact hc (h.fresh i (by omega))

theorem createdOk (ifs : List PhiFilter) (w : Nat) :
    CellOk ⟨TrackRun.create ifs,w,false,false,0⟩ := by
  constructor <;> simp [TrackRun.create,PhiTrack.create]

theorem init_inv : Inv init where
  cell _ := createdOk [] 0
  fresh _ _ := rfl
  queued w i h := by simp [init] at h
  nodup _ := List.nodup_nil
  busy w i h := by simp [init] at h

theorem post_inv {s : Tracks} {i : Nat} (h : Inv s) (hpc : (s.cell i).run.pc ≠ .created ∧
    (s.cell i).run.pc ≠ .deleted ∧ (s.cell i).run.pc ≠ .freed) : Inv (s.post i) := by
  refine ⟨by simpa using h.cell,by simpa using h.fresh,?_,?_,by simpa using h.busy⟩
  · intro w j hj
    rw [post_cell]
    rcases mem_post hj with hj | ⟨rfl,rfl⟩
    · exact h.queued w j hj
    · exact ⟨rfl,hpc⟩
  · intro w
    simp only [post]
    split
    · exact h.nodup w
    · rename_i hni
      dsimp only
      by_cases hw : w = (s.cell i).worker
      · subst hw
        rw [Function.update_self,List.nodup_append]
        refine ⟨h.nodup _,List.nodup_singleton i,fun a ha c hc he => hni ?_⟩
        exact he.trans (List.mem_singleton.mp hc) ▸ ha
      · rw [Function.update_of_ne hw]
        exact h.nodup w

theorem setCell_inv {s : Tracks} {i : Nat} {c : TrackCell} (h : Inv s) (hi : i < s.n)
    (hc : CellOk c) (hw : c.worker = (s.cell i).worker) (hcr : c.run.pc ≠ .created)
    (hq : ∀ w, i ∈ s.queue w → c.run.pc ≠ .deleted ∧ c.run.pc ≠ .freed)
    (hb : ∀ w, s.busy w = some i → c.run.pc ≠ .freed) : Inv (s.setCell i c) := by
  constructor
  · intro j
    by_cases hj : j = i
    · subst hj; simpa using hc
    · rw [setCell_of_ne s c hj]; exact h.cell j
  · intro j hj
    rw [setCell_of_ne s c (by simp at hj; omega)]
    exact h.fresh j hj
  · intro w j hm
    by_cases hj : j = i
    · subst hj
      rw [setCell_self,hw]
      exact ⟨(h.queued w j hm).1,hcr,hq w hm⟩
    · rw [setCell_of_ne s c hj]
      exact h.queued w j hm
  · exact h.nodup
  · intro w j hm
    by_cases hj : j = i
    · subst hj
      rw [setCell_self,hw]
      exact ⟨(h.busy w j hm).1,hcr,hb w hm⟩
    · rw [setCell_of_ne s c hj]
      exact h.busy w j hm

theorem release_inv {s : Tracks} (h : Inv s) (w : Nat) :
    Inv { s with busy := Function.update s.busy w none } := by
  refine ⟨h.cell,h.fresh,h.queued,h.nodup,fun v i hm => ?_⟩
  by_cases hv : v = w
  · subst hv; simp at hm
  · exact h.busy v i (by simpa [hv] using hm)

theorem unpost_inv {s : Tracks} (h : Inv s) (i : Nat) :
    Inv (s.unpost i) ∧ ∀ w, i ∉ (s.unpost i).queue w := by
  have hsub (w : Nat) : ((s.unpost i).queue w).Sublist (s.queue w) := by
    simp only [unpost]
    by_cases hw : w = (s.cell i).worker
    · subst hw; rw [Function.update_self]; exact List.erase_sublist
    · rw [Function.update_of_ne hw]
  refine ⟨⟨h.cell,h.fresh,fun w j hm => h.queued w j ((hsub w).subset hm),
    fun w => (h.nodup w).sublist (hsub w),h.busy⟩,fun w hm => ?_⟩
  have hw := (h.queued w i ((hsub w).subset hm)).1
  simp only [unpost,hw,Function.update_self] at hm
  exact (h.nodup w).not_mem_erase hm

theorem step_work {s s' : Tracks} {w : Nat} {a : Phiola.Act}
    (hs : s.step (.work w a) = some s') : ∃ i, s.busy w = some i ∧ isHandler a = true ∧
      s.workOn w i a = some s' := by
  simp only [step] at hs
  cases hb : s.busy w with
  | none => simp [hb] at hs
  | some i =>
    simp only [hb,Option.ite_none_right_eq_some] at hs
    exact ⟨i,rfl,hs.1,hs.2⟩

/-- A handler that goes on or returns without a change to the queue. -/
theorem handler_inv {s : Tracks} {w i : Nat} {r : TrackRun} (h : Inv s) (hb : s.busy w = some i)
    (hc : CellOk { s.cell i with run := r }) (hcr : r.pc ≠ .created) (hd : r.pc ≠ .deleted)
    (hf : r.pc ≠ .freed) : Inv { s.setCell i { s.cell i with run := r } with
      busy := if atRest r.pc then Function.update s.busy w none else s.busy } := by
  have hset := setCell_inv (c := { s.cell i with run := r }) h (h.known (h.busy w i hb).2.1) hc rfl hcr
    (fun _ _ => ⟨hd,hf⟩) (fun _ _ => hf)
  split
  · exact release_inv hset w
  · exact hset

theorem enter_inv {s s' : Tracks} {w i : Nat} (h : Inv s) (hb : s.busy w = some i)
    (hC : (s.cell i).run.t.state = .finished → (s.cell i).stopped = true)
    (hs : s.workOn w i .enter = some s') : Inv s' := by
  have hc := h.cell i
  have hrev : revive (s.cell i).run = (s.cell i).run := by simp [revive,(h.busy w i hb).2.2]
  unfold workOn TrackRun.step at hs
  simp only [if_true,hrev] at hs
  by_cases hpc : (s.cell i).run.pc = .idle ∨ (s.cell i).run.pc = .finished
  · rw [if_pos hpc] at hs
    simp only [Option.some.injEq,Bool.false_eq_true,if_false] at hs
    subst hs
    have hnot : (s.cell i).run.pc ≠ .freed := (h.busy w i hb).2.2
    by_cases hst : (s.cell i).run.t.state = .finished
    · refine handler_inv (r := ⟨(s.cell i).run.t,_⟩) h hb ?_ ?_ ?_ ?_ <;> simp only [hst,if_true]
      · exact ⟨by simp,hc.stopped,hc.asked,hc.posting,by simp,fun _ => hC hst,by simp,
          by simpa [hnot] using hc.count⟩
      · simp
      · simp
      · simp
    · refine handler_inv (r := ⟨(s.cell i).run.t,_⟩) h hb ?_ ?_ ?_ ?_ <;> simp only [hst,if_false]
      · exact ⟨by simp,hc.stopped,hc.asked,hc.posting,fun _ => hst,by simp,by simp,
          by simpa [hnot] using hc.count⟩
      · simp
      · simp
      · simp
  · rw [if_neg hpc] at hs
    cases hs

theorem turnOn_inv {s s' : Tracks} {w i : Nat} {b : Behaviour} (h : Inv s)
    (hb : s.busy w = some i) (hs : s.workOn w i (.turn b) = some s') : Inv s' := by
  have hc := h.cell i
  unfold workOn TrackRun.step at hs
  simp only [Bool.false_eq_true,if_false] at hs
  by_cases hpc : (s.cell i).run.pc = .loop
  · rw [if_pos hpc] at hs
    simp only [Option.some.injEq] at hs
    subst hs
    have hst := PhiTrack.turn_state (s.cell i).run.t b
    have hin := hc.inside (.inl hpc)
    have hafter : ∀ p ∈ [Pc.created,.finished,.closing,.deleted,.freed],
        TrackRun.afterTurn ((s.cell i).run.t.turn b).2 ≠ p := by
      cases ((s.cell i).run.t.turn b).2 <;> simp [TrackRun.afterTurn]
    simp only [List.mem_cons,List.not_mem_nil,or_false,forall_eq_or_imp,forall_eq] at hafter
    obtain ⟨h1,h2,h3,h4,h5⟩ := hafter
    refine handler_inv (r := ⟨_,_⟩) h hb ⟨?_,?_,?_,hc.posting,?_,?_,?_,?_⟩ h1 h4 h5
    · exact fun he => absurd he h1
    · intro hstop
      have := hc.stopped hstop
      rw [hst]
      split <;> simp_all
    · intro hask
      refine hc.asked ?_
      rw [hst] at hask
      split at hask
      · rename_i he; exact .inl he
      · exact hask
    · intro _
      rw [hst]
      split <;> simp_all
    · rintro (he | he | he)
      · exact absurd he h3
      · exact absurd he h4
      · exact absurd he h5
    · rintro (he | he)
      · exact absurd he h4
      · exact absurd he h5
    · simpa [h5,hpc] using hc.count
  · rw [if_neg hpc] at hs
    cases hs

theorem finOn_inv {s s' : Tracks} {w i : Nat} (h : Inv s) (hb : s.busy w = some i)
    (hs : s.workOn w i .fin = some s') : Inv s' := by
  have hc := h.cell i
  unfold workOn TrackRun.step at hs
  simp only [Bool.false_eq_true,if_false] at hs
  by_cases hpc : (s.cell i).run.pc = .fin
  · rw [if_pos hpc] at hs
    simp only [Option.some.injEq] at hs
    subst hs
    by_cases hst : (s.cell i).run.t.state = .running
    · have hns : (s.cell i).stopped ≠ true := fun he => hc.stopped he hst
      have hk := PhiTrack.conveyorClose_keeps { (s.cell i).run.t with
        state := .finished
        chainFlags := { (s.cell i).run.t.chainFlags with finished := true } }
      have hfin : TrackRun.fin (s.cell i).run.t = ⟨{ (s.cell i).run.t with
          state := .finished
          chainFlags := { (s.cell i).run.t.chainFlags with finished := true } }.conveyorClose,
          .finished⟩ := by rw [TrackRun.fin,if_pos hst]
      rw [hfin]
      refine handler_inv (r := ⟨_,_⟩) h hb ⟨by simp,?_,?_,hc.posting,by simp,by simp,by simp,?_⟩
        (by simp) (by simp) (by simp)
      · exact fun he => absurd he hns
      · rintro (he | he)
        · dsimp only at he; rw [hk.2.2.1] at he; cases he
        · dsimp only at he; rw [hk.2.2.1] at he; cases he
      · simpa [hpc] using hc.count
    · have hfin : TrackRun.fin (s.cell i).run.t = ⟨(s.cell i).run.t,.closing⟩ := by
        rw [TrackRun.fin,if_neg hst]
      have hstop : (s.cell i).stopped = true := by
        have hnf := hc.inside (.inr hpc)
        refine hc.asked ?_
        cases he : (s.cell i).run.t.state <;> simp_all
      rw [hfin]
      exact handler_inv (r := ⟨_,_⟩) h hb ⟨by simp,hc.stopped,hc.asked,hc.posting,by simp,
        fun _ => hstop,by simp,by simpa [hpc] using hc.count⟩ (by simp) (by simp) (by simp)
  · rw [if_neg hpc] at hs
    cases hs

theorem delTask_inv {s s' : Tracks} {w i : Nat} (h : Inv s) (hb : s.busy w = some i)
    (hC : (s.cell i).posting = false) (hs : s.workOn w i .delTask = some s') : Inv s' := by
  have hc := h.cell i
  unfold workOn TrackRun.step at hs
  simp only [Bool.false_eq_true,if_false] at hs
  by_cases hpc : (s.cell i).run.pc = .closing
  · rw [if_pos hpc] at hs
    simp only [Option.some.injEq,if_true,atRest] at hs
    subst hs
    obtain ⟨hu,hout⟩ := unpost_inv h i
    have hok : CellOk { s.cell i with run := ⟨(s.cell i).run.t,.deleted⟩ } :=
      ⟨by simp,hc.stopped,hc.asked,hc.posting,by simp,fun _ => hc.closing (.inl hpc),
        fun _ => hC,by simpa [hpc] using hc.count⟩
    have hset := setCell_inv (s := s.unpost i) (i := i)
      (c := { s.cell i with run := ⟨(s.cell i).run.t,.deleted⟩ }) hu
      (h.known (h.busy w i hb).2.1) hok rfl (by simp) (fun w hm => absurd hm (hout w))
      (fun _ _ => by simp)
    have heq : (s.setCell i { s.cell i with run := ⟨(s.cell i).run.t,.deleted⟩ }).unpost i =
        (s.unpost i).setCell i { s.cell i with run := ⟨(s.cell i).run.t,.deleted⟩ } := by
      simp [unpost,setCell]
    rw [heq]
    exact hset
  · rw [if_neg hpc] at hs
    cases hs

theorem free_inv {s s' : Tracks} {w i : Nat} (h : Inv s) (hb : s.busy w = some i)
    (hs : s.workOn w i .free = some s') : Inv s' := by
  have hc := h.cell i
  unfold workOn TrackRun.step at hs
  simp only [Bool.false_eq_true,if_false] at hs
  by_cases hpc : (s.cell i).run.pc = .deleted
  · rw [if_pos hpc] at hs
    simp only [Option.some.injEq,if_true,atRest] at hs
    subst hs
    have hk := PhiTrack.conveyorClose_keeps (s.cell i).run.t
    have hstop := hc.closing (.inr (.inl hpc))
    have hok : CellOk { s.cell i with
        run := ⟨(s.cell i).run.t.conveyorClose,.freed⟩
        destroyed := (s.cell i).destroyed + 1 } := by
      refine ⟨by simp,?_,?_,hc.posting,by simp,fun _ => hstop,fun _ => hc.gone (.inl hpc),?_⟩
      · dsimp only; rw [hk.2.2.1]; exact hc.stopped
      · exact fun _ => hstop
      · have := hc.count
        simp only [hpc,reduceCtorEq,if_false] at this
        simp [this]
    have hrel := release_inv h w
    have hset := setCell_inv (s := { s with busy := Function.update s.busy w none }) (i := i)
      (c := { s.cell i with
        run := ⟨(s.cell i).run.t.conveyorClose,.freed⟩
        destroyed := (s.cell i).destroyed + 1 }) hrel (h.known (h.busy w i hb).2.1) hok rfl (by simp)
      (fun w hm => absurd hpc (h.queued w i hm).2.2.1) ?_
    · simpa [setCell] using hset
    · intro v hv
      have hvw : v = w := by
        by_contra hne
        simp only [Function.update_of_ne hne] at hv
        exact hne ((h.busy v i hv).1.symm.trans (h.busy w i hb).1)
      subst hvw
      simp at hv
  · rw [if_neg hpc] at hs
    cases hs

theorem work_inv {s s' : Tracks} {w : Nat} {a : Phiola.Act} (h : Inv s)
    (hC : InTime s (.work w a)) (hs : s.step (.work w a) = some s') : Inv s' := by
  obtain ⟨i,hb,ha,hs⟩ := step_work hs
  cases a with
  | enter => exact enter_inv h hb (hC i hb) hs
  | turn b => exact turnOn_inv h hb hs
  | fin => exact finOn_inv h hb hs
  | delTask => exact delTask_inv h hb (hC i hb) hs
  | free => exact free_inv h hb hs
  | start | discard | stop => cases ha

theorem step_inv (s : Tracks) (a : Act) (s' : Tracks) (h : Inv s) (hC : InTime s a)
    (hs : s.step a = some s') : Inv s' := by
  cases a with
  | work w a => exact work_inv h hC hs
  | create ifs w =>
    simp only [step,Option.some.injEq] at hs
    subst hs
    have hcr := h.fresh s.n (Nat.le_refl _)
    constructor
    · intro j
      by_cases hj : j = s.n
      · subst hj; simpa using createdOk ifs w
      · simpa [setCell,hj] using h.cell j
    · intro j hj
      have hj : s.n + 1 ≤ j := hj
      simpa [setCell,show j ≠ s.n by omega] using h.fresh j (by omega)
    · intro v j hm
      have hne : j ≠ s.n := by rintro rfl; exact (h.queued v _ hm).2.1 hcr
      simpa [setCell,hne] using h.queued v j hm
    · exact h.nodup
    · intro v j hm
      have hne : j ≠ s.n := by rintro rfl; exact (h.busy v _ hm).2.1 hcr
      simpa [setCell,hne] using h.busy v j hm
  | start i =>
    simp only [step,Option.ite_none_right_eq_some,Option.some.injEq] at hs
    obtain ⟨⟨hi,hpc,hne⟩,rfl⟩ := hs
    have hc := h.cell i
    have hrun : (s.cell i).run.start =
        ⟨(s.cell i).run.t.updConveyor { (s.cell i).run.t.conveyor with cur := 0 },.idle⟩ := by
      rw [TrackRun.start,if_neg (by simpa using hne)]
    rw [hrun]
    have hok : CellOk { s.cell i with run := ⟨(s.cell i).run.t.updConveyor
        { (s.cell i).run.t.conveyor with cur := 0 },.idle⟩ } :=
      ⟨by simp,hc.stopped,hc.asked,hc.posting,by simp,by simp,by simp,
        by simpa [hpc] using hc.count⟩
    exact post_inv (setCell_inv h hi hok rfl (by simp) (fun _ _ => by simp) (fun _ _ => by simp))
      (by simp)
  | wake i =>
    simp only [step,Option.ite_none_right_eq_some,Option.some.injEq] at hs
    obtain ⟨⟨hpc,hst⟩,rfl⟩ := hs
    have hcl := (h.cell i).closing
    refine post_inv h ⟨hpc,fun he => ?_,fun he => ?_⟩
    · simp [hst,he] at hcl
    · simp [hst,he] at hcl
  | stopXchg i =>
    simp only [step,Option.ite_none_right_eq_some,Option.some.injEq] at hs
    obtain ⟨⟨hpc,hst⟩,rfl⟩ := hs
    have hc := h.cell i
    have hcl := hc.closing
    have hnd : (s.cell i).run.pc ≠ .deleted := fun he => by simp [hst,he] at hcl
    have hnf : (s.cell i).run.pc ≠ .freed := fun he => by simp [hst,he] at hcl
    refine setCell_inv h (h.known hpc) ⟨fun he => absurd he hpc,?_,fun _ => rfl,fun _ => rfl,?_,
      fun _ => rfl,?_,hc.count⟩ rfl hpc (fun _ _ => ⟨hnd,hnf⟩) (fun _ _ => hnf)
    · intro _
      simp only [TrackRun.stop]
      split
      · simp
      · assumption
    · intro hin
      have := hc.inside hin
      simp only [TrackRun.stop]
      split
      · simp
      · exact this
    · rintro (he | he)
      · exact absurd he hnd
      · exact absurd he hnf
  | stopPost i =>
    simp only [step,Option.ite_none_right_eq_some,Option.some.injEq] at hs
    obtain ⟨hpost,rfl⟩ := hs
    have hc := h.cell i
    have hnd : (s.cell i).run.pc ≠ .deleted := fun he => by simp [hc.gone (.inl he)] at hpost
    have hnf : (s.cell i).run.pc ≠ .freed := fun he => by simp [hc.gone (.inr he)] at hpost
    have hcr : (s.cell i).run.pc ≠ .created := fun he => by
      exact absurd (hc.posting hpost) (by simp [(hc.created he).1])
    have hok : CellOk { s.cell i with posting := false } :=
      ⟨hc.created,hc.stopped,hc.asked,by simp,hc.inside,hc.closing,fun _ => rfl,hc.count⟩
    exact post_inv (setCell_inv h (h.known hcr) hok rfl hcr (fun _ _ => ⟨hnd,hnf⟩) (fun _ _ => hnf))
      (by simpa using ⟨hcr,hnd,hnf⟩)
  | take w =>
    simp only [step] at hs
    cases hb : s.busy w with
    | some i => simp [hb] at hs
    | none =>
      cases hq : s.queue w with
      | nil => simp [hb,hq] at hs
      | cons i q =>
        simp only [hb,hq,Option.some.injEq] at hs
        subst hs
        have hin := h.queued w i (by simp [hq])
        have hsub (v : Nat) : (Function.update s.queue w q v).Sublist (s.queue v) := by
          by_cases hv : v = w
          · subst hv; rw [Function.update_self,hq]; exact List.sublist_cons_self i q
          · rw [Function.update_of_ne hv]
        refine ⟨h.cell,h.fresh,fun v j hm => h.queued v j ((hsub v).subset hm),
          fun v => (h.nodup v).sublist (hsub v),fun v j hm => ?_⟩
        by_cases hv : v = w
        · subst hv
          simp only [Function.update_self,Option.some.injEq] at hm
          subst hm
          exact ⟨hin.1,hin.2.1,hin.2.2.2⟩
        · exact h.busy v j (by simpa [hv] using hm)

/-- Over every run in time, a track is freed only after its owner has called `stop()`, at most
once, and no queue holds a freed track. -/
theorem lifetime {acts : List Act} {s : Tracks} (hC : Machine.AllSteps step InTime init acts)
    (hrun : Machine.run step init acts = some s) (i : Nat) :
    (0 < (s.cell i).destroyed → (s.cell i).stopped = true) ∧ (s.cell i).destroyed ≤ 1 ∧
      ∀ w, i ∈ s.queue w → (s.cell i).destroyed = 0 := by
  have h := Machine.guarded_invariant step_inv hC hrun init_inv
  have hc := h.cell i
  refine ⟨fun hd => ?_,?_,fun w hm => ?_⟩
  · by_cases hf : (s.cell i).run.pc = .freed
    · exact hc.closing (.inr (.inr hf))
    · have := hc.count
      rw [if_neg hf] at this
      omega
  · rw [hc.count]
    split <;> omega
  · rw [hc.count,if_neg (h.queued w i hm).2.2.2]

/-- A filter that ends the track. -/
private def ends : Behaviour where
  openAdds := []
  openOut := .null
  openError := none
  openRet := .obj 1
  adds := []
  dataIn := .null
  dataOut := .null
  setError := none
  ret := .fin

private def untilFinished : List Act :=
  [.create [⟨"file.read",true,true⟩] 0,.start 0,.take 0,.work 0 .enter]

private def close : List Act := [.work 0 .enter,.work 0 .delTask,.work 0 .free]

/-- A track that ends, then the owner's `stop()` and the run of its task. -/
theorem lifetime_stopped_track : ∃ s, Machine.run step init (untilFinished ++
    ([.work 0 (.turn ends),.work 0 .fin,.stopXchg 0,.stopPost 0,.take 0] : List Act) ++ close) = some s ∧
    (s.cell 0).destroyed = 1 ∧ (s.cell 0).stopped = true := by
  refine ⟨_,Machine.run_eq_getD (d := init) ?_,?_,
    (lifetime ?_ (Machine.run_eq_getD (d := init) ?_) 0).1 ?_⟩ <;> decide +kernel

/-- A wake that is queued when the track finishes frees it before the owner's `stop()`, which then
posts the freed track; and a worker that closes the track between the halves of `stop()` leaves
the same. -/
theorem wake_frees_finished_track :
    (∃ s, Machine.run step init (untilFinished ++
        ([.wake 0,.work 0 (.turn ends),.work 0 .fin,.take 0] : List Act) ++ close) = some s ∧
      (s.cell 0).destroyed = 1 ∧ (s.cell 0).stopped = false) ∧
    (∃ s, Machine.run step init (untilFinished ++
        ([.wake 0,.work 0 (.turn ends),.work 0 .fin,.take 0] : List Act) ++ close ++
        ([.stopXchg 0,.stopPost 0] : List Act)) = some s ∧ (s.cell 0).destroyed = 1 ∧ 0 ∈ s.queue 0) ∧
    (∃ s, Machine.run step init (untilFinished ++
        ([.wake 0,.work 0 (.turn ends),.work 0 .fin,.take 0] : List Act) ++ close ++
        ([.stopXchg 0,.stopPost 0,.take 0] : List Act) ++ close) = some s ∧ (s.cell 0).destroyed = 2) ∧
    ∃ s, Machine.run step init (untilFinished ++
        ([.stopXchg 0,.work 0 (.turn ends),.work 0 .fin,.work 0 .delTask,.work 0 .free,
          .stopPost 0] : List Act)) = some s ∧ (s.cell 0).destroyed = 1 ∧ 0 ∈ s.queue 0 := by
  refine ⟨⟨_,Machine.run_eq_getD (d := init) ?_,?_,?_⟩,⟨_,Machine.run_eq_getD (d := init) ?_,?_,?_⟩,
    ⟨_,Machine.run_eq_getD (d := init) ?_,?_⟩,⟨_,Machine.run_eq_getD (d := init) ?_,?_,?_⟩⟩ <;>
    decide +kernel

end Tracks

end Phiola
