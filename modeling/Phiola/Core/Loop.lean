import Phiola.Core.Tasks

/-!
# The event loop of a worker and its stop

The worker reads the stop flag, waits for a batch of events and calls their handlers. The task queue is
drained by the handler of its own event. Another thread stops the loop: it writes the flag and then it
posts an event that only wakes the worker up.
-/

namespace Phiola

/-- The data of an event: `zzkq_tq.kev`, `zzkq.post_kev`, or a timer's or a descriptor's. -/
inductive KEvent
  | tasks
  | post
  | other (i : Nat)
  deriving DecidableEq, Repr

/-- Where the worker is in `zzkq_run()`; `rest` are the events of the batch that are left. -/
inductive LoopPc
  | check
  | wait
  | batch (rest : List KEvent)
  | handler (ev : KEvent) (rest : List KEvent)
  | exited
  deriving DecidableEq, Repr

def LoopPc.rest : LoopPc → List KEvent
  | .check => []
  | .wait => []
  | .batch rest => rest
  | .handler _ rest => rest
  | .exited => []

/-- Where the other thread is in `zzkq_stop()`. -/
inductive StopPc
  | idle
  | called
  | flagged
  | returned
  deriving DecidableEq, Repr

/-- A worker with its task queue. `others` are the pending events of timers and descriptors;
`atStop` is no field of the source: the task queue when `zzkq_stop()` was called. -/
structure EventLoop where
  tq : TaskQueue
  stop : Bool
  stopPc : StopPc
  postPending : Bool
  others : List Nat
  pc : LoopPc
  atStop : Option TaskQueue

namespace EventLoop

def init : EventLoop := ⟨.init,false,.idle,false,[],.check,none⟩

/-- The event is pending in the kernel queue. -/
def Pending (s : EventLoop) : KEvent → Prop
  | .tasks => s.tq.signal = true
  | .post => s.postPending = true
  | .other i => i ∈ s.others

instance (s : EventLoop) : (ev : KEvent) → Decidable (s.Pending ev)
  | .tasks => inferInstanceAs (Decidable (s.tq.signal = true))
  | .post => inferInstanceAs (Decidable (s.postPending = true))
  | .other i => inferInstanceAs (Decidable (i ∈ s.others))

/-- The worker is in a handler that may post and delete tasks: a task, or the handler of another
event. -/
def handling (s : EventLoop) : Bool :=
  match s.pc with
  | .handler .tasks _ => s.tq.reader.handling && s.tq.reader != .wait
  | .handler (.other _) _ => true
  | .handler .post _ => false
  | .check => false
  | .wait => false
  | .batch _ => false
  | .exited => false

/-- The steps of the task queue that the loop leaves to the threads and to the handler of the tasks'
event. -/
def mayStep (s : EventLoop) : TaskQueue.Act → Bool
  | .post p _ => p != 0 || s.handling
  | .signal _ => true
  | .del _ => s.handling
  | .consume => false
  | .look => true
  | .take => true
  | .ran => true

inductive Act
  | queue (a : TaskQueue.Act)
  | arise (i : Nat)
  | check
  | wait (evs : List KEvent)
  | dispatch
  | ret
  | stopCall
  | stopFlag
  | stopPost
  deriving DecidableEq, Repr

/-- `_zzkq_kev_call()` for the next event of the batch; `post_kev` has no active task. -/
def dispatch (s : EventLoop) : List KEvent → Option EventLoop
  | [] => some { s with pc := .check }
  | .tasks :: rest =>
    (s.tq.step .consume).map fun tq => { s with tq := tq, pc := .handler .tasks rest }
  | .post :: rest => some { s with pc := .batch rest }
  | .other i :: rest => some { s with pc := .handler (.other i) rest }

def step (s : EventLoop) : Act → Option EventLoop
  | .queue a =>
    if s.mayStep a then (s.tq.step a).map fun tq => { s with tq := tq } else none
  | .arise i => some { s with others := s.others.insert i }
  | .check => if s.pc = .check then some { s with pc := if s.stop then .exited else .wait } else none
  -- `ffkq_wait()` returns some of the pending events
  | .wait evs =>
    if s.pc = .wait ∧ evs ≠ [] ∧ evs.Nodup ∧ ∀ ev ∈ evs, s.Pending ev then
      some { s with
        pc := .batch evs
        postPending := s.postPending && !evs.contains .post
        others := s.others.filter fun i => !evs.contains (.other i) }
    else none
  | .dispatch =>
    match s.pc with
    | .batch rest => s.dispatch rest
    | .check => none
    | .wait => none
    | .handler _ _ => none
    | .exited => none
  | .ret =>
    match s.pc with
    | .handler _ rest =>
      if s.tq.reader = .wait ∧ s.tq.poster 0 = .idle then some { s with pc := .batch rest } else none
    | .check => none
    | .wait => none
    | .batch _ => none
    | .exited => none
  -- `zzkq_stop()`
  | .stopCall =>
    if s.stopPc = .idle then some { s with stopPc := .called, atStop := some s.tq } else none
  | .stopFlag => if s.stopPc = .called then some { s with stopPc := .flagged, stop := true } else none
  | .stopPost =>
    if s.stopPc = .flagged then some { s with stopPc := .returned, postPending := true } else none

/-- A post of this task was complete when `zzkq_stop()` was called. -/
def Due (s : EventLoop) (n : Nat) : Prop := ∃ t ∈ s.atStop, n ∈ t.posted

instance (s : EventLoop) (n : Nat) : Decidable (s.Due n) :=
  inferInstanceAs (Decidable (∃ t ∈ s.atStop, n ∈ t.posted))

/-- Such a task is still in the list. -/
def DueQueued (s : EventLoop) : Prop := ∃ x ∈ s.tq.tasks, s.Due x.num

instance (s : EventLoop) : Decidable s.DueQueued :=
  inferInstanceAs (Decidable (∃ x ∈ s.tq.tasks, s.Due x.num))

/-- When the loop has ended each task whose post was complete before the stop was run or deleted;
while the worker waits after the stop an event is pending for it, or `zzkq_stop()` is about to post
one. -/
structure Stopped (s : EventLoop) : Prop where
  ran : s.pc = .exited → ∀ n, s.Due n → n ∈ s.tq.runs ∨ n ∈ s.tq.dels
  wakes : s.stop = true → s.pc = .wait → s.stopPc = .flagged ∨ ∃ ev, s.Pending ev

/-- When the flag is written, and when a wait returns with the flag set, a task whose post was
complete before the stop and that is still in the list is met by the worker before it reads the
flag: it is in the run loop, or the tasks' event is in the batch, or it is to wait. -/
def Met (s : EventLoop) : Act → Prop
  | .stopFlag => s.DueQueued → s.tq.reader ≠ .wait ∨ s.pc = .wait ∨ .tasks ∈ s.pc.rest
  | .wait evs => s.stop = true → s.DueQueued → .tasks ∈ evs
  | .queue _ => True
  | .arise _ => True
  | .check => True
  | .dispatch => True
  | .ret => True
  | .stopCall => True
  | .stopPost => True

instance (s : EventLoop) : (a : Act) → Decidable (s.Met a)
  | .stopFlag => inferInstanceAs (Decidable (s.DueQueued → _ ∨ _ ∨ _))
  | .wait evs => inferInstanceAs (Decidable (s.stop = true → s.DueQueued → .tasks ∈ evs))
  | .queue _ => inferInstanceAs (Decidable True)
  | .arise _ => inferInstanceAs (Decidable True)
  | .check => inferInstanceAs (Decidable True)
  | .dispatch => inferInstanceAs (Decidable True)
  | .ret => inferInstanceAs (Decidable True)
  | .stopCall => inferInstanceAs (Decidable True)
  | .stopPost => inferInstanceAs (Decidable True)

structure Inv (s : EventLoop) : Prop where
  tq : s.tq.Inv
  reading : s.tq.reader ≠ .wait → ∃ rest, s.pc = .handler .tasks rest
  due : ∀ n, s.Due n → n < s.tq.ins
  flag : s.stop = true ↔ s.stopPc = .flagged ∨ s.stopPc = .returned
  wakes : s.pc = .wait → s.stopPc = .returned → s.postPending = true
  exited : s.pc = .exited → s.stop = true

/-- What the condition keeps of the worker once the flag is set. -/
def Meets (s : EventLoop) : Prop :=
  s.stop = true → s.DueQueued → s.tq.reader ≠ .wait ∨ s.pc = .wait ∨ .tasks ∈ s.pc.rest

variable {s s' : EventLoop} {a : Act}

theorem Inv.reader_wait (hi : Inv s) (hpc : ∀ rest, s.pc ≠ .handler .tasks rest) :
    s.tq.reader = .wait := by
  by_contra hr
  obtain ⟨rest,h⟩ := hi.reading hr
  exact hpc rest h

/-- What a step can do. -/
inductive Steps (s : EventLoop) : Act → EventLoop → Prop
  | queue {b : TaskQueue.Act} {tq : TaskQueue} : b ≠ .consume → s.tq.step b = some tq →
      Steps s (.queue b) { s with tq := tq }
  | arise {i : Nat} : Steps s (.arise i) { s with others := s.others.insert i }
  | leave : s.pc = .check → s.stop = true → Steps s .check { s with pc := .exited }
  | enter : s.pc = .check → s.stop = false → Steps s .check { s with pc := .wait }
  | wait {evs : List KEvent} {others : List Nat} {pending : Bool} : s.pc = .wait →
      Steps s (.wait evs) { s with pc := .batch evs, postPending := pending, others := others }
  | done : s.pc = .batch [] → Steps s .dispatch { s with pc := .check }
  | tasks {rest : List KEvent} {tq : TaskQueue} : s.pc = .batch (.tasks :: rest) →
      s.tq.step .consume = some tq → Steps s .dispatch { s with tq := tq, pc := .handler .tasks rest }
  | post {rest : List KEvent} : s.pc = .batch (.post :: rest) →
      Steps s .dispatch { s with pc := .batch rest }
  | other {i : Nat} {rest : List KEvent} : s.pc = .batch (.other i :: rest) →
      Steps s .dispatch { s with pc := .handler (.other i) rest }
  | ret {ev : KEvent} {rest : List KEvent} : s.pc = .handler ev rest → s.tq.reader = .wait →
      Steps s .ret { s with pc := .batch rest }
  | stopCall : s.stopPc = .idle → Steps s .stopCall { s with stopPc := .called, atStop := some s.tq }
  | stopFlag : s.stopPc = .called → Steps s .stopFlag { s with stopPc := .flagged, stop := true }
  | stopPost : s.stopPc = .flagged →
      Steps s .stopPost { s with stopPc := .returned, postPending := true }

theorem dispatch_steps {rest : List KEvent} (hpc : s.pc = .batch rest)
    (hs : s.dispatch rest = some s') : s.Steps .dispatch s' := by
  match rest, hs with
  | [], hs => cases hs; exact .done hpc
  | .tasks :: rest, hs =>
    obtain ⟨tq,htq,rfl⟩ := Option.map_eq_some_iff.mp hs
    exact .tasks hpc htq
  | .post :: rest, hs => cases hs; exact .post hpc
  | .other i :: rest, hs => cases hs; exact .other hpc

theorem step_steps (hs : s.step a = some s') : s.Steps a s' := by
  cases a with
  | queue b =>
    obtain ⟨hmay,hs⟩ := Option.ite_none_right_eq_some.mp hs
    obtain ⟨tq,htq,rfl⟩ := Option.map_eq_some_iff.mp hs
    exact .queue (fun hb => by rw [hb] at hmay; cases hmay) htq
  | arise i =>
    cases hs
    exact .arise
  | check =>
    obtain ⟨hpc,⟨⟩⟩ := Option.ite_none_right_eq_some.mp hs
    by_cases hstop : s.stop = true
    · rw [if_pos hstop]
      exact .leave hpc hstop
    · rw [if_neg hstop]
      exact .enter hpc (Bool.eq_false_iff.mpr hstop)
  | wait evs =>
    obtain ⟨⟨hpc,_⟩,⟨⟩⟩ := Option.ite_none_right_eq_some.mp hs
    exact .wait hpc
  | dispatch =>
    simp only [EventLoop.step] at hs
    cases hpc : s.pc with
    | batch rest => rw [hpc] at hs; exact dispatch_steps hpc hs
    | check => rw [hpc] at hs; cases hs
    | wait => rw [hpc] at hs; cases hs
    | handler ev rest => rw [hpc] at hs; cases hs
    | exited => rw [hpc] at hs; cases hs
  | ret =>
    simp only [EventLoop.step] at hs
    cases hpc : s.pc with
    | handler ev rest =>
      rw [hpc] at hs
      obtain ⟨⟨hrd,_⟩,⟨⟩⟩ := Option.ite_none_right_eq_some.mp hs
      exact .ret hpc hrd
    | check => rw [hpc] at hs; cases hs
    | wait => rw [hpc] at hs; cases hs
    | batch rest => rw [hpc] at hs; cases hs
    | exited => rw [hpc] at hs; cases hs
  | stopCall =>
    obtain ⟨hpc,⟨⟩⟩ := Option.ite_none_right_eq_some.mp hs
    exact .stopCall hpc
  | stopFlag =>
    obtain ⟨hpc,⟨⟩⟩ := Option.ite_none_right_eq_some.mp hs
    exact .stopFlag hpc
  | stopPost =>
    obtain ⟨hpc,⟨⟩⟩ := Option.ite_none_right_eq_some.mp hs
    exact .stopPost hpc

theorem Inv.moves (hi : Inv s) (hrd : s.tq.reader = .wait) (pc : LoopPc) (pending : Bool)
    (others : List Nat) (hwait : pc = .wait → s.stop = false) (hexit : pc = .exited → s.stop = true) :
    Inv { s with pc := pc, postPending := pending, others := others } where
  tq := hi.tq
  reading hr := absurd hrd hr
  due := hi.due
  flag := hi.flag
  wakes hpc hret := by
    have hstop := hi.flag.mpr (.inr hret)
    rw [hwait hpc] at hstop
    cases hstop
  exited := hexit

theorem Inv.step (hi : Inv s) (hs : s.step a = some s') : Inv s' := by
  cases step_steps hs with
  | queue hb htq =>
    exact ⟨hi.tq.step htq,fun hr => hi.reading (TaskQueue.step_not_entered hb htq hr),
      fun n hn => (hi.due n hn).trans_le (TaskQueue.step_ins htq),hi.flag,hi.wakes,hi.exited⟩
  | arise => exact ⟨hi.tq,hi.reading,hi.due,hi.flag,hi.wakes,hi.exited⟩
  | leave hpc hstop =>
    exact hi.moves (hi.reader_wait (by simp [hpc])) _ _ _ (fun h => by cases h) fun _ => hstop
  | enter hpc hstop =>
    exact hi.moves (hi.reader_wait (by simp [hpc])) _ _ _ (fun _ => hstop) fun h => by cases h
  | wait hpc =>
    exact hi.moves (hi.reader_wait (by simp [hpc])) _ _ _ (fun h => by cases h) fun h => by cases h
  | done hpc =>
    exact hi.moves (hi.reader_wait (by simp [hpc])) _ _ _ (fun h => by cases h) fun h => by cases h
  | tasks hpc htq =>
    exact ⟨hi.tq.step htq,fun _ => ⟨_,rfl⟩,fun n hn => (hi.due n hn).trans_le (TaskQueue.step_ins htq),
      hi.flag,fun h => by (cases h),fun h => by cases h⟩
  | post hpc =>
    exact hi.moves (hi.reader_wait (by simp [hpc])) _ _ _ (fun h => by cases h) fun h => by cases h
  | other hpc =>
    exact hi.moves (hi.reader_wait (by simp [hpc])) _ _ _ (fun h => by cases h) fun h => by cases h
  | ret hpc hrd => exact hi.moves hrd _ _ _ (fun h => by cases h) fun h => by cases h
  | stopCall hpc =>
    have hrun : ¬ s.stop = true := fun hstop => by
      rcases hi.flag.mp hstop with h | h <;> rw [hpc] at h <;> cases h
    refine ⟨hi.tq,hi.reading,?_,iff_of_false hrun (by simp),fun _ h => by (cases h),hi.exited⟩
    rintro n ⟨t,ht,hn⟩
    cases ht
    exact hi.tq.posted n hn
  | stopFlag hpc =>
    exact ⟨hi.tq,hi.reading,hi.due,iff_of_true rfl (.inl rfl),fun _ h => by (cases h),fun _ => rfl⟩
  | stopPost hpc =>
    exact ⟨hi.tq,hi.reading,hi.due,iff_of_true (hi.flag.mpr (.inl hpc)) (.inr rfl),fun _ _ => rfl,
      hi.exited⟩

/-- A step of the task queue inserts no task that is due, and it ends the run loop only when the list is
empty. -/
theorem Meets.queue (h : s.Meets) (hi : Inv s) {b : TaskQueue.Act} {tq : TaskQueue}
    (hs : s.tq.step b = some tq) : Meets { s with tq := tq } := by
  rintro hstop ⟨x,hx,hdue⟩
  have hold : x ∈ s.tq.tasks := by
    refine (TaskQueue.step_tasks hs x hx).resolve_right fun hnum => ?_
    exact Nat.lt_irrefl _ ((hi.due x.num hdue).trans_le hnum)
  refine (h hstop ⟨x,hold,hdue⟩).imp_left fun hr => ?_
  refine (TaskQueue.step_reading hs hr).resolve_right fun hnil => ?_
  rw [show tq.tasks = [] from hnil] at hx
  cases hx

/-- A worker that is in neither place has the tasks' event before it. -/
theorem Meets.rest (h : s.Meets) (hrd : s.tq.reader = .wait) (hpc : s.pc ≠ .wait)
    (hstop : s.stop = true) (hdq : s.DueQueued) : .tasks ∈ s.pc.rest :=
  ((h hstop hdq).resolve_left fun hr => hr hrd).resolve_left hpc

theorem Meets.step (h : s.Meets) (hi : Inv s) (hm : s.Met a) (hs : s.step a = some s') : Meets s' := by
  cases step_steps hs with
  | queue hb htq => exact h.queue hi htq
  | arise => exact h
  | leave hpc _ =>
    intro hstop hdq
    have := h.rest (hi.reader_wait (by simp [hpc])) (by simp [hpc]) hstop hdq
    rw [hpc] at this
    cases this
  | enter _ _ => exact fun _ _ => .inr (.inl rfl)
  | wait _ => exact fun hstop hdq => .inr (.inr (hm hstop hdq))
  | done hpc =>
    intro hstop hdq
    have := h.rest (hi.reader_wait (by simp [hpc])) (by simp [hpc]) hstop hdq
    rw [hpc] at this
    cases this
  | tasks _ htq =>
    obtain ⟨_,⟨⟩⟩ := Option.ite_none_right_eq_some.mp htq
    exact fun _ _ => .inl (by simp)
  | post hpc =>
    intro hstop hdq
    have := h.rest (hi.reader_wait (by simp [hpc])) (by simp [hpc]) hstop hdq
    rw [hpc] at this
    exact .inr (.inr ((List.mem_cons.mp this).resolve_left (by simp)))
  | other hpc =>
    intro hstop hdq
    have := h.rest (hi.reader_wait (by simp [hpc])) (by simp [hpc]) hstop hdq
    rw [hpc] at this
    exact .inr (.inr ((List.mem_cons.mp this).resolve_left (by simp)))
  | ret hpc hrd =>
    intro hstop hdq
    have := h.rest hrd (by simp [hpc]) hstop hdq
    rw [hpc] at this
    exact .inr (.inr this)
  | stopCall hpc =>
    intro hstop
    rcases hi.flag.mp hstop with h | h <;> rw [hpc] at h <;> cases h
  | stopFlag _ => exact fun _ => hm
  | stopPost _ => exact h

theorem inv_init : Inv init :=
  ⟨TaskQueue.inv_init,fun h => absurd rfl h,fun n ⟨t,ht,_⟩ => by (cases ht),
    iff_of_false (by simp [init]) (by simp [init]),fun h => by (cases h),fun h => by cases h⟩

theorem Inv.stopped (hi : Inv s) (hm : s.Meets) : Stopped s := by
  refine ⟨fun hpc n hn => ?_,fun hst hpc => ?_⟩
  · -- it was inserted, and it is no longer in the list
    have hmem : n ∈ s.tq.runs ++ s.tq.dels ++ s.tq.tasks.map Queued.num :=
      hi.tq.once.mem_iff.mpr (List.mem_range.mpr (hi.due n hn))
    refine List.mem_append.mp ((List.mem_append.mp hmem).resolve_right fun h => ?_)
    obtain ⟨x,hx,rfl⟩ := List.mem_map.mp h
    have := hm.rest (hi.reader_wait (by simp [hpc])) (by simp [hpc]) (hi.exited hpc) ⟨x,hx,hn⟩
    rw [hpc] at this
    cases this
  · rcases hi.flag.mp hst with h | h
    · exact .inl h
    · exact .inr ⟨.post,hi.wakes hpc h⟩

/-- In every run whose steps meet the condition the stop loses no task, and the worker notices it. -/
theorem stop_loses_nothing {as : List Act} (hmet : Machine.AllSteps step Met init as)
    (hrun : Machine.run step init as = some s) : Stopped s := by
  have h : Inv s ∧ Meets s := by
    refine Machine.guarded_invariant (I := fun s => Inv s ∧ Meets s) ?_ hmet hrun ⟨inv_init,?_⟩
    · exact fun _ _ _ hi hm hs => ⟨hi.1.step hs,hi.2.step hi.1 hm hs⟩
    · exact fun h => by cases h
  exact h.1.stopped h.2

/-- The worker waits, a task is posted and the loop is stopped; the wait returns both events. -/
def stopWaiting : List Act :=
  [.check,.queue (.post 1 10),.queue (.signal 1),.stopCall,.stopFlag,.stopPost,.wait [.post,.tasks],
    .dispatch,.dispatch,.queue .look,.queue .take,.queue .ran,.queue .look,.ret,.dispatch,.check]

def afterStop : EventLoop := (Machine.run step init stopWaiting).getD init

theorem stop_loses_nothing_waiting : afterStop.pc = .exited ∧ Stopped afterStop :=
  ⟨by decide +kernel,stop_loses_nothing (show Machine.AllSteps step Met init stopWaiting by decide +kernel)
    (Machine.run_eq_getD (by decide +kernel))⟩

/-- The task is posted and the loop is stopped while the handler of another event runs. -/
def stopHandling : List Act :=
  [.check,.arise 5,.wait [.other 5],.dispatch,.queue (.post 1 10),.queue (.signal 1),.stopCall,
    .stopFlag,.stopPost,.ret,.dispatch,.check]

def afterHandling : EventLoop := (Machine.run step init stopHandling).getD init

theorem stop_loses_task : Machine.run step init stopHandling = some afterHandling ∧
    afterHandling.tq.tasks = [⟨10,0⟩] ∧ ¬ Stopped afterHandling := by
  refine ⟨Machine.run_eq_getD (by decide +kernel),by decide +kernel,fun h => ?_⟩
  have := h.ran (by decide +kernel) 0 (by decide +kernel)
  revert this
  decide +kernel

end EventLoop

end Phiola
