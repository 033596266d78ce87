import Phiola.Framework.Machine
import Mathlib.Data.List.Count
import Mathlib.Data.List.Perm.Basic

/-!
# The timers of a worker

The worker's clock is read at each tick of its kernel timer. The timer is switched off after ten
seconds without a user's timer, by a node in the same queue.
-/

namespace Phiola.Timers

/-- A node of the queue: the worker's `tmr_stop` or a user's timer. -/
inductive Id
  | stop
  | user (t : Nat)
deriving DecidableEq, Repr

/-- `fftimerqueue_node`. `k` is the call of `wrk_timer()` that set it. -/
structure Node where
  id : Id
  key : Nat
  interval : Int
  k : Nat
deriving DecidableEq, Repr

/-- A call of `wrk_timer()` that sets a timer, and when. -/
structure Setting where
  t : Nat
  time : Nat
  interval : Int
deriving DecidableEq, Repr

/-- A run of the handler of setting `k`, and whether it is the last call for its timer. -/
structure Run where
  k : Nat
  time : Nat
  current : Bool
deriving DecidableEq, Repr

/-- `struct worker` with the time and the kernel timer, which ticks next at `due` while it is `on`. `active` is
`rtask.active`, from which the worker takes whether it is. `proc` counts
the nodes that the running `fftimerqueue_process()` has processed. `again` says that `tmr_stop`
was added while it was in the queue, `last` is the setting that the last call for a timer made. -/
structure Worker where
  period : Nat
  time : Nat
  now_msec : Nat
  active : Bool
  on : Bool
  due : Nat
  timerq : List Node
  proc : Option Nat
  again : Bool
  sets : List Setting
  last : Nat → Option Nat
  runs : List Run

/-- `wrk_create()` reads the clock. -/
def init (period time : Nat) : Worker :=
  ⟨period,time,time,false,false,0,[],none,false,[],fun _ => none,[]⟩

def fftimerqueue_remove (q : List Node) (id : Id) : List Node := q.filter fun x => x.id ≠ id

/-- `fftimerqueue_add()`: a node that is in the queue is moved. -/
def fftimerqueue_add (q : List Node) (x : Node) : List Node := fftimerqueue_remove q x.id ++ [x]

/-- The node that switches the kernel timer off is put into the queue. -/
def add_stop (w : Worker) : Worker :=
  {w with
    timerq := fftimerqueue_add w.timerq ⟨.stop,w.now_msec + 10000,-10000,0⟩
    again := w.again || w.timerq.any fun x => x.id = .stop}

/-- `wrk_timer()`; `started` is the answer of `fftimer_start()`, before which `zzkq_timer_start()` sets the flag. -/
def wrk_timer (w : Worker) (t : Nat) (interval : Int) (started : Bool) : Worker :=
  if interval = 0 then
    let w := {w with
      timerq := fftimerqueue_remove w.timerq (.user t)
      last := Function.update w.last t none}
    if w.timerq = [] then add_stop w else w
  else
    let w := {w with timerq := fftimerqueue_remove w.timerq .stop}
    if w.active = false ∧ started = false then {w with active := true, last := Function.update w.last t none}
    else {w with
      active := true
      on := if w.active then w.on else true
      due := if w.active then w.due else w.time + w.period
      timerq := fftimerqueue_add w.timerq
        ⟨.user t,w.now_msec + interval.natAbs,interval,w.sets.length⟩
      sets := w.sets ++ [⟨t,w.time,interval⟩]
      last := Function.update w.last t (some w.sets.length)}

/-- The beginning of `on_timer()`. -/
def on_timer (w : Worker) : Worker :=
  {w with
    now_msec := w.time
    due := w.time + w.period - (w.time - w.due) % w.period
    proc := some 0}

/-- `fftimerqueue_process()` takes a node whose time has come and calls its handler: that of
`tmr_stop` is `timer_suspend()`, and `stopped` is the answer of `zzkq_timer_stop()`. -/
def process (w : Worker) (i n : Nat) (x : Node) (stopped : Bool) : Worker :=
  let rest := w.timerq.eraseIdx i
  let w := {w with
    timerq := if x.interval < 0 then rest else rest ++ [{x with key := w.now_msec + x.interval.natAbs}]
    proc := some (n + 1)}
  match x.id with
  | .stop => if stopped then {w with active := false, on := false} else w
  | .user t => {w with runs := w.runs ++ [⟨x.k,w.time,w.last t = some x.k⟩]}

/-- The end of `on_timer()`. -/
def on_timer_end (w : Worker) (n : Nat) : Worker :=
  let w := {w with proc := none}
  if n ≠ 0 ∧ w.timerq = [] then add_stop w else w

/-- Time passes, the kernel timer ticks, the worker processes the `i`-th node of the queue or the
last one, and a user, which may be a handler, sets or stops a timer. -/
inductive Act
  | advance (n : Nat)
  | tick
  | process (i : Nat) (stopped : Bool)
  | finish
  | timer (t : Nat) (interval : Int) (started : Bool)
deriving DecidableEq, Repr

def step (w : Worker) : Act → Option Worker
  | .advance n => some {w with time := w.time + n}
  | .tick => if w.on ∧ w.due ≤ w.time ∧ w.proc = none then some (on_timer w) else none
  | .process i stopped =>
    match w.proc, w.timerq[i]? with
    | some n, some x => if x.key ≤ w.now_msec then some (process w i n x stopped) else none
    | _, _ => none
  | .finish =>
    match w.proc with
    | some n => if w.timerq.all fun x => w.now_msec < x.key then some (on_timer_end w n) else none
    | none => none
  | .timer t interval started => some (wrk_timer w t interval started)

/-! ## What the users may rely on -/

/-- The timer ticks while a user's timer is pending, no handler runs early or after its timer was
set anew or stopped, a handler that is to run once does so, and `tmr_stop` is never added twice. -/
structure Kept (w : Worker) : Prop where
  on : ∀ x ∈ w.timerq, x.id ≠ .stop → w.on = true
  early : ∀ r ∈ w.runs, ∀ s, w.sets[r.k]? = some s → s.time + s.interval.natAbs ≤ r.time + w.period
  once : ∀ k s, w.sets[k]? = some s → s.interval < 0 → w.runs.countP (fun r => r.k = k) ≤ 1
  current : ∀ r ∈ w.runs, r.current = true
  again : w.again = false

/-- A timer is set while the worker's clock is at most one tick behind, and the kernel timer is not off with its
flag set. -/
def Fresh (w : Worker) : Act → Prop
  | .timer _ interval _ => interval ≠ 0 → w.time ≤ w.now_msec + w.period ∧ (w.active → w.on)
  | _ => True

instance (w : Worker) : ∀ a, Decidable (Fresh w a)
  | .timer _ interval _ =>
    inferInstanceAs (Decidable (interval ≠ 0 → w.time ≤ w.now_msec + w.period ∧ (w.active → w.on)))
  | .advance _ | .tick | .process _ _ | .finish => inferInstanceAs (Decidable True)

/-- What is known of a pending user's timer: the last call for it has set it. -/
def Pending (w : Worker) (x : Node) (t : Nat) : Prop :=
  w.last t = some x.k ∧ ∃ s, w.sets[x.k]? = some s ∧ s.t = t ∧ s.interval = x.interval ∧
    s.time + s.interval.natAbs ≤ x.key + w.period

/-- How often setting `k` has run or is pending. -/
def uses (q : List Node) (rs : List Run) (k : Nat) : Nat :=
  rs.countP (fun r => r.k = k) + q.countP fun x => x.id ≠ .stop ∧ x.k = k

structure Inv (w : Worker) : Prop where
  clock : w.now_msec ≤ w.time
  nodup : (w.timerq.map Node.id).Nodup
  alone : ∀ x ∈ w.timerq, x.id = .stop → ∀ y ∈ w.timerq, y.id = .stop
  on : ∀ x ∈ w.timerq, x.id ≠ .stop → w.on = true
  active : w.on = true → w.active = true
  oneshot : ∀ x ∈ w.timerq, x.id = .stop → x.interval < 0
  pending : ∀ x ∈ w.timerq, ∀ t, x.id = .user t → Pending w x t
  known : ∀ r ∈ w.runs, r.k < w.sets.length
  early : ∀ r ∈ w.runs, ∀ s, w.sets[r.k]? = some s → s.time + s.interval.natAbs ≤ r.time + w.period
  once : ∀ k s, w.sets[k]? = some s → s.interval < 0 → uses w.timerq w.runs k ≤ 1
  current : ∀ r ∈ w.runs, r.current = true
  again : w.again = false

theorem Inv.kept {w : Worker} (h : Inv w) : Kept w where
  on := h.on
  early := h.early
  once k s hk hs := by
    have hone := h.once k s hk hs
    unfold uses at hone
    omega
  current := h.current
  again := h.again

theorem inv_init (period time : Nat) : Inv (init period time) where
  clock := Nat.le_refl time
  nodup := List.nodup_nil
  alone := by simp [init]
  on := by simp [init]
  active := by simp [init]
  oneshot := by simp [init]
  pending := by simp [init]
  known := by simp [init]
  early := by simp [init]
  once := by simp [init]
  current := by simp [init]
  again := rfl

variable {w w' : Worker}

theorem Inv.shrink (h : Inv w) {q : List Node} (hq : q.Sublist w.timerq) :
    Inv {w with timerq := q} where
  clock := h.clock
  nodup := h.nodup.sublist (hq.map _)
  alone x hx hid y hy := h.alone x (hq.subset hx) hid y (hq.subset hy)
  on x hx := h.on x (hq.subset hx)
  active := h.active
  oneshot x hx := h.oneshot x (hq.subset hx)
  pending x hx := h.pending x (hq.subset hx)
  known := h.known
  early := h.early
  once k s hk hs := by
    have hone := h.once k s hk hs
    have hle := hq.countP_le (p := fun x => decide (x.id ≠ .stop ∧ x.k = k))
    unfold uses at hone ⊢
    dsimp only
    omega
  current := h.current
  again := h.again

theorem remove_sublist (q : List Node) (id : Id) : (fftimerqueue_remove q id).Sublist q :=
  List.filter_sublist

theorem mem_remove {q : List Node} {id : Id} {x : Node} :
    x ∈ fftimerqueue_remove q id ↔ x ∈ q ∧ x.id ≠ id := by
  simp [fftimerqueue_remove]

theorem Inv.add_stop (h : Inv w) (hq : w.timerq = []) : Inv (add_stop w) := by
  have hqueue : (Timers.add_stop w).timerq = [⟨.stop,w.now_msec + 10000,-10000,0⟩] := by
    simp [Timers.add_stop,fftimerqueue_add,fftimerqueue_remove,hq]
  refine ⟨h.clock,?_,?_,?_,h.active,?_,?_,h.known,h.early,fun k s hk hs => ?_,h.current,?_⟩
  · simp [hqueue]
  · simp [hqueue]
  · simp [hqueue]
  · simp [hqueue]
  · simp [hqueue]
  · have hone := h.once k s hk hs
    simpa [uses,hq,Timers.add_stop,fftimerqueue_add,fftimerqueue_remove] using hone
  · simp [Timers.add_stop,hq,h.again]

theorem Inv.forget (h : Inv w) (t : Nat) (hq : ∀ x ∈ w.timerq, x.id ≠ .user t) :
    Inv {w with last := Function.update w.last t none} where
  clock := h.clock
  nodup := h.nodup
  alone := h.alone
  on := h.on
  active := h.active
  oneshot := h.oneshot
  pending x hx u hu := by
    obtain ⟨hlast,hset⟩ := h.pending x hx u hu
    have hne : u ≠ t := by
      rintro rfl
      exact hq x hx hu
    exact ⟨(Function.update_of_ne hne _ _).trans hlast,hset⟩
  known := h.known
  early := h.early
  once := h.once
  current := h.current
  again := h.again

theorem Inv.set (h : Inv w) (t : Nat) {interval : Int} (due : Nat)
    (hfresh : w.time ≤ w.now_msec + w.period) (hstop : ∀ x ∈ w.timerq, x.id ≠ .stop) :
    Inv {w with
      active := true
      on := true
      due := due
      timerq := fftimerqueue_add w.timerq
        ⟨.user t,w.now_msec + interval.natAbs,interval,w.sets.length⟩
      sets := w.sets ++ [⟨t,w.time,interval⟩]
      last := Function.update w.last t (some w.sets.length)} := by
  have hold {k : Nat} {s : Setting} (hk : w.sets[k]? = some s) :
      (w.sets ++ [⟨t,w.time,interval⟩])[k]? = some s := by
    rw [List.getElem?_append_left (List.getElem?_eq_some_iff.mp hk).1]
    exact hk
  have hback {k : Nat} {s : Setting} (hlt : k < w.sets.length)
      (hk : (w.sets ++ [⟨t,w.time,interval⟩])[k]? = some s) : w.sets[k]? = some s := by
    rwa [List.getElem?_append_left hlt] at hk
  have hmem {x : Node} (hx : x ∈ fftimerqueue_add w.timerq
      ⟨.user t,w.now_msec + interval.natAbs,interval,w.sets.length⟩) :
      (x ∈ w.timerq ∧ x.id ≠ .user t) ∨
        x = ⟨.user t,w.now_msec + interval.natAbs,interval,w.sets.length⟩ := by
    rcases List.mem_append.mp hx with hx | hx
    · exact .inl (mem_remove.mp hx)
    · exact .inr (List.mem_singleton.mp hx)
  have hnostop {x : Node} (hx : x ∈ fftimerqueue_add w.timerq
      ⟨.user t,w.now_msec + interval.natAbs,interval,w.sets.length⟩) : x.id ≠ .stop := by
    rcases hmem hx with ⟨hx,-⟩ | rfl
    · exact hstop x hx
    · simp
  refine ⟨h.clock,?_,fun x hx hid => (hnostop hx hid).elim,fun _ _ _ => rfl,
    fun _ => rfl,fun x hx hid => (hnostop hx hid).elim,fun x hx u hu => ?_,fun r hr => ?_,fun r hr s hs => ?_,
    fun k s hk hs => ?_,h.current,h.again⟩
  · rw [fftimerqueue_add,List.map_append,List.nodup_append]
    refine ⟨h.nodup.sublist ((remove_sublist _ _).map _),by simp,fun a ha b hb => ?_⟩
    obtain ⟨x,hx,rfl⟩ := List.mem_map.mp ha
    obtain rfl := List.mem_singleton.mp hb
    exact (mem_remove.mp hx).2
  · rcases hmem hx with ⟨hx,hne⟩ | rfl
    · obtain ⟨hlast,s,hs,hrest⟩ := h.pending x hx u hu
      have hut : u ≠ t := by
        rintro rfl
        exact hne hu
      exact ⟨(Function.update_of_ne hut _ _).trans hlast,s,hold hs,hrest⟩
    · cases hu
      refine ⟨Function.update_self _ _ _,⟨t,w.time,interval⟩,?_,rfl,rfl,?_⟩
      · simp
      · change w.time + interval.natAbs ≤ w.now_msec + interval.natAbs + w.period
        omega
  · rw [List.length_append]
    exact Nat.lt_add_right _ (h.known r hr)
  · exact h.early r hr s (hback (h.known r hr) hs)
  · have hcount : (fftimerqueue_add w.timerq
        ⟨.user t,w.now_msec + interval.natAbs,interval,w.sets.length⟩).countP
          (fun x => decide (x.id ≠ .stop ∧ x.k = k)) ≤
        w.timerq.countP (fun x => decide (x.id ≠ .stop ∧ x.k = k)) +
          if w.sets.length = k then 1 else 0 := by
      have hle := (remove_sublist w.timerq (.user t)).countP_le
        (p := fun x => decide (x.id ≠ .stop ∧ x.k = k))
      rw [fftimerqueue_add,List.countP_append]
      simp only [List.countP_singleton]
      simpa using hle
    by_cases hlt : k < w.sets.length
    · have hone := h.once k s (hback hlt hk) hs
      rw [if_neg (by omega)] at hcount
      unfold uses at hone ⊢
      dsimp only
      omega
    · -- a new setting: nothing runs or is pending for it yet
      have hruns : w.runs.countP (fun r => r.k = k) = 0 := by
        refine List.countP_eq_zero.mpr fun r hr => ?_
        have := h.known r hr
        simp
        omega
      have hqueue : w.timerq.countP (fun x => decide (x.id ≠ .stop ∧ x.k = k)) = 0 := by
        refine List.countP_eq_zero.mpr fun x hx => ?_
        rw [decide_eq_true_eq]
        rintro ⟨hid,rfl⟩
        cases hxid : x.id with
        | stop => exact hid hxid
        | user u =>
          obtain ⟨-,s',hs',-⟩ := h.pending x hx u hxid
          exact hlt (List.getElem?_eq_some_iff.mp hs').1
      unfold uses
      dsimp only
      rw [hruns]
      split at hcount <;> omega

theorem inv_timer (h : Inv w) {t : Nat} {interval : Int} {started : Bool}
    (hc : Fresh w (.timer t interval started)) : Inv (wrk_timer w t interval started) := by
  unfold wrk_timer
  by_cases hz : interval = 0
  · rw [if_pos hz]
    have hgone : Inv {w with
        timerq := fftimerqueue_remove w.timerq (.user t)
        last := Function.update w.last t none} :=
      (h.shrink (remove_sublist w.timerq (.user t))).forget t fun x hx => (mem_remove.mp hx).2
    dsimp only
    split
    · exact hgone.add_stop (by assumption)
    · exact hgone
  · rw [if_neg hz]
    have hrest := h.shrink (remove_sublist w.timerq .stop)
    dsimp only
    split
    · rename_i hoff
      -- no user's timer is pending, so it does not matter that the flag is set now
      have hgone := hrest.forget t fun x hx hid => by
        have hx := mem_remove.mp hx
        have hon := h.active (h.on x hx.1 hx.2)
        rw [hoff.1] at hon
        cases hon
      exact ⟨hgone.clock,hgone.nodup,hgone.alone,hgone.on,fun _ => rfl,hgone.oneshot,hgone.pending,hgone.known,
        hgone.early,hgone.once,hgone.current,hgone.again⟩
    · have hon : (if w.active then w.on else true) = true := by
        split
        · exact (hc hz).2 (by assumption)
        · rfl
      rw [hon]
      exact hrest.set t _ (hc hz).1 fun x hx => (mem_remove.mp hx).2

theorem inv_process_stop (h : Inv w) {i n : Nat} {x : Node} {stopped : Bool}
    (hx : w.timerq[i]? = some x) (hid : x.id = .stop) : Inv (process w i n x stopped) := by
  have hmem : x ∈ w.timerq := List.mem_of_getElem? hx
  have hneg := h.oneshot x hmem hid
  have hrest := h.shrink (List.eraseIdx_sublist w.timerq i)
  have hproc : Inv {w with timerq := w.timerq.eraseIdx i, proc := some (n + 1)} :=
    ⟨hrest.clock,hrest.nodup,hrest.alone,hrest.on,hrest.active,hrest.oneshot,hrest.pending,hrest.known,
      hrest.early,hrest.once,hrest.current,hrest.again⟩
  simp only [process,hid,if_pos hneg]
  split
  · refine ⟨hproc.clock,hproc.nodup,hproc.alone,fun y hy hne => ?_,nofun,hproc.oneshot,
      hproc.pending,hproc.known,hproc.early,hproc.once,hproc.current,hproc.again⟩
    have hy : y ∈ w.timerq := (List.eraseIdx_sublist w.timerq i).subset hy
    exact (hne (h.alone x hmem hid y hy)).elim
  · exact hproc

/-- The queue after the node `x` was processed has its nodes, but for the key of `x`. -/
theorem mem_processed {q : List Node} {i : Nat} {x y : Node} {now : Nat}
    (hy : y ∈ if x.interval < 0 then q.eraseIdx i
      else q.eraseIdx i ++ [{x with key := now + x.interval.natAbs}]) :
    y ∈ q ∨ y = {x with key := now + x.interval.natAbs} := by
  split at hy
  · exact .inl ((List.eraseIdx_sublist q i).subset hy)
  · rcases List.mem_append.mp hy with hy | hy
    · exact .inl ((List.eraseIdx_sublist q i).subset hy)
    · exact .inr (List.mem_singleton.mp hy)

theorem inv_process_user (h : Inv w) {i n t : Nat} {x : Node} {stopped : Bool}
    (hx : w.timerq[i]? = some x) (hkey : x.key ≤ w.now_msec) (hid : x.id = .user t) :
    Inv (process w i n x stopped) := by
  have hmem : x ∈ w.timerq := List.mem_of_getElem? hx
  obtain ⟨hlast,s,hs,hst,hsi,hdue⟩ := h.pending x hmem t hid
  obtain ⟨hlt,hget⟩ := List.getElem?_eq_some_iff.mp hx
  have hperm := List.getElem_cons_eraseIdx_perm hlt
  rw [hget] at hperm
  have hcount (k : Nat) : w.timerq.countP (fun y => decide (y.id ≠ .stop ∧ y.k = k)) =
      (w.timerq.eraseIdx i).countP (fun y => decide (y.id ≠ .stop ∧ y.k = k)) +
        if x.k = k then 1 else 0 := by
    rw [← hperm.countP_eq,List.countP_cons]
    simp [hid]
  have huser (y : Node) (hy : y ∈ w.timerq) : y.id ≠ .stop := by
    intro hstop
    have := h.alone y hy hstop x hmem
    rw [hid] at this
    cases this
  have hnode {y : Node} (hy : y = {x with key := w.now_msec + x.interval.natAbs}) : y.id ≠ .stop := by
    subst hy
    simp [hid]
  have heq : process w i n x stopped = {w with
      timerq := if x.interval < 0 then w.timerq.eraseIdx i
        else w.timerq.eraseIdx i ++ [{x with key := w.now_msec + x.interval.natAbs}]
      proc := some (n + 1)
      runs := w.runs ++ [⟨x.k,w.time,w.last t = some x.k⟩]} := by
    unfold process
    dsimp only
    split
    · simp_all
    · rename_i u hu
      cases hid.symm.trans hu
      rfl
  rw [heq]
  refine ⟨h.clock,?_,fun y hy hstop => ?_,fun y hy hne => ?_,h.active,fun y hy hstop => ?_,
    fun y hy u hu => ?_,fun r hr => ?_,fun r hr s' hs' => ?_,fun k s' hs' hneg => ?_,
    fun r hr => ?_,h.again⟩
  · dsimp only
    split
    · exact h.nodup.sublist ((List.eraseIdx_sublist _ _).map _)
    · have hnodup := (hperm.map Node.id).nodup_iff.mpr h.nodup
      rw [List.map_append]
      exact (List.perm_append_comm.nodup_iff).mpr hnodup
  · rcases mem_processed hy with hy | hy
    · exact (huser y hy hstop).elim
    · exact (hnode hy hstop).elim
  · exact h.on x hmem (huser x hmem)
  · rcases mem_processed hy with hy | hy
    · exact (huser y hy hstop).elim
    · exact (hnode hy hstop).elim
  · rcases mem_processed hy with hy | hy
    · exact h.pending y hy u hu
    · subst hy
      obtain rfl : t = u := by simpa [hid] using hu
      refine ⟨hlast,s,hs,hst,hsi,?_⟩
      change s.time + s.interval.natAbs ≤ w.now_msec + x.interval.natAbs + w.period
      omega
  · rcases List.mem_append.mp hr with hr | hr
    · exact h.known r hr
    · rw [List.mem_singleton.mp hr]
      exact (List.getElem?_eq_some_iff.mp hs).1
  · rcases List.mem_append.mp hr with hr | hr
    · exact h.early r hr s' hs'
    · rw [List.mem_singleton.mp hr] at hs' ⊢
      obtain rfl := Option.some.inj (hs.symm.trans hs')
      have hclock := h.clock
      dsimp only
      omega
  · have hone := h.once k s' hs' hneg
    unfold uses at hone ⊢
    rw [hcount] at hone
    dsimp only
    rw [List.countP_append,List.countP_singleton]
    by_cases hk : x.k = k
    · -- a setting that is to run once is not put back
      subst hk
      obtain rfl := Option.some.inj (hs.symm.trans hs')
      rw [hsi] at hneg
      rw [if_pos hneg]
      simpa [Nat.add_assoc,Nat.add_comm,Nat.add_left_comm] using hone
    · by_cases honce : x.interval < 0
      · rw [if_pos honce]
        simpa [hk] using hone
      · rw [if_neg honce]
        simpa [hk,List.countP_append] using hone
  · rcases List.mem_append.mp hr with hr | hr
    · exact h.current r hr
    · rw [List.mem_singleton.mp hr]
      simp [hlast]

theorem inv_step {a : Act} (h : Inv w) (hc : Fresh w a) (hs : step w a = some w') : Inv w' := by
  cases a with
  | advance n =>
    obtain rfl := Option.some.inj hs
    exact ⟨Nat.le_add_right_of_le h.clock,h.nodup,h.alone,h.on,h.active,h.oneshot,h.pending,h.known,
      h.early,h.once,h.current,h.again⟩
  | tick =>
    simp only [step] at hs
    split at hs
    · obtain rfl := Option.some.inj hs
      exact ⟨Nat.le_refl _,h.nodup,h.alone,h.on,h.active,h.oneshot,h.pending,h.known,h.early,h.once,
        h.current,h.again⟩
    · cases hs
  | process i stopped =>
    simp only [step] at hs
    split at hs
    · rename_i n x hproc hx
      split at hs
      · rename_i hkey
        obtain rfl := Option.some.inj hs
        cases hid : x.id with
        | stop => exact inv_process_stop h hx hid
        | user t => exact inv_process_user h hx hkey hid
      · cases hs
    · cases hs
  | finish =>
    simp only [step] at hs
    split at hs
    · split at hs
      · obtain rfl := Option.some.inj hs
        have hend : Inv {w with proc := none} :=
          ⟨h.clock,h.nodup,h.alone,h.on,h.active,h.oneshot,h.pending,h.known,h.early,h.once,h.current,
            h.again⟩
        unfold on_timer_end
        dsimp only
        split
        · rename_i hempty
          exact hend.add_stop hempty.2
        · exact hend
      · cases hs
    · cases hs
  | timer t interval started =>
    obtain rfl := Option.some.inj hs
    exact inv_timer h hc

/-- Whatever is set, set anew and stopped, in handlers and outside of them, the users get what
they rely on, if each timer is set while the worker's clock is at most one tick behind and the kernel timer is
not wrongly taken for running. -/
theorem timers_kept (period time : Nat) (as : List Act) (w : Worker)
    (hfresh : Machine.AllSteps step Fresh (init period time) as)
    (hrun : Machine.run step (init period time) as = some w) : Kept w :=
  (Machine.guarded_invariant (fun _ _ _ h hc hs => inv_step h hc hs) hfresh hrun
    (inv_init period time)).kept

/-- A timer of 200 milliseconds, which runs at the second tick. -/
def two_ticks : List Act :=
  [.timer 1 (-200) true,.advance 100,.tick,.finish,.advance 100,.tick,.process 0 true,.finish]

theorem timers_kept_two_ticks : Kept ((Machine.run step (init 100 0) two_ticks).getD (init 100 0)) :=
  timers_kept 100 0 two_ticks _ (by decide +kernel) (Machine.run_eq_getD (by decide +kernel))

/-- The kernel timer cannot be started, and the next call takes it for running. -/
def unstarted : List Act := [.timer 1 (-200) false,.timer 1 (-200) true]

/-- A timer of 5 seconds is set a minute after the worker has last read the clock: it runs at the
first tick. After a start that failed a timer is pending while the kernel timer is off. -/
theorem timer_early :
    (∀ w, Machine.run step (init 100 0)
        [.advance 60000,.timer 1 (-5000) true,.advance 100,.tick,.process 0 true] = some w →
      w.sets = [⟨1,60000,-5000⟩] ∧ w.runs = [⟨0,60100,true⟩] ∧ ¬Kept w) ∧
    (Machine.run step (init 100 0)
      [.advance 60000,.timer 1 (-5000) true,.advance 100,.tick,.process 0 true]).isSome ∧
    ∃ w, Machine.run step (init 100 0) unstarted = some w ∧ w.timerq = [⟨.user 1,200,-200,0⟩] ∧ ¬Kept w := by
  refine ⟨fun w hw => ?_,by decide +kernel,_,rfl,rfl,fun hk => nomatch hk.on _ List.mem_cons_self nofun⟩
  have hmap : (Machine.run step (init 100 0)
      [.advance 60000,.timer 1 (-5000) true,.advance 100,.tick,.process 0 true]).map
        (fun w => (w.sets,w.runs,w.period)) =
      some ([⟨1,60000,-5000⟩],[⟨0,60100,true⟩],100) := by decide +kernel
  rw [hw,Option.map_some,Option.some.injEq] at hmap
  simp only [Prod.mk.injEq] at hmap
  obtain ⟨hsets,hruns,hperiod⟩ := hmap
  refine ⟨hsets,hruns,fun hk => ?_⟩
  have hearly := hk.early ⟨0,60100,true⟩ (by rw [hruns]; exact List.mem_cons_self) ⟨1,60000,-5000⟩
    (by rw [hsets]; rfl)
  rw [hperiod] at hearly
  exact absurd hearly (by decide)

end Phiola.Timers
