import Phiola.Framework.Machine
import Mathlib.Data.List.Count
import Mathlib.Data.List.Perm.Basic
import Mathlib.Logic.Function.Basic

/-!
# Handlers of kernel objects

A worker waits for the objects of a table and calls the handler of the one that signals. Threads
add to the table and remove from it under a lock; a thread that removes first makes the worker
return from its wait.
-/

namespace Phiola.Woeh

/-- What a user registers. -/
structure Added where
  hdl : Nat
  handler : Nat
  udata : Nat
  oneshot : Bool
deriving DecidableEq, Repr

/-- A handle with its `struct woeh_item`; bit 0 of `udata` is the one-shot flag. `id` numbers the
registrations. -/
structure Reg where
  id : Nat
  hdl : Nat
  handler : Nat
  udata : Nat
deriving DecidableEq, Repr

def Reg.oneshot (r : Reg) : Bool := r.udata % 2 = 1

/-- The item that `woeh_add()` stores. -/
def Added.reg (x : Added) (id : Nat) : Reg :=
  ⟨id,x.hdl,x.handler,x.udata + if x.oneshot then 1 else 0⟩

inductive Cmd
  | run
  | wait
deriving DecidableEq, Repr

/-- Where the worker is in `woeh_evt_handler()`, with the item whose handler it calls; a handler
may be in `woeh_add()` or `woeh_rm()`. -/
inductive Wpc
  | top
  | counted (n : Nat)
  | blocked (snap : List Reg)
  | woken
  | handshake
  | returned (snap : List Reg) (i : Nat)
  | fetched (r : Reg) (i : Nat)
  | calling (r : Reg)
  | running (r : Reg)
  | h_add (r : Reg) (x : Added)
  | h_wake (r : Reg)
  | h_rm (r : Reg) (hdl : Nat)
  | failing
  | dead
deriving DecidableEq, Repr

/-- Where another thread is: out of the code with what it returned, in `woeh_add()`, or in
`woeh_rm()`. -/
inductive Tpc
  | idle (rc : Int)
  | adding (x : Added)
  | add_wake
  | removing (hdl : Nat)
  | found (i : Nat)
  | announced (i : Nat)
  | waiting (i : Nat)
deriving DecidableEq, Repr

/-- A call of a handler; `live` says that the item was not removed by `woeh_rm()` before. -/
structure Call where
  id : Nat
  handler : Nat
  udata : Nat
  live : Bool
deriving DecidableEq, Repr

/-- `struct woeh`, the threads, and what was registered, removed (by anyone, by other threads
than the worker) and called. `regs` are `hdls` and `items` without the place of `wake_evt`. -/
structure Table where
  regs : List Reg
  failed : Bool
  cmd : Cmd
  wake_evt : Bool
  wait_evt : Bool
  lk : Option Nat
  worker : Wpc
  thr : Nat → Tpc
  added : List Added
  gone : List Nat
  parted : List Nat
  calls : List Call

/-- `woeh_create()` -/
def init : Table :=
  ⟨[],false,.run,false,false,none,.top,fun _ => .idle 0,[],[],[],[]⟩

/-- `_woeh_rm()`: the last element is moved into the hole. -/
def rm_at (regs : List Reg) (i : Nat) : List Reg :=
  match regs.getLast? with
  | none => regs
  | some l => (if i + 1 = regs.length then regs else regs.set i l).dropLast

/-- `_woeh_find()` -/
def woeh_find (regs : List Reg) (hdl : Nat) : Option Nat := regs.findIdx? fun r => r.hdl = hdl

/-- `woeh_add()` under the lock: whether there is room, and the table. -/
def woeh_add (s : Table) (x : Added) : Table × Bool :=
  if s.regs.length + 1 = 64 ∨ s.failed then (s,false)
  else ({s with regs := s.regs ++ [x.reg s.added.length], added := s.added ++ [x]},true)

/-- The removal in `woeh_rm()`; `outside` if the caller is not the worker. -/
def woeh_rm (s : Table) (i : Nat) (outside : Bool) : Table :=
  let id := (s.regs[i]?.map Reg.id).toList
  {s with
    regs := rm_at s.regs i
    gone := s.gone ++ id
    parted := if outside then s.parted ++ id else s.parted}

def Table.at (s : Table) (t : Nat) (p : Tpc) : Table := {s with thr := Function.update s.thr t p}

/-- What the worker does when it gets the lock. -/
def worker_locked (s : Table) : Option Table :=
  match s.worker with
  | .handshake => some {s with cmd := .run, worker := .top}
  | .fetched r i => some {s with regs := rm_at s.regs i, worker := .calling r}
  | .failing => some {s with failed := true, worker := .dead}
  | .h_add r x =>
    let p := woeh_add s x
    some {p.1 with worker := if p.2 then .h_wake r else .running r}
  | .h_rm r hdl =>
    match woeh_find s.regs hdl with
    | some i => some {woeh_rm s i false with worker := .running r}
    | none => some {s with worker := .running r}
  | _ => none

/-- What thread `t` does when it gets the lock. -/
def thread_locked (s : Table) (t : Nat) : Option Table :=
  match s.thr t with
  | .adding x =>
    let p := woeh_add s x
    some (p.1.at t (if p.2 then .add_wake else .idle 1))
  | .removing hdl =>
    -- `count` is -1: the search leaves the array
    if s.failed then none
    else
      match woeh_find s.regs hdl with
      | some i => some ({s with lk := some t}.at t (.found i))
      | none => some (s.at t (.idle (-1)))
  | _ => none

/-- The steps of the worker, of its handler and of the other threads. `w_return` is the signal of
an object; `wake_evt` goes before it. -/
inductive Act
  | w_count
  | w_enter
  | w_wake
  | w_return (i : Nat)
  | w_fail
  | w_cmd
  | w_fetch
  | w_lock
  | w_call
  | w_done
  | h_add (x : Added)
  | h_rm (hdl : Nat)
  | h_wake
  | add (t : Nat) (x : Added)
  | rm (t : Nat) (hdl : Nat)
  | lock (t : Nat)
  | announce (t : Nat)
  | set (t : Nat)
  | take (t : Nat)
deriving DecidableEq, Repr

def step (s : Table) : Act → Option Table
  | .w_count =>
    match s.worker with
    | .top => some {s with worker := .counted s.regs.length}
    | _ => none
  | .w_enter =>
    match s.worker with
    | .counted n => some {s with worker := .blocked (s.regs.take n)}
    | _ => none
  | .w_wake =>
    match s.worker with
    | .blocked _ => if s.wake_evt then some {s with wake_evt := false, worker := .woken} else none
    | _ => none
  | .w_return i =>
    match s.worker with
    | .blocked snap =>
      if i < snap.length ∧ s.wake_evt = false then some {s with worker := .returned snap i} else none
    | _ => none
  | .w_fail =>
    match s.worker with
    | .blocked _ => some {s with worker := .failing}
    | _ => none
  | .w_cmd =>
    match s.worker with
    | .woken =>
      if s.cmd = .wait then some {s with wait_evt := true, worker := .handshake}
      else some {s with worker := .top}
    | _ => none
  | .w_fetch =>
    match s.worker with
    | .returned _ i =>
      match s.regs[i]? with
      | some r => some {s with worker := if r.oneshot then .fetched r i else .calling r}
      | none => none
    | _ => none
  | .w_lock => if s.lk = none then worker_locked s else none
  | .w_call =>
    match s.worker with
    | .calling r =>
      some {s with
        calls := s.calls ++ [⟨r.id,r.handler,r.udata - r.udata % 2,r.id ∉ s.gone⟩]
        worker := .running r}
    | _ => none
  | .w_done =>
    match s.worker with
    | .running _ => some {s with worker := .top}
    | _ => none
  | .h_add x =>
    match s.worker with
    | .running r => if x.udata % 2 = 0 then some {s with worker := .h_add r x} else none
    | _ => none
  | .h_rm hdl =>
    match s.worker with
    | .running r => some {s with worker := .h_rm r hdl}
    | _ => none
  | .h_wake =>
    match s.worker with
    | .h_wake r => some {s with wake_evt := true, worker := .running r}
    | _ => none
  | .add t x =>
    match s.thr t with
    | .idle _ => if x.udata % 2 = 0 then some (s.at t (.adding x)) else none
    | _ => none
  | .rm t hdl =>
    match s.thr t with
    | .idle _ => some (s.at t (.removing hdl))
    | _ => none
  | .lock t => if s.lk = none then thread_locked s t else none
  | .announce t =>
    match s.thr t with
    | .found i => some ({s with cmd := .wait}.at t (.announced i))
    | _ => none
  | .set t =>
    match s.thr t with
    | .announced i => some ({s with wake_evt := true}.at t (.waiting i))
    | .add_wake => some ({s with wake_evt := true}.at t (.idle 0))
    | _ => none
  | .take t =>
    match s.thr t with
    | .waiting i =>
      if s.wait_evt then some ({woeh_rm s i true with wait_evt := false, lk := none}.at t (.idle 0))
      else none
    | _ => none

/-! ## What the users may rely on -/

/-- The item whose handler runs or is going to be called. -/
def Wpc.current : Wpc → Option Reg
  | .fetched r _ | .calling r | .running r | .h_add r _ | .h_wake r | .h_rm r _ => some r
  | .top | .counted _ | .blocked _ | .woken | .handshake | .returned _ _ | .failing | .dead => none

/-- The worker waits for the lock. -/
def Wpc.wants_lock : Wpc → Bool
  | .handshake | .fetched _ _ | .h_add _ _ | .h_rm _ _ | .failing => true
  | .top | .counted _ | .blocked _ | .woken | .returned _ _ | .calling _ | .running _ | .h_wake _
  | .dead => false

/-- A handler is called only for an item that is registered, with its own `udata`, and once for a
one-shot item. It is not called and does not run after its item was removed by another thread, and
the worker does not wait for a thread that waits for it. -/
structure Kept (s : Table) : Prop where
  called : ∀ c ∈ s.calls, c.live = true ∧
    ∃ x, s.added[c.id]? = some x ∧ c.handler = x.handler ∧ c.udata = x.udata
  once : ∀ id x, s.added[id]? = some x → x.oneshot = true → s.calls.countP (fun c => c.id = id) ≤ 1
  quiet : ∀ r, s.worker.current = some r → r.id ∉ s.parted
  free : ∀ t i, s.thr t = .waiting i → s.wait_evt = false → s.worker.wants_lock = false

/-- The worker waits for the lock, or it is about to: it has an object of a one-shot item. -/
def Wpc.locking : Wpc → Bool
  | .returned snap i => snap[i]?.any Reg.oneshot
  | w => w.wants_lock

/-- The worker waits for the object of a one-shot item at `i`. -/
def Wpc.oneshot_at (i : Nat) : Wpc → Bool
  | .blocked snap => snap[i]?.any Reg.oneshot
  | _ => false

/-- `woeh_rm()` has told the worker to wait. -/
def handshaking (lk : Option Nat) (thr : Nat → Tpc) : Bool :=
  match lk.map thr with
  | some (.announced _) | some (.waiting _) => true
  | _ => false

/-- No thread tells the worker to wait while it is on the way to the lock, and the worker does not
go there between that and its answer. -/
def Clear (s : Table) : Act → Prop
  | .announce _ => s.worker.locking = false
  | .w_return i => s.worker.oneshot_at i = true → handshaking s.lk s.thr = false
  | .w_fail | .h_add _ | .h_rm _ => handshaking s.lk s.thr = false
  | .w_count | .w_enter | .w_wake | .w_cmd | .w_fetch | .w_lock | .w_call | .w_done | .h_wake
  | .add _ _ | .rm _ _ | .lock _ | .set _ | .take _ => True

instance (s : Table) : ∀ a, Decidable (Clear s a)
  | .announce _ => inferInstanceAs (Decidable (s.worker.locking = false))
  | .w_return i =>
    inferInstanceAs (Decidable (s.worker.oneshot_at i = true → handshaking s.lk s.thr = false))
  | .w_fail | .h_add _ | .h_rm _ => inferInstanceAs (Decidable (handshaking s.lk s.thr = false))
  | .w_count | .w_enter | .w_wake | .w_cmd | .w_fetch | .w_lock | .w_call | .w_done | .h_wake
  | .add _ _ | .rm _ _ | .lock _ | .set _ | .take _ => inferInstanceAs (Decidable True)

/-! ## The table -/

/-- `r` is what `woeh_add()` has stored of a registration. -/
def Known (added : List Added) (r : Reg) : Prop := ∃ x, added[r.id]? = some x ∧ r = x.reg r.id

structure Items (regs : List Reg) (added : List Added) (gone parted : List Nat) : Prop where
  ids : (regs.map Reg.id).Nodup
  listed : ∀ r ∈ regs, Known added r ∧ r.id ∉ gone
  even : ∀ x ∈ added, x.udata % 2 = 0
  parted : parted ⊆ gone
  gone : ∀ id ∈ gone, id < added.length

variable {regs regs' : List Reg} {added : List Added} {gone parted : List Nat}

theorem Known.lt {r : Reg} (h : Known added r) : r.id < added.length := by
  obtain ⟨x,hx,-⟩ := h
  exact (List.getElem?_eq_some_iff.mp hx).1

theorem Known.append {r : Reg} (h : Known added r) (x : Added) : Known (added ++ [x]) r := by
  obtain ⟨y,hy,hr⟩ := h
  refine ⟨y,?_,hr⟩
  rw [List.getElem?_append_left (List.getElem?_eq_some_iff.mp hy).1]
  exact hy

/-- Bit 0 of the stored `udata` is the flag, the rest is the user's value. -/
theorem Added.reg_oneshot {x : Added} (hx : x.udata % 2 = 0) (id : Nat) :
    (x.reg id).oneshot = x.oneshot := by
  unfold Reg.oneshot Added.reg
  cases x.oneshot with
  | true =>
    rw [if_pos rfl]
    simpa using by omega
  | false => simpa using by omega

theorem Added.reg_udata {x : Added} (hx : x.udata % 2 = 0) (id : Nat) :
    (x.reg id).udata - (x.reg id).udata % 2 = x.udata := by
  unfold Added.reg
  dsimp only
  split <;> omega

/-- What stands at `i` leaves the table, the rest stays. -/
theorem rm_at_perm {i : Nat} {r : Reg} (h : regs[i]? = some r) :
    regs.Perm (r :: rm_at regs i) := by
  obtain ⟨hi,rfl⟩ := List.getElem?_eq_some_iff.mp h
  have hne : regs ≠ [] := List.ne_nil_of_length_pos (by omega)
  obtain ⟨ys,l,rfl⟩ : ∃ ys l, regs = ys ++ [l] := ⟨_,_,(List.dropLast_append_getLast hne).symm⟩
  rw [List.length_append,List.length_singleton] at hi
  unfold rm_at
  rw [List.getLast?_concat]
  dsimp only
  by_cases hlast : i = ys.length
  · subst hlast
    simp
  · have hlt : i < ys.length := by omega
    rw [if_neg (by simpa using hlast),List.set_append_left _ _ hlt,List.dropLast_concat,
      List.getElem_append_left hlt]
    calc (ys ++ [l]).Perm (l :: ys) := List.perm_append_singleton l ys
      _ |>.Perm (l :: ys[i] :: ys.eraseIdx i) :=
        ((List.getElem_cons_eraseIdx_perm hlt).symm).cons l
      _ |>.Perm (ys[i] :: l :: ys.eraseIdx i) := List.Perm.swap _ _ _
      _ |>.Perm (ys[i] :: ys.set i l) := ((List.set_perm_cons_eraseIdx hlt l).symm).cons _

namespace Items

theorem add (h : Items regs added gone parted) {x : Added} (hx : x.udata % 2 = 0) :
    Items (regs ++ [x.reg added.length]) (added ++ [x]) gone parted where
  ids := by
    rw [List.map_append,List.nodup_append]
    refine ⟨h.ids,by simp,fun a ha b hb => ?_⟩
    obtain ⟨r,hr,rfl⟩ := List.mem_map.mp ha
    obtain rfl := List.mem_singleton.mp hb
    exact Nat.ne_of_lt (h.listed r hr).1.lt
  listed r hr := by
    rcases List.mem_append.mp hr with hr | hr
    · exact ⟨(h.listed r hr).1.append x,(h.listed r hr).2⟩
    · obtain rfl := List.mem_singleton.mp hr
      exact ⟨⟨x,by simp [Added.reg],rfl⟩,fun hid => Nat.lt_irrefl _ (h.gone _ hid)⟩
  even y hy := by
    rcases List.mem_append.mp hy with hy | hy
    · exact h.even y hy
    · exact List.mem_singleton.mp hy ▸ hx
  parted := h.parted
  gone id hid := by
    rw [List.length_append]
    exact Nat.lt_add_right _ (h.gone id hid)

theorem remove (h : Items regs added gone parted) {r : Reg} (hp : regs.Perm (r :: regs')) :
    Items regs' added gone parted where
  ids := (List.nodup_cons.mp ((hp.map Reg.id).nodup_iff.mp h.ids)).2
  listed x hx := h.listed x (hp.mem_iff.mpr (List.mem_cons_of_mem r hx))
  even := h.even
  parted := h.parted
  gone := h.gone

theorem removed (h : Items regs added gone parted) {r : Reg} (hp : regs.Perm (r :: regs')) :
    r.id ∉ regs'.map Reg.id :=
  (List.nodup_cons.mp ((hp.map Reg.id).nodup_iff.mp h.ids)).1

/-- The item that was taken out is noted among those that `woeh_rm()` has removed. -/
theorem rm (h : Items regs added gone parted) {r : Reg} (hp : regs.Perm (r :: regs'))
    (outside : Bool) :
    Items regs' added (gone ++ [r.id]) (if outside then parted ++ [r.id] else parted) where
  ids := (h.remove hp).ids
  listed x hx := by
    refine ⟨((h.remove hp).listed x hx).1,fun hid => ?_⟩
    rcases List.mem_append.mp hid with hid | hid
    · exact ((h.remove hp).listed x hx).2 hid
    · rw [List.mem_singleton] at hid
      exact h.removed hp (List.mem_map.mpr ⟨x,hx,hid⟩)
  even := h.even
  parted := by
    cases outside with
    | true =>
      rw [if_pos rfl]
      exact List.append_subset.mpr
        ⟨List.Subset.trans h.parted (List.subset_append_left _ _),List.subset_append_right _ _⟩
    | false => exact List.Subset.trans h.parted (List.subset_append_left _ _)
  gone id hid := by
    rcases List.mem_append.mp hid with hid | hid
    · exact h.gone id hid
    · rw [List.mem_singleton.mp hid]
      exact (h.listed r (hp.mem_iff.mpr List.mem_cons_self)).1.lt

end Items

/-! ## The worker and the lock -/

/-- The element that `woeh_rm()` is going to remove. -/
def Tpc.index : Tpc → Option Nat
  | .found i | .announced i | .waiting i => some i
  | .idle _ | .adding _ | .add_wake | .removing _ => none

def Tpc.Within (n : Nat) (p : Tpc) : Prop := ∀ i, p.index = some i → i < n

/-- The user's `udata` leaves room for the flag. -/
def Tpc.Even (p : Tpc) : Prop := ∀ x, p = .adding x → x.udata % 2 = 0

/-- A thread in `woeh_rm()` has the lock; it told the worker to wait if `cmd` says so; then the
worker stays away from the lock until its answer. -/
structure Hands (w : Wpc) (cmd : Cmd) (wait_evt : Bool) (lk : Option Nat) (thr : Nat → Tpc) :
    Prop where
  lock : ∀ t, (thr t).index.isSome = true ↔ lk = some t
  answer : wait_evt = true → w = .handshake ∧ handshaking lk thr = true
  told : cmd = .wait → handshaking lk thr = true ∨ w = .handshake
  away : handshaking lk thr = true → wait_evt = false → w.locking = false

/-- What the worker keeps from its wait agrees with the table. -/
def Placed (regs : List Reg) (gone : List Nat) : Wpc → Prop
  | .counted n => n ≤ regs.length
  | .blocked snap => snap <+: regs
  | .returned snap i => snap <+: regs ∧ i < snap.length
  | .fetched r i => regs[i]? = some r ∧ r.oneshot = true
  | .calling r => r.id ∉ gone ∧ (r.oneshot = true → r.id ∉ regs.map Reg.id)
  | .top | .woken | .handshake | .running _ | .h_add _ _ | .h_wake _ | .h_rm _ _ | .failing
  | .dead => True

/-- The item that is going to be called next. -/
def Wpc.pending : Wpc → Option Nat
  | .calling r => some r.id
  | _ => none

structure Logged (w : Wpc) (regs : List Reg) (added : List Added) (calls : List Call) : Prop where
  called : ∀ c ∈ calls, c.live = true ∧
    ∃ x, added[c.id]? = some x ∧ c.handler = x.handler ∧ c.udata = x.udata
  once : ∀ id x, added[id]? = some x → x.oneshot = true → calls.countP (fun c => c.id = id) ≤ 1
  fresh : ∀ id x, added[id]? = some x → x.oneshot = true →
    id ∈ regs.map Reg.id ∨ w.pending = some id → calls.countP (fun c => c.id = id) = 0

structure Inv (s : Table) : Prop where
  items : Items s.regs s.added s.gone s.parted
  hands : Hands s.worker s.cmd s.wait_evt s.lk s.thr
  index : ∀ t, (s.thr t).Within s.regs.length
  placed : Placed s.regs s.gone s.worker
  current : ∀ r, s.worker.current = some r → Known s.added r ∧ r.id ∉ s.parted
  even : ∀ r x, s.worker = .h_add r x → x.udata % 2 = 0
  evens : ∀ t, (s.thr t).Even
  logged : Logged s.worker s.regs s.added s.calls

variable {s s' : Table} {w w' : Wpc} {cmd : Cmd} {evt : Bool} {lk : Option Nat} {thr : Nat → Tpc}
  {calls : List Call}

theorem handshaking_iff :
    handshaking lk thr = true ↔
      ∃ t, lk = some t ∧ ∃ i, thr t = .announced i ∨ thr t = .waiting i := by
  unfold handshaking
  cases lk with
  | none => simp
  | some t => cases h : thr t <;> simp [h]

/-- Who waits for the event has told the worker, whoever has the lock. -/
theorem Hands.handshaking (h : Hands w cmd evt lk thr) {t i : Nat} (ht : thr t = .waiting i) :
    handshaking lk thr = true :=
  handshaking_iff.mpr ⟨t,(h.lock t).mp (by rw [ht]; rfl),i,.inr ht⟩

theorem Inv.kept (h : Inv s) : Kept s where
  called := h.logged.called
  once := h.logged.once
  quiet r hr := (h.current r hr).2
  free t i ht hevt := by
    have haway := h.hands.away (h.hands.handshaking ht) hevt
    cases hw : s.worker <;> first | rfl | (rw [hw] at haway; cases haway)

theorem Logged.mono (h : Logged w regs added calls)
    (hsub : ∀ id, id ∈ regs'.map Reg.id ∨ w'.pending = some id →
      id ∈ regs.map Reg.id ∨ w.pending = some id) : Logged w' regs' added calls where
  called := h.called
  once := h.once
  fresh id x hx hone hid := h.fresh id x hx hone (hsub id hid)

theorem Logged.unused (h : Logged w regs added calls) {id : Nat} (hid : added.length ≤ id) :
    calls.countP (fun c => c.id = id) = 0 := by
  refine List.countP_eq_zero.mpr fun c hc => ?_
  obtain ⟨-,x,hx,-⟩ := h.called c hc
  have hlt := (List.getElem?_eq_some_iff.mp hx).1
  simpa using by omega

theorem Hands.move (h : Hands w cmd evt lk thr) (hw : w ≠ .handshake)
    (haway : Woeh.handshaking lk thr = true → w'.locking = false) : Hands w' cmd evt lk thr where
  lock := h.lock
  answer hevt := (hw (h.answer hevt).1).elim
  told hcmd := (h.told hcmd).imp_right fun hw' => (hw hw').elim
  away hh _ := haway hh

/-- The event of the worker and its failure say nothing about the table. -/
theorem Inv.flags (h : Inv s) (failed wake : Bool) :
    Inv {s with failed := failed, wake_evt := wake} :=
  ⟨h.items,h.hands,h.index,h.placed,h.current,h.even,h.evens,h.logged⟩

theorem Inv.move (h : Inv s) (hw : s.worker ≠ .handshake)
    (haway : handshaking s.lk s.thr = true → w'.locking = false)
    (hplaced : Placed s.regs s.gone w')
    (hcur : ∀ r, w'.current = some r → s.worker.current = some r ∨ r ∈ s.regs)
    (heven : ∀ r x, w' = .h_add r x → x.udata % 2 = 0)
    (hpend : ∀ id, w'.pending = some id → id ∈ s.regs.map Reg.id) :
    Inv {s with worker := w'} where
  items := h.items
  hands := h.hands.move hw haway
  index := h.index
  placed := hplaced
  current r hr := by
    rcases hcur r hr with hr | hr
    · exact h.current r hr
    · exact ⟨(h.items.listed r hr).1,fun hid => (h.items.listed r hr).2 (h.items.parted hid)⟩
  even := heven
  evens := h.evens
  logged := h.logged.mono fun id hid => .inl (hid.elim (fun hid => hid) (hpend id))

/-- What holds of the places of all threads holds after one of them has gone on. -/
theorem forall_at {P : Tpc → Prop} (h : ∀ u, P (thr u)) {t : Nat} {p : Tpc} (hp : P p) :
    ∀ u, P (Function.update thr t p u) :=
  (Function.forall_update_iff thr fun _ p => P p).mpr ⟨hp,fun u _ => h u⟩

theorem Hands.thread (h : Hands w cmd evt lk thr) {t : Nat} {p : Tpc}
    (ht : (thr t).index = none) (hp : p.index = none) :
    Hands w cmd evt lk (Function.update thr t p) := by
  have hsame : Woeh.handshaking lk (Function.update thr t p) = Woeh.handshaking lk thr := by
    unfold Woeh.handshaking
    cases lk with
    | none => rfl
    | some u =>
      have hu : u ≠ t := by
        rintro rfl
        have := (h.lock u).mpr rfl
        rw [ht] at this
        cases this
      simp only [Option.map_some,Function.update_of_ne hu]
  refine ⟨fun u => ?_,hsame ▸ h.answer,hsame ▸ h.told,hsame ▸ h.away⟩
  by_cases hu : u = t
  · subst hu
    rw [Function.update_self,hp,← h.lock u,ht]
  · rw [Function.update_of_ne hu]
    exact h.lock u

theorem Inv.thread (h : Inv s) {t : Nat} {p : Tpc} (ht : (s.thr t).index = none)
    (hp : p.index = none) (heven : p.Even) : Inv (s.at t p) where
  items := h.items
  hands := h.hands.thread ht hp
  index := forall_at h.index fun i hi => by
    rw [hp] at hi
    cases hi
  placed := h.placed
  current := h.current
  even := h.even
  evens := forall_at h.evens heven
  logged := h.logged

theorem Placed.append (h : Placed regs gone w) {r : Reg}
    (hr : ∀ x, w.current = some x → x.id ≠ r.id) : Placed (regs ++ [r]) gone w := by
  cases w with
  | counted n => exact Nat.le_trans h (by simp)
  | blocked snap => exact List.IsPrefix.trans h (List.prefix_append _ _)
  | returned snap i => exact ⟨h.1.trans (List.prefix_append _ _),h.2⟩
  | fetched x i =>
    refine ⟨?_,h.2⟩
    rw [List.getElem?_append_left (List.getElem?_eq_some_iff.mp h.1).1]
    exact h.1
  | calling x =>
    refine ⟨h.1,fun hone hid => ?_⟩
    rw [List.map_append,List.mem_append,List.map_singleton,List.mem_singleton] at hid
    exact hid.elim (h.2 hone) (hr x rfl)
  | _ => trivial

theorem Logged.append (h : Logged w regs added calls) {x : Added} :
    Logged w (regs ++ [x.reg added.length]) (added ++ [x]) calls where
  called c hc := by
    obtain ⟨hlive,y,hy,hrest⟩ := h.called c hc
    refine ⟨hlive,y,?_,hrest⟩
    rw [List.getElem?_append_left (List.getElem?_eq_some_iff.mp hy).1]
    exact hy
  once id y hy hone := by
    by_cases hlt : id < added.length
    · rw [List.getElem?_append_left hlt] at hy
      exact h.once id y hy hone
    · exact Nat.le_trans (Nat.le_of_eq (h.unused (Nat.le_of_not_lt hlt))) (Nat.zero_le 1)
  fresh id y hy hone hid := by
    by_cases hlt : id < added.length
    · rw [List.getElem?_append_left hlt] at hy
      refine h.fresh id y hy hone (hid.imp_left fun hid => ?_)
      rw [List.map_append,List.mem_append,List.map_singleton,List.mem_singleton] at hid
      exact hid.resolve_right (Nat.ne_of_lt hlt)
    · exact h.unused (Nat.le_of_not_lt hlt)

theorem Inv.append (h : Inv s) {x : Added} (hx : x.udata % 2 = 0) :
    Inv {s with regs := s.regs ++ [x.reg s.added.length], added := s.added ++ [x]} where
  items := h.items.add hx
  hands := h.hands
  index t i ht := by
    rw [List.length_append]
    exact Nat.lt_add_right _ (h.index t i ht)
  placed := h.placed.append fun r hr => Nat.ne_of_lt (h.current r hr).1.lt
  current r hr := ⟨(h.current r hr).1.append x,(h.current r hr).2⟩
  even := h.even
  evens := h.evens
  logged := h.logged.append

theorem Inv.woeh_add (h : Inv s) {x : Added} (hx : x.udata % 2 = 0) :
    Inv (woeh_add s x).1 := by
  unfold Woeh.woeh_add
  split
  · exact h
  · exact h.append hx

@[simp] theorem woeh_add_thr (s : Table) (x : Added) : (woeh_add s x).1.thr = s.thr := by
  unfold woeh_add
  split <;> rfl

@[simp] theorem woeh_add_worker (s : Table) (x : Added) : (woeh_add s x).1.worker = s.worker := by
  unfold woeh_add
  split <;> rfl

theorem Logged.remove (h : Logged w regs added calls) {r : Reg} (hp : regs.Perm (r :: regs'))
    (hpend : ∀ id, w'.pending = some id → id = r.id) : Logged w' regs' added calls :=
  h.mono fun id hid => by
    rcases hid with hid | hid
    · obtain ⟨x,hx,rfl⟩ := List.mem_map.mp hid
      exact .inl (List.mem_map.mpr ⟨x,hp.mem_iff.mpr (List.mem_cons_of_mem r hx),rfl⟩)
    · obtain rfl := hpend id hid
      exact .inl (List.mem_map.mpr ⟨r,hp.mem_iff.mpr List.mem_cons_self,rfl⟩)

/-- Nobody is in `woeh_rm()` while the lock is free. -/
theorem Hands.free (h : Hands w cmd evt none thr) (t : Nat) : (thr t).index = none := by
  cases ht : (thr t).index with
  | none => rfl
  | some i => exact absurd ((h.lock t).mp (by rw [ht]; rfl)) (by simp)

theorem Hands.locked (h : Hands w cmd evt none thr) (hw : w ≠ .handshake) :
    Hands w' cmd evt none thr :=
  h.move hw fun hh => by cases hh

theorem woeh_rm_eq {i : Nat} {r : Reg} (hr : s.regs[i]? = some r) (outside : Bool) :
    woeh_rm s i outside = {s with
      regs := rm_at s.regs i
      gone := s.gone ++ [r.id]
      parted := if outside then s.parted ++ [r.id] else s.parted} := by
  simp [woeh_rm,hr]

theorem woeh_find_lt {hdl i : Nat} (h : woeh_find regs hdl = some i) : i < regs.length :=
  (List.findIdx?_eq_some_iff_getElem.mp h).1

theorem inv_worker_locked (h : Inv s) (hlk : s.lk = none) (hs : worker_locked s = some s') :
    Inv s' := by
  have hands := h.hands
  rw [hlk] at hands
  unfold worker_locked at hs
  split at hs
  · -- the answer was taken: without a lock nobody waits for it
    cases hs
    refine ⟨h.items,⟨h.hands.lock,fun hevt => ?_,fun hcmd => ?_,fun _ _ => rfl⟩,h.index,trivial,
      fun r hr => (by cases hr),fun r x hx => (by cases hx),h.evens,
      h.logged.mono fun id hid => hid.imp_right fun hid => (by cases hid)⟩
    · have hh := (hands.answer hevt).2
      cases hh
    · cases hcmd
  · rename_i r i hw
    cases hs
    have hplaced := h.placed
    have hcur := h.current
    rw [hw] at hplaced hcur
    have hp := rm_at_perm hplaced.1
    refine ⟨h.items.remove hp,?_,fun t j ht => ?_,?_,?_,fun r x hx => (by cases hx),h.evens,
      h.logged.remove hp fun id hid => (by cases hid; rfl)⟩
    · dsimp only
      rw [hlk]
      exact hands.locked (by rw [hw]; exact nofun)
    · rw [hands.free t] at ht
      cases ht
    · exact ⟨(h.items.listed r (List.mem_of_getElem? hplaced.1)).2,fun _ => h.items.removed hp⟩
    · exact hcur
  · rename_i hw
    cases hs
    have hdead : Inv {s with worker := .dead} :=
      h.move (by rw [hw]; exact nofun) (fun _ => rfl) trivial nofun nofun nofun
    exact hdead.flags true s.wake_evt
  · rename_i r x hw
    cases hs
    have hadd := h.woeh_add (h.even r x hw)
    have hw' : (woeh_add s x).1.worker = .h_add r x := (woeh_add_worker s x).trans hw
    have hcur : (woeh_add s x).1.worker.current = some r := by rw [hw']; rfl
    have hne : (woeh_add s x).1.worker ≠ .handshake := by rw [hw']; exact nofun
    cases (woeh_add s x).2 with
    | true => exact hadd.move hne (fun _ => rfl) trivial (fun y hy => .inl (hcur.trans hy)) nofun nofun
    | false => exact hadd.move hne (fun _ => rfl) trivial (fun y hy => .inl (hcur.trans hy)) nofun nofun
  · rename_i r hdl hw
    have hcur := h.current r (by rw [hw]; rfl)
    have hne : s.worker ≠ .handshake := by rw [hw]; exact nofun
    split at hs
    · rename_i i hi
      cases hs
      obtain ⟨y,hy⟩ : ∃ y, s.regs[i]? = some y := ⟨_,List.getElem?_eq_getElem (woeh_find_lt hi)⟩
      rw [woeh_rm_eq hy]
      have hp := rm_at_perm hy
      refine ⟨h.items.rm hp false,?_,fun t j ht => ?_,trivial,fun z hz => ?_,nofun,h.evens,
        h.logged.remove hp nofun⟩
      · dsimp only
        rw [hlk]
        exact hands.locked hne
      · rw [hands.free t] at ht
        cases ht
      · cases hz
        exact hcur
    · cases hs
      exact h.move hne (fun _ => rfl) trivial
        (fun y hy => .inl (by rw [hw]; exact hy)) nofun nofun
  · cases hs

theorem inv_thread_locked (h : Inv s) (hlk : s.lk = none) {t : Nat}
    (hs : thread_locked s t = some s') : Inv s' := by
  unfold thread_locked at hs
  split at hs
  · rename_i x ht
    cases hs
    have hidx : ((woeh_add s x).1.thr t).index = none := by rw [woeh_add_thr,ht]; rfl
    have hadd := h.woeh_add (h.evens t x ht)
    cases (woeh_add s x).2 with
    | true => exact hadd.thread hidx rfl nofun
    | false => exact hadd.thread hidx rfl nofun
  · rename_i hdl ht
    split at hs
    · cases hs
    · split at hs
      · rename_i i hi
        cases hs
        have hands := h.hands
        rw [hlk] at hands
        have hquiet : handshaking (some t) (Function.update s.thr t (.found i)) = false := by
          simp [handshaking]
        refine ⟨h.items,⟨fun u => ?_,fun hevt => ?_,fun hcmd => ?_,fun hh => ?_⟩,
          forall_at h.index fun j hj => ?_,h.placed,h.current,h.even,forall_at h.evens nofun,
          h.logged⟩
        · change (Function.update s.thr t (.found i) u).index.isSome = true ↔ some t = some u
          by_cases hu : u = t
          · simp [hu,Tpc.index]
          · rw [Function.update_of_ne hu,hands.free u]
            simpa using Ne.symm hu
        · cases (hands.answer hevt).2
        · exact .inr ((hands.told hcmd).resolve_left (by simp [handshaking]))
        · exact absurd (hquiet.symm.trans hh) (by simp)
        · cases hj
          exact woeh_find_lt hi
      · cases hs
        exact h.thread (by rw [ht]; rfl) rfl nofun
  · cases hs

/-- The thread that has the lock tells the worker to wait, or goes on to wait for it. -/
theorem Hands.hold (h : Hands w cmd evt lk thr) {t i : Nat} {p : Tpc} {cmd' : Cmd}
    (ht : (thr t).index = some i) (hp : p = .announced i ∨ p = .waiting i)
    (haway : evt = false → w.locking = false) :
    Hands w cmd' evt lk (Function.update thr t p) := by
  have hlk : lk = some t := (h.lock t).mp (by rw [ht]; rfl)
  have hidx : p.index = some i := by
    rcases hp with rfl | rfl <;> rfl
  have hh : Woeh.handshaking lk (Function.update thr t p) = true := by
    refine handshaking_iff.mpr ⟨t,hlk,i,?_⟩
    rwa [Function.update_self]
  refine ⟨fun u => ?_,fun hevt => ⟨(h.answer hevt).1,hh⟩,fun _ => .inl hh,fun _ => haway⟩
  by_cases hu : u = t
  · subst hu
    rw [Function.update_self,hidx,← h.lock u,ht]
  · rw [Function.update_of_ne hu]
    exact h.lock u

theorem inv_take (h : Inv s) {t i : Nat} (ht : s.thr t = .waiting i) (hevt : s.wait_evt = true) :
    Inv ({woeh_rm s i true with wait_evt := false, lk := none}.at t (.idle 0)) := by
  obtain ⟨r,hr⟩ : ∃ r, s.regs[i]? = some r :=
    ⟨_,List.getElem?_eq_getElem (h.index t i (by rw [ht]; rfl))⟩
  rw [woeh_rm_eq hr]
  have hp := rm_at_perm hr
  have hw := (h.hands.answer hevt).1
  have hlk : s.lk = some t := (h.hands.lock t).mp (by rw [ht]; rfl)
  have hnone (u : Nat) : (Function.update s.thr t (.idle 0) u).index = none := by
    by_cases hu : u = t
    · rw [hu,Function.update_self]
      rfl
    · rw [Function.update_of_ne hu]
      cases hidx : (s.thr u).index with
      | none => rfl
      | some j =>
        have hlk' := (h.hands.lock u).mp (by rw [hidx]; rfl)
        exact (hu (Option.some.inj (hlk'.symm.trans hlk))).elim
  refine ⟨h.items.rm hp true,⟨fun u => ?_,nofun,fun _ => .inr hw,nofun⟩,fun u j hj => ?_,?_,
    fun x hx => ?_,h.even,forall_at h.evens nofun,?_⟩
  · change (Function.update s.thr t (.idle 0) u).index.isSome = true ↔ none = some u
    rw [hnone u]
    simp
  · change (Function.update s.thr t (.idle 0) u).index = some j at hj
    rw [hnone u] at hj
    cases hj
  · change Placed _ _ s.worker
    rw [hw]
    trivial
  · change s.worker.current = some x at hx
    rw [hw] at hx
    cases hx
  · refine h.logged.remove hp fun id hid => ?_
    change s.worker.pending = some id at hid
    rw [hw] at hid
    cases hid

theorem countP_call (calls : List Call) (c : Call) (id : Nat) :
    (calls ++ [c]).countP (fun x => x.id = id) =
      calls.countP (fun x => x.id = id) + if c.id = id then 1 else 0 := by
  rw [List.countP_append,List.countP_singleton]
  simp

/-- The handler is called: the item was not removed, and a one-shot item has left the table. -/
theorem Inv.call (h : Inv s) {r : Reg} (hw : s.worker = .calling r) :
    Inv {s with
      calls := s.calls ++ [⟨r.id,r.handler,r.udata - r.udata % 2,r.id ∉ s.gone⟩]
      worker := .running r} := by
  have hplaced := h.placed
  rw [hw] at hplaced
  obtain ⟨⟨x,hx,hr⟩,hpart⟩ := h.current r (by rw [hw]; rfl)
  have heven := h.items.even x (List.mem_of_getElem? hx)
  have hone {y : Added} (hy : s.added[r.id]? = some y) (hy1 : y.oneshot = true) :
      s.calls.countP (fun c => c.id = r.id) = 0 ∧ r.id ∉ s.regs.map Reg.id := by
    obtain rfl := Option.some.inj (hx.symm.trans hy)
    refine ⟨h.logged.fresh r.id x hx hy1 (.inr (by rw [hw]; rfl)),hplaced.2 ?_⟩
    rw [hr,Added.reg_oneshot heven,hy1]
  refine ⟨h.items,h.hands.move (by rw [hw]; exact nofun) fun _ => rfl,h.index,trivial,
    fun y hy => ?_,nofun,h.evens,⟨fun c hc => ?_,fun id y hy hy1 => ?_,fun id y hy hy1 hid => ?_⟩⟩
  · cases hy
    exact ⟨⟨x,hx,hr⟩,hpart⟩
  · rcases List.mem_append.mp hc with hc | hc
    · exact h.logged.called c hc
    · obtain rfl := List.mem_singleton.mp hc
      refine ⟨by simpa using hplaced.1,x,hx,by rw [hr]; rfl,?_⟩
      dsimp only
      rw [hr,Added.reg_udata heven]
  · dsimp only
    rw [countP_call]
    split
    · subst id
      exact Nat.le_of_eq (congrArg (· + 1) (hone hy hy1).1)
    · exact h.logged.once id y hy hy1
  · dsimp only
    rw [countP_call]
    have hid : id ∈ s.regs.map Reg.id := hid.resolve_right nofun
    rw [h.logged.fresh id y hy hy1 (.inl hid),if_neg]
    rintro rfl
    exact (hone hy hy1).2 hid

theorem inv_step (h : Inv s) (a : Act) (hc : Clear s a) (hs : step s a = some s') : Inv s' := by
  have hplaced := h.placed
  cases a with
  | w_count =>
    dsimp only [step] at hs
    split at hs
    · rename_i hw
      cases hs
      exact h.move (by rw [hw]; exact nofun) (fun _ => rfl) (Nat.le_refl _) nofun nofun nofun
    · cases hs
  | w_enter =>
    dsimp only [step] at hs
    split at hs
    · rename_i n hw
      cases hs
      exact h.move (by rw [hw]; exact nofun) (fun _ => rfl) (List.take_prefix n _) nofun nofun nofun
    · cases hs
  | w_wake =>
    dsimp only [step] at hs
    split at hs
    · rename_i hw
      split at hs
      · cases hs
        have hwoken : Inv {s with worker := .woken} :=
          h.move (by rw [hw]; exact nofun) (fun _ => rfl) trivial nofun nofun nofun
        exact hwoken.flags s.failed false
      · cases hs
    · cases hs
  | w_return i =>
    dsimp only [step] at hs
    split at hs
    · rename_i snap hw
      split at hs
      · rename_i hi
        cases hs
        rw [hw] at hplaced
        refine h.move (by rw [hw]; exact nofun) (fun hh => ?_) ⟨hplaced,hi.1⟩ nofun nofun nofun
        cases hone : snap[i]?.any Reg.oneshot with
        | false => exact hone
        | true =>
          have hno := hc (by rw [hw]; exact hone)
          rw [hno] at hh
          cases hh
      · cases hs
    · cases hs
  | w_fail =>
    dsimp only [step] at hs
    split at hs
    · rename_i hw
      cases hs
      exact h.move (by rw [hw]; exact nofun) (fun hh => absurd (hc.symm.trans hh) (by simp)) trivial
        nofun nofun nofun
    · cases hs
  | w_cmd =>
    dsimp only [step] at hs
    split at hs
    · rename_i hw
      have hne : s.worker ≠ .handshake := by rw [hw]; exact nofun
      split at hs
      · rename_i hcmd
        cases hs
        have hh := (h.hands.told hcmd).resolve_right hne
        exact ⟨h.items,⟨h.hands.lock,fun _ => ⟨rfl,hh⟩,fun _ => .inr rfl,nofun⟩,h.index,trivial,
          nofun,nofun,h.evens,h.logged.mono fun id hid => hid.imp_right nofun⟩
      · cases hs
        exact h.move hne (fun _ => rfl) trivial nofun nofun nofun
    · cases hs
  | w_fetch =>
    dsimp only [step] at hs
    split at hs
    · rename_i snap i hw
      rw [hw] at hplaced
      have hne : s.worker ≠ .handshake := by rw [hw]; exact nofun
      split at hs
      · rename_i r hr
        cases hs
        have hmem : r ∈ s.regs := List.mem_of_getElem? hr
        by_cases hone : r.oneshot = true
        · rw [if_pos hone]
          refine h.move hne (fun hh => ?_) ⟨hr,hone⟩ (fun x hx => .inr ?_) nofun nofun
          · -- a waiting thread would have kept the worker from the object
            have hevt : s.wait_evt = false := by
              cases hevt : s.wait_evt with
              | false => rfl
              | true => exact (hne (h.hands.answer hevt).1).elim
            have haway := h.hands.away hh hevt
            rw [hw] at haway
            have hsnap : snap[i]? = some r := by
              obtain ⟨rest,hrest⟩ := hplaced.1
              rwa [← hrest,List.getElem?_append_left hplaced.2] at hr
            simp [Wpc.locking,hsnap,hone] at haway
          · cases hx
            exact hmem
        · rw [if_neg hone]
          refine h.move hne (fun _ => rfl) ⟨(h.items.listed r hmem).2,fun h => (hone h).elim⟩
            (fun x hx => .inr ?_) nofun fun id hid => ?_
          · cases hx
            exact hmem
          · cases hid
            exact List.mem_map.mpr ⟨r,hmem,rfl⟩
      · cases hs
    · cases hs
  | w_lock =>
    dsimp only [step] at hs
    split at hs
    · exact inv_worker_locked h (by assumption) hs
    · cases hs
  | w_call =>
    dsimp only [step] at hs
    split at hs
    · rename_i r hw
      cases hs
      exact h.call hw
    · cases hs
  | w_done =>
    dsimp only [step] at hs
    split at hs
    · rename_i hw
      cases hs
      exact h.move (by rw [hw]; exact nofun) (fun _ => rfl) trivial nofun nofun nofun
    · cases hs
  | h_add x =>
    dsimp only [step] at hs
    split at hs
    · rename_i r hw
      split at hs
      · rename_i hx
        cases hs
        refine h.move (by rw [hw]; exact nofun) (fun hh => absurd (hc.symm.trans hh) (by simp)) trivial
          (fun y hy => .inl ?_) (fun y z hz => ?_) nofun
        · rw [hw]
          exact hy
        · cases hz
          exact hx
      · cases hs
    · cases hs
  | h_rm hdl =>
    dsimp only [step] at hs
    split at hs
    · rename_i r hw
      cases hs
      refine h.move (by rw [hw]; exact nofun) (fun hh => absurd (hc.symm.trans hh) (by simp)) trivial
        (fun y hy => .inl ?_) nofun nofun
      rw [hw]
      exact hy
    · cases hs
  | h_wake =>
    dsimp only [step] at hs
    split at hs
    · rename_i r hw
      cases hs
      have hrun : Inv {s with worker := .running r} := by
        refine h.move (by rw [hw]; exact nofun) (fun _ => rfl) trivial (fun y hy => .inl ?_) nofun nofun
        rw [hw]
        exact hy
      exact hrun.flags s.failed true
    · cases hs
  | add t x =>
    dsimp only [step] at hs
    split at hs
    · rename_i ht
      split at hs
      · rename_i hx
        cases hs
        refine h.thread (by rw [ht]; rfl) rfl fun y hy => ?_
        cases hy
        exact hx
      · cases hs
    · cases hs
  | rm t hdl =>
    dsimp only [step] at hs
    split at hs
    · rename_i ht
      cases hs
      exact h.thread (by rw [ht]; rfl) rfl nofun
    · cases hs
  | lock t =>
    dsimp only [step] at hs
    split at hs
    · exact inv_thread_locked h (by assumption) hs
    · cases hs
  | announce t =>
    dsimp only [step] at hs
    split at hs
    · rename_i i ht
      cases hs
      have hidx : (s.thr t).index = some i := by rw [ht]; rfl
      refine ⟨h.items,h.hands.hold hidx (.inl rfl) fun _ => hc,forall_at h.index fun j hj => ?_,
        h.placed,h.current,h.even,forall_at h.evens nofun,h.logged⟩
      cases hj
      exact h.index t i hidx
    · cases hs
  | set t =>
    dsimp only [step] at hs
    split at hs
    · rename_i i ht
      cases hs
      have hidx : (s.thr t).index = some i := by rw [ht]; rfl
      have hh : handshaking s.lk s.thr = true :=
        handshaking_iff.mpr ⟨t,(h.hands.lock t).mp (by rw [hidx]; rfl),i,.inl ht⟩
      refine ⟨h.items,h.hands.hold hidx (.inr rfl) (h.hands.away hh),forall_at h.index fun j hj => ?_,
        h.placed,h.current,h.even,forall_at h.evens nofun,h.logged⟩
      cases hj
      exact h.index t i hidx
    · rename_i ht
      cases hs
      exact (h.flags s.failed true).thread (by dsimp only; rw [ht]; rfl) rfl nofun
    · cases hs
  | take t =>
    dsimp only [step] at hs
    split at hs
    · rename_i i ht
      split at hs
      · rename_i hevt
        cases hs
        exact inv_take h ht hevt
      · cases hs
    · cases hs

theorem inv_init : Inv init where
  items := ⟨List.nodup_nil,nofun,nofun,List.Subset.refl _,nofun⟩
  hands := ⟨fun t => by simp [init,Tpc.index],nofun,nofun,nofun⟩
  index := fun _ => nofun
  placed := trivial
  current := nofun
  even := nofun
  evens := fun _ => nofun
  logged := ⟨nofun,nofun,nofun⟩

/-- Whatever is added, removed and signalled, in handlers and in other threads, the users get what
they rely on, if nobody goes for the lock between the command to wait and the worker's answer. -/
theorem handlers_kept (as : List Act) (s : Table) (hclear : Machine.AllSteps step Clear init as)
    (hrun : Machine.run step init as = some s) : Kept s :=
  (Machine.guarded_invariant (fun _ a _ h hc hs => inv_step h a hc hs) hclear hrun inv_init).kept

/-- An item is added, its object signals and its handler runs. -/
def signalled (oneshot : Bool) : List Act :=
  ([.add 1 ⟨5,10,100,oneshot⟩,.lock 1,.set 1,.w_count,.w_enter,.w_wake,.w_cmd,.w_count,.w_enter,
    .w_return 0,.w_fetch] : List Act) ++ (if oneshot then [Act.w_lock] else []) ++ [Act.w_call]

/-- The item is removed while its handler runs, and the thread goes on after the handler. -/
def removed_after : List Act :=
  signalled false ++ ([.rm 2 5,.lock 2,.announce 2,.set 2,.w_done,.w_count,.w_enter,.w_wake,.w_cmd,
    .take 2,.w_lock] : List Act)

theorem handlers_kept_removed : Kept ((Machine.run step init removed_after).getD init) :=
  handlers_kept removed_after _ (by decide +kernel) (Machine.run_eq_getD (by decide +kernel))

/-- A thread removes an item while its handler runs, and the handler adds another one. -/
def added_while_removed : List Act :=
  signalled false ++ ([.rm 2 5,.lock 2,.announce 2,.set 2,.h_add ⟨6,11,200,false⟩] : List Act)

/-- The thread has the lock and waits for the worker, which waits for the lock. -/
theorem handler_deadlock :
    (∀ s, Machine.run step init added_while_removed = some s →
      s.lk = some 2 ∧ s.thr 2 = .waiting 0 ∧ s.worker.wants_lock = true ∧ ¬Kept s) ∧
    (Machine.run step init added_while_removed).isSome := by
  refine ⟨fun s hs => ?_,by decide +kernel⟩
  have hmap : (Machine.run step init added_while_removed).map
        (fun s => (s.lk,s.thr 2,s.worker.wants_lock,s.wait_evt)) =
      some (some 2,.waiting 0,true,false) := by decide +kernel
  rw [hs,Option.map_some,Option.some.injEq] at hmap
  simp only [Prod.mk.injEq] at hmap
  obtain ⟨hlk,hthr,hwants,hevt⟩ := hmap
  refine ⟨hlk,hthr,hwants,fun hk => ?_⟩
  have hfree := hk.free 2 0 hthr hevt
  rw [hwants] at hfree
  cases hfree

end Phiola.Woeh
