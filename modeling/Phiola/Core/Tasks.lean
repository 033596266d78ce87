import Phiola.Framework.Machine
import Mathlib.Data.List.Range
import Mathlib.Logic.Function.Basic

/-!
# The task queue of a worker

Any thread posts a task in two steps: it inserts it into the list under the lock, and if the list was
empty it signals the kernel queue. The worker is the only reader. It consumes the signal, and then it
looks at the list without the lock and removes what it saw with it, until the list is empty. Its
tasks, and its other handlers, may post and delete tasks themselves; the worker is thread 0.
-/

namespace Phiola

/-- A task in the list; `num` counts the insertions and is no field of the source. -/
structure Queued where
  task : Nat
  num : Nat
  deriving DecidableEq, Repr

/-- Where a thread is in `zzkq_tq_post()`: it has inserted the task, or found it in the list, and has
not signalled yet; `empty` is the result of `fftaskqueue_post()`. -/
inductive PostPc
  | idle
  | inserted (empty : Bool) (num : Nat)
  deriving DecidableEq, Repr

/-- Where the worker is in `zzkq_tq_process()`. -/
inductive ReadPc
  | wait
  | look
  | take (x : Queued)
  | run (x : Queued)
  deriving DecidableEq, Repr

/-- The worker is in a handler, which may post and delete. -/
def ReadPc.handling : ReadPc → Bool
  | .wait => true
  | .look => false
  | .take _ => false
  | .run _ => true

/-- `fftaskqueue` with `zzkq_tq`. No fields of the source: the number of insertions, those whose task
was run or deleted, in order, and those for which a call of `zzkq_tq_post()` has returned. -/
structure TaskQueue where
  tasks : List Queued
  signal : Bool
  poster : Nat → PostPc
  reader : ReadPc
  ins : Nat
  runs : List Nat
  dels : List Nat
  posted : List Nat

namespace TaskQueue

def init : TaskQueue := ⟨[],false,fun _ => .idle,.wait,0,[],[],[]⟩

/-- `fftaskqueue_active()`: the task in the list. -/
def active (s : TaskQueue) (t : Nat) : Option Queued := s.tasks.find? fun x => x.task == t

/-- `fftaskqueue_post()` by thread `p`. -/
def post (s : TaskQueue) (p t : Nat) : TaskQueue :=
  match s.active t with
  | some x => { s with poster := Function.update s.poster p (.inserted false x.num) }
  | none =>
    { s with
      tasks := s.tasks ++ [⟨t,s.ins⟩]
      poster := Function.update s.poster p (.inserted s.tasks.isEmpty s.ins)
      ins := s.ins + 1 }

/-- The end of `zzkq_tq_post()`. -/
def postSignal (s : TaskQueue) (p : Nat) (empty : Bool) (num : Nat) : TaskQueue :=
  { s with
    signal := s.signal || empty
    poster := Function.update s.poster p .idle
    posted := s.posted ++ [num] }

/-- `fftaskqueue_del()` -/
def del (s : TaskQueue) (t : Nat) : TaskQueue :=
  match s.active t with
  | none => s
  | some x => { s with tasks := s.tasks.erase x, dels := s.dels ++ [x.num] }

inductive Act
  | post (p t : Nat)
  | signal (p : Nat)
  | del (t : Nat)
  | consume
  | look
  | take
  | ran
  deriving DecidableEq, Repr

def step (s : TaskQueue) : Act → Option TaskQueue
  | .post p t => if s.poster p = .idle ∧ (p = 0 → s.reader.handling = true) then some (s.post p t) else none
  | .signal p =>
    match s.poster p with
    | .idle => none
    | .inserted empty num => some (s.postSignal p empty num)
  | .del t => if s.poster 0 = .idle ∧ s.reader.handling = true then some (s.del t) else none
  -- `ffkq_post_consume()`, when the worker got the event of the signal
  | .consume =>
    if s.reader = .wait ∧ s.poster 0 = .idle ∧ s.signal then
      some { s with signal := false, reader := .look }
    else none
  -- the loop of `fftaskqueue_run()`
  | .look =>
    if s.reader = .look then
      some { s with reader := match s.tasks with | [] => .wait | x :: _ => .take x }
    else none
  | .take =>
    match s.reader with
    | .take x =>
      some { s with tasks := s.tasks.erase x, reader := .run x, runs := s.runs ++ [x.num] }
    | .wait => none
    | .look => none
    | .run _ => none
  | .ran =>
    match s.reader with
    | .run _ => if s.poster 0 = .idle then some { s with reader := .look } else none
    | .wait => none
    | .look => none
    | .take _ => none

/-- Some thread has inserted a task into the empty list and has not signalled yet. -/
def Signalling (s : TaskQueue) : Prop := ∃ p n, s.poster p = .inserted true n

/-- The worker is not in the run loop, and nothing will make it enter it. -/
def AtRest (s : TaskQueue) : Prop := s.reader = .wait ∧ s.signal = false ∧ ¬ s.Signalling

/-- Tasks are run in the order of their insertion. Each insertion is still in the list, or its task
was run once, or it was deleted once. No task is in the list twice, and if there is one in it then the
worker is in the run loop, or the signal is pending, or a thread is about to signal. -/
structure Delivered (s : TaskQueue) : Prop where
  order : s.runs.Pairwise (· < ·)
  once : (s.runs ++ s.dels ++ s.tasks.map Queued.num).Perm (List.range s.ins)
  distinct : (s.tasks.map Queued.task).Nodup
  wake : s.tasks ≠ [] → s.reader ≠ .wait ∨ s.signal = true ∨ s.Signalling

structure Inv (s : TaskQueue) : Prop where
  sorted : (s.runs ++ s.tasks.map Queued.num).Pairwise (· < ·)
  once : (s.runs ++ s.dels ++ s.tasks.map Queued.num).Perm (List.range s.ins)
  distinct : (s.tasks.map Queued.task).Nodup
  wake : s.tasks ≠ [] → s.reader ≠ .wait ∨ s.signal = true ∨ s.Signalling
  taking : ∀ x, s.reader = .take x → ∃ rest, s.tasks = x :: rest
  posting : ∀ p e n, s.poster p = .inserted e n → n < s.ins
  posted : ∀ n ∈ s.posted, n < s.ins

variable {s s' : TaskQueue} {a : Act}

theorem Inv.delivered (h : Inv s) : Delivered s :=
  ⟨(List.pairwise_append.mp h.sorted).1,h.once,h.distinct,h.wake⟩

theorem Inv.num_lt (h : Inv s) {n : Nat} (hn : n ∈ s.runs ++ s.tasks.map Queued.num) : n < s.ins := by
  apply List.mem_range.mp
  rw [← h.once.mem_iff]
  rcases List.mem_append.mp hn with hn | hn
  · exact List.mem_append_left _ (List.mem_append_left _ hn)
  · exact List.mem_append_right _ hn

theorem active_none {t : Nat} (h : s.active t = none) : t ∉ s.tasks.map Queued.task := by
  intro ht
  obtain ⟨x,hx,rfl⟩ := List.mem_map.mp ht
  have := List.find?_eq_none.mp h x hx
  simp at this

theorem active_some {t : Nat} {x : Queued} (h : s.active t = some x) : x ∈ s.tasks :=
  List.mem_of_find?_eq_some h

/-- Another thread that is about to signal is not disturbed by one that was idle. -/
theorem Signalling.update {p : Nat} (h : s.Signalling) (hp : s.poster p = .idle) (pc : PostPc)
    {s' : TaskQueue} (hs : s'.poster = Function.update s.poster p pc) : s'.Signalling := by
  obtain ⟨q,n,hq⟩ := h
  refine ⟨q,n,?_⟩
  have hqp : q ≠ p := fun hqp => by rw [hqp,hp] at hq; cases hq
  rw [hs,Function.update_of_ne hqp]
  exact hq

theorem posting_update {n : Nat} (h : ∀ p e n, s.poster p = .inserted e n → n < s.ins) {m : Nat}
    (hm : s.ins ≤ m) {p : Nat} {b : Bool} (hn : n < m) :
    ∀ q e k, Function.update s.poster p (.inserted b n) q = .inserted e k → k < m := by
  intro q e k hq
  by_cases hqp : q = p
  · rw [hqp,Function.update_self] at hq
    cases hq
    exact hn
  · rw [Function.update_of_ne hqp] at hq
    exact (h q e k hq).trans_le hm

theorem Inv.post (h : Inv s) {p t : Nat} (hp : s.poster p = .idle) : Inv (s.post p t) := by
  unfold TaskQueue.post
  cases ht : s.active t with
  | some x =>
    have hx : x.num < s.ins :=
      h.num_lt (List.mem_append_right _ (List.mem_map_of_mem (active_some ht)))
    refine ⟨h.sorted,h.once,h.distinct,fun hne => ?_,h.taking,?_,h.posted⟩
    · exact (h.wake hne).imp_right (Or.imp_right fun hs => hs.update hp _ rfl)
    · exact posting_update h.posting (Nat.le_refl _) hx
  | none =>
    refine ⟨?_,?_,?_,fun _ => ?_,fun x hx => ?_,?_,fun n hn => Nat.lt_succ_of_lt (h.posted n hn)⟩
    · rw [List.map_append,← List.append_assoc]
      refine List.pairwise_append.mpr ⟨h.sorted,List.pairwise_singleton _ _,fun n hn m hm => ?_⟩
      rw [List.mem_singleton.mp hm]
      exact h.num_lt hn
    · rw [List.map_append,← List.append_assoc,List.range_succ]
      exact h.once.append_right _
    · rw [List.map_append]
      refine List.nodup_append.mpr ⟨h.distinct,List.pairwise_singleton _ _,fun x hx y hy hxy => ?_⟩
      have hxt : x = t := hxy.trans (List.mem_singleton.mp hy)
      exact active_none ht (hxt ▸ hx)
    · by_cases hne : s.tasks = []
      · -- the list was empty, so this thread will signal
        exact .inr (.inr ⟨p,s.ins,by simp [hne]⟩)
      · exact (h.wake hne).imp_right (Or.imp_right fun hs => hs.update hp _ rfl)
    · obtain ⟨rest,hrest⟩ := h.taking x hx
      exact ⟨rest ++ [⟨t,s.ins⟩],by rw [hrest]; rfl⟩
    · exact posting_update h.posting (Nat.le_succ _) (Nat.lt_succ_self _)

theorem Inv.postSignal (h : Inv s) {p : Nat} {empty : Bool} {n : Nat}
    (hp : s.poster p = .inserted empty n) : Inv (s.postSignal p empty n) := by
  refine ⟨h.sorted,h.once,h.distinct,fun hne => ?_,h.taking,fun q e m hq => ?_,fun m hm => ?_⟩
  · rcases h.wake hne with hr | hs | ⟨q,m,hq⟩
    · exact .inl hr
    · exact .inr (.inl (by simp [TaskQueue.postSignal,hs]))
    · by_cases hqp : q = p
      · rw [hqp,hp] at hq
        injection hq with he
        exact .inr (.inl (by simp [TaskQueue.postSignal,he]))
      · exact .inr (.inr ⟨q,m,by simp [TaskQueue.postSignal,hqp,hq]⟩)
  · by_cases hqp : q = p
    · simp [TaskQueue.postSignal,hqp] at hq
    · simp only [TaskQueue.postSignal,Function.update_of_ne hqp] at hq
      exact h.posting q e m hq
  · rcases List.mem_append.mp hm with hm | hm
    · exact h.posted m hm
    · rw [List.mem_singleton.mp hm]
      exact h.posting p empty n hp

/-- A task that leaves the list is added to those that were run or deleted. -/
theorem erase_perm {x : Queued} (hx : x ∈ s.tasks) :
    (s.tasks.map Queued.num).Perm (x.num :: (s.tasks.erase x).map Queued.num) :=
  (List.perm_cons_erase hx).map Queued.num

theorem Inv.del (h : Inv s) {t : Nat} (hr : s.reader.handling = true) : Inv (s.del t) := by
  unfold TaskQueue.del
  cases hf : s.active t with
  | none => exact h
  | some x =>
    have hx := active_some hf
    have hsub := (List.erase_sublist (a := x) (l := s.tasks))
    refine ⟨?_,?_,?_,fun hne => ?_,fun y hy => ?_,h.posting,h.posted⟩
    · exact h.sorted.sublist (List.Sublist.append_left (hsub.map _) _)
    · refine List.Perm.trans ?_ h.once
      rw [← List.append_assoc,List.append_assoc _ [x.num]]
      exact List.Perm.append_left _ (erase_perm hx).symm
    · exact h.distinct.sublist (hsub.map _)
    · apply h.wake
      intro hnil
      rw [hnil] at hx
      cases hx
    · rw [show s.reader = .take y from hy] at hr
      cases hr

/-- What a step can do. -/
inductive Steps (s : TaskQueue) : Act → TaskQueue → Prop
  | post {p t : Nat} : s.poster p = .idle → Steps s (.post p t) (s.post p t)
  | signal {p n : Nat} {empty : Bool} : s.poster p = .inserted empty n →
      Steps s (.signal p) (s.postSignal p empty n)
  | del {t : Nat} : s.reader.handling = true → Steps s (.del t) (s.del t)
  | consume : Steps s .consume { s with signal := false, reader := .look }
  | empty : s.tasks = [] → Steps s .look { s with reader := .wait }
  | first {x : Queued} {rest : List Queued} : s.tasks = x :: rest →
      Steps s .look { s with reader := .take x }
  | take {x : Queued} : s.reader = .take x →
      Steps s .take { s with tasks := s.tasks.erase x, reader := .run x, runs := s.runs ++ [x.num] }
  | ran {x : Queued} : s.reader = .run x → Steps s .ran { s with reader := .look }

theorem step_steps (hs : s.step a = some s') : s.Steps a s' := by
  cases a with
  | post p t =>
    obtain ⟨⟨hp,_⟩,⟨⟩⟩ := Option.ite_none_right_eq_some.mp hs
    exact .post hp
  | signal p =>
    simp only [TaskQueue.step] at hs
    cases hp : s.poster p with
    | idle => rw [hp] at hs; cases hs
    | inserted empty n =>
      rw [hp] at hs
      cases hs
      exact .signal hp
  | del t =>
    obtain ⟨⟨_,hr⟩,⟨⟩⟩ := Option.ite_none_right_eq_some.mp hs
    exact .del hr
  | consume =>
    obtain ⟨_,⟨⟩⟩ := Option.ite_none_right_eq_some.mp hs
    exact .consume
  | look =>
    obtain ⟨_,⟨⟩⟩ := Option.ite_none_right_eq_some.mp hs
    cases ht : s.tasks with
    | nil => simpa only [ht] using Steps.empty ht
    | cons x rest => simpa only [ht] using Steps.first ht
  | take =>
    simp only [TaskQueue.step] at hs
    cases hr : s.reader with
    | take x =>
      rw [hr] at hs
      cases hs
      exact .take hr
    | wait => rw [hr] at hs; cases hs
    | look => rw [hr] at hs; cases hs
    | run x => rw [hr] at hs; cases hs
  | ran =>
    simp only [TaskQueue.step] at hs
    cases hr : s.reader with
    | run x =>
      rw [hr] at hs
      obtain ⟨_,⟨⟩⟩ := Option.ite_none_right_eq_some.mp hs
      exact .ran hr
    | wait => rw [hr] at hs; cases hs
    | look => rw [hr] at hs; cases hs
    | take x => rw [hr] at hs; cases hs

theorem Inv.take (h : Inv s) {x : Queued} (hr : s.reader = .take x) :
    Inv { s with tasks := s.tasks.erase x, reader := .run x, runs := s.runs ++ [x.num] } := by
  obtain ⟨rest,hrest⟩ := h.taking x hr
  have herase : s.tasks.erase x = rest := by rw [hrest,List.erase_cons_head]
  have hsorted := h.sorted
  have honce := h.once
  have hdistinct := h.distinct
  rw [hrest,List.map_cons] at hsorted honce hdistinct
  refine ⟨?_,?_,?_,fun _ => .inl (by simp),fun y hy => by (cases hy),h.posting,h.posted⟩
  · rw [herase,List.append_assoc]
    exact hsorted
  · rw [herase]
    refine List.Perm.trans ?_ honce
    -- the number moves from the list to the end of those that were run
    rw [List.append_assoc,List.append_assoc,List.append_assoc]
    refine List.Perm.append_left _ ?_
    show (x.num :: (s.dels ++ rest.map Queued.num)).Perm _
    exact List.perm_middle.symm
  · rw [herase]
    exact (List.nodup_cons.mp hdistinct).2

theorem Inv.step (h : Inv s) (hs : s.step a = some s') : Inv s' := by
  cases step_steps hs with
  | post hp => exact h.post hp
  | signal hp => exact h.postSignal hp
  | del hr => exact h.del hr
  | consume =>
    exact ⟨h.sorted,h.once,h.distinct,fun _ => .inl (by simp),fun x hx => by (cases hx),h.posting,
      h.posted⟩
  | empty ht =>
    exact ⟨h.sorted,h.once,h.distinct,fun hne => absurd ht hne,fun x hx => by (cases hx),h.posting,
      h.posted⟩
  | first ht =>
    refine ⟨h.sorted,h.once,h.distinct,fun _ => .inl (by simp),fun y hy => ?_,h.posting,h.posted⟩
    cases hy
    exact ⟨_,ht⟩
  | take hr => exact h.take hr
  | ran hr =>
    exact ⟨h.sorted,h.once,h.distinct,fun _ => .inl (by simp),fun y hy => by (cases hy),h.posting,
      h.posted⟩

theorem del_sublist (t : Nat) : (s.del t).tasks.Sublist s.tasks := by
  unfold TaskQueue.del
  cases s.active t with
  | none => exact List.Sublist.refl _
  | some x => exact List.erase_sublist

theorem step_ins (hs : s.step a = some s') : s.ins ≤ s'.ins := by
  cases step_steps hs with
  | post hp =>
    unfold TaskQueue.post
    split
    · exact Nat.le_refl _
    · exact Nat.le_succ _
  | signal hp => exact Nat.le_refl _
  | del hr =>
    unfold TaskQueue.del
    split <;> exact Nat.le_refl _
  | consume => exact Nat.le_refl _
  | empty ht => exact Nat.le_refl _
  | first ht => exact Nat.le_refl _
  | take hr => exact Nat.le_refl _
  | ran hr => exact Nat.le_refl _

theorem step_tasks (hs : s.step a = some s') : ∀ x ∈ s'.tasks, x ∈ s.tasks ∨ s.ins ≤ x.num := by
  intro x hx
  cases step_steps hs with
  | post hp =>
    unfold TaskQueue.post at hx
    split at hx
    · exact .inl hx
    · rcases List.mem_append.mp hx with hx | hx
      · exact .inl hx
      · rw [List.mem_singleton.mp hx]
        exact .inr (Nat.le_refl _)
  | signal hp => exact .inl hx
  | del hr => exact .inl ((del_sublist _).subset hx)
  | consume => exact .inl hx
  | empty ht => exact .inl hx
  | first ht => exact .inl hx
  | take hr => exact .inl (List.erase_subset hx)
  | ran hr => exact .inl hx

/-- A task that is not in the list is inserted once, at the end; one that is in it is not inserted. -/
theorem step_post {p t : Nat} (hs : s.step (.post p t) = some s') :
    s'.runs = s.runs ∧ s'.dels = s.dels ∧
      ((s.active t).isNone ∧ s'.tasks = s.tasks ++ [⟨t,s.ins⟩] ∧ s'.ins = s.ins + 1 ∨
        (s.active t).isSome ∧ s'.tasks = s.tasks ∧ s'.ins = s.ins) := by
  simp only [step] at hs
  split at hs
  · obtain rfl := Option.some.inj hs
    unfold post
    split
    · rename_i x hx
      exact ⟨rfl,rfl,.inr ⟨by rw [hx]; rfl,rfl,rfl⟩⟩
    · rename_i hx
      exact ⟨rfl,rfl,.inl ⟨by rw [hx]; rfl,rfl,rfl⟩⟩
  · cases hs

theorem post_reader (p t : Nat) : (s.post p t).reader = s.reader := by
  unfold TaskQueue.post
  split <;> rfl

theorem del_reader (t : Nat) : (s.del t).reader = s.reader := by
  unfold TaskQueue.del
  split <;> rfl

theorem step_not_entered (ha : a ≠ .consume) (hs : s.step a = some s') (hr : s'.reader ≠ .wait) :
    s.reader ≠ .wait := by
  cases step_steps hs with
  | post hp => rwa [post_reader] at hr
  | signal hp => exact hr
  | del hd => rwa [del_reader] at hr
  | consume => exact absurd rfl ha
  | empty ht => exact absurd rfl hr
  | first ht => rw [(Option.ite_none_right_eq_some.mp hs).1]; simp
  | take ht => rw [ht]; simp
  | ran ht => rw [ht]; simp

theorem step_reading (hs : s.step a = some s') (hr : s.reader ≠ .wait) :
    s'.reader ≠ .wait ∨ s'.tasks = [] := by
  cases step_steps hs with
  | post hp => rw [post_reader]; exact .inl hr
  | signal hp => exact .inl hr
  | del hd => rw [del_reader]; exact .inl hr
  | consume => exact .inl (by simp)
  | empty ht => exact .inr ht
  | first ht => exact .inl (by simp)
  | take ht => exact .inl (by simp)
  | ran ht => exact .inl (by simp)

theorem inv_init : Inv init :=
  ⟨List.Pairwise.nil,List.Perm.refl _,List.Pairwise.nil,fun h => absurd rfl h,
    fun x hx => by (cases hx),fun p e n hp => by (cases hp),fun n hn => by cases hn⟩

theorem Inv.at_rest (h : Inv s) (hr : s.AtRest) : s.tasks = [] := by
  by_contra hne
  obtain ⟨h1,h2,h3⟩ := hr
  rcases h.wake hne with hw | hw | hw
  · exact hw h1
  · exact Bool.false_ne_true (h2.symm.trans hw)
  · exact h3 hw

theorem drain_look (hr : s.reader = .look) (hp : s.poster 0 = .idle) :
    ∃ as s', Machine.run step s as = some s' ∧ s'.tasks = [] ∧ s'.ins = s.ins ∧
      s'.dels = s.dels := by
  induction ht : s.tasks generalizing s with
  | nil => exact ⟨[],s,rfl,ht,rfl,rfl⟩
  | cons x rest ih =>
    have hrest : s.tasks.erase x = rest := by rw [ht,List.erase_cons_head]
    obtain ⟨as,s',hrun,h1,h2,h3⟩ :=
      ih (s := { s with tasks := rest, reader := .look, runs := s.runs ++ [x.num] }) rfl hp rfl
    refine ⟨.look :: .take :: .ran :: as,s',?_,h1,h2,h3⟩
    apply Machine.run_cons_eq_some.mpr
    refine ⟨{ s with reader := .take x },by simp [step,hr,ht],?_⟩
    apply Machine.run_cons_eq_some.mpr
    refine ⟨{ s with tasks := rest, reader := .run x, runs := s.runs ++ [x.num] },
      by simp [step,hrest],?_⟩
    apply Machine.run_cons_eq_some.mpr
    exact ⟨_,by simp [step,hp],hrun⟩

theorem Inv.drain_idle (h : Inv s) (hp : s.poster 0 = .idle) :
    ∃ as s', Machine.run TaskQueue.step s as = some s' ∧ s'.tasks = [] ∧ s'.ins = s.ins ∧
      s'.dels = s.dels := by
  cases hr : s.reader with
  | look => exact drain_look hr hp
  | take x =>
    obtain ⟨as,s',hrun,hs'⟩ := drain_look
      (s := { s with tasks := s.tasks.erase x, reader := .look, runs := s.runs ++ [x.num] }) rfl hp
    refine ⟨.take :: .ran :: as,s',?_,hs'⟩
    apply Machine.run_cons_eq_some.mpr
    refine ⟨{ s with tasks := s.tasks.erase x, reader := .run x, runs := s.runs ++ [x.num] },
      by simp [TaskQueue.step,hr],?_⟩
    apply Machine.run_cons_eq_some.mpr
    exact ⟨_,by simp [TaskQueue.step,hp],hrun⟩
  | run x =>
    obtain ⟨as,s',hrun,hs'⟩ := drain_look (s := { s with reader := .look }) rfl hp
    refine ⟨.ran :: as,s',Machine.run_cons_eq_some.mpr ⟨_,?_,hrun⟩,hs'⟩
    simp [TaskQueue.step,hr,hp]
  | wait =>
    by_cases hne : s.tasks = []
    · exact ⟨[],s,rfl,hne,rfl,rfl⟩
    -- the signal is pending, or a thread is about to send it
    obtain ⟨as,s',hrun,hs',hsig,hp',hr',heq⟩ : ∃ as s', Machine.run TaskQueue.step s as = some s' ∧
        s'.tasks = s.tasks ∧ s'.signal = true ∧ s'.poster 0 = .idle ∧ s'.reader = .wait ∧
        s'.ins = s.ins ∧ s'.dels = s.dels := by
      rcases h.wake hne with hw | hw | ⟨p,n,hw⟩
      · exact absurd hr hw
      · exact ⟨[],s,rfl,rfl,hw,hp,hr,rfl,rfl⟩
      · have hp0 : 0 ≠ p := fun h0 => by rw [← h0,hp] at hw; cases hw
        refine ⟨[.signal p],s.postSignal p true n,?_,rfl,by simp [TaskQueue.postSignal],?_,hr,rfl,rfl⟩
        · exact Machine.run_cons_eq_some.mpr ⟨_,by simp [TaskQueue.step,hw],rfl⟩
        · simp [TaskQueue.postSignal,hp0,hp]
    obtain ⟨bs,s'',hrun',h1,h2,h3⟩ := drain_look
      (s := { s' with signal := false, reader := .look }) rfl hp'
    refine ⟨as ++ .consume :: bs,s'',?_,h1,h2.trans heq.1,h3.trans heq.2⟩
    refine Machine.run_append_eq_some.mpr ⟨s',hrun,Machine.run_cons_eq_some.mpr ⟨_,?_,hrun'⟩⟩
    simp [TaskQueue.step,hr',hp',hsig]

theorem Inv.drain (h : Inv s) :
    ∃ as s', Machine.run TaskQueue.step s as = some s' ∧ s'.tasks = [] ∧ s'.ins = s.ins ∧
      s'.dels = s.dels := by
  cases hp : s.poster 0 with
  | idle => exact h.drain_idle hp
  | inserted empty n =>
    obtain ⟨as,s',hrun,hs'⟩ := (h.postSignal hp).drain_idle (by simp [TaskQueue.postSignal])
    exact ⟨.signal 0 :: as,s',
      Machine.run_cons_eq_some.mpr ⟨_,by simp [TaskQueue.step,hp],hrun⟩,hs'⟩

theorem run_inv {as : List Act} (hrun : Machine.run step init as = some s) : Inv s :=
  Machine.run_invariant (fun _ _ _ hi hs => hi.step hs) hrun inv_init

/-- In every interleaving the tasks are delivered; from every state the worker and the signals that
are under way are enough for each insertion to be run unless it was deleted. -/
theorem tasks_delivered {as : List Act} (hrun : Machine.run step init as = some s) :
    Delivered s ∧ (s.AtRest → (s.runs ++ s.dels).Perm (List.range s.ins)) ∧
      ∃ bs s', Machine.run step s bs = some s' ∧ s'.ins = s.ins ∧ s'.dels = s.dels ∧
        (s'.runs ++ s'.dels).Perm (List.range s'.ins) := by
  have h := run_inv hrun
  have hall : ∀ t : TaskQueue, Inv t → t.tasks = [] → (t.runs ++ t.dels).Perm (List.range t.ins) := by
    intro t ht hnil
    have honce := ht.once
    rw [hnil,List.map_nil,List.append_nil] at honce
    exact honce
  refine ⟨h.delivered,fun hr => hall s h (h.at_rest hr),?_⟩
  obtain ⟨bs,s',hrun',hnil,hins,hdels⟩ := h.drain
  refine ⟨bs,s',hrun',hins,hdels,hall s' ?_ hnil⟩
  exact Machine.run_invariant (fun _ _ _ hi hs => hi.step hs) hrun' h

/-- Two threads post tasks, the second one while the worker runs the first task, which deletes
another one. -/
def twoPosters : List Act :=
  [.post 1 10,.signal 1,.consume,.look,.take,.post 2 11,.post 0 12,.post 3 12,.signal 0,.del 12,.ran,
    .look,.take]

def afterPosters : TaskQueue := (Machine.run step init twoPosters).getD init

theorem tasks_delivered_two : Machine.run step init twoPosters = some afterPosters ∧
    (afterPosters.ins,afterPosters.runs,afterPosters.dels) = (3,[0,1],[2]) ∧ Delivered afterPosters ∧
    ∃ bs s', Machine.run step afterPosters bs = some s' ∧ (s'.runs ++ s'.dels).Perm (List.range s'.ins) := by
  have hrun : Machine.run step init twoPosters = some afterPosters := Machine.run_eq_getD (by decide +kernel)
  obtain ⟨hd,-,bs,s',hs,-,-,hperm⟩ := tasks_delivered hrun
  exact ⟨hrun,by decide +kernel,hd,bs,s',hs,hperm⟩

end TaskQueue

end Phiola
