import Phiola.Queue.Workers
import Mathlib.Data.List.Count

/-!
# The pool of workers

`wrkx_assign()` looks for an idle worker without the lock, and with it it extends the array by a worker
that it then sets up, or takes back. Its reads and writes of what the threads share are single steps
here, and any thread may be in it. Worker 0 is set up by `wrkx_init()`.
-/

namespace Phiola

/-- The local variables of the scan: the position, `jobs_min` and `w`. No variables of the source: the
numbers of jobs that it read, in order, and `len` at its last test. -/
structure PoolScan where
  i : Nat
  min : UInt32
  w : Option Nat
  seen : List Int
  last : Nat
  deriving DecidableEq

/-- Where a thread is in `wrkx_assign()`: about to test `len` in the scan, or to load `njobs`; after the
scan about to test `len`, to take the lock, to test `len` under it, to extend the array; to set the
worker up or to take it back; to unlock; to count the job. -/
inductive AssignPc
  | idle
  | walk (sc : PoolScan)
  | load (sc : PoolScan)
  | room (sc : PoolScan)
  | lock (sc : PoolScan)
  | check (sc : PoolScan)
  | grow (sc : PoolScan)
  | create (k : Nat)
  | start (k : Nat)
  | destroy (k : Nat)
  | shrink (k : Nat)
  | unlock (w : Option Nat)
  | add (w : Option Nat)
  deriving DecidableEq

namespace AssignPc

/-- The thread has the lock. -/
def holds : AssignPc → Bool
  | .check _ | .grow _ | .create _ | .start _ | .destroy _ | .shrink _ | .unlock _ => true
  | _ => false

/-- The slot that it sets up. -/
def setup : AssignPc → Option Nat
  | .create k | .start k | .destroy k | .shrink k => some k
  | _ => none

/-- The value of `w`. -/
def choice : AssignPc → Option Nat
  | .walk sc | .load sc | .room sc | .lock sc | .check sc | .grow sc => sc.w
  | .unlock w | .add w => w
  | _ => none

/-- What the scan that the thread is in has read. -/
def scanning : AssignPc → Option PoolScan
  | .walk sc | .load sc => some sc
  | _ => none

/-- What a scan that found no idle worker has read. -/
def scanned : AssignPc → Option PoolScan
  | .room sc | .lock sc | .check sc | .grow sc => some sc
  | _ => none

/-- The worker whose jobs it loads. -/
def loads : AssignPc → Option Nat
  | .load sc => some sc.i
  | _ => none

end AssignPc

/-- The pool. `created` and `started` say that `wrk_create()` and `wrk_start()` have succeeded. No fields
of the source: the workers of the assignments that were not released, all that were ever returned, and
the scans after which a worker was added. -/
structure Pool extends WrkCtx where
  created : Nat → Bool
  started : Nat → Bool
  lock : Option Nat
  pc : Nat → AssignPc
  assigned : List Nat
  returned : List Nat
  added : List PoolScan

namespace Pool

/-- The state after `wrkx_init()`. -/
def init (cap : Nat) : Pool :=
  { cap := cap, len := 1, njobs := fun _ => 0, created := fun k => k == 0, started := fun _ => false
    lock := none, pc := fun _ => .idle, assigned := [], returned := [], added := [] }

def goto (s : Pool) (p : Nat) (pc : AssignPc) : Pool := { s with pc := Function.update s.pc p pc }

/-- One turn of the scan after its load. -/
def scanJobs (sc : PoolScan) (njobs : Int) : AssignPc :=
  let nj := UInt32.ofInt njobs
  if nj < sc.min then
    if nj = 0 then .add (some sc.i)
    else .walk { sc with i := sc.i + 1, min := nj, w := some sc.i, seen := sc.seen ++ [njobs] }
  else .walk { sc with i := sc.i + 1, seen := sc.seen ++ [njobs] }

/-- The next step of `wrkx_assign()` by the thread `p`; `ok` is the result of what it calls. -/
def next (s : Pool) (p : Nat) (ok : Bool) : AssignPc → Option Pool
  | .idle => none
  | .walk sc =>
    if sc.i < s.len then some (s.goto p (.load sc))
    else some (s.goto p (if sc.min = 0 then .add sc.w else .room { sc with last := s.len }))
  | .load sc => some (s.goto p (scanJobs sc (s.njobs sc.i)))
  | .room sc => some (s.goto p (if s.len < s.cap then .lock sc else .add sc.w))
  | .lock sc => if s.lock = none then some { s.goto p (.check sc) with lock := some p } else none
  | .check sc => some (s.goto p (if s.len < s.cap then .grow sc else .unlock sc.w))
  | .grow sc => some { s.goto p (.create s.len) with len := s.len + 1, added := s.added ++ [sc] }
  | .create k =>
    some { s.goto p (if ok then .start k else .destroy k) with
      created := Function.update s.created k ok }
  | .start k =>
    some { s.goto p (if ok then .unlock (some k) else .destroy k) with
      started := Function.update s.started k ok }
  | .destroy k =>
    some { s.goto p (.shrink k) with
      created := Function.update s.created k false
      started := Function.update s.started k false }
  -- the main worker is used
  | .shrink _ => some { s.goto p (.unlock (some 0)) with len := s.len - 1 }
  | .unlock w => some { s.goto p (.add w) with lock := none }
  | .add none => none
  | .add (some w) =>
    some { s.goto p .idle with
      njobs := Function.update s.njobs w (s.njobs w + 1)
      assigned := w :: s.assigned
      returned := w :: s.returned }

inductive Act
  | assign (p : Nat) (cross : Bool)
  | next (p : Nat) (ok : Bool)
  | release (w : Nat)
  deriving DecidableEq, Repr

def step (s : Pool) : Act → Option Pool
  | .assign p cross =>
    if s.pc p = .idle then
      some (s.goto p (if cross then .walk ⟨0,0xffffffff,none,[],0⟩ else .add (some 0)))
    else none
  | .next p ok => s.next p ok (s.pc p)
  | .release w =>
    if w ∈ s.assigned then
      some { s with toWrkCtx := s.toWrkCtx.release w, assigned := s.assigned.erase w }
    else none

/-- Worker 0, or one that was created and started. -/
def Ready (s : Pool) (w : Nat) : Prop := w = 0 ∨ s.created w = true ∧ s.started w = true

/-- Each worker that was returned is ready. The jobs of a worker are its assignments that were not
released. There are at most `cap` workers, and one was added only after a scan that found a job at each
worker there was at its end. -/
structure Sound (s : Pool) : Prop where
  ready : ∀ w ∈ s.returned, s.Ready w
  jobs : ∀ w, s.njobs w = s.assigned.count w
  bound : s.len ≤ s.cap
  busy : ∀ sc ∈ s.added, sc.last ≤ sc.seen.length ∧ ∀ n ∈ sc.seen, 0 < n

/-- A scan loads the jobs of workers that are ready only, and not those of one that another thread is
setting up or has taken back. -/
def Careful (s : Pool) : Act → Prop
  | .next p _ => ∀ k ∈ (s.pc p).loads, s.Ready k
  | .assign _ _ => True
  | .release _ => True

instance (s : Pool) (w : Nat) : Decidable (s.Ready w) :=
  inferInstanceAs (Decidable (w = 0 ∨ s.created w = true ∧ s.started w = true))

instance (s : Pool) : (a : Act) → Decidable (s.Careful a)
  | .next p _ => inferInstanceAs (Decidable (∀ k ∈ (s.pc p).loads, s.Ready k))
  | .assign _ _ => inferInstanceAs (Decidable True)
  | .release _ => inferInstanceAs (Decidable True)

/-- What a scan has read are the jobs of the workers before its position, none of which is idle. -/
structure Busy (sc : PoolScan) : Prop where
  length : sc.seen.length = sc.i
  min : sc.min ≠ 0
  jobs : ∀ n ∈ sc.seen, 0 < n

/-- A scan that found no idle worker. -/
def NoneIdle (sc : PoolScan) : Prop := sc.last ≤ sc.seen.length ∧ ∀ n ∈ sc.seen, 0 < n

/-- What holds of a thread at its place. -/
structure Local (s : Pool) (pc : AssignPc) : Prop where
  grow : ∀ sc, pc = .grow sc → s.len < s.cap
  setup : ∀ k, pc.setup = some k → k + 1 = s.len ∧ 0 < k ∧ s.started k = false
  created : ∀ k, pc = .start k → s.created k = true
  scanning : ∀ sc, pc.scanning = some sc → Busy sc
  scanned : ∀ sc, pc.scanned = some sc → NoneIdle sc

/-- What holds of the array and of the counters. -/
structure Shared (s : Pool) : Prop where
  pos : 0 < s.len
  bound : s.len ≤ s.cap
  fresh : ∀ k, s.len ≤ k → s.started k = false
  made : ∀ k, s.started k = true → s.created k = true
  jobs : ∀ w, s.njobs w = s.assigned.count w
  added : ∀ sc ∈ s.added, NoneIdle sc

structure Inv (s : Pool) : Prop extends Shared s where
  locked : ∀ p, (s.pc p).holds = true → s.lock = some p
  threads : ∀ p, s.Local (s.pc p)

variable {s s' : Pool} {a : Act} {p : Nat} {pc : AssignPc}

theorem AssignPc.holds_of_setup {k : Nat} (h : pc.setup = some k) : pc.holds = true := by
  cases pc <;> first | rfl | cases h

theorem AssignPc.scan_of_setup {k : Nat} (h : pc.setup = some k) :
    pc.scanning = none ∧ pc.scanned = none := by
  cases pc <;> first | exact ⟨rfl,rfl⟩ | cases h

theorem Local.congr (h : s.Local pc) (hl : s'.len = s.len) (hc : s'.cap = s.cap)
    (hs : s'.started = s.started) (hm : s'.created = s.created) : s'.Local pc :=
  ⟨by rw [hl,hc]; exact h.grow,by rw [hl,hs]; exact h.setup,by rw [hm]; exact h.created,h.scanning,
    h.scanned⟩

/-- The part of a thread that has not the lock does not depend on the state. -/
theorem Local.frame (h : s.Local pc) (hpc : pc.holds = false) : s'.Local pc := by
  refine ⟨fun sc hg => ?_,fun k hk => ?_,fun k hk => ?_,h.scanning,h.scanned⟩
  · rw [hg] at hpc
    cases hpc
  · rw [AssignPc.holds_of_setup hk] at hpc
    cases hpc
  · rw [hk] at hpc
    cases hpc

theorem Inv.goto (h : Inv s) (hl : s.Local pc) (hh : pc.holds = true → s.lock = some p) :
    Inv (s.goto p pc) := by
  refine ⟨⟨h.pos,h.bound,h.fresh,h.made,h.jobs,h.added⟩,fun q => ?_,fun q => ?_⟩
  · by_cases hq : q = p
    · simpa [Pool.goto,hq] using hh
    · simpa [Pool.goto,hq] using h.locked q
  · have hlq : s.Local ((s.goto p pc).pc q) := by
      by_cases hq : q = p
      · simpa [Pool.goto,hq] using hl
      · simpa [Pool.goto,hq] using h.threads q
    exact hlq.congr rfl rfl rfl rfl

/-- The thread `p` alone may have the lock. -/
def Alone (s : Pool) (p : Nat) : Prop := ∀ q, q ≠ p → (s.pc q).holds = false

theorem Inv.alone (h : Inv s) (hp : (s.pc p).holds = true) : s.Alone p := by
  intro q hq
  by_contra hh
  have hlock := (h.locked q (by simpa using hh)).symm.trans (h.locked p hp)
  exact hq (Option.some.inj hlock)

theorem Inv.alone_free (h : Inv s) (hlock : s.lock = none) : s.Alone p := by
  intro q _
  by_contra hh
  have := h.locked q (by simpa using hh)
  rw [hlock] at this
  cases this

theorem Inv.change (h : Inv s) (ha : s.Alone p) (hpc : s'.pc = Function.update s.pc p pc)
    (hs : s'.Shared) (hl : s'.Local pc) (hh : pc.holds = true → s'.lock = some p) : Inv s' := by
  refine ⟨hs,fun q => ?_,fun q => ?_⟩
  · by_cases hq : q = p
    · simpa [hpc,hq] using hh
    · simp [hpc,hq,ha q hq]
  · by_cases hq : q = p
    · simpa [hpc,hq] using hl
    · simpa [hpc,hq] using (h.threads q).frame (ha q hq)

theorem Local.plain (hg : ∀ sc, pc ≠ .grow sc) (hs : pc.setup = none) (hi : pc.scanning = none)
    (hd : pc.scanned = none) : s.Local pc := by
  refine ⟨fun sc h => absurd h (hg sc),fun k h => ?_,fun k h => ?_,fun sc h => ?_,fun sc h => ?_⟩
  · rw [hs] at h
    cases h
  · rw [h] at hs
    cases hs
  · rw [hi] at h
    cases h
  · rw [hd] at h
    cases h

theorem Local.walk {sc : PoolScan} (h : Busy sc) : s.Local (.walk sc) :=
  ⟨fun _ h => by (cases h),fun _ h => by (cases h),fun _ h => by (cases h),fun _ hs => by cases hs; exact h,
    fun _ h => by cases h⟩

theorem Busy.next {sc : PoolScan} {njobs : Int} (h : Busy sc) (hn : 0 ≤ njobs)
    (hne : UInt32.ofInt njobs ≠ 0) : sc.seen.length + 1 = sc.i + 1 ∧ ∀ n ∈ sc.seen ++ [njobs], 0 < n := by
  refine ⟨by rw [h.length],fun n hm => ?_⟩
  rcases List.mem_append.mp hm with hm | hm
  · exact h.jobs n hm
  · rw [List.mem_singleton.mp hm]
    refine Int.lt_iff_le_and_ne.mpr ⟨hn,fun h0 => hne ?_⟩
    rw [← h0]
    rfl

theorem scanJobs_local {sc : PoolScan} {njobs : Int} (h : Busy sc) (hn : 0 ≤ njobs) :
    s.Local (scanJobs sc njobs) ∧ (scanJobs sc njobs).holds = false := by
  unfold scanJobs
  dsimp only
  split
  · split
    · exact ⟨.plain (fun _ h => by cases h) rfl rfl rfl,rfl⟩
    · next hne =>
      obtain ⟨hlen,hjobs⟩ := h.next hn hne
      exact ⟨.walk ⟨by simpa using hlen,hne,hjobs⟩,rfl⟩
  · next hge =>
    have hne : UInt32.ofInt njobs ≠ 0 := by
      intro h0
      rw [h0] at hge
      exact hge (UInt32.pos_iff_ne_zero.mpr h.min)
    obtain ⟨hlen,hjobs⟩ := h.next hn hne
    exact ⟨.walk ⟨by simpa using hlen,h.min,hjobs⟩,rfl⟩

/-- The scan, whose position and variables do not change, goes on or has ended. -/
theorem Local.room {sc : PoolScan} (h : NoneIdle sc) (hpc : pc = .room sc ∨ pc = .lock sc ∨ pc = .check sc) :
    s.Local pc := by
  rcases hpc with rfl | rfl | rfl <;>
    exact ⟨fun _ hg => by (cases hg),fun _ hk => by (cases hk),fun _ hk => by (cases hk),
      fun _ hs => by (cases hs),fun _ hs => by cases hs; exact h⟩

theorem Inv.njobs_nonneg (h : Inv s) (w : Nat) : 0 ≤ s.njobs w := by
  rw [h.jobs w]
  exact Int.natCast_nonneg _

theorem Inv.walk (h : Inv s) {sc : PoolScan} (hpc : s.pc p = .walk sc) {ok : Bool}
    (hs : s.next p ok (.walk sc) = some s') : Inv s' := by
  have hb := (h.threads p).scanning sc (by rw [hpc]; rfl)
  simp only [Pool.next] at hs
  split at hs <;> cases hs
  · refine h.goto ⟨fun _ hg => by (cases hg),fun _ hk => by (cases hk),fun _ hk => by (cases hk),
      fun _ hs => by (cases hs; exact hb),fun _ hs => by cases hs⟩ fun hh => by cases hh
  · next hend =>
    split
    · exact h.goto (.plain (fun _ hg => by cases hg) rfl rfl rfl) fun hh => by cases hh
    · have hn : NoneIdle { sc with last := s.len } := by
        refine ⟨?_,hb.jobs⟩
        rw [show sc.seen.length = sc.i from hb.length]
        exact Nat.le_of_not_lt hend
      exact h.goto (.room hn (.inl rfl)) fun hh => by cases hh

theorem Inv.load (h : Inv s) {sc : PoolScan} (hpc : s.pc p = .load sc) :
    Inv (s.goto p (scanJobs sc (s.njobs sc.i))) := by
  have hb := (h.threads p).scanning sc (by rw [hpc]; rfl)
  obtain ⟨hl,hh⟩ := scanJobs_local (s := s) hb (h.njobs_nonneg sc.i)
  exact h.goto hl fun hh' => by rw [hh] at hh'; cases hh'

theorem Inv.grow (h : Inv s) {sc : PoolScan} (hpc : s.pc p = .grow sc) :
    Inv { s.goto p (.create s.len) with len := s.len + 1, added := s.added ++ [sc] } := by
  have ha := h.alone (p := p) (by rw [hpc]; rfl)
  refine h.change ha rfl ⟨Nat.succ_pos _,(h.threads p).grow sc hpc,fun k hk => ?_,h.made,h.jobs,?_⟩ ?_ ?_
  · exact h.fresh k (Nat.le_of_succ_le hk)
  · intro c hc
    rcases List.mem_append.mp hc with hc | hc
    · exact h.added c hc
    · rw [List.mem_singleton.mp hc]
      exact (h.threads p).scanned sc (by rw [hpc]; rfl)
  · refine ⟨fun _ hg => by (cases hg),fun k hk => ?_,fun _ hk => by (cases hk),fun _ hs => by (cases hs),
      fun _ hs => by cases hs⟩
    cases hk
    exact ⟨rfl,h.pos,h.fresh s.len (Nat.le_refl _)⟩
  · exact fun _ => h.locked p (by rw [hpc]; rfl)

theorem Local.setting (hpc : pc.setup = some k) (hk : k + 1 = s.len ∧ 0 < k ∧ s.started k = false)
    (hm : ∀ j, pc = .start j → s.created j = true) : s.Local pc := by
  refine ⟨fun sc h => ?_,fun j hj => ?_,hm,fun sc h => ?_,fun sc h => ?_⟩
  · rw [h] at hpc
    cases hpc
  · rw [hpc] at hj
    cases hj
    exact hk
  · rw [(AssignPc.scan_of_setup hpc).1] at h
    cases h
  · rw [(AssignPc.scan_of_setup hpc).2] at h
    cases h

/-- What `wrk_create()`, `wrk_start()` and `wrk_destroy()` do to the slot that is being set up. -/
theorem Inv.setup (h : Inv s) (pc : AssignPc) {k : Nat} (hk : (s.pc p).setup = some k) {m t : Bool}
    (hmade : t = true → m = true) (hl : Local { s with
      created := Function.update s.created k m, started := Function.update s.started k t } pc) :
    Inv { s.goto p pc with
      created := Function.update s.created k m, started := Function.update s.started k t } := by
  have hh := AssignPc.holds_of_setup hk
  have hsl := (h.threads p).setup k hk
  refine h.change (h.alone hh) rfl ⟨h.pos,h.bound,fun j hj => ?_,fun j hj => ?_,h.jobs,h.added⟩ ?_
    fun _ => h.locked p hh
  · have hjk : j ≠ k := by
      rintro rfl
      have := hsl.1 ▸ hj
      omega
    simpa [hjk] using h.fresh j hj
  · by_cases hjk : j = k
    · subst hjk
      simp only [Function.update_self] at hj ⊢
      exact hmade hj
    · simp only [Function.update_of_ne hjk] at hj ⊢
      exact h.made j hj
  · exact hl.congr rfl rfl rfl rfl

theorem Inv.create (h : Inv s) {k : Nat} (hpc : s.pc p = .create k) (ok : Bool) :
    Inv { s.goto p (if ok then .start k else .destroy k) with
      created := Function.update s.created k ok } := by
  have hk : (s.pc p).setup = some k := by rw [hpc]; rfl
  have hsl := (h.threads p).setup k hk
  have hst : Function.update s.started k false = s.started := by
    rw [← hsl.2.2,Function.update_eq_self]
  have hset := h.setup (if ok then .start k else .destroy k) hk (m := ok) (t := false)
    (fun ht => by cases ht) ?_
  · rwa [hst] at hset
  · refine .setting (k := k) (by cases ok <;> rfl) ⟨hsl.1,hsl.2.1,by simp⟩ fun j hj => ?_
    cases ok with
    | true =>
      cases hj
      simp
    | false => cases hj

theorem Inv.start (h : Inv s) {k : Nat} (hpc : s.pc p = .start k) (ok : Bool) :
    Inv { s.goto p (if ok then .unlock (some k) else .destroy k) with
      started := Function.update s.started k ok } := by
  have hk : (s.pc p).setup = some k := by rw [hpc]; rfl
  have hsl := (h.threads p).setup k hk
  have hcr : Function.update s.created k true = s.created := by
    rw [← (h.threads p).created k hpc,Function.update_eq_self]
  have hset := h.setup (if ok then .unlock (some k) else .destroy k) hk (m := true) (t := ok)
    (fun _ => rfl) ?_
  · rwa [hcr] at hset
  · cases ok with
    | true => exact .plain (fun _ hg => by cases hg) rfl rfl rfl
    | false => exact .setting (k := k) rfl ⟨hsl.1,hsl.2.1,by simp⟩ fun j hj => by cases hj

theorem Inv.destroy (h : Inv s) {k : Nat} (hpc : s.pc p = .destroy k) :
    Inv { s.goto p (.shrink k) with
      created := Function.update s.created k false
      started := Function.update s.started k false } := by
  have hk : (s.pc p).setup = some k := by rw [hpc]; rfl
  have hsl := (h.threads p).setup k hk
  exact h.setup (.shrink k) hk (fun ht => ht)
    (.setting (k := k) rfl ⟨hsl.1,hsl.2.1,by simp⟩ fun j hj => by cases hj)

theorem Inv.shrink (h : Inv s) {k : Nat} (hpc : s.pc p = .shrink k) :
    Inv { s.goto p (.unlock (some 0)) with len := s.len - 1 } := by
  have hk : (s.pc p).setup = some k := by rw [hpc]; rfl
  obtain ⟨hlen,hpos,hst⟩ := (h.threads p).setup k hk
  have hk' : s.len - 1 = k := by rw [← hlen]; rfl
  refine h.change (h.alone (by rw [hpc]; rfl)) rfl ⟨?_,?_,fun j hj => ?_,h.made,h.jobs,h.added⟩
    (.plain (fun _ hg => by cases hg) rfl rfl rfl) fun _ => h.locked p (by rw [hpc]; rfl)
  · exact hk' ▸ hpos
  · exact Nat.le_trans (Nat.sub_le _ _) h.bound
  · rcases Nat.lt_or_ge j s.len with hj' | hj'
    · have : j = k := by
        have := show s.len - 1 ≤ j from hj
        omega
      exact this ▸ hst
    · exact h.fresh j hj'

theorem Inv.add (h : Inv s) {w : Nat} :
    Inv { s.goto p .idle with
      njobs := Function.update s.njobs w (s.njobs w + 1)
      assigned := w :: s.assigned
      returned := w :: s.returned } := by
  have hg : Inv (s.goto p .idle) :=
    h.goto (.plain (fun _ hg => by cases hg) rfl rfl rfl) fun hh => by cases hh
  refine ⟨⟨hg.pos,hg.bound,hg.fresh,hg.made,fun v => ?_,hg.added⟩,hg.locked,
    fun q => (hg.threads q).congr rfl rfl rfl rfl⟩
  by_cases hv : v = w
  · subst hv
    simp [h.jobs v]
  · simp [hv,h.jobs v,List.count_cons_of_ne (Ne.symm hv)]

theorem Inv.release (h : Inv s) {w : Nat} (hw : w ∈ s.assigned) :
    Inv { s with toWrkCtx := s.toWrkCtx.release w, assigned := s.assigned.erase w } := by
  refine ⟨⟨h.pos,h.bound,h.fresh,h.made,fun v => ?_,h.added⟩,h.locked,
    fun q => (h.threads q).congr rfl rfl rfl rfl⟩
  by_cases hv : v = w
  · subst hv
    have hpos := List.count_pos_iff.mpr hw
    have hc : s.njobs v - 1 = ((s.assigned.count v - 1 : Nat) : Int) := by
      rw [h.jobs v]
      omega
    simpa [WrkCtx.release,List.count_erase_self] using hc
  · simp [WrkCtx.release,hv,h.jobs v,List.count_erase_of_ne hv]

theorem Inv.next (h : Inv s) {ok : Bool} (hs : s.next p ok (s.pc p) = some s') : Inv s' := by
  cases hpc : s.pc p with
  | idle => rw [hpc] at hs; cases hs
  | walk sc => rw [hpc] at hs; exact h.walk hpc hs
  | load sc =>
    rw [hpc] at hs
    cases hs
    exact h.load hpc
  | room sc =>
    rw [hpc] at hs
    cases hs
    have hn := (h.threads p).scanned sc (by rw [hpc]; rfl)
    split
    · exact h.goto (.room hn (.inr (.inl rfl))) fun hh => by cases hh
    · exact h.goto (.plain (fun _ hg => by cases hg) rfl rfl rfl) fun hh => by cases hh
  | lock sc =>
    rw [hpc] at hs
    obtain ⟨hfree,⟨⟩⟩ := Option.ite_none_right_eq_some.mp hs
    have hn := (h.threads p).scanned sc (by rw [hpc]; rfl)
    exact h.change (h.alone_free hfree) rfl ⟨h.pos,h.bound,h.fresh,h.made,h.jobs,h.added⟩
      (.room hn (.inr (.inr rfl))) fun _ => rfl
  | check sc =>
    rw [hpc] at hs
    cases hs
    have hlock := h.locked p (by rw [hpc]; rfl)
    have hn := (h.threads p).scanned sc (by rw [hpc]; rfl)
    split
    · next hroom =>
      refine h.goto ⟨fun _ _ => hroom,fun _ hk => by (cases hk),fun _ hk => by (cases hk),
        fun _ hs => by (cases hs),fun _ hs => by cases hs; exact hn⟩ fun _ => hlock
    · exact h.goto (.plain (fun _ hg => by cases hg) rfl rfl rfl) fun _ => hlock
  | grow sc =>
    rw [hpc] at hs
    cases hs
    exact h.grow hpc
  | create k =>
    rw [hpc] at hs
    cases hs
    exact h.create hpc ok
  | start k =>
    rw [hpc] at hs
    cases hs
    exact h.start hpc ok
  | destroy k =>
    rw [hpc] at hs
    cases hs
    exact h.destroy hpc
  | shrink k =>
    rw [hpc] at hs
    cases hs
    exact h.shrink hpc
  | unlock w =>
    rw [hpc] at hs
    cases hs
    exact h.change (h.alone (by rw [hpc]; rfl)) rfl ⟨h.pos,h.bound,h.fresh,h.made,h.jobs,h.added⟩
      (.plain (fun _ hg => by cases hg) rfl rfl rfl) fun hh => by cases hh
  | add w =>
    rw [hpc] at hs
    cases w with
    | none => cases hs
    | some w =>
      cases hs
      exact h.add

theorem Inv.step (h : Inv s) (hs : s.step a = some s') : Inv s' := by
  cases a with
  | assign p cross =>
    obtain ⟨_,⟨⟩⟩ := Option.ite_none_right_eq_some.mp hs
    cases cross with
    | true => exact h.goto (.walk ⟨rfl,by decide,fun n hn => by cases hn⟩) fun hh => by cases hh
    | false => exact h.goto (.plain (fun _ hg => by cases hg) rfl rfl rfl) fun hh => by cases hh
  | next p ok => exact h.next hs
  | release w =>
    obtain ⟨hw,⟨⟩⟩ := Option.ite_none_right_eq_some.mp hs
    exact h.release hw

theorem Inv.ne_setup (h : Inv s) {k w : Nat} (hk : (s.pc p).setup = some k) (hw : s.Ready w) : w ≠ k := by
  rintro rfl
  obtain ⟨_,hpos,hst⟩ := (h.threads p).setup w hk
  rcases hw with hw | hw
  · omega
  · rw [hst] at hw
    cases hw.2

theorem Inv.ready_next (h : Inv s) {ok : Bool} (hs : s.next p ok (s.pc p) = some s') {w : Nat}
    (hw : s.Ready w) : s'.Ready w := by
  cases hpc : s.pc p with
  | create k =>
    have hne := h.ne_setup (p := p) (k := k) (by rw [hpc]; rfl) hw
    rw [hpc] at hs
    cases hs
    exact hw.imp_right fun hw => ⟨(Function.update_of_ne hne _ _).trans hw.1,hw.2⟩
  | start k =>
    have hne := h.ne_setup (p := p) (k := k) (by rw [hpc]; rfl) hw
    rw [hpc] at hs
    cases hs
    exact hw.imp_right fun hw => ⟨hw.1,(Function.update_of_ne hne _ _).trans hw.2⟩
  | destroy k =>
    have hne := h.ne_setup (p := p) (k := k) (by rw [hpc]; rfl) hw
    rw [hpc] at hs
    cases hs
    exact hw.imp_right fun hw =>
      ⟨(Function.update_of_ne hne _ _).trans hw.1,(Function.update_of_ne hne _ _).trans hw.2⟩
  | idle => rw [hpc] at hs; cases hs
  | walk sc =>
    rw [hpc] at hs
    simp only [Pool.next] at hs
    split at hs <;> cases hs <;> exact hw
  | load sc => rw [hpc] at hs; cases hs; exact hw
  | room sc => rw [hpc] at hs; cases hs; exact hw
  | lock sc =>
    rw [hpc] at hs
    obtain ⟨_,⟨⟩⟩ := Option.ite_none_right_eq_some.mp hs
    exact hw
  | check sc => rw [hpc] at hs; cases hs; exact hw
  | grow sc => rw [hpc] at hs; cases hs; exact hw
  | shrink k => rw [hpc] at hs; cases hs; exact hw
  | unlock v => rw [hpc] at hs; cases hs; exact hw
  | add v =>
    rw [hpc] at hs
    cases v with
    | none => cases hs
    | some v => cases hs; exact hw

/-- The workers that threads are about to return, and those that were returned, are ready. -/
structure Named (s : Pool) : Prop where
  choice : ∀ p w, (s.pc p).choice = some w → s.Ready w
  returned : ∀ w ∈ s.returned, s.Ready w

theorem Named.set (hn : Named s) (hmono : ∀ w, s.Ready w → s'.Ready w)
    (hpc : s'.pc = Function.update s.pc p pc) (hr : ∀ w ∈ s'.returned, w ∈ s.returned ∨ s.Ready w)
    (hc : ∀ w, pc.choice = some w → s'.Ready w) : Named s' := by
  refine ⟨fun q w hw => ?_,fun w hw => hmono w ((hr w hw).elim (hn.returned w) id)⟩
  by_cases hq : q = p
  · rw [hpc,hq,Function.update_self] at hw
    exact hc w hw
  · rw [hpc,Function.update_of_ne hq] at hw
    exact hmono w (hn.choice q w hw)

theorem scanJobs_choice {sc : PoolScan} {n : Int} {w : Nat} (h : (scanJobs sc n).choice = some w) :
    w = sc.i ∨ sc.w = some w := by
  unfold scanJobs at h
  dsimp only at h
  split at h
  · split at h <;> exact .inl (Option.some.inj h).symm
  · exact .inr h

theorem Named.next (hn : Named s) (h : Inv s) {ok : Bool} (hc : s.Careful (.next p ok))
    (hs : s.next p ok (s.pc p) = some s') : Named s' := by
  have hmono : ∀ w, s.Ready w → s'.Ready w := fun w hw => h.ready_next hs hw
  have hch := hn.choice p
  cases hpc : s.pc p with
  | idle => rw [hpc] at hs; cases hs
  | walk sc =>
    rw [hpc] at hs hch
    simp only [Pool.next] at hs
    split at hs <;> cases hs
    · exact hn.set hmono rfl (fun w hw => .inl hw) hch
    · refine hn.set hmono rfl (fun w hw => .inl hw) fun w hw => hch w ?_
      split at hw <;> exact hw
  | load sc =>
    rw [hpc] at hs hch
    cases hs
    refine hn.set hmono rfl (fun w hw => .inl hw) fun w hw => ?_
    rcases scanJobs_choice hw with rfl | hw
    · exact hc sc.i (by rw [hpc]; rfl)
    · exact hch w hw
  | room sc =>
    rw [hpc] at hs hch
    cases hs
    refine hn.set hmono rfl (fun w hw => .inl hw) fun w hw => hch w ?_
    split at hw <;> exact hw
  | lock sc =>
    rw [hpc] at hs hch
    obtain ⟨_,⟨⟩⟩ := Option.ite_none_right_eq_some.mp hs
    exact hn.set hmono rfl (fun w hw => .inl hw) hch
  | check sc =>
    rw [hpc] at hs hch
    cases hs
    refine hn.set hmono rfl (fun w hw => .inl hw) fun w hw => hch w ?_
    split at hw <;> exact hw
  | grow sc =>
    rw [hpc] at hs
    cases hs
    exact hn.set hmono rfl (fun w hw => .inl hw) fun w hw => by cases hw
  | create k =>
    rw [hpc] at hs
    cases hs
    refine hn.set hmono rfl (fun w hw => .inl hw) fun w hw => ?_
    split at hw <;> cases hw
  | start k =>
    have hcr := (h.threads p).created k hpc
    rw [hpc] at hs
    cases hs
    refine hn.set hmono rfl (fun w hw => .inl hw) fun w hw => ?_
    cases ok with
    | true =>
      cases hw
      exact .inr ⟨hcr,by simp⟩
    | false => cases hw
  | destroy k =>
    rw [hpc] at hs
    cases hs
    exact hn.set hmono rfl (fun w hw => .inl hw) fun w hw => by cases hw
  | shrink k =>
    rw [hpc] at hs
    cases hs
    exact hn.set hmono rfl (fun w hw => .inl hw) fun w hw => .inl (Option.some.inj hw).symm
  | unlock v =>
    rw [hpc] at hs hch
    cases hs
    exact hn.set hmono rfl (fun w hw => .inl hw) hch
  | add v =>
    rw [hpc] at hs hch
    cases v with
    | none => cases hs
    | some v =>
      cases hs
      refine hn.set hmono rfl (fun w hw => ?_) fun w hw => by cases hw
      rcases List.mem_cons.mp hw with rfl | hw
      · exact .inr (hch w rfl)
      · exact .inl hw

theorem Named.step (hn : Named s) (h : Inv s) (hc : s.Careful a) (hs : s.step a = some s') :
    Named s' := by
  cases a with
  | assign p cross =>
    obtain ⟨_,⟨⟩⟩ := Option.ite_none_right_eq_some.mp hs
    refine hn.set (fun w hw => hw) rfl (fun w hw => .inl hw) fun w hw => ?_
    cases cross with
    | true => cases hw
    | false => exact .inl (Option.some.inj hw).symm
  | next p ok => exact hn.next h hc hs
  | release w =>
    obtain ⟨_,⟨⟩⟩ := Option.ite_none_right_eq_some.mp hs
    exact ⟨hn.choice,hn.returned⟩

theorem inv_init {cap : Nat} (hcap : 0 < cap) : Inv (init cap) := by
  refine ⟨⟨Nat.one_pos,hcap,fun k _ => rfl,fun k hk => by (cases hk),fun w => rfl,
    fun sc hsc => by cases hsc⟩,fun p hp => by (cases hp),fun p => ?_⟩
  exact .plain (fun _ hg => by cases hg) rfl rfl rfl

theorem named_init (cap : Nat) : Named (init cap) :=
  ⟨fun p w hw => by (cases hw),fun w hw => by cases hw⟩

/-- In every run in which no scan meets a worker that is being set up. The counters, the bound and the
reason for a new worker hold in every run. -/
theorem assign_ready {cap : Nat} (hcap : 0 < cap) {as : List Act}
    (hcareful : Machine.AllSteps step Careful (init cap) as)
    (hrun : Machine.run step (init cap) as = some s) : Sound s := by
  have h := Machine.run_invariant (fun _ _ _ hi hs => Inv.step hi hs) hrun (inv_init hcap)
  have hn := Machine.guarded_invariant (I := fun s => Inv s ∧ Named s)
    (fun _ _ _ hi hc hs => ⟨hi.1.step hs,hi.2.step hi.1 hc hs⟩) hcareful hrun
    ⟨inv_init hcap,named_init cap⟩
  exact ⟨hn.2.returned,h.jobs,h.bound,h.added⟩

/-- Worker 0 has a job, and a thread has extended the array by worker 1. -/
def extending : List Act :=
  ([.assign 0 false,.next 0 true,.assign 1 true] : List Act) ++ List.replicate 7 (.next 1 true)

/-- Worker 1 is set up, then another thread looks for a worker and finds it idle. -/
def extended : List Act :=
  extending ++ List.replicate 4 (.next 1 true) ++ [Act.release 1,Act.assign 2 true] ++
    List.replicate 5 (.next 2 true)

def afterExtended : Pool := (Machine.run step (init 2) extended).getD (init 2)

theorem assign_ready_extended : afterExtended.returned = [1,1,0] ∧ Sound afterExtended :=
  ⟨by decide +kernel,assign_ready (by decide)
    (show Machine.AllSteps step Careful (init 2) extended by decide +kernel)
    (Machine.run_eq_getD (by decide +kernel))⟩

/-- Another thread finds worker 1 before it is set up, which then fails. -/
def takenBack : List Act :=
  extending ++ .assign 2 true :: List.replicate 5 (.next 2 true) ++ List.replicate 3 (.next 1 false)

def afterTakenBack : Pool := (Machine.run step (init 2) takenBack).getD (init 2)

theorem assign_not_ready : Machine.run step (init 2) takenBack = some afterTakenBack ∧
    afterTakenBack.returned = [1,0] ∧ afterTakenBack.len = 1 ∧ ¬ Sound afterTakenBack := by
  have hret : afterTakenBack.returned = [1,0] := by decide +kernel
  refine ⟨Machine.run_eq_getD (by decide +kernel),hret,by decide +kernel,fun h => ?_⟩
  have := h.ready 1 (by rw [hret]; simp)
  revert this
  decide +kernel

end Pool

end Phiola
