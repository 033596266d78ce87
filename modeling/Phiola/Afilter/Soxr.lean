import Mathlib.Algebra.Ring.Nat
import Mathlib.Data.List.Basic
import Phiola.Framework.Fuel

/-!
# The sample rate convertor

`soxr_conv()` between the filters that give chunks and those that take the output. `soxr_process()` is a
parameter: what its calls answer. A chunk is given by its number of samples, and a sample by its chunk and its
index; at an index the channels have one sample each.
-/

open Fuel

namespace Phiola.Soxr

/-- What the call of a number answers: how many samples of those offered it consumed, and how many it wrote.
Without samples it is flushed. -/
abbrev Process := Nat → Option Nat → Nat × Nat

/-- The format, and the samples that the output buffer holds. -/
structure Format where
  in_ileaved : Bool
  nchannels : Nat
  sample : Nat
  osampsize : Nat
  outcap : Nat

def Format.isampsize (c : Format) : Nat := c.sample * c.nchannels

/-- `ffsoxr` -/
structure Ffsoxr where
  inlen : Nat
  inoff : Nat
  outlen : Nat
  fin : Bool

/-- A call of `soxr_process()`: the chunk, the index of the first sample, how many are offered, how many are
consumed and how many are written. -/
structure Call where
  chunk : Nat
  first : Nat
  offered : Option Nat
  idone : Nat
  odone : Nat

variable (c : Format) (process : Process)

/-- The sample that the pointers into the chunk point at. -/
def first_sample (inoff : Nat) : Nat :=
  if c.in_ileaved then inoff * c.isampsize % 2 ^ 32 / c.isampsize
  else inoff * c.isampsize % 2 ^ 32 / c.nchannels / c.sample

/-- The loop of `ffsoxr_convert()`; `none` where `inarr` is written past its end. -/
def convert_step (chunk : Nat) (x : Ffsoxr × List Call) :
    (Ffsoxr × List Call) ⊕ Option (Ffsoxr × List Call) :=
  let s := x.1
  if s.inlen = 0 ∧ s.fin = false then .inr (some ({s with outlen := 0},x.2))
  else if s.inlen ≠ 0 ∧ c.in_ileaved = false ∧ 8 < c.nchannels then .inr none
  else
    let offered := if s.inlen = 0 then none else some (s.inlen / c.isampsize)
    let done := process x.2.length offered
    let inlen := s.inlen - done.1 * c.isampsize
    let y := ({s with
      inlen := inlen
      inoff := if inlen = 0 then 0 else (s.inoff + done.1) % 2 ^ 32
      outlen := done.2 * c.osampsize % 2 ^ 32},
      x.2 ++ [⟨chunk,first_sample c s.inoff,offered,done.1,done.2⟩])
    if done.2 ≠ 0 ∨ s.inlen = 0 then .inr (some y) else .inl y

def ffsoxr_convert (fuel chunk : Nat) (s : Ffsoxr) (calls : List Call) : Option (Ffsoxr × List Call) :=
  (loop (convert_step c process chunk) fuel (s,calls)).join

/-! ## The track -/

inductive Cur
  | source
  | soxr
  | sink

/-- The filter that runs, the chunks that are to come, the chunk in `data_in` and how many bytes it has,
`backward_skip` of the convertor, and the calls so far. -/
structure Track where
  cur : Cur
  chunks : List Nat
  next : Nat
  chunk : Nat
  data_in : Nat
  backward_skip : Bool
  soxr : Ffsoxr
  calls : List Call

/-- `PHI_FFIRST`: the filters before end with the last chunk. -/
def Track.first (t : Track) : Bool := t.chunks.isEmpty

/-- `soxr_conv()`; the flag is whether it returns `PHI_DONE`. -/
def soxr_conv (fuel : Nat) (t : Track) : Option (Bool × Ffsoxr × List Call) :=
  (ffsoxr_convert c process fuel t.chunk {t.soxr with inlen := t.data_in % 2 ^ 32, fin := t.soxr.fin || t.first}
    t.calls).map fun x => (decide (x.1.outlen = 0) && t.first,x)

/-- `track_run()`: after `PHI_OK` the filters after the convertor get its output, and what it left in `data_in`
is gone; they want more, and then so does the convertor. -/
def track_step (fuel : Nat) (t : Track) : Track ⊕ Option (List Call) :=
  match t.cur with
  | .source =>
    match t.chunks with
    | [] => .inr none
    | n :: ns =>
      .inl {t with cur := .soxr, chunks := ns, next := t.next + 1, chunk := t.next, data_in := n * c.isampsize}
  | .soxr =>
    if t.backward_skip = true ∧ t.first = false then
      .inl {t with cur := .source, data_in := 0, backward_skip := false}
    else
      match soxr_conv c process fuel t with
      | none => .inr none
      | some (true,x) => .inr (some x.2)
      | some (false,x) =>
        .inl {t with cur := .sink, data_in := x.1.outlen, backward_skip := true, soxr := x.1, calls := x.2}
  | .sink => .inl {t with cur := .soxr, data_in := 0}

def init (chunks : List Nat) : Track := ⟨.source,chunks,0,0,0,false,⟨0,0,0,false⟩,[]⟩

/-! ## What is fed -/

/-- The samples that are reported as consumed. -/
def consumed (calls : List Call) : List (Nat × Nat) :=
  calls.flatMap fun x => (List.range x.idone).map fun i => (x.chunk,x.first + i)

/-- The samples of the chunks from number `k` on. -/
def input (k : Nat) : List Nat → List (Nat × Nat)
  | [] => []
  | n :: ns => (List.range n).map (k,·) ++ input (k + 1) ns

/-- The last call is a flush that wrote nothing. -/
def Flushed (calls : List Call) : Prop := ∃ xs x, calls = xs ++ [x] ∧ x.offered = none ∧ x.odone = 0

/-- The whole input is consumed in order, no call is offered more than its chunk has, and the convertor is
flushed. -/
structure Fed (chunks : List Nat) (calls : List Call) : Prop where
  consumed : consumed calls = input 0 chunks
  within : ∀ x ∈ calls, ∀ n, x.offered = some n → ∃ m, chunks[x.chunk]? = some m ∧ x.first + n ≤ m
  flushed : Flushed calls

/-- What is known of `soxr_process()`: it consumes all that it is offered unless the output buffer is full, and
a flush comes to its end. -/
structure Documented : Prop where
  le : ∀ i n, (process i (some n)).1 ≤ n
  full : ∀ i n, (process i (some n)).1 < n → (process i (some n)).2 = c.outcap
  flush : ∀ i, (process i none).1 = 0
  ends : ∃ m, ∀ i ≥ m, (process i none).2 = 0

/-- The output of a flush in bytes, as the code counts them. -/
def outlen (i : Nat) : Nat := (process i none).2 * c.osampsize % 2 ^ 32

/-- The first flush without bytes is one without samples. -/
def FlushEnds (i : Nat) : Prop :=
  ∀ j ≥ i, (∀ m, i ≤ m → m < j → outlen c process m ≠ 0) → outlen c process j = 0 → (process j none).2 = 0

/-- A chunk is consumed by one call. -/
def Taken (i n : Nat) : Prop :=
  n * c.isampsize < 2 ^ 32 ∧
    (n ≠ 0 → (c.in_ileaved = true ∨ c.nchannels ≤ 8) ∧ (process i (some n)).1 = n)

/-- Every chunk that has samples is consumed by one call, and the output of the last one and of the flushes is
not counted as none. -/
def Whole : Nat → List Nat → Prop
  | i,[] => FlushEnds c process i
  | i,n :: ns => Taken c process i n ∧
      (ns = [] → n ≠ 0 → (process i (some n)).2 ≠ 0 → (process i (some n)).2 * c.osampsize % 2 ^ 32 ≠ 0) ∧
      Whole (if n = 0 then i else i + 1) ns

/-! ## The calls of a chunk -/

variable {c process}
variable {s s' : Ffsoxr} {l l' : List Call} {t : Track} {u f n i k : Nat} {ns : List Nat}

theorem consumed_append : consumed (l ++ l') = consumed l ++ consumed l' := List.flatMap_append

theorem consumed_single (x : Call) : (consumed [x]).length = x.idone := by
  simp [consumed]

theorem flushEnds_iff :
    FlushEnds c process i ↔ if outlen c process i = 0 then (process i none).2 = 0 else FlushEnds c process (i + 1) := by
  constructor
  · intro h
    split
    · rename_i hzero
      exact h i (Nat.le_refl i) (fun m hle hlt => absurd hle (Nat.not_le.mpr hlt)) hzero
    · rename_i hzero
      intro j hj hbefore
      refine h j (Nat.le_of_succ_le hj) fun m hle hlt => ?_
      rcases Nat.eq_or_lt_of_le hle with rfl | hlt'
      · exact hzero
      · exact hbefore m hlt' hlt
  · intro h j hj hbefore hzero
    rcases Nat.eq_or_lt_of_le hj with rfl | hlt
    · rw [if_pos hzero] at h
      exact h
    · rw [if_neg (hbefore i (Nat.le_refl i) hlt)] at h
      exact h j hlt (fun m hle => hbefore m (Nat.le_of_succ_le hle)) hzero

theorem convert_nothing (hlen : s.inlen = 0) (hfin : s.fin = false) :
    loop (convert_step c process u) (f + 1) (s,l) = some (some ({s with outlen := 0},l)) := by
  refine loop_ends ?_
  simp only [convert_step]
  rw [if_pos ⟨hlen,hfin⟩]

/-- A flush. -/
def flush (c : Format) (process : Process) (u : Nat) (s : Ffsoxr) (i : Nat) : Call :=
  ⟨u,first_sample c s.inoff,none,0,(process i none).2⟩

theorem convert_flush (hdoc : Documented c process) (hlen : s.inlen = 0) (hfin : s.fin = true) :
    loop (convert_step c process u) (f + 1) (s,l) =
      some (some ({s with inlen := 0, inoff := 0, outlen := outlen c process l.length},
        l ++ [flush c process u s l.length])) := by
  refine loop_ends ?_
  simp only [convert_step,hlen,hfin]
  rw [if_neg nofun,if_neg nofun]
  simp only [if_true,or_true,hdoc.flush,Nat.zero_mul]
  rfl

/-- The call that consumes a chunk. -/
def taken (process : Process) (u i n : Nat) : Call := ⟨u,0,some n,n,(process i (some n)).2⟩

theorem convert_step_taken (hsamp : 0 < c.isampsize) (hn : n ≠ 0) (htaken : Taken c process l.length n)
    (hlen : s.inlen = n * c.isampsize) (hoff : s.inoff = 0) :
    convert_step c process u (s,l) =
      let y := ({s with inlen := 0, inoff := 0, outlen := (process l.length (some n)).2 * c.osampsize % 2 ^ 32},
        l ++ [taken process u l.length n])
      if (process l.length (some n)).2 ≠ 0 then .inr (some y) else .inl y := by
  obtain ⟨-,htaken⟩ := htaken
  obtain ⟨hchan,hdone⟩ := htaken hn
  have hpos : s.inlen ≠ 0 := by
    rw [hlen]
    exact Nat.mul_ne_zero hn (Nat.ne_of_gt hsamp)
  have harr : ¬(s.inlen ≠ 0 ∧ c.in_ileaved = false ∧ 8 < c.nchannels) := by
    rintro ⟨-,hplanar,hlt⟩
    rcases hchan with h | h
    · rw [hplanar] at h
      cases h
    · omega
  have hfirst : first_sample c s.inoff = 0 := by
    rw [hoff,first_sample]
    split <;> simp
  simp only [convert_step]
  rw [if_neg (fun h => hpos h.1),if_neg harr,if_neg hpos,hfirst,hlen,Nat.mul_div_cancel _ hsamp,hdone,
    Nat.sub_self,if_pos rfl]
  simp only [taken,hn,Nat.ne_of_gt hsamp,Nat.mul_eq_zero,or_false]

theorem convert_taken (hsamp : 0 < c.isampsize) (htaken : Taken c process l.length n)
    (hlen : s.inlen = n * c.isampsize) (hoff : s.inoff = 0) (hfin : s.fin = false) :
    ∃ m, loop (convert_step c process u) (f + 2) (s,l) =
      some (some ({s with inlen := 0, inoff := 0, outlen := m},
        l ++ if n = 0 then [] else [taken process u l.length n])) := by
  by_cases hn : n = 0
  · subst hn
    rw [Nat.zero_mul] at hlen
    refine ⟨0,?_⟩
    rw [convert_nothing hlen hfin,if_pos rfl,List.append_nil]
    cases s
    cases hlen
    cases hoff
    rfl
  · have hstep := convert_step_taken (u := u) hsamp hn htaken hlen hoff
    rw [if_neg hn]
    by_cases hout : (process l.length (some n)).2 ≠ 0
    · exact ⟨_,loop_ends (hstep.trans (if_pos hout))⟩
    · exact ⟨_,(loop_goes (hstep.trans (if_neg hout))).trans (convert_nothing rfl hfin)⟩

theorem convert_step_count {y : Ffsoxr × List Call} (hdoc : Documented c process)
    (h : convert_step c process u (s,l) = .inl y ∨
      convert_step c process u (s,l) = .inr (some y)) :
    ∃ new, y.2 = l ++ new ∧ (consumed new).length * c.isampsize + y.1.inlen = s.inlen ∧
      y.1.fin = s.fin := by
  simp only [convert_step] at h
  by_cases hnothing : s.inlen = 0 ∧ s.fin = false
  · rw [if_pos hnothing] at h
    obtain h | h := h
    · cases h
    · obtain rfl := Option.some.inj (Sum.inr.inj h)
      exact ⟨[],(List.append_nil _).symm,by simp [consumed],rfl⟩
  · rw [if_neg hnothing] at h
    by_cases harr : s.inlen ≠ 0 ∧ c.in_ileaved = false ∧ 8 < c.nchannels
    · rw [if_pos harr] at h
      obtain h | h := h
      · cases h
      · cases h
    · rw [if_neg harr] at h
      have hle : (process l.length (if s.inlen = 0 then none else some (s.inlen / c.isampsize))).1 *
          c.isampsize ≤ s.inlen := by
        split
        · rw [hdoc.flush,Nat.zero_mul]
          exact Nat.zero_le _
        · exact Nat.le_trans (Nat.mul_le_mul_right _ (hdoc.le _ _)) (Nat.div_mul_le_self _ _)
      generalize (if s.inlen = 0 then none else some (s.inlen / c.isampsize)) = offered at h hle
      generalize process l.length offered = done at h hle
      refine ⟨[⟨u,first_sample c s.inoff,offered,done.1,done.2⟩],?_⟩
      rw [consumed_single]
      by_cases hends : done.2 ≠ 0 ∨ s.inlen = 0
      · rw [if_pos hends] at h
        obtain h | h := h
        · cases h
        · obtain rfl := Option.some.inj (Sum.inr.inj h)
          exact ⟨rfl,Nat.add_sub_cancel' hle,rfl⟩
      · rw [if_neg hends] at h
        obtain h | h := h
        · obtain rfl := Sum.inl.inj h
          exact ⟨rfl,Nat.add_sub_cancel' hle,rfl⟩
        · cases h

theorem convert_le (hdoc : Documented c process)
    (h : loop (convert_step c process u) f (s,l) = some (some (s',l'))) :
    ∃ new, l' = l ++ new ∧ (consumed new).length * c.isampsize ≤ s.inlen ∧ s'.fin = s.fin := by
  induction f generalizing s l with
  | zero => cases h
  | succ f ih =>
    rcases hstep : convert_step c process u (s,l) with y | y
    · obtain ⟨new,hnew,hcount,hfin⟩ := convert_step_count hdoc (.inl hstep)
      obtain ⟨more,hmore,hle,hfin'⟩ := ih (s := y.1) (l := y.2) ((loop_goes hstep).symm.trans h)
      refine ⟨new ++ more,by rw [hmore,hnew,List.append_assoc],?_,hfin'.trans hfin⟩
      rw [consumed_append,List.length_append,Nat.add_mul]
      omega
    · obtain rfl := Option.some.inj ((loop_ends hstep).symm.trans h)
      obtain ⟨new,hnew,hcount,hfin⟩ := convert_step_count hdoc (.inr hstep)
      exact ⟨new,hnew,by omega,hfin⟩

theorem taken_of_convert (hdoc : Documented c process) (hsamp : 0 < c.isampsize) (hcap : c.outcap ≠ 0)
    (hlen : s.inlen = n * c.isampsize % 2 ^ 32) {new : List Call}
    (h : loop (convert_step c process u) f (s,l) = some (some (s',l ++ new)))
    (hall : (consumed new).length = n) : Taken c process l.length n := by
  obtain ⟨new',hnew,hle,-⟩ := convert_le hdoc h
  obtain rfl := List.append_cancel_left hnew
  rw [hall,hlen] at hle
  have hlt : n * c.isampsize < 2 ^ 32 := Nat.lt_of_le_of_lt hle (Nat.mod_lt _ (by decide))
  rw [Nat.mod_eq_of_lt hlt] at hlen
  refine ⟨hlt,fun hn => ?_⟩
  have hpos : s.inlen ≠ 0 := by
    rw [hlen]
    exact Nat.mul_ne_zero hn (Nat.ne_of_gt hsamp)
  cases f with
  | zero => cases h
  | succ f =>
    rw [loop] at h
    simp only [convert_step] at h
    rw [if_neg (fun hz => hpos hz.1)] at h
    by_cases harr : s.inlen ≠ 0 ∧ c.in_ileaved = false ∧ 8 < c.nchannels
    · rw [if_pos harr] at h
      cases h
    · rw [if_neg harr,if_neg hpos,hlen,Nat.mul_div_cancel _ hsamp] at h
      constructor
      · by_contra hchan
        obtain ⟨hplanar,hlt⟩ := not_or.mp hchan
        exact harr ⟨hpos,Bool.eq_false_iff.mpr hplanar,Nat.lt_of_not_le hlt⟩
      · by_contra hne
        have hless := Nat.lt_of_le_of_ne (hdoc.le l.length n) hne
        have hout : (process l.length (some n)).2 ≠ 0 := by
          rw [hdoc.full _ _ hless]
          exact hcap
        rw [if_pos (.inl hout)] at h
        have hcalls := (Prod.mk.inj (Option.some.inj (Option.some.inj h))).2
        rw [← List.append_cancel_left hcalls,consumed_single] at hall
        exact hne hall

/-! ## Flushes -/

/-- After the last chunk the convertor is flushed, and it ends when that gives no bytes. -/
theorem flush_step (hdoc : Documented c process) (data : Nat) (hdata : data % 2 ^ 32 = 0) (skip : Bool) :
    track_step c process (f + 1) ⟨.soxr,[],k,u,data,skip,s,l⟩ =
      if outlen c process l.length = 0 then .inr (some (l ++ [flush c process u s l.length]))
      else .inl ⟨.sink,[],k,u,outlen c process l.length,true,
        {s with inlen := 0, inoff := 0, outlen := outlen c process l.length, fin := true},
        l ++ [flush c process u s l.length]⟩ := by
  have hconv : soxr_conv c process (f + 1) ⟨.soxr,[],k,u,data,skip,s,l⟩ =
      some (decide (outlen c process l.length = 0),
        {s with inlen := 0, inoff := 0, outlen := outlen c process l.length, fin := true},
        l ++ [flush c process u s l.length]) := by
    simp only [soxr_conv,ffsoxr_convert]
    rw [convert_flush hdoc hdata (by simp [Track.first])]
    simp [Track.first,flush]
  simp only [track_step]
  rw [if_neg (by simp [Track.first]),hconv]
  by_cases hzero : outlen c process l.length = 0
  · rw [if_pos hzero,decide_eq_true hzero]
  · rw [if_neg hzero,decide_eq_false hzero]

theorem flush_returns (hdoc : Documented c process) (data : Nat) (hdata : data % 2 ^ 32 = 0) (skip : Bool)
    (hends : FlushEnds c process l.length) :
    ∃ new, Returns (track_step c process (f + 1)) ⟨.soxr,[],k,u,data,skip,s,l⟩
      (some (l ++ new)) ∧ consumed new = [] ∧ (∀ x ∈ new, x.offered = none) ∧ Flushed new := by
  obtain ⟨m,hm⟩ := hdoc.ends
  induction hd : m - l.length generalizing data skip s l with
  | zero =>
    have hzero : (process l.length none).2 = 0 := hm _ (Nat.le_of_sub_eq_zero hd)
    have hout : outlen c process l.length = 0 := by
      rw [outlen,hzero,Nat.zero_mul,Nat.zero_mod]
    exact ⟨[flush c process u s l.length],
      .ends ((flush_step hdoc data hdata skip).trans (if_pos hout)),rfl,by simp [flush],
      [],_,rfl,rfl,hzero⟩
  | succ d ih =>
    rw [flushEnds_iff] at hends
    by_cases hout : outlen c process l.length = 0
    · rw [if_pos hout] at hends
      exact ⟨[flush c process u s l.length],
        .ends ((flush_step hdoc data hdata skip).trans (if_pos hout)),rfl,by simp [flush],
        [],_,rfl,rfl,hends⟩
    · rw [if_neg hout] at hends
      have hlen : (l ++ [flush c process u s l.length]).length = l.length + 1 :=
        List.length_append
      obtain ⟨new,hret,hcons,hoff,xs,x,rfl,hx⟩ := ih (l := l ++ [flush c process u s l.length])
        (s := {s with inlen := 0, inoff := 0, outlen := outlen c process l.length, fin := true})
        0 rfl true (by rwa [hlen]) (by omega)
      refine ⟨flush c process u s l.length :: (xs ++ [x]),?_,hcons,?_,
        flush c process u s l.length :: xs,x,rfl,hx⟩
      · rw [List.append_cons]
        exact (Reaches.goes ((flush_step hdoc data hdata skip).trans (if_neg hout))).trans
          (.goes rfl) _ hret
      · exact List.forall_mem_cons.mpr ⟨rfl,hoff⟩

theorem ends_of_flushes (hdoc : Documented c process) (data : Nat) (hdata : data % 2 ^ 32 = 0) (skip : Bool)
    {m : Nat} (h : loop (track_step c process (f + 1)) m ⟨.soxr,[],k,u,data,skip,s,l⟩ =
      some (some l')) :
    ∃ new, l' = l ++ new ∧ consumed new = [] ∧ (Flushed l' → FlushEnds c process l.length) := by
  induction m using Nat.strongRecOn generalizing data skip s l with
  | ind m ih =>
    cases m with
    | zero => cases h
    | succ m =>
      by_cases hout : outlen c process l.length = 0
      · rw [loop_ends ((flush_step hdoc data hdata skip).trans (if_pos hout))] at h
        obtain rfl := Option.some.inj (Option.some.inj h)
        refine ⟨_,rfl,rfl,fun hflushed => ?_⟩
        obtain ⟨xs,x,hx,-,hzero⟩ := hflushed
        obtain rfl := List.singleton_inj.mp (List.append_inj' hx rfl).2
        rw [flushEnds_iff,if_pos hout]
        exact hzero
      · rw [loop_goes ((flush_step hdoc data hdata skip).trans (if_neg hout))] at h
        cases m with
        | zero => cases h
        | succ m =>
          obtain ⟨new,hnew,hcons,hends⟩ := ih m (by omega) 0 rfl true h
          refine ⟨[flush c process u s l.length] ++ new,by rw [hnew,List.append_assoc],
            by rw [consumed_append,hcons]; rfl,fun hflushed => ?_⟩
          rw [flushEnds_iff,if_neg hout]
          have := hends hflushed
          rwa [List.length_append] at this

/-! ## Chunks -/

/-- The calls that take a chunk. -/
def takes (process : Process) (u i n : Nat) : List Call := if n = 0 then [] else [taken process u i n]

theorem takes_consumed : consumed (takes process u i n) = (List.range n).map (u,·) := by
  rw [takes]
  split
  · rename_i hn
    subst hn
    rfl
  · simp [consumed,taken]

theorem takes_length (process : Process) (u i n : Nat) : (takes process u i n).length + i = if n = 0 then i else i + 1 := by
  rw [takes]
  split
  · exact Nat.zero_add i
  · exact Nat.add_comm 1 i

theorem source_reaches (data : Nat) (skip : Bool) :
    Reaches (track_step c process f) ⟨.source,n :: ns,k,u,data,skip,s,l⟩
      ⟨.soxr,ns,k + 1,k,n * c.isampsize,skip,s,l⟩ := .goes rfl

theorem sink_reaches (data : Nat) (skip : Bool) :
    Reaches (track_step c process f) ⟨.sink,ns,k,u,data,skip,s,l⟩
      ⟨.soxr,ns,k,u,0,skip,s,l⟩ := .goes rfl

/-- A chunk that is not the last: its calls, and the convertor asks for the next one. -/
theorem chunk_reaches (hsamp : 0 < c.isampsize) (hns : ns ≠ []) (htaken : Taken c process l.length n)
    (hoff : s.inoff = 0) (hfin : s.fin = false) (data : Nat) :
    ∃ m, Reaches (track_step c process (f + 2)) ⟨.source,n :: ns,k,u,data,false,s,l⟩
      ⟨.source,ns,k + 1,k,0,false,{s with inlen := 0, inoff := 0, outlen := m},
        l ++ takes process k l.length n⟩ := by
  have hfirst : ns.isEmpty = false := by
    cases ns with
    | nil => exact absurd rfl hns
    | cons => rfl
  obtain ⟨m,hm⟩ := convert_taken (s := {s with inlen := n * c.isampsize % 2 ^ 32, fin := s.fin || ns.isEmpty})
    (u := k) (f := f) hsamp htaken (Nat.mod_eq_of_lt htaken.1) hoff (by rw [hfin,hfirst]; rfl)
  have hconv : soxr_conv c process (f + 2) ⟨.soxr,ns,k + 1,k,n * c.isampsize,false,s,l⟩ =
      some (false,{s with inlen := 0, inoff := 0, outlen := m},l ++ takes process k l.length n) := by
    simp only [soxr_conv,ffsoxr_convert,Track.first]
    rw [hm]
    simp [hfirst,takes]
  have hstep : track_step c process (f + 2) ⟨.soxr,ns,k + 1,k,n * c.isampsize,false,s,l⟩ =
      .inl ⟨.sink,ns,k + 1,k,m,true,{s with inlen := 0, inoff := 0, outlen := m},
        l ++ takes process k l.length n⟩ := by
    simp only [track_step]
    rw [if_neg (fun h => Bool.noConfusion h.1),hconv]
  have hback : track_step c process (f + 2) ⟨.soxr,ns,k + 1,k,0,true,
      {s with inlen := 0, inoff := 0, outlen := m},l ++ takes process k l.length n⟩ =
      .inl ⟨.source,ns,k + 1,k,0,false,{s with inlen := 0, inoff := 0, outlen := m},
        l ++ takes process k l.length n⟩ := by
    simp only [track_step]
    exact if_pos ⟨trivial,hfirst⟩
  exact ⟨m,(source_reaches _ _).trans (.trans (.goes hstep) ((sink_reaches _ _).trans (.goes hback)))⟩

/-- The convertor after a last chunk that one call took. -/
def after (c : Format) (process : Process) (i n : Nat) : Ffsoxr :=
  ⟨0,0,(process i (some n)).2 * c.osampsize % 2 ^ 32,true⟩

/-- A last chunk that one call takes: the convertor ends, gives its output, or is flushed at once. -/
theorem last_step (hsamp : 0 < c.isampsize) (hn : n ≠ 0) (htaken : Taken c process l.length n)
    (hoff : s.inoff = 0) :
    track_step c process (f + 2) ⟨.soxr,[],k + 1,k,n * c.isampsize,false,s,l⟩ =
      if (process l.length (some n)).2 ≠ 0 then
        if (after c process l.length n).outlen = 0 then .inr (some (l ++ takes process k l.length n))
        else .inl ⟨.sink,[],k + 1,k,(after c process l.length n).outlen,true,after c process l.length n,
          l ++ takes process k l.length n⟩
      else track_step c process (f + 1)
        ⟨.soxr,[],k + 1,k,0,true,after c process l.length n,l ++ takes process k l.length n⟩ := by
  have htake := convert_step_taken (s := ⟨n * c.isampsize % 2 ^ 32,s.inoff,s.outlen,s.fin || true⟩) (u := k)
    hsamp hn htaken (Nat.mod_eq_of_lt htaken.1) hoff
  have htakes : [taken process k l.length n] = takes process k l.length n := (if_neg hn).symm
  have hafter : (⟨0,0,(process l.length (some n)).2 * c.osampsize % 2 ^ 32,s.fin || true⟩ : Ffsoxr) =
      after c process l.length n := by
    rw [Bool.or_true,after]
  by_cases hwrote : (process l.length (some n)).2 ≠ 0
  · have hconv : soxr_conv c process (f + 2) ⟨.soxr,[],k + 1,k,n * c.isampsize,false,s,l⟩ =
        some (decide ((after c process l.length n).outlen = 0) && true,after c process l.length n,
          l ++ takes process k l.length n) := by
      simp only [soxr_conv,ffsoxr_convert,Track.first,List.isEmpty_nil]
      rw [loop,htake,if_pos hwrote,hafter,htakes]
      rfl
    rw [if_pos hwrote]
    simp only [track_step]
    rw [if_neg (fun h => Bool.noConfusion h.1),hconv,Bool.and_true]
    by_cases hzero : (after c process l.length n).outlen = 0
    · rw [if_pos hzero,decide_eq_true hzero]
    · rw [if_neg hzero,decide_eq_false hzero]
  · have hconv : soxr_conv c process (f + 2) ⟨.soxr,[],k + 1,k,n * c.isampsize,false,s,l⟩ =
        soxr_conv c process (f + 1)
          ⟨.soxr,[],k + 1,k,0,true,after c process l.length n,l ++ takes process k l.length n⟩ := by
      simp only [soxr_conv,ffsoxr_convert,Track.first,List.isEmpty_nil]
      rw [loop,htake,if_neg hwrote,hafter,htakes]
      rfl
    rw [if_neg hwrote]
    simp only [track_step]
    rw [if_neg (fun h => Bool.noConfusion h.1),if_neg (fun h => Bool.noConfusion h.2),hconv]

theorem takes_last (process : Process) (k : Nat) (hn : n ≠ 0) : (l ++ takes process k l.length n).length = l.length + 1 := by
  rw [List.length_append,Nat.add_comm,takes_length,if_neg hn]

theorem last_reaches (hdoc : Documented c process) (hsamp : 0 < c.isampsize) (hn : n ≠ 0)
    (htaken : Taken c process l.length n) (hoff : s.inoff = 0)
    (hout : (process l.length (some n)).2 ≠ 0 → (after c process l.length n).outlen ≠ 0) :
    Reaches (track_step c process (f + 2)) ⟨.soxr,[],k + 1,k,n * c.isampsize,false,s,l⟩
      ⟨.soxr,[],k + 1,k,0,true,after c process l.length n,l ++ takes process k l.length n⟩ := by
  have hstep := last_step (f := f) (k := k) hsamp hn htaken hoff
  by_cases hwrote : (process l.length (some n)).2 ≠ 0
  · rw [if_pos hwrote,if_neg (hout hwrote)] at hstep
    exact .trans (.goes hstep) (sink_reaches _ _)
  · rw [if_neg hwrote,flush_step hdoc 0 rfl true] at hstep
    exact .same (hstep.trans (flush_step hdoc 0 rfl true).symm)

theorem last_returns (hdoc : Documented c process) (hsamp : 0 < c.isampsize) (hoff : s.inoff = 0)
    (hwhole : Whole c process l.length [n]) (data : Nat) :
    ∃ new, Returns (track_step c process (f + 2)) ⟨.source,[n],k,u,data,false,s,l⟩
      (some (l ++ takes process k l.length n ++ new)) ∧ consumed new = [] ∧
        (∀ x ∈ new, x.offered = none) ∧ Flushed new := by
  obtain ⟨htaken,hout,hends⟩ := hwhole
  by_cases hn : n = 0
  · subst hn
    obtain ⟨new,hret,hnew⟩ := flush_returns (f := f + 1) (k := k + 1) (u := k) (s := s) hdoc
      (0 * c.isampsize) (by rw [Nat.zero_mul,Nat.zero_mod]) false hends
    refine ⟨new,source_reaches _ _ _ ?_,hnew⟩
    rw [takes,if_pos rfl,List.append_nil]
    exact hret
  · rw [if_neg hn,← takes_last process k hn] at hends
    obtain ⟨new,hret,hnew⟩ := flush_returns (f := f + 1) (k := k + 1) (u := k)
      (s := after c process l.length n) hdoc 0 rfl true hends
    exact ⟨new,source_reaches _ _ _ (last_reaches hdoc hsamp hn htaken hoff (hout rfl hn) _ hret),hnew⟩

theorem takes_within {x : Call} (hx : x ∈ takes process k i n) {m : Nat} (hm : x.offered = some m) :
    x.chunk = k ∧ x.first + m ≤ n := by
  rw [takes] at hx
  split at hx
  · cases hx
  · obtain rfl := List.mem_singleton.mp hx
    obtain rfl := Option.some.inj hm
    exact ⟨rfl,Nat.le_of_eq (Nat.zero_add n)⟩

/-- Where every chunk is taken by one call, the whole input is fed and the convertor is flushed. -/
theorem fed_returns (hdoc : Documented c process) (hsamp : 0 < c.isampsize) (hoff : s.inoff = 0)
    (hfin : s.fin = false) (hwhole : Whole c process l.length (n :: ns)) (data : Nat) :
    ∃ new, Returns (track_step c process (f + 2)) ⟨.source,n :: ns,k,u,data,false,s,l⟩
      (some (l ++ new)) ∧ consumed new = input k (n :: ns) ∧ Flushed new ∧
        ∀ x ∈ new, ∀ m, x.offered = some m → ∃ j l, x.chunk = k + j ∧ (n :: ns)[j]? = some l ∧
          x.first + m ≤ l := by
  induction ns generalizing n k u data s l with
  | nil =>
    obtain ⟨new,hret,hcons,hoffered,xs,x,rfl,hx⟩ := last_returns (f := f) (k := k) (u := u) hdoc
      hsamp hoff hwhole data
    refine ⟨takes process k l.length n ++ (xs ++ [x]),?_,?_,
      ⟨takes process k l.length n ++ xs,x,(List.append_assoc ..).symm,hx⟩,fun y hy m hm => ?_⟩
    · rw [← List.append_assoc]
      exact hret
    · rw [consumed_append,hcons,takes_consumed]
      rfl
    · rcases List.mem_append.mp hy with hy | hy
      · obtain ⟨hchunk,hle⟩ := takes_within hy hm
        exact ⟨0,n,hchunk,rfl,hle⟩
      · rw [hoffered y hy] at hm
        cases hm
  | cons n' ns ih =>
    obtain ⟨htaken,-,hrest⟩ := hwhole
    obtain ⟨m,hreach⟩ := chunk_reaches (f := f) (k := k) (u := u) hsamp (List.cons_ne_nil n' ns)
      htaken hoff hfin data
    rw [← takes_length process k _ n,Nat.add_comm,← List.length_append] at hrest
    obtain ⟨new,hret,hcons,⟨xs,x,rfl,hx⟩,hwithin⟩ := ih (k := k + 1) (u := k)
      (s := ⟨0,0,m,s.fin⟩) rfl hfin hrest 0
    refine ⟨takes process k l.length n ++ (xs ++ [x]),?_,?_,
      ⟨takes process k l.length n ++ xs,x,(List.append_assoc ..).symm,hx⟩,fun y hy m hm => ?_⟩
    · rw [← List.append_assoc]
      exact hreach _ hret
    · rw [consumed_append,hcons,takes_consumed]
      rfl
    · rcases List.mem_append.mp hy with hy | hy
      · obtain ⟨hchunk,hle⟩ := takes_within hy hm
        exact ⟨0,n,hchunk,rfl,hle⟩
      · obtain ⟨j,l,hchunk,hl,hle⟩ := hwithin y hy m hm
        exact ⟨j + 1,l,by omega,hl,hle⟩

/-! ## Only so -/

/-- More rounds for the convertor change nothing where it came to its end. -/
theorem track_step_succ (t : Track) :
    track_step c process f t = .inr none ∨ track_step c process (f + 1) t = track_step c process f t := by
  obtain ⟨cur,chunks,next,u,data,skip,s,l⟩ := t
  cases cur with
  | source => exact .inr rfl
  | sink => exact .inr rfl
  | soxr =>
    simp only [track_step]
    split
    · exact .inr rfl
    · simp only [soxr_conv,ffsoxr_convert]
      cases hloop : loop (convert_step c process u) f
        (⟨data % 2 ^ 32,s.inoff,s.outlen,s.fin || Track.first ⟨.soxr,chunks,next,u,data,skip,s,l⟩⟩,l) with
      | none => exact .inl rfl
      | some r =>
        right
        rw [loop_succ hloop]

theorem returns_succ {r : List Call} (h : Returns (track_step c process f) t (some r)) :
    Returns (track_step c process (f + 1)) t (some r) := by
  obtain ⟨m,hm⟩ := h
  induction m generalizing t with
  | zero => cases hm
  | succ m ih =>
    cases hs : track_step c process f t with
    | inr y =>
      obtain rfl := Option.some.inj ((loop_ends hs).symm.trans hm)
      refine .ends (((track_step_succ t).resolve_left ?_).trans hs)
      rw [hs]
      exact nofun
    | inl y =>
      refine Reaches.goes (((track_step_succ t).resolve_left ?_).trans hs) _ (ih ((loop_goes hs).symm.trans hm))
      rw [hs]
      exact nofun


theorem conv_of_returns (hdoc : Documented c process) (hsamp : 0 < c.isampsize)
    (h : Returns (track_step c process (f + 2)) ⟨.soxr,ns,k + 1,k,n * c.isampsize,false,s,l⟩
      (some l')) :
    ∃ s' new, loop (convert_step c process k) (f + 2)
        (⟨n * c.isampsize % 2 ^ 32,s.inoff,s.outlen,s.fin || ns.isEmpty⟩,l) = some (some (s',l ++ new)) ∧
      (consumed new).length ≤ n ∧ s'.fin = (s.fin || ns.isEmpty) ∧
      track_step c process (f + 2) ⟨.soxr,ns,k + 1,k,n * c.isampsize,false,s,l⟩ =
        if s'.outlen = 0 ∧ ns.isEmpty = true then .inr (some (l ++ new))
        else .inl ⟨.sink,ns,k + 1,k,s'.outlen,true,s',l ++ new⟩ := by
  have hstep : track_step c process (f + 2) ⟨.soxr,ns,k + 1,k,n * c.isampsize,false,s,l⟩ =
      match soxr_conv c process (f + 2) ⟨.soxr,ns,k + 1,k,n * c.isampsize,false,s,l⟩ with
      | none => .inr none
      | some (true,x) => .inr (some x.2)
      | some (false,x) => .inl ⟨.sink,ns,k + 1,k,x.1.outlen,true,x.1,x.2⟩ := by
    simp only [track_step]
    exact if_neg fun h => Bool.noConfusion h.1
  simp only [soxr_conv,ffsoxr_convert,Track.first] at hstep
  rcases hloop : loop (convert_step c process k) (f + 2)
      (⟨n * c.isampsize % 2 ^ 32,s.inoff,s.outlen,s.fin || ns.isEmpty⟩,l) with _ | _ | ⟨s',calls2⟩
  · rw [hloop] at hstep
    cases h.unique (.ends hstep)
  · rw [hloop] at hstep
    cases h.unique (.ends hstep)
  · obtain ⟨new,rfl,hle,hfin⟩ := convert_le hdoc hloop
    rw [hloop] at hstep
    refine ⟨s',new,rfl,?_,hfin,?_⟩
    · exact Nat.le_of_mul_le_mul_right (Nat.le_trans hle (Nat.mod_le _ _)) hsamp
    · rw [hstep]
      by_cases hends : s'.outlen = 0 ∧ ns.isEmpty = true
      · rw [if_pos hends]
        simp [hends.1,hends.2]
      · rw [if_neg hends]
        have hflag : (decide (s'.outlen = 0) && ns.isEmpty) = false := by
          rw [Bool.eq_false_iff]
          exact fun hb => hends (by simpa using hb)
        simp [hflag]

theorem chunk_of_returns (hdoc : Documented c process) (hsamp : 0 < c.isampsize) (hcap : c.outcap ≠ 0)
    (hns : ns ≠ []) (hfin : s.fin = false) {data : Nat}
    (h : Returns (track_step c process (f + 2)) ⟨.source,n :: ns,k,u,data,false,s,l⟩ (some l')) :
    ∃ s' new, Returns (track_step c process (f + 2)) ⟨.source,ns,k + 1,k,0,false,s',l ++ new⟩
        (some l') ∧ (consumed new).length ≤ n ∧ s'.fin = false ∧
      (s.inoff = 0 → (consumed new).length = n →
        Taken c process l.length n ∧ s'.inoff = 0 ∧ new = takes process k l.length n) := by
  have hfirst : ns.isEmpty = false := by
    cases ns with
    | nil => exact absurd rfl hns
    | cons => rfl
  obtain ⟨s',new,hloop,hle,hfin',hstep⟩ := conv_of_returns hdoc hsamp (h.next rfl)
  rw [if_neg (fun hb => by rw [hfirst] at hb; cases hb.2)] at hstep
  have hback : track_step c process (f + 2) ⟨.soxr,ns,k + 1,k,0,true,s',l ++ new⟩ =
      .inl ⟨.source,ns,k + 1,k,0,false,s',l ++ new⟩ := by
    simp only [track_step]
    exact if_pos ⟨trivial,hfirst⟩
  refine ⟨s',new,(((h.next rfl).next hstep).next rfl).next hback,hle,by rw [hfin',hfin,hfirst]; rfl,
    fun hoff hall => ?_⟩
  have htaken := taken_of_convert hdoc hsamp hcap rfl hloop hall
  obtain ⟨m,hm⟩ := convert_taken (s := ⟨n * c.isampsize % 2 ^ 32,s.inoff,s.outlen,s.fin || ns.isEmpty⟩) (u := k)
    (f := f) hsamp htaken (Nat.mod_eq_of_lt htaken.1) hoff (by rw [hfin,hfirst]; rfl)
  obtain ⟨rfl,hcalls⟩ := Prod.mk.inj (Option.some.inj (Option.some.inj (hloop.symm.trans hm)))
  exact ⟨htaken,rfl,List.append_cancel_left hcalls⟩

theorem last_of_returns (hdoc : Documented c process) (hsamp : 0 < c.isampsize) (hcap : c.outcap ≠ 0) {data : Nat}
    (h : Returns (track_step c process (f + 2)) ⟨.source,[n],k,u,data,false,s,l⟩ (some l')) :
    ∃ new, l' = l ++ new ∧ (consumed new).length ≤ n ∧
      (s.inoff = 0 → (consumed new).length = n → Flushed l' → Whole c process l.length [n]) := by
  obtain ⟨s',new,hloop,hle,-,hstep⟩ := conv_of_returns hdoc hsamp (h.next rfl)
  have hwhole (hoff : s.inoff = 0) (hall : (consumed new).length = n) (hflushed : Flushed l') :
      Whole c process l.length [n] := by
    have htaken := taken_of_convert hdoc hsamp hcap rfl hloop hall
    by_cases hn : n = 0
    · subst hn
      obtain ⟨m,hm⟩ := h.next rfl
      obtain ⟨-,-,-,hends⟩ := ends_of_flushes hdoc (0 * c.isampsize) (by rw [Nat.zero_mul,Nat.zero_mod]) false hm
      exact ⟨htaken,fun _ hz => absurd rfl hz,hends hflushed⟩
    · have hlast := last_step (f := f) (k := k) hsamp hn htaken hoff
      have hout : (process l.length (some n)).2 ≠ 0 → (after c process l.length n).outlen ≠ 0 := by
        intro hwrote hzero
        rw [if_pos hwrote,if_pos hzero] at hlast
        obtain rfl := Option.some.inj ((h.next rfl).unique (.ends hlast))
        obtain ⟨xs,x,hx,hoffered,-⟩ := hflushed
        rw [takes,if_neg hn] at hx
        obtain rfl := List.singleton_inj.mp (List.append_inj' hx rfl).2
        cases hoffered
      have hreach : Returns (track_step c process (f + 2))
          ⟨.soxr,[],k + 1,k,0,true,after c process l.length n,l ++ takes process k l.length n⟩
          (some l') := by
        by_cases hwrote : (process l.length (some n)).2 ≠ 0
        · rw [if_pos hwrote,if_neg (hout hwrote)] at hlast
          exact ((h.next rfl).next hlast).next rfl
        · rw [if_neg hwrote,flush_step hdoc 0 rfl true] at hlast
          exact Reaches.same ((flush_step hdoc 0 rfl true).trans hlast.symm) _ (h.next rfl)
      obtain ⟨m,hm⟩ := hreach
      obtain ⟨-,-,-,hends⟩ := ends_of_flushes hdoc 0 rfl true hm
      refine ⟨htaken,fun _ _ => hout,?_⟩
      rw [if_neg hn,← takes_last process k hn]
      exact hends hflushed
  by_cases hends : s'.outlen = 0 ∧ ([] : List Nat).isEmpty = true
  · rw [if_pos hends] at hstep
    obtain rfl := Option.some.inj ((h.next rfl).unique (.ends hstep))
    exact ⟨new,rfl,hle,hwhole⟩
  · rw [if_neg hends] at hstep
    obtain ⟨m,hm⟩ := ((h.next rfl).next hstep).next rfl
    obtain ⟨new2,rfl,hcons,-⟩ := ends_of_flushes hdoc 0 rfl true hm
    have hlen : (consumed (new ++ new2)).length = (consumed new).length := by
      rw [consumed_append,hcons,List.append_nil]
    exact ⟨new ++ new2,List.append_assoc ..,hlen ▸ hle,fun hoff hall => hwhole hoff (hlen ▸ hall)⟩

/-- Where the whole input is consumed and the convertor flushed, every chunk was taken by one call. -/
theorem whole_of_returns (hdoc : Documented c process) (hsamp : 0 < c.isampsize) (hcap : c.outcap ≠ 0)
    (hfin : s.fin = false) {data : Nat}
    (h : Returns (track_step c process (f + 2)) ⟨.source,n :: ns,k,u,data,false,s,l⟩ (some l')) :
    ∃ new, l' = l ++ new ∧ (consumed new).length ≤ (n :: ns).sum ∧
      (s.inoff = 0 → (consumed new).length = (n :: ns).sum → Flushed l' →
        Whole c process l.length (n :: ns)) := by
  induction ns generalizing n k u data s l with
  | nil => exact last_of_returns hdoc hsamp hcap h
  | cons n' ns ih =>
    obtain ⟨s',new,hret,hle,hfin',htakes⟩ := chunk_of_returns hdoc hsamp hcap (List.cons_ne_nil n' ns) hfin h
    obtain ⟨new2,hcalls,hle2,hwhole⟩ := ih hfin' hret
    have hlen : (consumed (new ++ new2)).length = (consumed new).length + (consumed new2).length := by
      rw [consumed_append,List.length_append]
    refine ⟨new ++ new2,hcalls.trans (List.append_assoc ..),?_,fun hoff hall hflushed => ?_⟩
    · rw [hlen,List.sum_cons]
      omega
    · rw [hlen,List.sum_cons] at hall
      obtain ⟨htaken,hoff',rfl⟩ := htakes hoff (by omega)
      refine ⟨htaken,fun hnil => absurd hnil (List.cons_ne_nil n' ns),?_⟩
      rw [← takes_length process k _ n,Nat.add_comm,← List.length_append]
      exact hwhole hoff' (by omega) hflushed

/-! ## The whole run -/

theorem input_length (k : Nat) : (input k ns).length = ns.sum := by
  induction ns generalizing k with
  | nil => rfl
  | cons n ns ih => rw [input,List.length_append,List.length_map,List.length_range,ih,List.sum_cons]

theorem whole_of_fed (hdoc : Documented c process) (hsamp : 0 < c.isampsize) (hcap : c.outcap ≠ 0)
    (hret : Returns (track_step c process f) (init (n :: ns)) (some l)) (hfed : Fed (n :: ns) l) :
    Whole c process 0 (n :: ns) := by
  obtain ⟨new,hnew,-,hwhole⟩ := whole_of_returns hdoc hsamp hcap rfl (returns_succ (returns_succ hret))
  obtain rfl : l = new := hnew
  exact hwhole rfl (by rw [hfed.consumed,input_length]) hfed.flushed

/-- The convertor is fed the whole input and flushed if and only if every chunk that has samples is consumed by
one call and the output of the flushes is not counted as none. -/
theorem fed_iff (c : Format) (process : Process) (hsample : 0 < c.sample) (hchannels : 0 < c.nchannels)
    (hcap : c.outcap ≠ 0) (hdoc : Documented c process) (chunks : List Nat) (hchunks : chunks ≠ []) :
    (∃ f l, Returns (track_step c process f) (init chunks) (some l) ∧ Fed chunks l) ↔
      Whole c process 0 chunks := by
  have hsamp : 0 < c.isampsize := Nat.mul_pos hsample hchannels
  obtain ⟨n,ns,rfl⟩ := List.exists_cons_of_ne_nil hchunks
  constructor
  · rintro ⟨f,l,hret,hfed⟩
    exact whole_of_fed hdoc hsamp hcap hret hfed
  · intro hwhole
    obtain ⟨new,hret,hcons,hflushed,hwithin⟩ := fed_returns (f := 0) (k := 0) (u := 0) (l := [])
      (s := ⟨0,0,0,false⟩) hdoc hsamp rfl rfl hwhole 0
    refine ⟨2,new,hret,hcons,fun x hx m hm => ?_,hflushed⟩
    obtain ⟨j,l,hchunk,hl,hle⟩ := hwithin x hx m hm
    rw [Nat.zero_add] at hchunk
    exact ⟨l,hchunk ▸ hl,hle⟩

/-- The output of two chunks comes with the first flush. -/
def delayed : Process
  | _,some n => (n,0)
  | i,none => if i = 2 then (0,5) else (0,0)

theorem fed_iff_delayed : ∃ f l, Returns (track_step ⟨true,2,2,4,48000⟩ delayed f) (init [3,2])
    (some l) ∧ Fed [3,2] l :=
  (fed_iff ⟨true,2,2,4,48000⟩ delayed (by decide) (by decide) (by decide)
    ⟨fun _ n => Nat.le_refl n,fun _ n h => absurd h (Nat.lt_irrefl n),
      fun i => by rw [delayed]; split <;> rfl,3,fun i hi => by rw [delayed,if_neg (by omega)]⟩
    [3,2] (by decide)).mpr
    ⟨⟨by decide,fun _ => ⟨.inl rfl,rfl⟩⟩,nofun,⟨by decide,fun _ => ⟨.inl rfl,rfl⟩⟩,fun _ _ h => absurd rfl h,
      flushEnds_iff.mpr (flushEnds_iff.mpr rfl)⟩

/-- The output buffer is full before a chunk of more than a second is consumed. -/
def filled : Process
  | _,some n => if n ≤ 44100 then (n,n) else (44100,48000)
  | _,none => (0,0)

theorem long_chunk_lost : ¬∃ f l, Returns (track_step ⟨true,2,2,4,48000⟩ filled f) (init [50000])
    (some l) ∧ Fed [50000] l := by
  rintro ⟨f,l,hret,hfed⟩
  have hdoc : Documented ⟨true,2,2,4,48000⟩ filled := by
    refine ⟨fun _ n => ?_,fun _ n h => ?_,fun _ => rfl,0,fun _ _ => rfl⟩
    · rw [filled]
      split
      · exact Nat.le_refl n
      · exact Nat.le_of_not_le (by assumption)
    · rw [filled] at h ⊢
      split at h
      · exact absurd h (Nat.lt_irrefl n)
      · rename_i hn
        rw [if_neg hn]
  have htaken := (whole_of_fed hdoc (by decide) (by decide) hret hfed).1
  exact absurd (htaken.2 (by decide)).2 (by decide)

end Phiola.Soxr
