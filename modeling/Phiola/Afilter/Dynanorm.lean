import Mathlib.Algebra.Ring.Nat
import Mathlib.Data.List.Basic
import Phiola.Afilter.Soxr

/-!
# The dynamic normalizer

`danorm_f_process()` between the filters that give chunks and those that take the output. What
`dynanorm_process()` returns is a parameter; it takes the samples at the channel pointers, at most as many as
its output buffer holds. The input has the normalizer's format, 64-bit samples that are not interleaved.
-/

open Fuel

namespace Phiola.Dynanorm

/-- The number of samples that a call returns, by its number and how many samples it takes; without samples it
is flushed. -/
abbrev Process := Nat → Option Nat → Nat

/-- The number of channels, and the samples that `buf` holds. -/
structure Format where
  channels : Nat
  cap : Nat

/-- `pcm_size1()` -/
def Format.sampsize (c : Format) : Nat := 8 * c.channels

/-- A call of `dynanorm_process()`: the chunk, the index of the first sample at the pointers and how many it
takes. -/
structure Call where
  chunk : Nat
  first : Nat
  samples : Option Nat

variable (c : Format) (process : Process)

/-- `c->off` and `t->data_in.len`, in bytes, and the calls so far. -/
structure Loop where
  off : Nat
  len : Nat
  calls : List Call

/-- The loop of `danorm_f_process()`: it ends with output, or with none when the chunk is consumed. -/
def data_step (chunk : Nat) (x : Loop) : Loop ⊕ Loop × Option Nat :=
  if x.len = 0 then .inr (x,none)
  else
    let samples := min (x.len / c.sampsize) c.cap
    let r := process x.calls.length (some samples)
    let y := ⟨(x.off + samples * c.sampsize) % 2 ^ 32,x.len - samples * c.sampsize,
      x.calls ++ [⟨chunk,x.off / 8,some samples⟩]⟩
    if r ≠ 0 then .inr (y,some r) else .inl y

/-! ## The track -/

inductive Cur
  | source
  | danorm
  | sink

/-- The filter that runs, the chunks that are to come, the chunk in `data_in` and how many bytes it has,
`PHI_FFWD`, `c->off`, and the calls so far. -/
structure Track where
  cur : Cur
  chunks : List Nat
  next : Nat
  chunk : Nat
  data_in : Nat
  ffwd : Bool
  off : Nat
  calls : List Call

inductive Res
  | data
  | done
  | more

/-- `danorm_f_process()`, with `c->off` and the calls after it; `PHI_FFIRST` is set with the last chunk. -/
def danorm_f_process (fuel : Nat) (t : Track) : Option (Res × Nat × List Call) :=
  match loop (data_step c process t.chunk) fuel ⟨if t.ffwd then 0 else t.off,t.data_in,t.calls⟩ with
  | none => none
  | some (x,some _) => some (.data,x.off,x.calls)
  | some (x,none) =>
    if t.chunks ≠ [] then some (.more,x.off,x.calls)
    else
      some (if process x.calls.length none < c.cap then .done else .data,x.off,
        x.calls ++ [⟨t.chunk,x.off / 8,none⟩])

/-- `track_run()`: the filters after the normalizer get its output, and what it left in `data_in` is gone; they
want more, and then the normalizer is called without data. -/
def track_step (fuel : Nat) (t : Track) : Track ⊕ Option (List Call) :=
  match t.cur with
  | .source =>
    match t.chunks with
    | [] => .inr none
    | n :: ns =>
      .inl {t with
        cur := .danorm
        chunks := ns
        next := t.next + 1
        chunk := t.next
        data_in := n * c.sampsize
        ffwd := true}
  | .danorm =>
    match danorm_f_process c process fuel t with
    | none => .inr none
    | some (.more,x) => .inl {t with cur := .source, data_in := 0, ffwd := false, off := x.1, calls := x.2}
    | some (.data,x) => .inl {t with cur := .sink, data_in := 0, ffwd := true, off := x.1, calls := x.2}
    | some (.done,x) => .inr (some x.2)
  | .sink => .inl {t with cur := .danorm, data_in := 0, ffwd := false}

def init (chunks : List Nat) : Track := ⟨.source,chunks,0,0,0,false,0,[]⟩

/-! ## What is handed over -/

/-- The samples of a channel that `dynanorm_process()` takes. -/
def handed (calls : List Call) : List (Nat × Nat) :=
  calls.flatMap fun x => (List.range' x.first (x.samples.getD 0)).map (x.chunk,·)

/-- No more is returned than the buffer holds, and a flush comes to its end. -/
structure Documented : Prop where
  le : ∀ i x, process i x ≤ c.cap
  ends : 0 < c.cap → ∃ m, ∀ i ≥ m, process i none < c.cap

/-- From a call on, every call of a chunk but the last returns nothing, and the pointers of the next one are
right. -/
def Good (off first i n : Nat) : Prop :=
  ∀ j, (j + 1) * c.cap < n → process (i + j) (some c.cap) = 0 ∧
    (off + (j + 1) * c.cap * c.sampsize) % 2 ^ 32 / 8 = first + (j + 1) * c.cap

/-- The number of calls for a chunk. -/
def rounds (n : Nat) : Nat := (n + c.cap - 1) / c.cap

/-- Every chunk is taken whole. -/
def Whole : Nat → List Nat → Prop
  | _,[] => True
  | i,n :: ns => Good c process 0 0 i n ∧ Whole (i + rounds c n) ns

/-! ## The calls of a chunk -/

variable {c} {p : Process}
variable {e q i k m n u f : Nat} {l l' : List Call} {ns : List Nat} {x : Loop} {o : Option Nat}

theorem handed_append : handed (l ++ l') = handed l ++ handed l' := List.flatMap_append

/-- A call for `m` samples. -/
def taken (u e m : Nat) : Call := ⟨u,e / 8,some m⟩

theorem handed_taken : handed [taken u e m] = (List.range' (e / 8) m).map (u,·) := List.append_nil _

theorem first_eq {a b : Nat} (hm : 0 < m)
    (h : (List.range' a m).map (u,·) = (List.range' b m).map (u,·)) : a = b := by
  obtain ⟨m,rfl⟩ := Nat.exists_eq_add_of_lt hm
  rw [Nat.zero_add,List.range'_succ,List.range'_succ,List.map_cons,List.map_cons] at h
  exact (Prod.mk.inj (List.cons.inj h).1).2

theorem range_split (q : Nat) (h : m ≤ n) :
    List.range' q n = List.range' q m ++ List.range' (q + m) (n - m) := by
  rw [List.range'_append_1]
  congr 1
  omega

theorem good_small (h : n ≤ c.cap) : Good c p e q i n := by
  intro j hj
  have : c.cap ≤ (j + 1) * c.cap := Nat.le_mul_of_pos_left _ (Nat.succ_pos j)
  omega

theorem good_iff (h : c.cap < n) : Good c p e q i n ↔ p i (some c.cap) = 0 ∧
    (e + c.cap * c.sampsize) % 2 ^ 32 / 8 = q + c.cap ∧
      Good c p ((e + c.cap * c.sampsize) % 2 ^ 32) (q + c.cap) (i + 1) (n - c.cap) := by
  have hnext (j : Nat) : ((e + c.cap * c.sampsize) % 2 ^ 32 + (j + 1) * c.cap * c.sampsize) % 2 ^ 32 =
      (e + (j + 1 + 1) * c.cap * c.sampsize) % 2 ^ 32 := by
    rw [Nat.mod_add_mod,Nat.add_assoc,← Nat.add_mul,Nat.add_one_mul (j + 1),Nat.add_comm c.cap]
  constructor
  · intro hgood
    obtain ⟨hzero,hoff⟩ := hgood 0 (by omega)
    rw [Nat.zero_add,Nat.one_mul] at hoff
    refine ⟨hzero,hoff,fun j hj => ?_⟩
    obtain ⟨hj0,hjoff⟩ := hgood (j + 1) (by rw [Nat.add_one_mul]; omega)
    rw [hnext,hjoff,Nat.add_one_mul (j + 1)]
    exact ⟨by rwa [Nat.add_right_comm,Nat.add_assoc],by omega⟩
  · rintro ⟨hzero,hoff,hgood⟩ j hj
    cases j with
    | zero =>
      rw [Nat.zero_add,Nat.one_mul]
      exact ⟨hzero,hoff⟩
    | succ j =>
      rw [Nat.add_one_mul (j + 1)] at hj
      obtain ⟨hj0,hjoff⟩ := hgood j (by omega)
      rw [hnext] at hjoff
      rw [hjoff,Nat.add_one_mul (j + 1)]
      exact ⟨by rwa [Nat.add_right_comm,Nat.add_assoc] at hj0,by omega⟩

theorem rounds_zero (hcap : 0 < c.cap) : rounds c 0 = 0 := Nat.div_eq_of_lt (by omega)

theorem rounds_next (hcap : 0 < c.cap) (hn : 0 < n) : rounds c n = rounds c (n - min n c.cap) + 1 := by
  by_cases hle : n ≤ c.cap
  · rw [Nat.min_eq_left hle,Nat.sub_self,rounds_zero hcap]
    exact Nat.div_eq_of_lt_le (by omega) (by omega)
  · rw [Nat.min_eq_right (by omega),rounds,rounds,← Nat.add_div_right _ hcap]
    congr 1
    omega

theorem data_step_eq (hsamp : 0 < c.sampsize) (hn : n ≠ 0) : data_step c p u ⟨e,n * c.sampsize,l⟩ =
    let y := ⟨(e + min n c.cap * c.sampsize) % 2 ^ 32,(n - min n c.cap) * c.sampsize,
      l ++ [taken u e (min n c.cap)]⟩
    if p l.length (some (min n c.cap)) ≠ 0 then .inr (y,some (p l.length (some (min n c.cap))))
    else .inl y := by
  have hpos : n * c.sampsize ≠ 0 := Nat.mul_ne_zero hn (Nat.ne_of_gt hsamp)
  simp only [data_step]
  rw [if_neg hpos,Nat.mul_div_cancel _ hsamp,Nat.sub_mul]
  rfl

theorem loop_taken (hsamp : 0 < c.sampsize) (hcap : 0 < c.cap) (hf : n < f) (hoff : 0 < n → e / 8 = q)
    (hgood : Good c p e q l.length n) :
    ∃ x o new, loop (data_step c p u) f ⟨e,n * c.sampsize,l⟩ = some (x,o) ∧ x.calls = l ++ new ∧
      handed new = (List.range' q n).map (u,·) ∧ new.length = rounds c n := by
  induction f generalizing n e q l with
  | zero => omega
  | succ f ih =>
    by_cases hn : n = 0
    · subst hn
      refine ⟨⟨e,0,l⟩,none,[],loop_ends ?_,(List.append_nil l).symm,rfl,(rounds_zero hcap).symm⟩
      rw [Nat.zero_mul]
      exact if_pos rfl
    · have hstep := data_step_eq (p := p) (u := u) (e := e) (l := l) hsamp hn
      have hmin : 0 < min n c.cap := by omega
      obtain rfl := hoff (Nat.pos_of_ne_zero hn)
      rw [range_split _ (Nat.min_le_left n c.cap),List.map_append,rounds_next hcap (Nat.pos_of_ne_zero hn),
        ← handed_taken]
      by_cases hr : p l.length (some (min n c.cap)) ≠ 0
      · have hle : n ≤ c.cap := by
          by_contra hlt
          rw [Nat.min_eq_right (by omega)] at hr
          exact hr ((good_iff (by omega)).mp hgood).1
        refine ⟨_,_,[taken u e (min n c.cap)],loop_ends (hstep.trans (if_pos hr)),rfl,?_,?_⟩
        · rw [Nat.min_eq_left hle,Nat.sub_self]
          exact (List.append_nil _).symm
        · rw [Nat.min_eq_left hle,Nat.sub_self,rounds_zero hcap]
          rfl
      · have hnext : (0 < n - min n c.cap → (e + min n c.cap * c.sampsize) % 2 ^ 32 / 8 =
            e / 8 + min n c.cap) ∧ Good c p ((e + min n c.cap * c.sampsize) % 2 ^ 32) (e / 8 + min n c.cap)
              (l ++ [taken u e (min n c.cap)]).length (n - min n c.cap) := by
          rw [List.length_append,List.length_singleton]
          by_cases hle : n ≤ c.cap
          · exact ⟨fun h => by omega,good_small (by omega)⟩
          · rw [Nat.min_eq_right (by omega)]
            have := (good_iff (by omega)).mp hgood
            exact ⟨fun _ => this.2.1,this.2.2⟩
        obtain ⟨x,o,new,hloop,hcalls,hhanded,hlen⟩ := ih (by omega) hnext.1 hnext.2
        refine ⟨x,o,taken u e (min n c.cap) :: new,(loop_goes (hstep.trans (if_neg hr))).trans hloop,?_,?_,?_⟩
        · rw [hcalls,List.append_assoc]
          rfl
        · rw [← hhanded,← handed_append]
          rfl
        · rw [List.length_cons,hlen]

/-- Where the samples of a chunk are handed over in order, the chunk was good. -/
theorem good_of_loop (hsamp : 0 < c.sampsize) (hcap : 0 < c.cap)
    (h : loop (data_step c p u) f ⟨e,n * c.sampsize,l⟩ = some (x,o)) :
    ∃ new, x.calls = l ++ new ∧ (handed new).length ≤ n ∧
      (handed new = (List.range' q n).map (u,·) →
        (0 < n → e / 8 = q) ∧ Good c p e q l.length n ∧ new.length = rounds c n) := by
  induction f generalizing n e q l with
  | zero => cases h
  | succ f ih =>
    by_cases hn : n = 0
    · subst hn
      have hstep : data_step c p u ⟨e,0 * c.sampsize,l⟩ = .inr (⟨e,0 * c.sampsize,l⟩,none) :=
        if_pos (Nat.zero_mul _)
      obtain ⟨rfl,-⟩ := Prod.mk.inj (Option.some.inj ((loop_ends hstep).symm.trans h))
      exact ⟨[],(List.append_nil l).symm,Nat.le_refl 0,fun _ => ⟨fun h => absurd h (Nat.lt_irrefl 0),
        good_small (Nat.zero_le _),(rounds_zero hcap).symm⟩⟩
    · have hstep := data_step_eq (p := p) (u := u) (e := e) (l := l) hsamp hn
      have hmin : 0 < min n c.cap := by omega
      have hlen : (handed [taken u e (min n c.cap)]).length = min n c.cap := by
        rw [handed_taken,List.length_map,List.length_range']
      by_cases hr : p l.length (some (min n c.cap)) ≠ 0
      · obtain ⟨rfl,-⟩ := Prod.mk.inj (Option.some.inj ((loop_ends (hstep.trans (if_pos hr))).symm.trans h))
        refine ⟨_,rfl,by rw [hlen]; exact Nat.min_le_left _ _,fun hall => ?_⟩
        have heq := congrArg List.length hall
        rw [hlen,List.length_map,List.length_range'] at heq
        rw [handed_taken,heq] at hall
        refine ⟨fun hpos => first_eq hpos hall,good_small (by omega),?_⟩
        rw [rounds_next hcap (Nat.pos_of_ne_zero hn),heq,Nat.sub_self,rounds_zero hcap]
        rfl
      · obtain ⟨new,hcalls,hle,hgood⟩ := ih (q := q + min n c.cap)
          ((loop_goes (hstep.trans (if_neg hr))).symm.trans h)
        refine ⟨[taken u e (min n c.cap)] ++ new,by rw [hcalls,List.append_assoc],?_,fun hall => ?_⟩
        · rw [handed_append,List.length_append,hlen]
          omega
        · rw [handed_append,range_split q (Nat.min_le_left n c.cap),List.map_append] at hall
          obtain ⟨hhead,htail⟩ := List.append_inj hall (by rw [hlen,List.length_map,List.length_range'])
          rw [handed_taken] at hhead
          obtain ⟨hnext,hrest,hrounds⟩ := hgood htail
          refine ⟨fun _ => first_eq hmin hhead,?_,?_⟩
          · by_cases hsmall : n ≤ c.cap
            · exact good_small hsmall
            · rw [Nat.min_eq_right (by omega)] at hr hnext hrest
              rw [List.length_append,List.length_singleton] at hrest
              exact (good_iff (by omega)).mpr ⟨not_not.mp hr,hnext (by omega),hrest⟩
          · rw [List.length_append,hrounds,rounds_next hcap (Nat.pos_of_ne_zero hn),Nat.add_comm]
            rfl

/-! ## Steps of the track -/

variable {z : Nat} {w : Bool}

theorem danorm_more (hns : ns ≠ [])
    (h : loop (data_step c p u) f ⟨if w then 0 else e,z,l⟩ = some (x,none)) :
    track_step c p f ⟨.danorm,ns,k,u,z,w,e,l⟩ = .inl ⟨.source,ns,k,u,0,false,x.off,x.calls⟩ := by
  simp only [track_step,danorm_f_process]
  rw [h]
  dsimp only
  rw [if_pos hns]

theorem danorm_data {r : Nat}
    (h : loop (data_step c p u) f ⟨if w then 0 else e,z,l⟩ = some (x,some r)) :
    track_step c p f ⟨.danorm,ns,k,u,z,w,e,l⟩ = .inl ⟨.sink,ns,k,u,0,true,x.off,x.calls⟩ := by
  simp only [track_step,danorm_f_process]
  rw [h]

theorem danorm_flush
    (h : loop (data_step c p u) f ⟨if w then 0 else e,z,l⟩ = some (x,none)) :
    track_step c p f ⟨.danorm,[],k,u,z,w,e,l⟩ =
      if p x.calls.length none < c.cap then .inr (some (x.calls ++ [⟨u,x.off / 8,none⟩]))
      else .inl ⟨.sink,[],k,u,0,true,x.off,x.calls ++ [⟨u,x.off / 8,none⟩]⟩ := by
  simp only [track_step,danorm_f_process]
  rw [h]
  dsimp only
  rw [if_neg (not_not.mpr rfl)]
  by_cases hlt : p x.calls.length none < c.cap
  · rw [if_pos hlt,if_pos hlt]
  · rw [if_neg hlt,if_neg hlt]

theorem loop_empty : loop (data_step c p u) (f + 1) ⟨e,0,l⟩ = some (⟨e,0,l⟩,none) :=
  loop_ends (if_pos rfl)

theorem empty_more (hns : ns ≠ []) : track_step c p (f + 1) ⟨.danorm,ns,k,u,0,false,e,l⟩ =
    .inl ⟨.source,ns,k,u,0,false,e,l⟩ := danorm_more hns loop_empty

theorem source_reaches : Reaches (track_step c p f) ⟨.source,n :: ns,k,u,z,w,e,l⟩
    ⟨.danorm,ns,k + 1,k,n * c.sampsize,true,e,l⟩ := .goes rfl

theorem sink_reaches : Reaches (track_step c p f) ⟨.sink,ns,k,u,z,w,e,l⟩
    ⟨.danorm,ns,k,u,0,false,e,l⟩ := .goes rfl

theorem flush_step : track_step c p (f + 1) ⟨.danorm,[],k,u,0,false,e,l⟩ =
    if p l.length none < c.cap then .inr (some (l ++ [⟨u,e / 8,none⟩]))
    else .inl ⟨.sink,[],k,u,0,true,e,l ++ [⟨u,e / 8,none⟩]⟩ := danorm_flush loop_empty

/-- The normalizer is flushed until it returns less than the buffer holds. -/
theorem flush_returns (hdoc : Documented c p) (hcap : 0 < c.cap) :
    ∃ new, Returns (track_step c p (f + 1)) ⟨.danorm,[],k,u,0,false,e,l⟩ (some (l ++ new)) ∧
      handed new = [] := by
  obtain ⟨m,hm⟩ := hdoc.ends hcap
  induction hd : m - l.length generalizing l with
  | zero => exact ⟨_,.ends (flush_step.trans (if_pos (hm _ (Nat.le_of_sub_eq_zero hd)))),rfl⟩
  | succ d ih =>
    by_cases hlt : p l.length none < c.cap
    · exact ⟨_,.ends (flush_step.trans (if_pos hlt)),rfl⟩
    · obtain ⟨new,hret,hnone⟩ := ih (l := l ++ [⟨u,e / 8,none⟩])
        (by rw [List.length_append,List.length_singleton]; omega)
      refine ⟨[⟨u,e / 8,none⟩] ++ new,?_,by rw [handed_append,hnone]; rfl⟩
      rw [← List.append_assoc]
      exact Reaches.goes (flush_step.trans (if_neg hlt)) _ (sink_reaches _ hret)

theorem flush_of_loop (h : loop (track_step c p (f + 1)) m ⟨.danorm,[],k,u,0,false,e,l⟩ =
    some (some l')) : ∃ new, l' = l ++ new ∧ handed new = [] := by
  induction m using Nat.strongRecOn generalizing l with
  | ind m ih =>
    cases m with
    | zero => cases h
    | succ m =>
      by_cases hlt : p l.length none < c.cap
      · rw [loop_ends (flush_step.trans (if_pos hlt))] at h
        obtain rfl := Option.some.inj (Option.some.inj h)
        exact ⟨_,rfl,rfl⟩
      · rw [loop_goes (flush_step.trans (if_neg hlt))] at h
        cases m with
        | zero => cases h
        | succ m =>
          obtain ⟨new,hnew,hnone⟩ := ih m (by omega) h
          exact ⟨[⟨u,e / 8,none⟩] ++ new,by rw [hnew,List.append_assoc],by rw [handed_append,hnone]; rfl⟩

/-! ## Chunks -/

theorem chunk_reaches (hsamp : 0 < c.sampsize) (hcap : 0 < c.cap) (hf : n < f + 1) (hns : ns ≠ [])
    (hgood : Good c p 0 0 l.length n) :
    ∃ new off', Reaches (track_step c p (f + 1)) ⟨.source,n :: ns,k,u,z,w,e,l⟩
      ⟨.source,ns,k + 1,k,0,false,off',l ++ new⟩ ∧ handed new = (List.range' 0 n).map (k,·) ∧
        new.length = rounds c n := by
  obtain ⟨x,o,new,hloop,hcalls,hhanded⟩ := loop_taken (u := k) hsamp hcap hf (fun _ => Nat.zero_div 8) hgood
  refine ⟨new,x.off,source_reaches.trans ?_,hhanded⟩
  rw [← hcalls]
  cases o with
  | none => exact .goes (danorm_more hns hloop)
  | some r => exact .trans (.goes (danorm_data hloop)) (sink_reaches.trans (.goes (empty_more hns)))

theorem last_reaches (h : loop (data_step c p k) (f + 1) ⟨0,n * c.sampsize,l⟩ = some (x,o)) :
    Reaches (track_step c p (f + 1)) ⟨.danorm,[],k + 1,k,n * c.sampsize,true,e,l⟩
      ⟨.danorm,[],k + 1,k,0,false,x.off,x.calls⟩ := by
  cases o with
  | none => exact .same ((danorm_flush h).trans flush_step.symm)
  | some r => exact .trans (.goes (danorm_data h)) sink_reaches

theorem handed_returns (hdoc : Documented c p) (hsamp : 0 < c.sampsize) (hcap : 0 < c.cap)
    (hf : ∀ m ∈ n :: ns, m < f + 1) (hwhole : Whole c p l.length (n :: ns)) :
    ∃ new, Returns (track_step c p (f + 1)) ⟨.source,n :: ns,k,u,z,w,e,l⟩ (some (l ++ new)) ∧
      handed new = Soxr.input k (n :: ns) := by
  obtain ⟨hhead,htail⟩ := List.forall_mem_cons.mp hf
  induction ns generalizing n k u z w e l with
  | nil =>
    obtain ⟨x,o,new,hloop,hcalls,hhanded,-⟩ := loop_taken (u := k) hsamp hcap hhead (fun _ => Nat.zero_div 8)
      hwhole.1
    obtain ⟨more,hret,hnone⟩ := flush_returns (f := f) (k := k + 1) (u := k) (e := x.off) (l := x.calls) hdoc hcap
    refine ⟨new ++ more,?_,?_⟩
    · rw [← List.append_assoc,← hcalls]
      exact source_reaches _ (last_reaches hloop _ hret)
    · rw [handed_append,hnone,hhanded,Soxr.input,List.range_eq_range']
      rfl
  | cons n' ns ih =>
    obtain ⟨hgood,hrest⟩ := hwhole
    obtain ⟨new,off',hreach,hhanded,hrounds⟩ := chunk_reaches (k := k) (u := u) (z := z) (w := w)
      (e := e) hsamp hcap hhead (List.cons_ne_nil n' ns) hgood
    rw [← hrounds,← List.length_append] at hrest
    obtain ⟨hhead',htail'⟩ := List.forall_mem_cons.mp htail
    obtain ⟨more,hret,hmore⟩ := ih (k := k + 1) (u := k) (z := 0) (w := false) (e := off') htail hrest hhead'
      htail'
    refine ⟨new ++ more,?_,?_⟩
    · rw [← List.append_assoc]
      exact hreach _ hret
    · rw [handed_append,hmore,hhanded,← List.range_eq_range']
      rfl

/-! ## Only so -/

theorem loop_of_returns
    (h : Returns (track_step c p f) ⟨.danorm,ns,k,u,z,w,e,l⟩ (some l')) :
    ∃ x o, loop (data_step c p u) f ⟨if w then 0 else e,z,l⟩ = some (x,o) := by
  cases hloop : loop (data_step c p u) f ⟨if w then 0 else e,z,l⟩ with
  | some y => exact ⟨y.1,y.2,rfl⟩
  | none =>
    have hstep : track_step c p f ⟨.danorm,ns,k,u,z,w,e,l⟩ = .inr none := by
      simp only [track_step,danorm_f_process]
      rw [hloop]
    cases h.unique (.ends hstep)

/-- Only a flush that returns less than the buffer holds ends a run. -/
theorem cap_pos {t : Track} (h : loop (track_step c p f) m t = some (some l')) : 0 < c.cap := by
  induction m generalizing t with
  | zero => cases h
  | succ m ih =>
    cases hs : track_step c p f t with
    | inl y => exact ih ((loop_goes hs).symm.trans h)
    | inr y =>
      obtain rfl := Option.some.inj ((loop_ends hs).symm.trans h)
      obtain ⟨cur,chunks,next,chunk,z,w,e,l⟩ := t
      cases cur with
      | source => cases chunks <;> cases hs
      | sink => cases hs
      | danorm =>
        obtain ⟨x,o,hloop⟩ := loop_of_returns (Returns.ends hs)
        cases o with
        | some r => cases hs.symm.trans (danorm_data hloop)
        | none =>
          by_cases hns : chunks = []
          · subst hns
            by_contra hcap
            have hstep := (danorm_flush (k := next) hloop).trans (if_neg (by omega))
            cases hs.symm.trans hstep
          · cases hs.symm.trans (danorm_more hns hloop)

/-- Where the whole input is handed over in order, every chunk was good. -/
theorem whole_of_returns (hsamp : 0 < c.sampsize) (hcap : 0 < c.cap)
    (h : Returns (track_step c p f) ⟨.source,n :: ns,k,u,z,w,e,l⟩ (some l')) :
    ∃ new, l' = l ++ new ∧ (handed new).length ≤ (n :: ns).sum ∧
      (handed new = Soxr.input k (n :: ns) → Whole c p l.length (n :: ns)) := by
  induction ns generalizing n k u z w e l with
  | nil =>
    have hret : Returns (track_step c p f) ⟨.danorm,[],k + 1,k,n * c.sampsize,true,e,l⟩ (some l') :=
      h.next rfl
    obtain ⟨x,o,hloop⟩ := loop_of_returns hret
    obtain ⟨new,hcalls,hle,hgood⟩ := good_of_loop (q := 0) hsamp hcap hloop
    cases f with
    | zero => cases hloop
    | succ f =>
      have hflush : Returns (track_step c p (f + 1)) ⟨.danorm,[],k + 1,k,0,false,x.off,x.calls⟩ (some l') := by
        cases o with
        | none => exact Reaches.same (flush_step.trans (danorm_flush hloop).symm) _ hret
        | some r => exact (hret.next (danorm_data hloop)).next rfl
      obtain ⟨m,hm⟩ := hflush
      obtain ⟨more,rfl,hnone⟩ := flush_of_loop hm
      refine ⟨new ++ more,by rw [hcalls,List.append_assoc],?_,fun hall => ?_⟩
      · rw [handed_append,hnone,List.append_nil]
        exact hle
      · rw [handed_append,hnone,List.append_nil,Soxr.input,Soxr.input,List.append_nil,List.range_eq_range'] at hall
        exact ⟨(hgood hall).2.1,trivial⟩
  | cons n' ns ih =>
    have hret : Returns (track_step c p f) ⟨.danorm,n' :: ns,k + 1,k,n * c.sampsize,true,e,l⟩ (some l') :=
      h.next rfl
    obtain ⟨x,o,hloop⟩ := loop_of_returns hret
    obtain ⟨new,hcalls,hle,hgood⟩ := good_of_loop (q := 0) hsamp hcap hloop
    cases f with
    | zero => cases hloop
    | succ f =>
      have hnext : Returns (track_step c p (f + 1)) ⟨.source,n' :: ns,k + 1,k,0,false,x.off,x.calls⟩
          (some l') := by
        cases o with
        | none => exact hret.next (danorm_more (List.cons_ne_nil n' ns) hloop)
        | some r =>
          exact ((hret.next (danorm_data hloop)).next rfl).next (empty_more (List.cons_ne_nil n' ns))
      obtain ⟨more,hmore,hlen,hwhole⟩ := ih hnext
      refine ⟨new ++ more,by rw [hmore,hcalls,List.append_assoc],?_,fun hall => ?_⟩
      · rw [handed_append,List.length_append,List.sum_cons]
        omega
      · have hsum := congrArg List.length hall
        rw [handed_append,List.length_append,Soxr.input_length,List.sum_cons] at hsum
        rw [handed_append,Soxr.input,List.range_eq_range'] at hall
        obtain ⟨hhead,htail⟩ := List.append_inj hall (by rw [List.length_map,List.length_range']; omega)
        obtain ⟨-,hchunk,hrounds⟩ := hgood hhead
        have hrest := hwhole htail
        rw [hcalls,List.length_append,hrounds] at hrest
        exact ⟨hchunk,hrest⟩

/-! ## The whole run -/

theorem le_sum (h : m ∈ ns) : m ≤ ns.sum := by
  induction ns with
  | nil => cases h
  | cons n ns ih =>
    rw [List.sum_cons]
    rcases List.mem_cons.mp h with rfl | h
    · exact Nat.le_add_right m _
    · exact Nat.le_trans (ih h) (Nat.le_add_left _ n)

theorem whole_of_handed (hch : 0 < c.channels)
    (hret : Returns (track_step c p f) (init (n :: ns)) (some l)) (hall : handed l = Soxr.input 0 (n :: ns)) :
    0 < c.cap ∧ Whole c p 0 (n :: ns) := by
  obtain ⟨m,hm⟩ := hret
  have hcap := cap_pos hm
  obtain ⟨new,rfl,-,hwhole⟩ := whole_of_returns (Nat.mul_pos (by decide) hch) hcap ⟨m,hm⟩
  exact ⟨hcap,hwhole hall⟩

/-- The run ends with every channel's input handed over, each sample once and in order, if and only if the buffer
holds a sample and every chunk is good. -/
theorem handed_iff (c : Format) (p : Process) (hch : 0 < c.channels) (hdoc : Documented c p)
    (chunks : List Nat) (hchunks : chunks ≠ []) :
    (∃ fuel calls, Returns (track_step c p fuel) (init chunks) (some calls) ∧
      handed calls = Soxr.input 0 chunks) ↔ 0 < c.cap ∧ Whole c p 0 chunks := by
  obtain ⟨n,ns,rfl⟩ := List.exists_cons_of_ne_nil hchunks
  constructor
  · rintro ⟨fuel,calls,hret,hall⟩
    exact whole_of_handed hch hret hall
  · rintro ⟨hcap,hwhole⟩
    obtain ⟨new,hret,hall⟩ := handed_returns (k := 0) (u := 0) (z := 0) (w := false) (e := 0) (l := [])
      hdoc (Nat.mul_pos (by decide) hch) hcap (fun m hm => Nat.lt_succ_of_le (le_sum hm)) hwhole
    exact ⟨_,new,hret,hall⟩

/-- The first output comes with the third call. -/
def third : Process
  | i,some _ => if i = 2 then 4 else 0
  | _,none => 1

theorem third_le (i : Nat) (x : Option Nat) : third i x ≤ 4 := by
  cases x with
  | none => exact (by decide : 1 ≤ 4)
  | some n =>
    rw [third]
    split <;> decide

theorem handed_iff_third : ∃ fuel calls, Returns (track_step ⟨1,4⟩ third fuel) (init [9,3]) (some calls) ∧
    handed calls = Soxr.input 0 [9,3] :=
  (handed_iff ⟨1,4⟩ third (by decide) ⟨third_le,fun _ => ⟨0,fun _ _ => (by decide : 1 < 4)⟩⟩ [9,3]
    (by decide)).mpr ⟨by decide,fun j hj => by
      dsimp only at hj
      obtain rfl | rfl : j = 0 ∨ j = 1 := by omega
      · exact ⟨rfl,rfl⟩
      · exact ⟨rfl,rfl⟩,good_small (by decide),trivial⟩

/-- A second of two channels, with a buffer for half of it. -/
theorem long_chunk_mixed_up : ¬∃ fuel calls,
    Returns (track_step ⟨2,22050⟩ (fun _ _ => 0) fuel) (init [44100]) (some calls) ∧
      handed calls = Soxr.input 0 [44100] := by
  rintro ⟨fuel,calls,hret,hall⟩
  obtain ⟨-,hgood,-⟩ := whole_of_handed (by decide) hret hall
  exact absurd (hgood 0 (by decide)).2 (by decide)

end Phiola.Dynanorm
