import Mathlib.Algebra.Ring.Nat
import Mathlib.Data.List.ReduceOption
import Mathlib.Data.Prod.Lex
import Phiola.Track.Feed

/-!
# Feeding the AAC encoder

`aacw_encode()` once the input format is the right one. Samples of all channels are counted as one.
-/

namespace Phiola.AacEnc

open Feed (Call)

variable {α F σ : Type}

/-! ## The encoder -/

/-- `aacEncEncode()`: with samples, how many are consumed, and the frame if there are bytes; without, the
next delayed frame, or the end of file. -/
structure Lib (α F σ : Type) where
  encode : σ → List α → σ × Nat × Option F
  flush : σ → Option (σ × F)

/-- Some of the samples are consumed, all of them where there are no bytes; the delayed frames come to an
end. -/
structure Lib.Ok (l : Lib α F σ) (delayed : σ → Nat) : Prop where
  some : ∀ {s xs}, xs ≠ [] → 0 < (l.encode s xs).2.1 ∧ (l.encode s xs).2.1 ≤ xs.length
  all : ∀ {s xs}, xs ≠ [] → (l.encode s xs).2.2 = none → (l.encode s xs).2.1 = xs.length
  less : ∀ {s s' f}, l.flush s = Option.some (s',f) → delayed s' < delayed s

/-- `ffaac_enc`; `pcm` is what the pointer points to, `pcmlen` counts bytes. Kept for the statements: the
samples that were consumed with the flushes, the frames that were produced, and whether the flush ended. -/
structure Enc (α F σ : Type) where
  enc : σ
  pcm : List α
  pcmlen : Nat
  fin : Bool
  events : List (Option α)
  produced : List F
  eof : Bool

/-- What `ffaac_encode()` returns. -/
inductive Res (F : Type)
  | more
  | data (frame : F)
  | done

/-- `fdkaac_encode()` of `n` samples, with the pointer moved by the number that was consumed. -/
def fdkaac_encode (l : Lib α F σ) (size : Nat) (a : Enc α F σ) (n : Nat) : Enc α F σ × Nat × Option F :=
  if n ≠ 0 then
    let (enc,k,frame) := l.encode a.enc (a.pcm.take n)
    ({a with
      enc := enc
      pcm := a.pcm.drop k
      pcmlen := a.pcmlen - k * size
      events := a.events ++ (a.pcm.take k).map some
      produced := a.produced ++ frame.toList},k,frame)
  else
    match l.flush a.enc with
    | some (enc,frame) =>
      ({a with enc := enc, events := a.events ++ [none], produced := a.produced ++ [frame]},0,some frame)
    | none => ({a with events := a.events ++ [none], eof := true},0,none)

/-- The rest of the loop of `ffaac_encode()`, after the first call of `fdkaac_encode()`. -/
def encoded (l : Lib α F σ) (size : Nat) : Enc α F σ × Nat × Option F → Enc α F σ × Res F
  | (a,_,some frame) => (a,.data frame)
  | (a,n,none) =>
    if ¬a.fin then (a,.more)
    else if n ≠ 0 then
      match fdkaac_encode l size a 0 with
      | (a,_,some frame) => (a,.data frame)
      | (a,_,none) => (a,.done)
    else (a,.done)

/-- `ffaac_encode()`; a sample has `size` bytes. -/
def ffaac_encode (l : Lib α F σ) (size : Nat) (a : Enc α F σ) : Enc α F σ × Res F :=
  if a.pcmlen / size = 0 ∧ ¬a.fin then (a,.more)
  else encoded l size (fdkaac_encode l size a (a.pcmlen / size))

/-! ## The filter -/

/-- `struct aac_enc` in state 1 or, if the encoder is created, 2. -/
structure Filter (α F σ : Type) where
  created : Bool
  aac : Enc α F σ

inductive Out (F : Type)
  | nothing
  | conf
  | frame (frame : F)

/-- `aacw_encode()`, from state 1 on. -/
def aacw_encode (l : Lib α F σ) (size : Nat) : Feed.Process (Filter α F σ) (List α) (Out F) := fun a c =>
  let aac := if c.fwd then {a.aac with
    pcm := c.data.getD []
    pcmlen := (c.data.getD []).length * size % 2 ^ 32
    fin := a.aac.fin || c.first} else a.aac
  if a.created then
    match ffaac_encode l size aac with
    | (aac,.more) => some (⟨true,aac⟩,.more,.nothing)
    | (aac,.data frame) => some (⟨true,aac⟩,.data,.frame frame)
    | (aac,.done) => some (⟨true,aac⟩,.done,.nothing)
  else some (⟨true,aac⟩,.data,.conf)

/-- The filter before its first region. -/
def init (s : σ) : Filter α F σ := ⟨false,s,[],0,false,[],[],false⟩

/-! ## What is fed -/

/-- What is passed on, without the calls that pass nothing on. -/
def emitted (os : List (Out F)) : List (Out F) :=
  os.filter fun
    | .nothing => false
    | _ => true

/-- Every sample is consumed once and in order, then the encoder is flushed up to the end, and the
configuration and all frames are passed on. -/
structure Fed (given : List (List α)) (a : Enc α F σ) (os : List (Out F)) : Prop where
  events : ∃ n, a.events = given.flatten.map some ++ List.replicate (n + 1) none
  eof : a.eof = true
  emitted : emitted os = .conf :: a.produced.map .frame

theorem emitted_nothing (os : List (Out F)) : emitted (os ++ [Out.nothing]) = emitted os := by simp [emitted]

theorem emitted_frame (os : List (Out F)) (frame : F) :
    emitted (os ++ [Out.frame frame]) = emitted os ++ [Out.frame frame] := by simp [emitted]

/-! ## The run -/

variable {l : Lib α F σ} {size : Nat} {given : List (List α)} {a : Enc α F σ} {os : List (Out F)}

/-- The invariant until the end is reached. -/
structure Core (size : Nat) (given : List (List α)) (a : Enc α F σ) (os : List (Out F)) : Prop where
  length : a.pcmlen = a.pcm.length * size
  all : ∃ xs n, a.events = xs.map some ++ List.replicate n none ∧ xs ++ a.pcm = given.flatten ∧
    (n ≠ 0 → a.pcm = [] ∧ a.fin = true)
  emitted : emitted os = .conf :: a.produced.map .frame
  eof : a.eof = false

/-- All samples are consumed, and more are wanted. -/
structure Drained (given : List (List α)) (a : Enc α F σ) (os : List (Out F)) : Prop where
  events : a.events = given.flatten.map some
  emitted : emitted os = .conf :: a.produced.map .frame
  eof : a.eof = false
  fin : a.fin = false

/-- What is left to do when the encoder is called again. -/
def left (delayed : σ → Nat) (a : Enc α F σ) : Nat ×ₗ Nat := toLex (a.pcm.length,delayed a.enc)

theorem left_lt {delayed : σ → Nat} {a b : Enc α F σ} (h : a.pcm.length < b.pcm.length ∨
    a.pcm.length = b.pcm.length ∧ delayed a.enc < delayed b.enc) : left delayed a < left delayed b :=
  Prod.Lex.toLex_lt_toLex.mpr h

/-- How a call of `ffaac_encode()` ends. -/
def Good (size : Nat) (delayed : σ → Nat) (given : List (List α)) (os : List (Out F)) (a : Enc α F σ) :
    Enc α F σ × Res F → Prop
  | (a',.more) => a.fin = false ∧ Drained given a' os
  | (a',.data frame) => Core size given a' (os ++ [Out.frame frame]) ∧ a'.fin = a.fin ∧
      left delayed a' < left delayed a
  | (a',.done) => a.fin = true ∧ Fed given a' os

theorem flush_step {delayed : σ → Nat} (hl : l.Ok delayed) (h : Core size given a os) (hpcm : a.pcm = [])
    (hfin : a.fin = true) :
    (∃ a' frame, fdkaac_encode l size a 0 = (a',0,some frame) ∧ Core size given a' (os ++ [Out.frame frame]) ∧
      a'.fin = a.fin ∧ a'.pcm = [] ∧ delayed a'.enc < delayed a.enc) ∨
    ∃ a', fdkaac_encode l size a 0 = (a',0,none) ∧ a'.fin = a.fin ∧ Fed given a' os := by
  obtain ⟨hlength,⟨xs,n,hevents,hall,-⟩,hout,heof⟩ := h
  rw [hpcm,List.append_nil] at hall
  have hevents' : a.events ++ [none] = xs.map some ++ List.replicate (n + 1) none := by
    rw [hevents,List.replicate_succ',List.append_assoc]
  unfold fdkaac_encode
  rw [if_neg (not_not.mpr rfl)]
  cases hflush : l.flush a.enc with
  | some x =>
    obtain ⟨s,frame⟩ := x
    refine .inl ⟨_,frame,rfl,⟨hlength,⟨xs,n + 1,hevents',?_,fun _ => ⟨hpcm,hfin⟩⟩,?_,heof⟩,rfl,hpcm,
      hl.less hflush⟩
    · rw [hpcm,List.append_nil,hall]
    · rw [emitted_frame,hout]
      simp
  | none => exact .inr ⟨_,rfl,rfl,⟨n,by rw [← hall]; exact hevents'⟩,rfl,hout⟩

theorem encode_step {delayed : σ → Nat} (hl : l.Ok delayed) (hsize : 0 < size)
    (h : Core size given a os) : Good size delayed given os a (ffaac_encode l size a) := by
  have hn : a.pcmlen / size = a.pcm.length := by rw [h.length,Nat.mul_div_cancel _ hsize]
  unfold ffaac_encode
  rw [hn]
  by_cases hpcm : a.pcm = []
  · rw [hpcm,List.length_nil]
    cases hfin : a.fin with
    | false =>
      obtain ⟨-,⟨xs,n,hevents,hall,hflushed⟩,hout,heof⟩ := h
      have hn0 : n = 0 := by
        by_contra hne
        exact absurd ((hflushed hne).2.symm.trans hfin) nofun
      rw [if_pos ⟨rfl,nofun⟩]
      refine ⟨hfin,?_,hout,heof,hfin⟩
      rw [hevents,hn0,← hall,hpcm]
      simp
    | true =>
      rw [if_neg fun hn => hn.2 rfl]
      rcases flush_step hl h hpcm hfin with ⟨a',frame,heq,hcore,hfin',hpcm',hless⟩ | ⟨a',heq,hfin',hfed⟩
      · rw [heq]
        exact ⟨hcore,hfin',left_lt (.inr ⟨by rw [hpcm',hpcm],hless⟩)⟩
      · rw [heq,encoded,if_neg (not_not.mpr (hfin'.trans hfin)),if_neg (not_not.mpr rfl)]
        exact ⟨hfin,hfed⟩
  · have hne : a.pcm.length ≠ 0 := fun hlen => hpcm (List.length_eq_zero_iff.mp hlen)
    obtain ⟨hlength,⟨xs,n,hevents,hall,hflushed⟩,hout,heof⟩ := h
    have hn0 : n = 0 := by
      by_contra hne
      exact hpcm (hflushed hne).1
    rw [hn0,List.replicate_zero,List.append_nil] at hevents
    rw [if_neg fun h => hne h.1]
    obtain ⟨hpos,hle⟩ := hl.some (s := a.enc) hpcm
    have hwhole := hl.all (s := a.enc) hpcm
    have hcall : ∃ a', fdkaac_encode l size a a.pcm.length =
        (a',(l.encode a.enc a.pcm).2.1,(l.encode a.enc a.pcm).2.2) ∧ a'.fin = a.fin ∧ a'.eof = a.eof ∧
        a'.pcm = a.pcm.drop (l.encode a.enc a.pcm).2.1 ∧
        a'.pcmlen = a.pcmlen - (l.encode a.enc a.pcm).2.1 * size ∧
        a'.events = a.events ++ (a.pcm.take (l.encode a.enc a.pcm).2.1).map some ∧
        a'.produced = a.produced ++ (l.encode a.enc a.pcm).2.2.toList := by
      unfold fdkaac_encode
      rw [if_pos hne,List.take_length]
      exact ⟨_,rfl,rfl,rfl,rfl,rfl,rfl,rfl⟩
    obtain ⟨a',heq,hfin',heof',hpcm',hlen',hevents',hprod'⟩ := hcall
    rw [heq]
    generalize (l.encode a.enc a.pcm).2.1 = k at *
    cases hframe : (l.encode a.enc a.pcm).2.2 with
    | none =>
      rw [hframe,Option.toList_none,List.append_nil] at hprod'
      have hk := hwhole hframe
      rw [hk,List.drop_length] at hpcm'
      have hout' : emitted os = .conf :: a'.produced.map .frame := by rw [hprod',hout]
      have hall' : a'.events = given.flatten.map some := by
        rw [hevents',hevents,hk,List.take_length,← hall,List.map_append]
      dsimp only [encoded]
      cases hfin : a.fin with
      | false =>
        rw [hfin',hfin,if_pos nofun]
        exact ⟨hfin,hall',hout',heof'.trans heof,hfin'.trans hfin⟩
      | true =>
        have hcore : Core size given a' os := by
          refine ⟨?_,⟨given.flatten,0,by simpa using hall',by simp [hpcm'],nofun⟩,hout',heof'.trans heof⟩
          rw [hpcm',hlen',hlength,hk]
          simp
        rw [hfin',hfin,if_neg (not_not.mpr rfl),if_pos (by omega)]
        rcases flush_step hl hcore hpcm' (hfin'.trans hfin) with
          ⟨b,frame,heq,hcore',hb,hbpcm,-⟩ | ⟨b,heq,hb,hfed⟩
        · rw [heq]
          refine ⟨hcore',hb.trans hfin',left_lt (.inl ?_)⟩
          rw [hbpcm]
          exact Nat.pos_of_ne_zero hne
        · rw [heq]
          exact ⟨hfin,hfed⟩
    | some frame =>
      rw [hframe] at hprod'
      refine ⟨⟨?_,⟨xs ++ a.pcm.take k,0,?_,?_,nofun⟩,?_,heof'.trans heof⟩,hfin',left_lt (.inl ?_)⟩
      · rw [hlen',hlength,hpcm',List.length_drop,Nat.sub_mul]
      · simp [hevents,hevents']
      · rw [hpcm',List.append_assoc,List.take_append_drop,hall]
      · rw [emitted_frame,hout,hprod']
        simp
      · rw [hpcm',List.length_drop]
        omega

def Idle (given : List (List α)) (s : Filter α F σ) (os : List (Out F)) : Prop :=
  s.aac.fin = false ∧ (s.created = false ∧ given = [] ∧ s.aac.events = [] ∧ s.aac.produced = [] ∧
    s.aac.eof = false ∧ emitted os = [] ∨ s.created = true ∧ Drained given s.aac os)

def Busy (size : Nat) (given : List (List α)) (first : Bool) (s : Filter α F σ) (os : List (Out F)) : Prop :=
  s.created = true ∧ s.aac.fin = first ∧ Core size given s.aac os

def Over (given : List (List α)) (first : Bool) (s : Filter α F σ) (os : List (Out F)) : Prop :=
  first = true ∧ Fed given s.aac os

abbrev Step (size : Nat) (delayed : σ → Nat) (given : List (List α)) (first : Bool)
    (os : List (Out F)) :=
  Feed.Ends (Idle given) (Busy size given first) (Over given first) (fun s => left delayed s.aac) first os

theorem filter_step {delayed : σ → Nat} (hl : l.Ok delayed) (hsize : 0 < size) {s : Filter α F σ}
    {c : Call (List α)} (hcreated : s.created = true) (ha : a = if c.fwd then {s.aac with
      pcm := c.data.getD []
      pcmlen := (c.data.getD []).length * size % 2 ^ 32
      fin := s.aac.fin || c.first} else s.aac) (h : Core size given a os) :
    ∃ x, aacw_encode l size s c = some x ∧ Step size delayed given a.fin os (left delayed a) x := by
  have hgood := encode_step hl hsize h
  unfold aacw_encode
  rw [← ha,hcreated,if_pos rfl]
  rcases hr : ffaac_encode l size a with ⟨a',_ | frame | _⟩
  all_goals
    rw [hr] at hgood
    refine ⟨_,rfl,?_⟩
  · obtain ⟨hfin,hdrained⟩ := hgood
    obtain ⟨hevents,hout,heof,hfin'⟩ := hdrained
    exact .more hfin ⟨hfin',.inr ⟨rfl,hevents,by rw [emitted_nothing,hout],heof,hfin'⟩⟩
  · obtain ⟨hcore,hfin,hless⟩ := hgood
    exact .data ⟨rfl,hfin,hcore⟩ hless
  · obtain ⟨hfin,hevents,heof,hout⟩ := hgood
    exact .done ⟨hfin,hevents,heof,by rw [emitted_nothing,hout]⟩

theorem idle_step {delayed : σ → Nat} (hl : l.Ok delayed) (hsize : 0 < size) {s : Filter α F σ} {d : List α}
    {first : Bool} (hd : d.length * size < 2 ^ 32) (h : Idle given s os) :
    ∃ x bound, aacw_encode l size s ⟨true,first,some d⟩ = some x ∧
      Step size delayed (given ++ [d]) first os bound x := by
  obtain ⟨hfin,h⟩ := h
  generalize ha : ({s.aac with
    pcm := d
    pcmlen := d.length * size % 2 ^ 32
    fin := s.aac.fin || first} : Enc α F σ) = a
  have hafin : a.fin = first := by
    rw [← ha]
    simp [hfin]
  have hlen : a.pcmlen = a.pcm.length * size := by
    rw [← ha]
    exact Nat.mod_eq_of_lt hd
  rcases h with ⟨hcreated,rfl,hevents,hprod,heof,hout⟩ | ⟨hcreated,hdrained⟩
  · refine ⟨(⟨true,a⟩,.data,.conf),toLex (a.pcm.length + 1,0),?_,
      .data ⟨rfl,hafin,hlen,⟨[],0,?_,?_,nofun⟩,?_,?_⟩ (Prod.Lex.toLex_lt_toLex.mpr (.inl ?_))⟩
    · unfold aacw_encode
      rw [if_pos rfl,hcreated]
      simp [← ha]
    · rw [← ha]
      exact hevents
    · simp [← ha]
    · have hconf : emitted (os ++ [(.conf : Out F)]) = emitted os ++ [Out.conf] := by simp [emitted]
      rw [hconf,hout,← ha,hprod]
      rfl
    · rw [← ha]
      exact heof
    · exact Nat.lt_succ_self _
  · have hcore : Core size (given ++ [d]) a os := by
      refine ⟨hlen,⟨given.flatten,0,?_,by simp [← ha],nofun⟩,?_,?_⟩
      · rw [← ha]
        simpa using hdrained.events
      · rw [← ha]
        exact hdrained.emitted
      · rw [← ha]
        exact hdrained.eof
    obtain ⟨x,hx,hstep⟩ := filter_step (c := ⟨true,first,some d⟩) hl hsize hcreated ha.symm hcore
    rw [hafin] at hstep
    exact ⟨x,_,hx,hstep⟩

theorem busy_step {delayed : σ → Nat} (hl : l.Ok delayed) (hsize : 0 < size) {s : Filter α F σ}
    {first : Bool} (h : Busy size given first s os) : ∃ x, aacw_encode l size s ⟨false,first,none⟩ = some x ∧
      Step size delayed given first os (left delayed s.aac) x := by
  obtain ⟨hcreated,hfin,hcore⟩ := h
  obtain ⟨x,hx,hstep⟩ := filter_step (a := s.aac) (c := ⟨false,first,none⟩) hl hsize hcreated rfl hcore
  rw [hfin] at hstep
  exact ⟨x,hx,hstep⟩

theorem aac_encode_all {delayed : σ → Nat} (hl : l.Ok delayed) (hsize : 0 < size) (s : σ) {cs : List (List α)}
    (hcs : cs ≠ []) (hsmall : ∀ c ∈ cs, c.length * size < 2 ^ 32) :
    ∃ n a os, Feed.drive (aacw_encode l size) n (init s) cs = some (a,true,os) ∧ Fed cs a.aac os := by
  have hgive : ∀ given d first (a : Filter α F σ) os, d.length * size < 2 ^ 32 → Idle given a os →
      ∃ x bound, aacw_encode l size a ⟨true,first,some d⟩ = some x ∧
        Step size delayed (given ++ [d]) first os bound x :=
    fun _ _ _ _ _ hd h => idle_step hl hsize hd h
  have hbusy : ∀ given first (a : Filter α F σ) os, Busy size given first a os →
      ∃ x, aacw_encode l size a ⟨false,first,none⟩ = some x ∧
        Step size delayed given first os (left delayed a.aac) x := fun _ _ _ _ h => busy_step hl hsize h
  have hinit : Idle ([] : List (List α)) (init s : Filter α F σ) [] :=
    ⟨rfl,.inl ⟨rfl,rfl,rfl,rfl,rfl,rfl⟩⟩
  obtain ⟨n,a,os,pre,post,hdrive,rfl,hfirst,hfed⟩ := Feed.drive_rule
    (P := fun _ d _ => d.length * size < 2 ^ 32) hgive hbusy hcs hinit
    fun pre d post hsplit => hsmall d (by rw [hsplit]; simp)
  obtain rfl := List.isEmpty_iff.mp hfirst
  exact ⟨n,a,os,hdrive,by simpa using hfed⟩

/-! ## Chunks that are too long -/

/-- The samples of chunks whose numbers of bytes are put into 32 bits. -/
def counted (size : Nat) (cs : List (List α)) : Nat :=
  (cs.map fun c => c.length * size % 2 ^ 32 / size).sum

/-- The samples that are consumed, with those that can still be, are not more than `n`. -/
def Count (size n : Nat) (a : Enc α F σ) : Prop :=
  a.events.reduceOption.length + a.pcmlen / size ≤ n ∧ a.pcmlen / size ≤ a.pcm.length

theorem fdkaac_count {delayed : σ → Nat} (hl : l.Ok delayed) {n k : Nat} (h : Count size n a)
    (hk : k = 0 ∨ k = a.pcmlen / size) : Count size n (fdkaac_encode l size a k).1 ∧
      (fdkaac_encode l size a k).1.fin = a.fin := by
  obtain ⟨hle,hin⟩ := h
  unfold fdkaac_encode
  by_cases hk0 : k = 0
  · rw [if_neg (not_not.mpr hk0)]
    cases l.flush a.enc <;> exact ⟨⟨by simpa [List.reduceOption] using hle,hin⟩,rfl⟩
  · rw [if_pos hk0]
    have hne : a.pcm.take k ≠ [] := fun hnil => by
      have hlen := congrArg List.length hnil
      rw [List.length_take,List.length_nil] at hlen
      omega
    have hpos := (hl.some (s := a.enc) hne).2
    rw [List.length_take] at hpos
    generalize l.encode a.enc (a.pcm.take k) = x at hpos ⊢
    obtain ⟨s,m,f⟩ := x
    dsimp only at hpos ⊢
    have hdiv : (a.pcmlen - m * size) / size = a.pcmlen / size - m := by rw [Nat.mul_comm,Nat.sub_mul_div]
    have hconsumed := List.reduceOption_length_le ((a.pcm.take m).map some)
    rw [List.length_map,List.length_take] at hconsumed
    refine ⟨⟨?_,?_⟩,rfl⟩
    · rw [List.reduceOption_append,List.length_append,hdiv]
      omega
    · rw [List.length_drop,hdiv]
      omega

theorem encode_count {delayed : σ → Nat} (hl : l.Ok delayed) {n : Nat} (h : Count size n a) :
    Count size n (ffaac_encode l size a).1 ∧ ((ffaac_encode l size a).2 = .more → a.fin = false) ∧
      (ffaac_encode l size a).1.fin = a.fin := by
  unfold ffaac_encode
  split
  · next hmore => exact ⟨h,fun _ => by simpa using hmore.2,rfl⟩
  · obtain ⟨hcount,hfin⟩ := fdkaac_count hl h (.inr rfl)
    rcases hr : fdkaac_encode l size a (a.pcmlen / size) with ⟨a',k,_ | frame⟩
    all_goals rw [hr] at hcount hfin
    · dsimp only [encoded] at hcount hfin ⊢
      by_cases hf : a'.fin = true
      · rw [if_neg (not_not.mpr hf)]
        by_cases hk : k ≠ 0
        · rw [if_pos hk]
          obtain ⟨hcount',hfin'⟩ := fdkaac_count hl hcount (.inl rfl)
          rcases hr' : fdkaac_encode l size a' 0 with ⟨b,m,_ | frame⟩
          all_goals
            rw [hr'] at hcount' hfin'
            exact ⟨hcount',by nofun,hfin'.trans hfin⟩
        · rw [if_neg hk]
          exact ⟨hcount,by nofun,hfin⟩
      · rw [if_pos hf]
        exact ⟨hcount,fun _ => by rw [← hfin]; simpa using hf,hfin⟩
    · exact ⟨hcount,by nofun,hfin⟩

def IdleCount (size : Nat) (given : List (List α)) (s : Filter α F σ) (_ : List (Out F)) : Prop :=
  s.aac.events.reduceOption.length ≤ counted size given

def BusyCount (size : Nat) (given : List (List α)) (first : Bool) (s : Filter α F σ) (_ : List (Out F)) :
    Prop :=
  Count size (counted size given) s.aac ∧ (first = true → s.aac.fin = true)

def OverCount (size : Nat) (given : List (List α)) (_ : Bool) (s : Filter α F σ) (_ : List (Out F)) : Prop :=
  s.aac.events.reduceOption.length ≤ counted size given

theorem filter_count {delayed : σ → Nat} (hl : l.Ok delayed) {s : Filter α F σ} {c : Call (List α)}
    {first : Bool} {x : Filter α F σ × PhiR × Out F} (ha : a = if c.fwd then {s.aac with
      pcm := c.data.getD []
      pcmlen := (c.data.getD []).length * size % 2 ^ 32
      fin := s.aac.fin || c.first} else s.aac)
    (h : Count size (counted size given) a) (hfirst : first = true → a.fin = true)
    (hx : aacw_encode l size s c = some x) : ∃ bound : Nat, Feed.Ends (IdleCount size given)
      (BusyCount size given first) (OverCount size given first) (fun _ => 0) first os bound x := by
  refine ⟨1,?_⟩
  unfold aacw_encode at hx
  rw [← ha] at hx
  cases hcreated : s.created with
  | false =>
    rw [hcreated,if_neg nofun] at hx
    cases hx
    exact .data ⟨h,hfirst⟩ Nat.one_pos
  | true =>
    rw [hcreated,if_pos rfl] at hx
    obtain ⟨hcount,hmore,hfin⟩ := encode_count hl h
    rcases hr : ffaac_encode l size a with ⟨a',_ | frame | _⟩
    all_goals
      rw [hr] at hx hcount hmore hfin
      cases hx
    · refine .more ?_ (Nat.le_trans (Nat.le_add_right _ _) hcount.1)
      cases first with
      | false => rfl
      | true => cases (hfirst rfl).symm.trans (hmore rfl)
    · exact .data ⟨hcount,fun h => hfin.trans (hfirst h)⟩ Nat.one_pos
    · exact .done (Nat.le_trans (Nat.le_add_right _ _) hcount.1)

theorem counted_le (hsize : 0 < size) (cs : List (List α)) : counted size cs ≤ cs.flatten.length ∧
    (counted size cs = cs.flatten.length → ∀ c ∈ cs, c.length * size < 2 ^ 32) := by
  induction cs with
  | nil => exact ⟨Nat.le_refl _,fun _ => nofun⟩
  | cons c cs ih =>
    have hmod := Nat.mod_le (c.length * size) (2 ^ 32)
    have hlt := Nat.mod_lt (c.length * size) (show 0 < 2 ^ 32 by omega)
    have hle : c.length * size % 2 ^ 32 / size ≤ c.length :=
      Nat.le_trans (Nat.div_le_div_right hmod) (by rw [Nat.mul_div_cancel _ hsize])
    have heq : counted size (c :: cs) = c.length * size % 2 ^ 32 / size + counted size cs := by
      rw [counted,List.map_cons,List.sum_cons,counted]
    rw [heq,List.flatten_cons,List.length_append]
    refine ⟨by omega,fun h => List.forall_mem_cons.mpr ⟨?_,ih.2 (by omega)⟩⟩
    have hall : c.length * size % 2 ^ 32 / size = c.length := by omega
    have hback := Nat.div_mul_le_self (c.length * size % 2 ^ 32) size
    rw [hall] at hback
    omega

theorem consumed_le {delayed : σ → Nat} (hl : l.Ok delayed) (hsize : 0 < size) {s : σ} {cs : List (List α)}
    {n : Nat} {f : Filter α F σ} (h : Feed.drive (aacw_encode l size) n (init s) cs = some (f,true,os)) :
    ∃ pre post, cs = pre ++ post ∧ f.aac.events.reduceOption.length ≤ counted size pre := by
  have hgive : ∀ given d first (f : Filter α F σ) os x, IdleCount size given f os →
      aacw_encode l size f ⟨true,first,some d⟩ = some x → ∃ bound : Nat,
        Feed.Ends (IdleCount size (given ++ [d])) (BusyCount size (given ++ [d]) first)
          (OverCount size (given ++ [d]) first) (fun _ => 0) first os bound x := by
    intro given d first f os x hidle hx
    have hcount : counted size (given ++ [d]) = counted size given + d.length * size % 2 ^ 32 / size := by
      rw [counted,List.map_append,List.sum_append,List.map_cons,List.map_nil,List.sum_cons,List.sum_nil,
        Nat.add_zero,counted]
    unfold IdleCount at hidle
    refine filter_count (c := ⟨true,first,some d⟩) hl rfl ⟨?_,?_⟩ ?_ hx
    · rw [hcount]
      exact Nat.add_le_add_right hidle _
    · exact Nat.le_trans (Nat.div_le_div_right (Nat.mod_le _ _)) (Nat.le_of_eq (Nat.mul_div_cancel _ hsize))
    · rintro rfl
      exact Bool.or_true _
  have hbusy : ∀ given first (f : Filter α F σ) os x, BusyCount size given first f os →
      aacw_encode l size f ⟨false,first,none⟩ = some x → ∃ bound : Nat,
        Feed.Ends (IdleCount size given) (BusyCount size given first) (OverCount size given first)
          (fun _ => 0) first os bound x :=
    fun _ first _ _ _ h hx => filter_count (c := ⟨false,first,none⟩) hl rfl h.1 h.2 hx
  have hinit : IdleCount size ([] : List (List α)) (init s : Filter α F σ) [] := Nat.zero_le _
  exact Feed.drive_partial hgive hbusy hinit h

theorem small_of_drive {delayed : σ → Nat} (hl : l.Ok delayed) (hsize : 0 < size) {s : σ}
    {cs : List (List α)} {n : Nat} {f : Filter α F σ}
    (h : Feed.drive (aacw_encode l size) n (init s) cs = some (f,true,os)) (hfed : Fed cs f.aac os) :
    ∀ c ∈ cs, c.length * size < 2 ^ 32 := by
  obtain ⟨pre,post,rfl,hover⟩ := consumed_le hl hsize h
  obtain ⟨m,hevents⟩ := hfed.events
  have hlen : (List.replicate (m + 1) (none : Option α)).reduceOption = [] := by
    simp [List.reduceOption]
  have hsome (xs : List α) : (xs.map some).reduceOption = xs := by simp [List.reduceOption]
  rw [hevents,List.reduceOption_append,hlen,List.append_nil,hsome,List.flatten_append,
    List.length_append] at hover
  have hle := counted_le hsize pre
  intro c hc
  rcases List.mem_append.mp hc with hc | hc
  · exact hle.2 (by omega) c hc
  · have hlen := (List.sublist_flatten_of_mem hc).length_le
    rw [show c.length = 0 by omega,Nat.zero_mul]
    omega

/-- The encoder is fed as it has to be if and only if every chunk has less than `2 ^ 32` bytes. -/
theorem aac_encode_iff {delayed : σ → Nat} (hl : l.Ok delayed) (hsize : 0 < size) (s : σ)
    {cs : List (List α)} (hcs : cs ≠ []) :
    (∃ n a os, Feed.drive (aacw_encode l size) n (init s) cs = some (a,true,os) ∧ Fed cs a.aac os) ↔
      ∀ c ∈ cs, c.length * size < 2 ^ 32 :=
  ⟨fun ⟨_,_,_,h,hfed⟩ => small_of_drive hl hsize h hfed,aac_encode_all hl hsize s hcs⟩

/-- Frames of three samples; the state is the number of samples that are left over. -/
def threes : Lib Nat (List Nat) (List Nat) where
  encode s xs :=
    let n := min xs.length (3 - s.length)
    let s := s ++ xs.take n
    if s.length < 3 then (s,xs.length,none) else ([],max n 1,some s)
  flush s := if s = [] then none else some ([],s)

theorem threes_ok : threes.Ok List.length := by
  refine ⟨fun {s xs} hxs => ?_,fun {s xs} hxs => ?_,fun {s s' f} h => ?_⟩
  · have hpos := List.length_pos_iff.mpr hxs
    dsimp only [threes]
    split
    · exact ⟨hpos,Nat.le_refl _⟩
    · dsimp only
      omega
  · dsimp only [threes]
    split
    · exact fun _ => rfl
    · exact nofun
  · dsimp only [threes] at h
    split at h
    · cases h
    · next hne =>
      cases h
      exact List.length_pos_iff.mpr hne

theorem encode_four : (∃ n a os,
    Feed.drive (aacw_encode threes 4) n (init []) [[1,2],[],[3,4]] = some (a,true,os) ∧
      Fed [[1,2],[],[3,4]] a.aac os) ↔ ∀ c ∈ [[1,2],[],[3,4]], c.length * 4 < 2 ^ 32 :=
  aac_encode_iff threes_ok (by decide) [] (by decide)

theorem aac_long_chunk_fails : ¬∃ n a os,
    Feed.drive (aacw_encode threes 4) n (init []) [List.replicate (2 ^ 30) 0] = some (a,true,os) ∧
      Fed [List.replicate (2 ^ 30) 0] a.aac os := by
  rintro ⟨n,a,os,h,hfed⟩
  have hsmall := small_of_drive threes_ok (by decide) h hfed _ (List.mem_singleton_self _)
  rw [List.length_replicate] at hsmall
  omega

end Phiola.AacEnc
