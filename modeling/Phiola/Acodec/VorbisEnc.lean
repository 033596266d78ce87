import Mathlib.Algebra.Ring.Nat
import Mathlib.Algebra.Order.Group.Int
import Mathlib.Data.List.ReduceOption
import Phiola.Track.Feed

/-!
# Feeding the Vorbis encoder

`vorbis_out_encode()` once the input format is the right one. Samples of all channels are counted as one.
-/

namespace Phiola.VorbisEnc

open Feed (Call)

variable {α : Type}

/-! ## libvorbis -/

/-- How many blocks can be cut from the samples that were written, how many there are at the end, and the
granule position of each. -/
structure Lib where
  avail : Nat → Nat
  total : Nat → Nat
  granulepos : Nat → Nat

/-- More samples do not make less blocks, no sample makes none, and the end makes at least one more. -/
structure Lib.Ok (l : Lib) : Prop where
  zero : l.avail 0 = 0
  mono : ∀ {m n}, m ≤ n → l.avail m ≤ l.avail n
  last : ∀ n, l.avail n < l.total n

/-- What was written to the analysis, with the end marks, and the number of blocks that were cut. -/
structure Dsp (α : Type) where
  events : List (Option α)
  cut : Nat

def Dsp.written (d : Dsp α) : Nat := d.events.reduceOption.length

def Dsp.ended (d : Dsp α) : Bool := d.events.any Option.isNone

/-- `vorbis_analysis_blockout()`: the number of the block, and `e_o_s`. -/
def vorbis_analysis_blockout (l : Lib) (d : Dsp α) : Dsp α × Option (Nat × Bool) :=
  if d.cut < if d.ended then l.total d.written else l.avail d.written then
    ({d with cut := d.cut + 1},some (d.cut,d.ended && d.cut + 1 == l.total d.written))
  else (d,none)

/-- `vorbis_analysis_wrote()` of the first of these samples. -/
def vorbis_analysis_wrote (d : Dsp α) (pcm : List α) (samples : Int) : Dsp α :=
  {d with events := d.events ++ if 0 < samples then (pcm.take samples.toNat).map some else [none]}

/-- `vorbis_encode()`: a packet is its number, and `e_o_s`. -/
def vorbis_encode (l : Lib) (d : Dsp α) (pcm : List α) (samples : Int) : Dsp α × Option (Nat × Bool) :=
  match vorbis_analysis_blockout l d with
  | (d,some b) => (d,some b)
  | (d,none) =>
    if samples = 0 then (d,none) else vorbis_analysis_blockout l (vorbis_analysis_wrote d pcm samples)

/-! ## The filter -/

inductive State
  | hdr
  | comm
  | book
  | data
  | fin
deriving DecidableEq

/-- `struct vorbis_enc` with its `ffvorbis_enc`; `input` is `in`. -/
structure Enc (α : Type) where
  state : State
  input : List α
  dsp : Dsp α
  fin : Bool
  granulepos : Nat
  endpos : Nat

/-- What is passed on; a packet with `audio.pos`. -/
inductive Out
  | nothing
  | header (n : Nat)
  | packet (n pos : Nat)

/-- An unsigned number put into an integer of 32 bits. -/
def toInt (n : Nat) : Int := Int.bmod n (2 ^ 32)

/-- What follows a packet: the position is passed on, and the input is used up. -/
def packet (l : Lib) (v : Enc α) (d : Dsp α) (b : Nat × Bool) : Enc α × PhiR × Out :=
  ({v with
    state := if b.2 then .fin else v.state
    input := []
    dsp := d
    granulepos := l.granulepos b.1
    endpos := l.granulepos b.1},.data,.packet b.1 v.endpos)

/-- The loop of `ffvorbis_encode()`. There is no result where it does not end. -/
def encode_data (l : Lib) (v : Enc α) : Option (Enc α × PhiR × Out) :=
  match vorbis_encode l v.dsp v.input (toInt v.input.length) with
  | (d,some b) => some (packet l v d b)
  | (d,none) =>
    if v.fin then
      match vorbis_encode l d v.input (-1) with
      | (d,some b) => some (packet l v d b)
      | (_,none) => none
    else some ({v with dsp := d},.more,.nothing)

/-- `ffvorbis_encode()`, and what the filter does with its result. -/
def ffvorbis_encode (l : Lib) (v : Enc α) : Option (Enc α × PhiR × Out) :=
  match v.state with
  | .hdr => some ({v with state := .comm, endpos := v.granulepos},.data,.header 0)
  | .comm => some ({v with state := .book, endpos := v.granulepos},.data,.header 1)
  | .book => some ({v with state := .data, endpos := v.granulepos},.data,.header 2)
  | .data => encode_data l v
  | .fin => some (v,.done,.nothing)

/-- `vorbis_out_encode()`, from the state `W_CREATE` on. -/
def vorbis_out_encode (l : Lib) : Feed.Process (Enc α) (List α) Out := fun v c =>
  let v := if c.fwd then {v with input := c.data.getD []} else v
  ffvorbis_encode l (if c.first then {v with fin := true} else v)

/-- The filter before its first region. -/
def init : Enc α := ⟨.hdr,[],⟨[],0⟩,false,0,0⟩

/-! ## What is fed -/

variable {l : Lib}

/-- The position that goes with a packet: the granule position of the one before. -/
def pos (l : Lib) : Nat → Nat
  | 0 => 0
  | n + 1 => l.granulepos n

/-- The headers and the first packets. -/
def stream (l : Lib) (n : Nat) : List Out :=
  [Out.header 0,Out.header 1,Out.header 2] ++ (List.range n).map fun i => .packet i (pos l i)

/-- What is passed on, without the calls that pass nothing on. -/
def emitted (os : List Out) : List Out :=
  os.filter fun
    | .nothing => false
    | _ => true

/-- Every sample is written once and in order, then the end is marked, and the headers and all packets are
passed on. -/
structure Fed (l : Lib) (given : List (List α)) (d : Dsp α) (os : List Out) : Prop where
  events : d.events = given.flatten.map some ++ [none]
  emitted : emitted os = stream l (l.total given.flatten.length)

theorem emitted_nothing (os : List Out) : emitted (os ++ [Out.nothing]) = emitted os := by simp [emitted]

theorem emitted_snoc {os : List Out} {o : Out} (h : o ≠ .nothing) :
    emitted (os ++ [o]) = emitted os ++ [o] := by
  cases o with
  | nothing => exact absurd rfl h
  | _ => simp [emitted]

theorem stream_succ (l : Lib) (n : Nat) : stream l (n + 1) = stream l n ++ [Out.packet n (pos l n)] := by
  simp [stream,List.range_succ]

theorem written_some (xs : List α) (n : Nat) : Dsp.written ⟨xs.map some,n⟩ = xs.length := by
  simp [Dsp.written,List.reduceOption]

theorem ended_some (xs : List α) (n : Nat) : Dsp.ended ⟨xs.map some,n⟩ = false := by
  simp [Dsp.ended]

theorem written_end (xs : List α) (n : Nat) : Dsp.written ⟨xs.map some ++ [none],n⟩ = xs.length := by
  simp [Dsp.written,List.reduceOption]

theorem ended_end (xs : List α) (n : Nat) : Dsp.ended ⟨xs.map some ++ [none],n⟩ = true := by
  simp [Dsp.ended]

theorem blockout_some (xs : List α) (n : Nat) : vorbis_analysis_blockout l ⟨xs.map some,n⟩ =
    if n < l.avail xs.length then (⟨xs.map some,n + 1⟩,some (n,false)) else (⟨xs.map some,n⟩,none) := by
  unfold vorbis_analysis_blockout
  rw [ended_some,written_some]
  rfl

theorem blockout_end {xs : List α} {n : Nat} (h : n < l.total xs.length) :
    vorbis_analysis_blockout l ⟨xs.map some ++ [none],n⟩ =
      (⟨xs.map some ++ [none],n + 1⟩,some (n,n + 1 == l.total xs.length)) := by
  unfold vorbis_analysis_blockout
  rw [ended_end,written_end]
  exact if_pos h

theorem toInt_eq {n : Nat} (h : n < 2 ^ 31) : toInt n = n := Int.bmod_eq_of_le (by omega) (by omega)

theorem encode_some {xs ys : List α} {n : Nat} (hys : ys.length < 2 ^ 31)
    (h : ys ≠ [] → n = l.avail xs.length) : vorbis_encode l ⟨xs.map some,n⟩ ys (toInt ys.length) =
      vorbis_analysis_blockout l ⟨(xs ++ ys).map some,n⟩ := by
  unfold vorbis_encode
  rw [blockout_some,toInt_eq hys]
  by_cases hnil : ys = []
  · subst hnil
    rw [List.append_nil,blockout_some]
    by_cases hcut : n < l.avail xs.length
    · rw [if_pos hcut]
    · rw [if_neg hcut]
      rfl
  · have hpos := List.length_pos_iff.mpr hnil
    rw [if_neg (by rw [h hnil]; exact Nat.lt_irrefl _)]
    dsimp only
    rw [if_neg (by omega),vorbis_analysis_wrote,if_pos (by omega),Int.toNat_natCast,List.take_length,
      List.map_append]

theorem encode_end {xs pcm : List α} {n : Nat} (hl : l.Ok) (h : n = l.avail xs.length) :
    vorbis_encode l ⟨xs.map some,n⟩ pcm (-1) =
      (⟨xs.map some ++ [none],n + 1⟩,some (n,n + 1 == l.total xs.length)) := by
  unfold vorbis_encode
  rw [blockout_some,if_neg (by rw [h]; exact Nat.lt_irrefl _)]
  dsimp only
  rw [if_neg (by decide),vorbis_analysis_wrote,if_neg (by decide),
    blockout_end (by rw [h]; exact hl.last _)]

/-! ## The run -/

/-- The invariant until the last packet. -/
inductive Core (l : Lib) (given : List (List α)) (v : Enc α) (os : List Out) : Prop
  | start (hdsp : v.dsp = ⟨[],0⟩) (hgran : v.granulepos = 0) (hpos : v.endpos = 0)
      (hin : v.input = given.flatten) (hsmall : v.input.length < 2 ^ 31)
      (hstate : v.state = .hdr ∧ emitted os = [] ∨ v.state = .comm ∧ emitted os = [.header 0] ∨
        v.state = .book ∧ emitted os = [.header 0,.header 1])
  | data {xs : List α} {n : Nat} (hstate : v.state = .data) (hdsp : v.dsp = ⟨xs.map some,n⟩)
      (hall : xs ++ v.input = given.flatten) (hsmall : v.input.length < 2 ^ 31)
      (hle : n ≤ l.avail xs.length) (hfull : v.input ≠ [] → n = l.avail xs.length)
      (hpos : v.endpos = pos l n) (hout : emitted os = stream l n)
  | ended {n : Nat} (hstate : v.state = .data) (hdsp : v.dsp = ⟨given.flatten.map some ++ [none],n⟩)
      (hin : v.input = []) (hlt : n < l.total given.flatten.length) (hpos : v.endpos = pos l n)
      (hout : emitted os = stream l n) (hfin : v.fin = true)

def Idle (l : Lib) (given : List (List α)) (v : Enc α) (os : List Out) : Prop :=
  v.fin = false ∧ (v.state = .hdr ∧ given = [] ∧ v = init ∧ os = [] ∨
    v.state = .data ∧ v.dsp = ⟨given.flatten.map some,l.avail given.flatten.length⟩ ∧
      v.endpos = pos l (l.avail given.flatten.length) ∧
      emitted os = stream l (l.avail given.flatten.length))

def Busy (l : Lib) (given : List (List α)) (first : Bool) (v : Enc α) (os : List Out) : Prop :=
  v.fin = first ∧ (Core l given v os ∨ v.state = .fin ∧ first = true ∧ Fed l given v.dsp os)

def Over (l : Lib) (given : List (List α)) (first : Bool) (v : Enc α) (os : List Out) : Prop :=
  first = true ∧ Fed l given v.dsp os

/-- What is left to do when the filter is called again. -/
def left (l : Lib) (v : Enc α) : Nat :=
  l.total (v.dsp.written + v.input.length) - v.dsp.cut + match v.state with
    | .hdr => 5
    | .comm => 4
    | .book => 3
    | .data => 2
    | .fin => 0

variable {given : List (List α)} {v : Enc α} {os : List Out}

abbrev Step (l : Lib) (given : List (List α)) (first : Bool) :=
  Feed.Ends (Idle l given) (Busy l given first) (Over l given first) (left l) first

theorem packet_step (hl : l.Ok) {n : Nat} (hstate : v.state = .data)
    (hlt : n < l.avail given.flatten.length) (hpos : v.endpos = pos l n) (hout : emitted os = stream l n)
    {b : Nat} (hb : l.total given.flatten.length - n + 2 ≤ b) : Step l given v.fin os b
      (packet l v ⟨given.flatten.map some,n + 1⟩ (n,false)) := by
  refine .data ⟨rfl,.inl (@Core.data _ _ _ _ _ given.flatten _ hstate rfl (List.append_nil _) (by simp)
    hlt (fun h => absurd rfl h) rfl ?_)⟩ ?_
  · rw [emitted_snoc (by nofun),hout,hpos,stream_succ]
  · have := hl.last given.flatten.length
    simp only [left,written_some,hstate,List.length_nil,Nat.add_zero,Bool.false_eq_true,if_false]
    omega

theorem packet_end {n : Nat} (hstate : v.state = .data) (hfin : v.fin = true)
    (hlt : n < l.total given.flatten.length) (hpos : v.endpos = pos l n) (hout : emitted os = stream l n)
    {b : Nat} (hb : l.total given.flatten.length - n + 2 ≤ b) : Step l given v.fin os b
      (packet l v ⟨given.flatten.map some ++ [none],n + 1⟩ (n,n + 1 == l.total given.flatten.length)) := by
  have hout' : emitted (os ++ [Out.packet n v.endpos]) = stream l (n + 1) := by
    rw [emitted_snoc (by nofun),hout,hpos,stream_succ]
  by_cases hlast : n + 1 = l.total given.flatten.length
  · refine .data ⟨rfl,.inr ⟨by simp [hlast],hfin,rfl,?_⟩⟩ ?_
    · rw [← hlast]
      exact hout'
    · simp only [left,written_end,List.length_nil,Nat.add_zero,hlast,beq_self_eq_true,if_true]
      omega
  · have hne : (n + 1 == l.total given.flatten.length) = false := by simpa using hlast
    refine .data ⟨rfl,.inl (.ended (n := n + 1) ?_ rfl rfl (by omega) rfl hout' hfin)⟩ ?_
    · dsimp only
      rw [hne]
      exact hstate
    · simp only [left,written_end,hne,hstate,List.length_nil,Nat.add_zero,Bool.false_eq_true,
        if_false]
      omega

theorem core_step (hl : l.Ok) (h : Core l given v os) :
    ∃ x, ffvorbis_encode l v = some x ∧ Step l given v.fin os (left l v) x := by
  unfold ffvorbis_encode
  cases h with
  | start hdsp hgran hpos hin hsmall hstate =>
    rcases hstate with ⟨hstate,hout⟩ | ⟨hstate,hout⟩ | ⟨hstate,hout⟩
    · rw [hstate]
      refine ⟨_,rfl,.data ⟨rfl,.inl (.start hdsp hgran hgran hin hsmall (.inr (.inl ⟨rfl,?_⟩)))⟩ ?_⟩
      · rw [emitted_snoc (by nofun),hout]
        rfl
      · simp [left,hstate]
    · rw [hstate]
      refine ⟨_,rfl,.data ⟨rfl,.inl (.start hdsp hgran hgran hin hsmall (.inr (.inr ⟨rfl,?_⟩)))⟩ ?_⟩
      · rw [emitted_snoc (by nofun),hout]
        rfl
      · simp [left,hstate]
    · rw [hstate]
      refine ⟨_,rfl,.data ⟨rfl,.inl (@Core.data _ _ _ _ _ [] 0 rfl hdsp hin hsmall (Nat.zero_le _)
        (fun _ => hl.zero.symm) hgran ?_)⟩ ?_⟩
      · rw [emitted_snoc (by nofun),hout]
        rfl
      · simp [left,hstate]
  | data hstate hdsp hall hsmall hle hfull hpos hout =>
    rename_i xs n
    have hlen : xs.length + v.input.length = given.flatten.length := by rw [← hall,List.length_append]
    have hbound : l.total given.flatten.length - n + 2 ≤ left l v := by
      simp only [left,hstate,hdsp,written_some,hlen]
      omega
    have henc : vorbis_encode l v.dsp v.input (toInt v.input.length) =
        vorbis_analysis_blockout l ⟨given.flatten.map some,n⟩ := by
      rw [hdsp,encode_some hsmall hfull,hall]
    rw [hstate]
    dsimp only [encode_data]
    rw [henc,blockout_some]
    by_cases hcut : n < l.avail given.flatten.length
    · rw [if_pos hcut]
      exact ⟨_,rfl,packet_step hl hstate hcut hpos hout hbound⟩
    · have hn : n = l.avail given.flatten.length := by
        have := hl.mono (show xs.length ≤ given.flatten.length by omega)
        omega
      rw [if_neg hcut]
      cases hfin : v.fin with
      | false =>
        refine ⟨_,rfl,.more rfl ⟨rfl,.inr ⟨hstate,?_,?_,?_⟩⟩⟩
        · rw [← hn]
        · rw [← hn]
          exact hpos
        · rw [emitted_nothing,← hn]
          exact hout
      | true =>
        dsimp only
        rw [if_pos rfl,encode_end hl hn]
        refine ⟨_,rfl,?_⟩
        have hstep := packet_end hstate hfin (by rw [hn]; exact hl.last _) hpos hout hbound
        rwa [hfin] at hstep
  | ended hstate hdsp hin hlt hpos hout hfin =>
    rename_i n
    have hbound : l.total given.flatten.length - n + 2 ≤ left l v := by
      simp only [left,hstate,hdsp,hin,written_end,List.length_nil,Nat.add_zero]
      omega
    have henc : vorbis_encode l v.dsp v.input (toInt v.input.length) =
        (⟨given.flatten.map some ++ [none],n + 1⟩,some (n,n + 1 == l.total given.flatten.length)) := by
      unfold vorbis_encode
      rw [hdsp,blockout_end hlt]
    rw [hstate]
    dsimp only [encode_data]
    rw [henc]
    exact ⟨_,rfl,packet_end hstate hfin hlt hpos hout hbound⟩

theorem busy_step (hl : l.Ok) {first : Bool} (h : Busy l given first v os) :
    ∃ x, vorbis_out_encode l v ⟨false,first,none⟩ = some x ∧ Step l given first os (left l v) x := by
  obtain ⟨hfin,h⟩ := h
  have heq : vorbis_out_encode l v ⟨false,first,none⟩ = ffvorbis_encode l v := by
    unfold vorbis_out_encode
    cases first with
    | false => rfl
    | true =>
      have hv : ({v with fin := true} : Enc α) = v := by rw [← hfin]
      exact congrArg (ffvorbis_encode l) hv
  rw [heq]
  rcases h with hcore | ⟨hstate,hfirst,hfed⟩
  · exact hfin ▸ core_step hl hcore
  · refine ⟨(v,.done,.nothing),by rw [ffvorbis_encode,hstate],.done ⟨hfirst,hfed.events,?_⟩⟩
    rw [emitted_nothing]
    exact hfed.emitted

theorem idle_step (hl : l.Ok) {d : List α} {first : Bool} (hd : d.length < 2 ^ 31) (h : Idle l given v os) :
    ∃ x bound, vorbis_out_encode l v ⟨true,first,some d⟩ = some x ∧
      Step l (given ++ [d]) first os bound x := by
  obtain ⟨hfin,h⟩ := h
  generalize hv : ({v with input := d, fin := first} : Enc α) = w
  have heq : vorbis_out_encode l v ⟨true,first,some d⟩ = ffvorbis_encode l w := by
    rw [← hv]
    unfold vorbis_out_encode
    cases first <;> simp [hfin]
  have hcore : Core l (given ++ [d]) w os := by
    rcases h with ⟨-,rfl,rfl,rfl⟩ | ⟨hstate,hdsp,hpos,hout⟩
    · subst hv
      exact .start rfl rfl rfl (by simp) hd (.inl ⟨rfl,rfl⟩)
    · subst hv
      exact .data hstate hdsp (by simp) hd (Nat.le_refl _) (fun _ => rfl) hpos hout
  obtain ⟨x,hx,hstep⟩ := core_step hl hcore
  have hw : w.fin = first := by rw [← hv]
  rw [hw] at hstep
  exact ⟨x,_,heq.trans hx,hstep⟩

theorem init_idle : Idle l [] (init : Enc α) [] := ⟨rfl,.inl ⟨rfl,rfl,rfl,rfl⟩⟩

theorem vorbis_encode_all (hl : l.Ok) {cs : List (List α)} (hcs : cs ≠ []) (hsmall : ∀ c ∈ cs, c.length < 2 ^ 31) :
    ∃ n v os, Feed.drive (vorbis_out_encode l) n init cs = some (v,true,os) ∧ Fed l cs v.dsp os := by
  have hgive : ∀ given d first (v : Enc α) os, d.length < 2 ^ 31 → Idle l given v os → ∃ x bound,
      vorbis_out_encode l v ⟨true,first,some d⟩ = some x ∧ Step l (given ++ [d]) first os bound x :=
    fun _ _ _ _ _ hd h => idle_step hl hd h
  have hbusy : ∀ given first (v : Enc α) os, Busy l given first v os → ∃ x,
      vorbis_out_encode l v ⟨false,first,none⟩ = some x ∧ Step l given first os (left l v) x :=
    fun _ _ _ _ h => busy_step hl h
  obtain ⟨n,v,os,pre,post,hdrive,rfl,hfirst,hfed⟩ := Feed.drive_rule
    (P := fun _ d _ => d.length < 2 ^ 31) hgive hbusy hcs init_idle
    fun pre d post hsplit => hsmall d (by rw [hsplit]; simp)
  obtain rfl := List.isEmpty_iff.mp hfirst
  exact ⟨n,v,os,hdrive,by simpa using hfed⟩

/-! ## Chunks that are too long -/

/-- The number of samples that is written for a chunk is an integer of 32 bits. -/
def counted (cs : List (List α)) : Nat := (cs.map fun c => (toInt c.length).toNat).sum

theorem toInt_zero : (toInt 0).toNat = 0 := by decide

theorem toInt_le (n : Nat) : toInt n ≤ n ∧ toInt n < 2 ^ 31 := by
  unfold toInt Int.bmod
  dsimp only
  split <;> omega

theorem encode_written (d : Dsp α) (pcm : List α) (samples : Int) :
    (vorbis_encode l d pcm samples).1.written ≤ d.written + samples.toNat := by
  have hblock (d : Dsp α) : (vorbis_analysis_blockout l d).1.written = d.written := by
    unfold vorbis_analysis_blockout
    generalize (if d.ended then l.total d.written else l.avail d.written) = n
    split <;> rfl
  have hwrote (d : Dsp α) : (vorbis_analysis_wrote d pcm samples).written ≤ d.written + samples.toNat := by
    simp only [vorbis_analysis_wrote,Dsp.written,List.reduceOption_append,List.length_append]
    split
    · have hle := List.reduceOption_length_le ((pcm.take samples.toNat).map some)
      rw [List.length_map,List.length_take] at hle
      omega
    · simp [List.reduceOption]
  have h := hblock d
  unfold vorbis_encode
  rcases hb : vorbis_analysis_blockout l d with ⟨d',_ | b⟩
  · rw [hb] at h
    dsimp only at h ⊢
    split
    · dsimp only
      omega
    · rw [hblock,← h]
      exact hwrote d'
  · rw [hb] at h
    dsimp only at h ⊢
    omega

def IdleCount (given : List (List α)) (v : Enc α) (_ : List Out) : Prop := v.dsp.written ≤ counted given

def BusyCount (given : List (List α)) (first : Bool) (v : Enc α) (_ : List Out) : Prop :=
  v.dsp.written + (toInt v.input.length).toNat ≤ counted given ∧ (first = true → v.fin = true)

def OverCount (given : List (List α)) (_ : Bool) (v : Enc α) (_ : List Out) : Prop :=
  v.dsp.written ≤ counted given

theorem count_step {v : Enc α} {first : Bool} {x : Enc α × PhiR × Out} (h : BusyCount given first v os)
    (hx : ffvorbis_encode l v = some x) : ∃ bound, Feed.Ends (IdleCount given) (BusyCount given first)
      (OverCount given first) (fun _ => 0) first os bound x := by
  obtain ⟨hle,hfin⟩ := h
  refine ⟨1,?_⟩
  unfold ffvorbis_encode at hx
  cases hstate : v.state with
  | hdr =>
    rw [hstate] at hx
    cases hx
    exact .data ⟨hle,hfin⟩ Nat.one_pos
  | comm =>
    rw [hstate] at hx
    cases hx
    exact .data ⟨hle,hfin⟩ Nat.one_pos
  | book =>
    rw [hstate] at hx
    cases hx
    exact .data ⟨hle,hfin⟩ Nat.one_pos
  | fin =>
    rw [hstate] at hx
    cases hx
    exact .done (show v.dsp.written ≤ _ by omega)
  | data =>
    rw [hstate] at hx
    dsimp only [encode_data] at hx
    have hfirst := encode_written (l := l) v.dsp v.input (toInt v.input.length)
    rcases hb : vorbis_encode l v.dsp v.input (toInt v.input.length) with ⟨d,_ | b⟩
    · rw [hb] at hx hfirst
      dsimp only at hx hfirst
      split at hx
      · have hsecond := encode_written (l := l) d v.input (-1)
        rcases hb' : vorbis_encode l d v.input (-1) with ⟨d',_ | b⟩
        · rw [hb'] at hx
          cases hx
        · rw [hb'] at hx hsecond
          cases hx
          refine .data ⟨show d'.written + (toInt 0).toNat ≤ _ from ?_,hfin⟩ Nat.one_pos
          rw [toInt_zero]
          dsimp only at hsecond
          omega
      · next hnot =>
        cases hx
        refine .more ?_ (show d.written ≤ _ by omega)
        cases first with
        | false => rfl
        | true => exact absurd (hfin rfl) hnot
    · rw [hb] at hx hfirst
      cases hx
      refine .data ⟨show d.written + (toInt 0).toNat ≤ _ from ?_,hfin⟩ Nat.one_pos
      rw [toInt_zero]
      dsimp only at hfirst
      omega

theorem counted_le (cs : List (List α)) : counted cs ≤ cs.flatten.length ∧
    (counted cs = cs.flatten.length → ∀ c ∈ cs, c.length < 2 ^ 31) := by
  induction cs with
  | nil => exact ⟨Nat.le_refl _,fun _ => nofun⟩
  | cons c cs ih =>
    have hc := toInt_le c.length
    have heq : counted (c :: cs) = (toInt c.length).toNat + counted cs := rfl
    rw [heq,List.flatten_cons,List.length_append]
    refine ⟨by omega,fun h => List.forall_mem_cons.mpr ⟨by omega,ih.2 (by omega)⟩⟩

theorem entered (v : Enc α) (c : Call (List α)) : ∃ w, vorbis_out_encode l v c = ffvorbis_encode l w ∧
    w.dsp = v.dsp ∧ w.input = (if c.fwd then c.data.getD [] else v.input) ∧
      (c.first = true → w.fin = true) := by
  refine ⟨_,rfl,?_,?_,fun hfirst => by rw [if_pos hfirst]⟩
  all_goals split <;> split <;> rfl

theorem idle_count {v : Enc α} {d : List α} {first : Bool} {x : Enc α × PhiR × Out}
    (h : IdleCount given v os) (hx : vorbis_out_encode l v ⟨true,first,some d⟩ = some x) :
    ∃ bound, Feed.Ends (IdleCount (given ++ [d])) (BusyCount (given ++ [d]) first)
      (OverCount (given ++ [d]) first) (fun _ => 0) first os bound x := by
  have hcount : counted (given ++ [d]) = counted given + (toInt d.length).toNat := by
    rw [counted,List.map_append,List.sum_append,List.map_cons,List.map_nil,List.sum_cons,List.sum_nil,
      Nat.add_zero,counted]
  unfold IdleCount at h
  obtain ⟨w,hw,hdsp,hin,hfin⟩ := entered (l := l) v ⟨true,first,some d⟩
  refine count_step (v := w) ⟨?_,hfin⟩ (hw.symm.trans hx)
  rw [hdsp,hin,if_pos rfl,Option.getD_some]
  omega

theorem busy_count {v : Enc α} {first : Bool} {x : Enc α × PhiR × Out} (h : BusyCount given first v os)
    (hx : vorbis_out_encode l v ⟨false,first,none⟩ = some x) :
    ∃ bound, Feed.Ends (IdleCount given) (BusyCount given first) (OverCount given first) (fun _ => 0) first
      os bound x := by
  obtain ⟨w,hw,hdsp,hin,hfin⟩ := entered (l := l) v ⟨false,first,none⟩
  refine count_step (v := w) ⟨?_,hfin⟩ (hw.symm.trans hx)
  rw [hdsp,hin,if_neg nofun]
  exact h.1

theorem written_le {cs : List (List α)} {n : Nat} {v : Enc α}
    (h : Feed.drive (vorbis_out_encode l) n init cs = some (v,true,os)) :
    ∃ pre post, cs = pre ++ post ∧ v.dsp.written ≤ counted pre := by
  have hgive : ∀ given d first (v : Enc α) os x, IdleCount given v os →
      vorbis_out_encode l v ⟨true,first,some d⟩ = some x → ∃ bound,
        Feed.Ends (IdleCount (given ++ [d])) (BusyCount (given ++ [d]) first)
          (OverCount (given ++ [d]) first) (fun _ => 0) first os bound x :=
    fun _ _ _ _ _ _ h hx => idle_count h hx
  have hbusy : ∀ given first (v : Enc α) os x, BusyCount given first v os →
      vorbis_out_encode l v ⟨false,first,none⟩ = some x → ∃ bound,
        Feed.Ends (IdleCount given) (BusyCount given first) (OverCount given first) (fun _ => 0) first os
          bound x := fun _ _ _ _ _ h hx => busy_count h hx
  have hinit : IdleCount ([] : List (List α)) init ([] : List Out) := Nat.zero_le _
  exact Feed.drive_partial hgive hbusy hinit h

theorem small_of_drive {cs : List (List α)} {n : Nat} {v : Enc α}
    (h : Feed.drive (vorbis_out_encode l) n init cs = some (v,true,os)) (hfed : Fed l cs v.dsp os) :
    ∀ c ∈ cs, c.length < 2 ^ 31 := by
  obtain ⟨pre,post,rfl,hover⟩ := written_le h
  have hwritten : v.dsp.written = (pre ++ post).flatten.length :=
    (congrArg (fun e => Dsp.written ⟨e,0⟩) hfed.events).trans (written_end _ _)
  rw [List.flatten_append,List.length_append] at hwritten
  have hle := counted_le pre
  intro c hc
  rcases List.mem_append.mp hc with hc | hc
  · exact hle.2 (by omega) c hc
  · have := (List.sublist_flatten_of_mem hc).length_le
    omega

/-- The encoder is fed as it has to be if and only if every chunk has less than `2 ^ 31` samples. -/
theorem vorbis_encode_iff (hl : l.Ok) {cs : List (List α)} (hcs : cs ≠ []) :
    (∃ n v os, Feed.drive (vorbis_out_encode l) n init cs = some (v,true,os) ∧ Fed l cs v.dsp os) ↔
      ∀ c ∈ cs, c.length < 2 ^ 31 :=
  ⟨fun ⟨_,_,_,h,hfed⟩ => small_of_drive h hfed,vorbis_encode_all hl hcs⟩

/-- Blocks of four samples. -/
def blocks : Lib := ⟨fun n => n / 4,fun n => n / 4 + 1,fun n => 4 * (n + 1)⟩

theorem blocks_ok : blocks.Ok := ⟨rfl,fun h => Nat.div_le_div_right h,fun _ => Nat.lt_succ_self _⟩

theorem encode_three : (∃ n v os,
    Feed.drive (vorbis_out_encode blocks) n init [[1,2,3,4,5],[],[6]] = some (v,true,os) ∧
      Fed blocks [[1,2,3,4,5],[],[6]] v.dsp os) ↔ ∀ c ∈ [[1,2,3,4,5],[],[6]], c.length < 2 ^ 31 :=
  vorbis_encode_iff blocks_ok (by decide)

theorem long_chunk_fails : ¬∃ n v os,
    Feed.drive (vorbis_out_encode blocks) n init [List.replicate (2 ^ 31) ()] = some (v,true,os) ∧
      Fed blocks [List.replicate (2 ^ 31) ()] v.dsp os := by
  rintro ⟨n,v,os,h,hfed⟩
  have hsmall := small_of_drive h hfed _ (List.mem_singleton_self _)
  rw [List.length_replicate] at hsmall
  exact Nat.lt_irrefl _ hsmall

end Phiola.VorbisEnc
