import Mathlib.Algebra.Ring.Nat
import Phiola.Track.Feed

/-!
# Feeding the Opus encoder

`opus_enc_encode()` once the input format is the right one. Samples of all channels are counted as one.
-/

namespace Phiola.OpusEnc

open Feed (Call)

variable {α : Type}

inductive State
  | hdr
  | tags
  | data1
  | data
  | done
deriving DecidableEq

/-- `ffopus_enc` -/
structure Enc (α : Type) where
  state : State
  pcm : List α
  bufpcm : List α
  fin : Bool
  granulepos : Nat

/-- What is passed on; a packet with the samples that were encoded and `granulepos` after it. -/
inductive Out (α : Type)
  | nothing
  | header
  | tags
  | packet (samples : List α) (granulepos : Nat)

/-- `ffstr_gather()`: how many samples were taken, the buffer, and the block if there is one. -/
def ffstr_gather (buf input : List α) (size : Nat) : Nat × List α × List α :=
  if buf = [] ∧ size ≤ input.length then (size,buf,input.take size)
  else
    let n := min input.length (size - buf.length)
    let buf := buf ++ input.take n
    (n,buf,if buf.length = size then buf else [])

/-- `ffopus_encode()` in the state `W_DATA`. -/
def encode_data (zero : α) (fr_samples : Nat) (o : Enc α) : Enc α × PhiR × Out α :=
  let (n,buf,d) := ffstr_gather o.bufpcm o.pcm fr_samples
  let o := {o with pcm := o.pcm.drop n, bufpcm := buf}
  if d = [] then
    if o.fin then
      let samples := o.bufpcm.length
      let d := o.bufpcm ++ List.replicate (fr_samples - samples) zero
      let o := {o with state := .done, bufpcm := [], granulepos := o.granulepos + samples}
      (o,.data,.packet d o.granulepos)
    else ({o with pcm := []},.more,.nothing)
  else
    let o := {o with bufpcm := [], granulepos := o.granulepos + fr_samples}
    (o,.data,.packet d o.granulepos)

/-- `ffopus_encode()` -/
def ffopus_encode (zero : α) (preskip fr_samples : Nat) (o : Enc α) : Enc α × PhiR × Out α :=
  match o.state with
  | .hdr => ({o with state := .tags},.data,.header)
  | .tags => ({o with state := .data1},.data,.tags)
  | .data1 =>
    encode_data zero fr_samples {o with state := .data, bufpcm := List.replicate preskip zero}
  | .data => encode_data zero fr_samples o
  | .done => (o,.done,.nothing)

/-- `opus_enc_encode()`, from the state `W_CREATE` on. -/
def opus_enc_encode (zero : α) (preskip fr_samples : Nat) : Feed.Process (Enc α) (List α) (Out α) :=
  fun o c =>
    let o := if c.first then {o with fin := true} else o
    let o := if c.fwd then {o with pcm := c.data.getD []} else o
    some (ffopus_encode zero preskip fr_samples o)

/-- The filter before its first region. -/
def init : Enc α := ⟨.hdr,[],[],false,0⟩

/-! ## What is fed -/

variable {zero : α} {preskip size : Nat}

/-- The packets with `granulepos` after each of them. -/
def packets (os : List (Out α)) : List (List α × Nat) :=
  os.filterMap fun
    | .packet xs pos => some (xs,pos)
    | _ => none

/-- The packets are full, `granulepos` does not decrease and is at last the number of samples with those of
the pre-skip, and the packets hold the pre-skip, all samples once and in order, and silence. -/
structure Fed (zero : α) (preskip size : Nat) (given : List (List α)) (os : List (Out α)) : Prop where
  full : ∀ x ∈ packets os, x.1.length = size
  ascending : ((packets os).map Prod.snd).Pairwise (· ≤ ·)
  last : ((packets os).map Prod.snd).getLast? = some (preskip + given.flatten.length)
  samples : ∃ n, n ≤ size ∧ (packets os).flatMap Prod.fst =
    List.replicate preskip zero ++ given.flatten ++ List.replicate n zero

/-- What was encoded while there were whole packets. -/
structure Whole (size : Nat) (granulepos : Nat) (os : List (Out α)) : Prop where
  full : ∀ x ∈ packets os, x.1.length = size
  ascending : ((packets os).map Prod.snd).Pairwise (· ≤ ·)
  below : ∀ x ∈ packets os, x.2 ≤ granulepos
  sum : ((packets os).flatMap Prod.fst).length = granulepos

theorem packets_quiet {os : List (Out α)} {o : Out α} (h : ∀ xs pos, o ≠ .packet xs pos) :
    packets (os ++ [o]) = packets os := by
  cases o with
  | packet xs pos => exact absurd rfl (h xs pos)
  | _ => simp [packets]

theorem packets_snoc (os : List (Out α)) (xs : List α) (pos : Nat) :
    packets (os ++ [Out.packet xs pos]) = packets os ++ [(xs,pos)] := by simp [packets]

theorem Whole.snoc {os : List (Out α)} {pos : Nat} (h : Whole size pos os) {xs : List α}
    (hxs : xs.length = size) : Whole size (pos + size) (os ++ [Out.packet xs (pos + size)]) := by
  refine ⟨?_,?_,?_,?_⟩
  all_goals rw [packets_snoc]
  · intro x hx
    rcases List.mem_append.mp hx with hx | hx
    · exact h.full x hx
    · obtain rfl := List.mem_singleton.mp hx
      exact hxs
  · rw [List.map_append,List.pairwise_append]
    refine ⟨h.ascending,List.pairwise_singleton _ _,?_⟩
    intro a ha b hb
    obtain ⟨x,hx,rfl⟩ := List.mem_map.mp ha
    obtain rfl := List.mem_singleton.mp hb
    exact Nat.le_trans (h.below x hx) (Nat.le_add_right _ _)
  · intro x hx
    rcases List.mem_append.mp hx with hx | hx
    · exact Nat.le_trans (h.below x hx) (Nat.le_add_right _ _)
    · obtain rfl := List.mem_singleton.mp hx
      exact Nat.le_refl _
  · simp [h.sum,hxs]

theorem gather_full {buf input : List α} (hbuf : buf.length < size)
    (h : size ≤ buf.length + input.length) :
    ∃ n, 0 < n ∧ n ≤ input.length ∧ ∃ buf', ffstr_gather buf input size = (n,buf',buf ++ input.take n) ∧
      (buf ++ input.take n).length = size := by
  unfold ffstr_gather
  by_cases hempty : buf = [] ∧ size ≤ input.length
  · obtain ⟨rfl,hle⟩ := hempty
    refine ⟨size,hbuf,hle,[],by rw [if_pos ⟨rfl,hle⟩,List.nil_append],?_⟩
    rw [List.nil_append,List.length_take,Nat.min_eq_left hle]
  · have hmin : min input.length (size - buf.length) = size - buf.length := by omega
    have hlen : (buf ++ input.take (size - buf.length)).length = size := by
      rw [List.length_append,List.length_take]
      omega
    refine ⟨size - buf.length,by omega,by omega,buf ++ input.take (size - buf.length),?_,hlen⟩
    rw [if_neg hempty]
    dsimp only
    rw [hmin,if_pos hlen]

theorem gather_part {buf input : List α} (h : buf.length + input.length < size) :
    ffstr_gather buf input size = (input.length,buf ++ input,[]) := by
  unfold ffstr_gather
  dsimp only
  rw [if_neg (fun hle => by omega),Nat.min_eq_left (by omega),List.take_length,
    if_neg (by rw [List.length_append]; omega)]

/-! ## The run -/

/-- The invariant until the last packet. -/
inductive Core (zero : α) (preskip size : Nat) (given : List (List α)) (o : Enc α) (os : List (Out α)) : Prop
  | start (hstate : o.state = .hdr ∨ o.state = .tags ∨ o.state = .data1) (hnone : packets os = [])
      (hpos : o.granulepos = 0) (hpcm : o.pcm = given.flatten)
  | data (hstate : o.state = .data) (hroom : o.bufpcm.length < size) (hwhole : Whole size o.granulepos os)
      (hall : (packets os).flatMap Prod.fst ++ o.bufpcm ++ o.pcm =
        List.replicate preskip zero ++ given.flatten)

def Idle (zero : α) (preskip size : Nat) (given : List (List α)) (o : Enc α) (os : List (Out α)) : Prop :=
  o.fin = false ∧ (o.state = .hdr ∧ given = [] ∨ o.state = .data ∧ o.pcm = []) ∧
    Core zero preskip size given o os

def Busy (zero : α) (preskip size : Nat) (given : List (List α)) (first : Bool) (o : Enc α)
    (os : List (Out α)) : Prop :=
  o.fin = first ∧ (Core zero preskip size given o os ∨
    o.state = .done ∧ first = true ∧ Fed zero preskip size given os)

def Over (zero : α) (preskip size : Nat) (given : List (List α)) (first : Bool) (os : List (Out α)) : Prop :=
  first = true ∧ Fed zero preskip size given os

/-- What is left to do when the filter is called again. -/
def left (o : Enc α) : Nat :=
  o.pcm.length + match o.state with
    | .hdr => 4
    | .tags => 3
    | .data1 => 2
    | .data => 1
    | .done => 0

variable {given : List (List α)} {o : Enc α} {os : List (Out α)}

abbrev Step (zero : α) (preskip size : Nat) (given : List (List α)) (first : Bool) :=
  Feed.Ends (Idle zero preskip size given) (Busy zero preskip size given first)
    (fun _ => Over zero preskip size given first) left first

theorem fed_last {pos : Nat} {buf : List α} (hroom : buf.length < size) (hwhole : Whole size pos os)
    (hall : (packets os).flatMap Prod.fst ++ buf = List.replicate preskip zero ++ given.flatten) :
    Fed zero preskip size given (os ++ [Out.packet (buf ++ List.replicate (size - buf.length) zero)
      (pos + buf.length)]) := by
  have hlen : pos + buf.length = preskip + given.flatten.length := by
    have h := congrArg List.length hall
    rw [List.length_append,List.length_append,List.length_replicate,hwhole.sum] at h
    exact h
  refine ⟨?_,?_,?_,size - buf.length,Nat.sub_le _ _,?_⟩
  all_goals rw [packets_snoc]
  · intro x hx
    rcases List.mem_append.mp hx with hx | hx
    · exact hwhole.full x hx
    · obtain rfl := List.mem_singleton.mp hx
      rw [List.length_append,List.length_replicate]
      omega
  · rw [List.map_append,List.pairwise_append]
    refine ⟨hwhole.ascending,List.pairwise_singleton _ _,?_⟩
    intro a ha b hb
    obtain ⟨x,hx,rfl⟩ := List.mem_map.mp ha
    obtain rfl := List.mem_singleton.mp hb
    exact Nat.le_trans (hwhole.below x hx) (Nat.le_add_right _ _)
  · simp [hlen]
  · rw [← hall]
    simp

theorem encode_data_step (hroom : o.bufpcm.length < size) (hwhole : Whole size o.granulepos os)
    (hstate : o.state = .data)
    (hall : (packets os).flatMap Prod.fst ++ o.bufpcm ++ o.pcm =
      List.replicate preskip zero ++ given.flatten) :
    Step zero preskip size given o.fin os (left o) (encode_data zero size o) := by
  unfold encode_data
  by_cases hfull : size ≤ o.bufpcm.length + o.pcm.length
  · obtain ⟨n,hpos,hle,buf,hgather,hlen⟩ := gather_full hroom hfull
    have hne : o.bufpcm ++ o.pcm.take n ≠ [] := fun hnil => by
      rw [hnil] at hlen
      simp only [List.length_nil] at hlen
      omega
    rw [hgather]
    dsimp only
    rw [if_neg hne]
    refine .data ⟨rfl,.inl (.data hstate (Nat.lt_of_le_of_lt (Nat.zero_le _) hroom) (hwhole.snoc hlen) ?_)⟩ ?_
    · rw [packets_snoc,← hall]
      simp
    · simp only [left,hstate,List.length_drop]
      omega
  · rw [gather_part (by omega)]
    dsimp only
    rw [if_pos rfl]
    have hroom' : (o.bufpcm ++ o.pcm).length < size := by
      rw [List.length_append]
      omega
    have hall' : (packets os).flatMap Prod.fst ++ (o.bufpcm ++ o.pcm) =
        List.replicate preskip zero ++ given.flatten := by rw [← List.append_assoc,hall]
    cases hfin : o.fin with
    | false =>
      rw [if_neg nofun]
      have hq : packets (os ++ [Out.nothing]) = packets os := packets_quiet (by nofun)
      refine .more rfl ⟨rfl,.inr ⟨hstate,rfl⟩,.data hstate hroom' ⟨?_,?_,?_,?_⟩ ?_⟩
      all_goals rw [hq]
      · exact hwhole.full
      · exact hwhole.ascending
      · exact hwhole.below
      · exact hwhole.sum
      · rw [List.append_nil]
        exact hall'
    | true =>
      rw [if_pos rfl]
      refine .data ⟨rfl,.inr ⟨rfl,rfl,fed_last hroom' hwhole hall'⟩⟩ ?_
      simp only [left,hstate,List.length_drop]
      omega

theorem encode_step (hpre : preskip < size) (h : Core zero preskip size given o os) :
    Step zero preskip size given o.fin os (left o) (ffopus_encode zero preskip size o) := by
  unfold ffopus_encode
  cases h with
  | data hstate hroom hwhole hall =>
    rw [hstate]
    exact encode_data_step hroom hwhole hstate hall
  | start hstate hnone hpos hpcm =>
    rcases hstate with hstate | hstate | hstate
    · rw [hstate]
      refine .data ⟨rfl,.inl (.start (.inr (.inl rfl)) ?_ hpos hpcm)⟩ (by simp [left,hstate])
      rw [packets_quiet (by nofun),hnone]
    · rw [hstate]
      refine .data ⟨rfl,.inl (.start (.inr (.inr rfl)) ?_ hpos hpcm)⟩ (by simp [left,hstate])
      rw [packets_quiet (by nofun),hnone]
    · rw [hstate]
      refine (encode_data_step (o := {o with state := .data, bufpcm := List.replicate preskip zero}) ?_
        ⟨?_,?_,?_,?_⟩ rfl ?_).le (by simp [left,hstate])
      · rw [List.length_replicate]
        exact hpre
      all_goals rw [hnone]
      · exact nofun
      · exact .nil
      · exact nofun
      · exact hpos.symm
      · rw [hpcm]
        simp

theorem init_idle : Idle zero preskip size [] init [] :=
  ⟨rfl,.inl ⟨rfl,rfl⟩,.start (.inl rfl) rfl rfl rfl⟩

theorem idle_step (hpre : preskip < size) {d : List α} {first : Bool}
    (h : Idle zero preskip size given o os) : ∃ x bound,
      opus_enc_encode zero preskip size o ⟨true,first,some d⟩ = some x ∧
        Step zero preskip size (given ++ [d]) first os bound x := by
  obtain ⟨hfin,hstate,hcore⟩ := h
  generalize ho : ({o with pcm := d, fin := first} : Enc α) = o'
  have heq : opus_enc_encode zero preskip size o ⟨true,first,some d⟩ =
      some (ffopus_encode zero preskip size o') := by
    rw [← ho]
    unfold opus_enc_encode
    cases first <;> simp [hfin]
  have hcore' : Core zero preskip size (given ++ [d]) o' os := by
    cases hcore with
    | start hstart hnone hpos hpcm =>
      rcases hstate with ⟨-,rfl⟩ | ⟨hdata,-⟩
      · exact .start (by rw [← ho]; exact hstart) hnone (by rw [← ho]; exact hpos) (by simp [← ho])
      · simp [hdata] at hstart
    | data hdata hroom hwhole hall =>
      rcases hstate with ⟨hhdr,-⟩ | ⟨-,hpcm⟩
      · cases hhdr.symm.trans hdata
      · refine .data (by rw [← ho]; exact hdata) (by rw [← ho]; exact hroom) (by rw [← ho]; exact hwhole) ?_
        rw [hpcm,List.append_nil] at hall
        rw [← ho]
        dsimp only
        rw [hall]
        simp
  have hstep := encode_step hpre hcore'
  have hfirst : o'.fin = first := by rw [← ho]
  rw [hfirst] at hstep
  exact ⟨_,_,heq,hstep⟩

theorem busy_step (hpre : preskip < size) {first : Bool} (h : Busy zero preskip size given first o os) :
    ∃ x, opus_enc_encode zero preskip size o ⟨false,first,none⟩ = some x ∧
      Step zero preskip size given first os (left o) x := by
  obtain ⟨hfin,h⟩ := h
  have heq : opus_enc_encode zero preskip size o ⟨false,first,none⟩ =
      some (ffopus_encode zero preskip size o) := by
    unfold opus_enc_encode
    cases first with
    | false => rfl
    | true =>
      have ho : ({o with fin := true} : Enc α) = o := by rw [← hfin]
      exact congrArg (fun o => some (ffopus_encode zero preskip size o)) ho
  refine ⟨_,heq,?_⟩
  rcases h with hcore | ⟨hstate,hfirst,hfed⟩
  · exact hfin ▸ encode_step hpre hcore
  · unfold ffopus_encode
    rw [hstate]
    have hq : packets (os ++ [Out.nothing]) = packets os := packets_quiet (by nofun)
    refine .done ⟨hfirst,?_⟩
    obtain ⟨hfull,hasc,hlast,hsamples⟩ := hfed
    exact ⟨hq ▸ hfull,hq ▸ hasc,hq ▸ hlast,hq ▸ hsamples⟩

/-- For every division of the input the encoder gets the pre-skip, every sample once, and silence, in full
packets, and the filter is done after the last one. -/
theorem opus_encode_all (hpre : preskip < size) {cs : List (List α)} (hcs : cs ≠ []) :
    ∃ n s os, Feed.drive (opus_enc_encode zero preskip size) n init cs = some (s,true,os) ∧
      Fed zero preskip size cs os := by
  have hgive : ∀ given d first s os, True → Idle zero preskip size given s os → ∃ x bound,
      opus_enc_encode zero preskip size s ⟨true,first,some d⟩ = some x ∧
        Step zero preskip size (given ++ [d]) first os bound x :=
    fun _ _ _ _ _ _ h => idle_step hpre h
  have hbusy : ∀ given first s os, Busy zero preskip size given first s os → ∃ x,
      opus_enc_encode zero preskip size s ⟨false,first,none⟩ = some x ∧
        Step zero preskip size given first os (left s) x := fun _ _ _ _ h => busy_step hpre h
  obtain ⟨n,s,os,pre,post,hdrive,rfl,hfirst,hfed⟩ := Feed.drive_rule hgive hbusy hcs init_idle
    fun _ _ _ _ => trivial
  obtain rfl := List.isEmpty_iff.mp hfirst
  exact ⟨n,s,os,hdrive,by simpa using hfed⟩

theorem encode_five : ∃ n s os,
    Feed.drive (opus_enc_encode (0 : Nat) 1 3) n init [[5,6],[],[7,8,9]] = some (s,true,os) ∧
      Fed 0 1 3 [[5,6],[],[7,8,9]] os :=
  opus_encode_all (by decide) (by decide)

end Phiola.OpusEnc
