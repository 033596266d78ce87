import Mathlib.Data.List.GetD
import Phiola.Afilter.CrcTable
import Phiola.Track.Conveyor

/-!
# Peaks and checksums of the channels

`peaks_process()` over the chunks of a stream, with `crc32()`, which takes eight bytes at once where it can.
Memory is the bytes from a pointer on; its address decides where the eight bytes begin. The decibels of the
report are left out, it has the numbers that they are made of.
-/

namespace Phiola.PeaksFilter

open Crc Crc32

abbrev Bytes := List (BitVec 8)

/-! ## The checksum -/

/-- `crc32_table[0][*buf++ ^ A(crc)] ^ S8(crc)` -/
def table_byte (crc : BitVec 32) (b : BitVec 8) : BitVec 32 := entry 0 (b ^^^ low crc) ^^^ (crc >>> 8)

/-- Two words of memory by the eight tables. -/
def slice (crc : BitVec 32) (buf buf4 : Bytes) : BitVec 32 :=
  let crc := crc ^^^ pack 32 buf
  let crc := entry 7 (low crc) ^^^ entry 6 (low (crc >>> 8)) ^^^ entry 5 (low (crc >>> 16))
    ^^^ entry 4 (low (crc >>> 24))
  let tmp := pack 32 buf4
  entry 3 (low tmp) ^^^ entry 2 (low (tmp >>> 8)) ^^^ crc ^^^ entry 1 (low (tmp >>> 16))
    ^^^ entry 0 (low (tmp >>> 24))

/-- The bytes before an address that eight divides -/
def align_loop : Nat → Bytes → Nat → BitVec 32 → Option (Bytes × Nat × BitVec 32)
  | buf,[],size,crc => if buf % 8 = 0 then some ([],size,crc) else none
  | buf,b :: mem,size,crc =>
    if buf % 8 = 0 then some (b :: mem,size,crc) else align_loop (buf + 1) mem (size - 1) (table_byte crc b)

def slice_loop : Nat → Bytes → BitVec 32 → Option (Bytes × BitVec 32)
  | 0,mem,crc => some (mem,crc)
  | n + 1,b0 :: b1 :: b2 :: b3 :: b4 :: b5 :: b6 :: b7 :: mem,crc =>
    slice_loop n mem (slice crc [b0,b1,b2,b3] [b4,b5,b6,b7])
  | _ + 1,_,_ => none

def byte_loop : Nat → Bytes → BitVec 32 → Option (BitVec 32)
  | 0,_,crc => some crc
  | n + 1,b :: mem,crc => byte_loop n mem (table_byte crc b)
  | _ + 1,[],_ => none

/-- `crc32()` of `size` bytes of the memory at the address `buf`; nothing when it reads behind the memory. -/
def crc32 (buf : Nat) (mem : Bytes) (size : Nat) (crc : BitVec 32) : Option (BitVec 32) :=
  let crc := ~~~crc
  let rest := if size > 8 then
      (align_loop buf mem size crc).bind fun (mem,size,crc) =>
        (slice_loop (size / 8) mem crc).map fun (mem,crc) => (mem,size % 8,crc)
    else some (mem,size,crc)
  rest.bind fun (mem,size,crc) => (byte_loop size mem crc).map (~~~ ·)

theorem table_byte_eq (crc : BitVec 32) (b : BitVec 8) : table_byte crc b = byte poly crc b := by
  have hl : low (crc ^^^ b.setWidth 32) = b ^^^ low crc := by
    rw [low_xor,BitVec.xor_comm]
    congr 1
    exact BitVec.setWidth_setWidth_of_le b (by decide)
  have hs : (crc ^^^ b.setWidth 32) >>> 8 = crc >>> 8 := by
    have hz : b.setWidth 32 >>> 8 = 0#32 := by
      apply BitVec.eq_of_toNat_eq
      have hb := b.isLt
      simp only [BitVec.toNat_ushiftRight,BitVec.toNat_setWidth,Nat.shiftRight_eq_div_pow]
      simp
      omega
    rw [BitVec.ushiftRight_xor_distrib,hz,BitVec.xor_zero]
  rw [byte_table,hl,hs,table_byte,entry_bits (by decide)]

/-- The words as they are loaded, each byte looked up with the bytes that follow it. -/
theorem slice_eq {buf buf4 : Bytes} (h : buf.length = 4) (h4 : buf4.length = 4) (crc : BitVec 32) :
    slice crc buf buf4 = bytes poly crc (buf ++ buf4) := by
  have hb : bytes poly crc (buf ++ buf4) =
      bits poly 64 (crc ^^^ pack 32 buf) ^^^ bits poly 32 (pack 32 buf4) := by
    rw [bytes_append,bytes_pack poly (by omega) crc,bytes_pack poly (by omega),bits_xor,h,h4,← bits_add]
  rw [hb,bits_word poly (crc ^^^ pack 32 buf) 32,bits_word poly (pack 32 buf4) 0]
  simp only [slice,entry_bits (show 7 < 8 by decide),entry_bits (show 6 < 8 by decide),
    entry_bits (show 5 < 8 by decide),entry_bits (show 4 < 8 by decide),entry_bits (show 3 < 8 by decide),
    entry_bits (show 2 < 8 by decide),entry_bits (show 1 < 8 by decide),entry_bits (show 0 < 8 by decide)]
  simp only [Nat.reduceAdd,Nat.reduceMul]
  ac_rfl

theorem align_loop_eq (mem : Bytes) (buf size : Nat) (crc : BitVec 32) (h : (8 - buf % 8) % 8 ≤ mem.length) :
    align_loop buf mem size crc = some (mem.drop ((8 - buf % 8) % 8),size - (8 - buf % 8) % 8,
      bytes poly crc (mem.take ((8 - buf % 8) % 8))) := by
  induction mem generalizing buf size crc with
  | nil =>
    have h0 : buf % 8 = 0 := by
      simp only [List.length_nil] at h
      omega
    simp [align_loop,h0]
  | cons b mem ih =>
    by_cases h0 : buf % 8 = 0
    · simp [align_loop,h0]
    · have hk : (8 - buf % 8) % 8 = (8 - (buf + 1) % 8) % 8 + 1 := by omega
      rw [hk] at h ⊢
      rw [align_loop,if_neg h0,ih _ _ _ (by simpa using h),table_byte_eq,Nat.sub_sub,Nat.add_comm 1]
      rfl

theorem byte_loop_eq {n : Nat} {mem : Bytes} {crc : BitVec 32} (h : n ≤ mem.length) :
    byte_loop n mem crc = some (bytes poly crc (mem.take n)) := by
  induction n generalizing mem crc with
  | zero => cases mem <;> rfl
  | succ n ih =>
    cases mem with
    | nil => simp at h
    | cons b mem =>
      rw [byte_loop,ih (by simpa using h),table_byte_eq]
      rfl

theorem slice_loop_eq {n : Nat} {mem : Bytes} {crc : BitVec 32} (h : 8 * n ≤ mem.length) :
    slice_loop n mem crc = some (mem.drop (8 * n),bytes poly crc (mem.take (8 * n))) := by
  induction n generalizing mem crc with
  | zero => cases mem <;> rfl
  | succ n ih =>
    match mem,h with
    | b0 :: b1 :: b2 :: b3 :: b4 :: b5 :: b6 :: b7 :: mem,h =>
      rw [slice_loop,slice_eq rfl rfl,ih (by simpa [Nat.mul_succ] using h),← bytes_append,Nat.mul_succ]
      simp only [List.drop_succ_cons,List.take_succ_cons,List.cons_append,List.nil_append]

/-- The tables give what the bits give, wherever the bytes are and however many there are. -/
theorem crc32_bits {size : Nat} {mem : Bytes} (h : size ≤ mem.length) (buf : Nat) (crc : BitVec 32) :
    crc32 buf mem size crc = some (~~~bytes poly (~~~crc) (mem.take size)) := by
  by_cases h8 : size > 8
  · obtain ⟨k,hk⟩ : ∃ k, k = (8 - buf % 8) % 8 := ⟨_,rfl⟩
    have ha := align_loop_eq mem buf size (~~~crc) (by omega)
    rw [← hk] at ha
    have hs : 8 * ((size - k) / 8) ≤ (mem.drop k).length := by
      rw [List.length_drop]
      omega
    have hb : (size - k) % 8 ≤ ((mem.drop k).drop (8 * ((size - k) / 8))).length := by
      simp only [List.length_drop]
      omega
    have hsize : size = k + (8 * ((size - k) / 8) + (size - k) % 8) := by omega
    simp only [crc32,if_pos h8,ha,Option.bind_some,slice_loop_eq hs,Option.map_some,byte_loop_eq hb]
    rw [← bytes_append,← bytes_append,← List.take_add,← List.take_add,← hsize]
  · simp only [crc32,if_neg h8,Option.bind_some,byte_loop_eq h,Option.map_some]

/-- The checksum that goes on from piece to piece is that of the bits of all pieces, wherever these are and
however long. -/
theorem crc32_pieces (pieces : List (Nat × Bytes)) (crc : BitVec 32) :
    pieces.foldlM (fun crc p => crc32 p.1 p.2 p.2.length crc) crc =
      some (~~~bytes poly (~~~crc) (pieces.flatMap Prod.snd)) := by
  induction pieces generalizing crc with
  | nil => simp [bytes]
  | cons p pieces ih =>
    rw [List.foldlM_cons,crc32_bits (Nat.le_refl _),List.take_length,List.flatMap_cons,bytes_append]
    refine (ih _).trans ?_
    rw [BitVec.not_not]

/-- Buffers that differ in no more than four bytes next to each other have different checksums, wherever in
the buffer the four bytes are. -/
theorem crc32_burst {pre bs cs post : Bytes} (hl : bs.length = cs.length) (h4 : bs.length ≤ 4) (hd : bs ≠ cs)
    (buf buf' : Nat) (crc : BitVec 32) :
    crc32 buf (pre ++ bs ++ post) (pre ++ bs ++ post).length crc ≠
      crc32 buf' (pre ++ cs ++ post) (pre ++ cs ++ post).length crc := by
  intro h
  rw [crc32_bits (Nat.le_refl _),crc32_bits (Nat.le_refl _),List.take_length,List.take_length,
    Option.some.injEq,BitVec.not_inj] at h
  exact hd (burst_inj (by decide) hl (by omega) h)

theorem crc32_burst_last_bit :
    crc32 0 ([0,1,2] ++ [7] ++ [3]) ([0,1,2] ++ [7] ++ [3]).length 0 ≠
      crc32 3 ([0,1,2] ++ [6] ++ [3]) ([0,1,2] ++ [6] ++ [3]).length 0 :=
  crc32_burst (show ([7] : Bytes).length = ([6] : Bytes).length from rfl) (by decide) (by decide) 0 3 0

/-! ## The filter -/

structure Chan where
  crc : BitVec 32 := 0
  high : Nat := 0
  sum : Nat := 0
  clipped : Nat := 0
deriving DecidableEq, Repr

/-- `struct peaks` -/
structure Peaks where
  state : Nat := 0
  nch : Nat
  total : Nat := 0
  ch : List Chan
  do_crc : Bool
deriving DecidableEq, Repr

def u64 (n : Nat) : Nat := n % 2 ^ 64

/-- `peaks_open()` with `oaudio.format.channels` and `afilter.peaks_crc` -/
def peaks_open (channels : Nat) (peaks_crc : Bool) : Option Peaks :=
  if channels > 8 then none
  else some {nch := channels,ch := List.replicate channels {},do_crc := peaks_crc}

/-- `data_in`: its length, and where the channels are. -/
structure Chunk where
  len : Nat
  data : List (Nat × Bytes)
deriving DecidableEq, Repr

/-- The first `samples` numbers of the memory, as `short`. -/
def shorts : Nat → Bytes → Option (List Int)
  | 0,_ => some []
  | n + 1,lo :: hi :: mem => (shorts n mem).map ((pack 16 [lo,hi]).toInt :: ·)
  | _ + 1,_ => none

def sample (c : Chan) (sh : Int) : Chan where
  crc := c.crc
  clipped := if sh = 0x7fff ∨ sh = -0x8000 then u64 (c.clipped + 1) else c.clipped
  high := if c.high < sh.natAbs then sh.natAbs else c.high
  sum := u64 (c.sum + sh.natAbs)

/-- A channel of a chunk, `size` bytes with so many samples. -/
def channel (do_crc : Bool) (samples size : Nat) (c : Chan) (d : Nat × Bytes) : Option Chan :=
  (shorts samples d.2).bind fun shs =>
    let c := shs.foldl sample c
    if samples ≠ 0 ∧ do_crc then (crc32 d.1 d.2 size c.crc).map fun crc => {c with crc}
    else some c

def channels (do_crc : Bool) (samples size : Nat) : List Chan → List (Nat × Bytes) → Option (List Chan)
  | [],_ => some []
  | c :: cs,d :: ds => (channel do_crc samples size c d).bind fun c =>
    (channels do_crc samples size cs ds).map (c :: ·)
  | _ :: _,[] => none

/-- The numbers behind the line of a channel. -/
structure Line where
  high : Nat
  avg : Nat
  clipped : Nat
  crc : BitVec 32
deriving DecidableEq, Repr

/-- The total, and a line for each channel. -/
def report (p : Peaks) : Nat × List Line :=
  (p.total,if p.total = 0 then [] else p.ch.map fun c => ⟨c.high,c.sum / p.total,c.clipped,c.crc⟩)

/-- The fields of `phi_af` that the filter reads and writes. -/
structure Af where
  format : Nat
  interleaved : Bool
deriving DecidableEq

def PHI_PCM_16 : Nat := 16

/-- What a call returns, asks of the input, gives to the next filter and writes to the user. -/
structure Out where
  ret : PhiR
  conv_format : Option Af := none
  data_out : Option Chunk := none
  log : Option (Nat × List Line) := none
deriving DecidableEq

/-- The format that is asked for -/
def planar16 : Af := ⟨PHI_PCM_16,false⟩

/-- `peaks_process()` on input in `format`. Nothing when memory is read that isn't there. -/
def peaks_process (p : Peaks) (format : Af) (first : Bool) (data_in : Chunk) : Option (Peaks × Out) :=
  if p.state = 0 then some ({p with state := 1},{ret := .more,conv_format := some planar16})
  else if p.state = 1 ∧ (format.interleaved ∨ format.format ≠ PHI_PCM_16) then some (p,{ret := .err})
  else
    let samples := data_in.len / (2 * p.nch)
    (channels p.do_crc samples (data_in.len / p.nch) p.ch data_in.data).map fun ch =>
      let p := {p with state := 2,total := u64 (p.total + samples),ch}
      if first then (p,{ret := .done,data_out := some data_in,log := some (report p)})
      else (p,{ret := .ok,data_out := some data_in})

/-- The calls with the chunks of a stream in the format that was asked for, of which the last one comes with
`PHI_FFIRST`. -/
def run (p : Peaks) : List Chunk → Option (Peaks × List Out)
  | [] => some (p,[])
  | d :: ds => (peaks_process p planar16 ds.isEmpty d).bind fun (p,o) =>
    (run p ds).map fun (p,os) => (p,o :: os)

/-! ## One channel -/

/-- The numbers in the bytes of a channel. -/
def values : Bytes → List Int
  | lo :: hi :: bs => (pack 16 [lo,hi]).toInt :: values bs
  | _ => []

def highest (vs : List Int) : Nat := (vs.map Int.natAbs).foldr max 0

def clips (vs : List Int) : Nat := vs.countP fun v => v = 0x7fff ∨ v = -0x8000

/-- What is found in the bytes of a channel when they are looked at as one piece. -/
def Chan.of (do_crc : Bool) (bs : Bytes) : Chan where
  crc := if do_crc then ~~~bytes poly (~~~0#32) bs else 0
  high := highest (values bs)
  sum := u64 ((values bs).map Int.natAbs).sum
  clipped := u64 (clips (values bs))

@[simp] theorem u64_u64_add (m n : Nat) : u64 (u64 m + n) = u64 (m + n) := by simp [u64]

theorem shorts_values {n : Nat} {mem : Bytes} (h : 2 * n ≤ mem.length) :
    shorts n mem = some (values (mem.take (2 * n))) := by
  induction n generalizing mem with
  | zero => cases mem <;> rfl
  | succ n ih =>
    match mem,h with
    | lo :: hi :: mem,h =>
      rw [shorts,ih (by simpa [Nat.mul_succ] using h)]
      rfl

theorem values_append {n : Nat} {bs : Bytes} (h : bs.length = 2 * n) (cs : Bytes) :
    values (bs ++ cs) = values bs ++ values cs := by
  induction n generalizing bs with
  | zero =>
    obtain rfl := List.length_eq_zero_iff.mp h
    rfl
  | succ n ih =>
    match bs,h with
    | lo :: hi :: bs,h =>
      simp only [List.cons_append,values]
      rw [ih (by simpa [Nat.mul_succ] using h)]

theorem foldl_sample (vs : List Int) {c : Chan} {s k : Nat} (hs : c.sum = u64 s) (hk : c.clipped = u64 k) :
    vs.foldl sample c =
      ⟨c.crc,max c.high (highest vs),u64 (s + (vs.map Int.natAbs).sum),u64 (k + clips vs)⟩ := by
  induction vs generalizing c s k with
  | nil =>
    rw [List.foldl_nil]
    cases c
    simp_all [highest,clips]
  | cons v vs ih =>
    have hk' : (sample c v).clipped = u64 (k + if v = 0x7fff ∨ v = -0x8000 then 1 else 0) := by
      simp only [sample,hk]
      split <;> simp
    have hh : (sample c v).high = max c.high v.natAbs := by
      simp only [sample]
      split <;> omega
    rw [List.foldl_cons,ih (show (sample c v).sum = u64 (s + v.natAbs) by simp [sample,hs]) hk',hh]
    simp only [sample,highest,clips,List.map_cons,List.foldr_cons,List.sum_cons,List.countP_cons,Chan.mk.injEq,
      true_and]
    exact ⟨by omega,by rw [Nat.add_assoc],by simp [Nat.add_assoc,Nat.add_comm]⟩

theorem highest_append (vs ws : List Int) : highest (vs ++ ws) = max (highest vs) (highest ws) := by
  induction vs with
  | nil => simp [highest]
  | cons v vs ih =>
    simp only [highest,List.cons_append,List.map_cons,List.foldr_cons] at ih ⊢
    omega

theorem channel_of {do_crc : Bool} {n m : Nat} {bs : Bytes} (hb : bs.length = 2 * m) {d : Nat × Bytes}
    (hd : 2 * n ≤ d.2.length) :
    channel do_crc n (2 * n) (Chan.of do_crc bs) d = some (Chan.of do_crc (bs ++ d.2.take (2 * n))) := by
  have hv := values_append hb (d.2.take (2 * n))
  simp only [channel,shorts_values hd,Option.bind_some]
  rw [foldl_sample _ (c := Chan.of do_crc bs) rfl rfl]
  have hsum : ((values (bs ++ d.2.take (2 * n))).map Int.natAbs).sum =
      ((values bs).map Int.natAbs).sum + ((values (d.2.take (2 * n))).map Int.natAbs).sum := by
    rw [hv,List.map_append,List.sum_append]
  have hclip : clips (values (bs ++ d.2.take (2 * n))) = clips (values bs) + clips (values (d.2.take (2 * n))) := by
    rw [hv,clips,List.countP_append]
    rfl
  have hhigh := hv ▸ highest_append (values bs) (values (d.2.take (2 * n)))
  cases do_crc with
  | false => simp [Chan.of,hsum,hclip,hhigh]
  | true =>
    by_cases h0 : n = 0
    · subst h0
      simp [Chan.of,values,highest,clips]
    · have hc := crc32_bits hd d.1 (Chan.of true bs).crc
      have hx : ~~~(Chan.of true bs).crc = bytes poly (~~~0#32) bs := by simp [Chan.of]
      rw [hx,← bytes_append] at hc
      simp only [h0,ne_eq,not_false_eq_true,and_self,if_true,hc,Option.map_some]
      simp [Chan.of,hsum,hclip,hhigh]

/-! ## The stream -/

def Chunk.samples (nch : Nat) (d : Chunk) : Nat := d.len / (2 * nch)

/-- The bytes of channel `i` -/
def Chunk.piece (nch i : Nat) (d : Chunk) : Bytes := (d.data.getD i (0,[])).2.take (2 * d.samples nch)

/-- Each channel has the samples that the length is for. -/
structure Chunk.Whole (nch : Nat) (d : Chunk) : Prop where
  data : d.data.length = nch
  len : d.len % (2 * nch) = 0
  bytes : ∀ x ∈ d.data,2 * d.samples nch ≤ x.2.length

def stream (nch i : Nat) (ds : List Chunk) : Bytes := (ds.map (Chunk.piece nch i)).flatten

def total (nch : Nat) (ds : List Chunk) : Nat := u64 (ds.map (Chunk.samples nch)).sum

/-- The report about the streams of the channels, each looked at as one piece. -/
def found (nch : Nat) (do_crc : Bool) (ds : List Chunk) : Nat × List Line :=
  (total nch ds,if total nch ds = 0 then [] else (List.range nch).map fun i =>
    let c := Chan.of do_crc (stream nch i ds)
    ⟨c.high,c.sum / total nch ds,c.clipped,c.crc⟩)

/-- Each chunk is passed on as it is, and the report comes with the last one. -/
def passed (r : Nat × List Line) : List Chunk → List Out
  | [] => []
  | [d] => [{ret := .done,data_out := some d,log := some r}]
  | d :: ds => {ret := .ok,data_out := some d} :: passed r ds

/-- The filter after the chunks `ds` -/
def at_chunk (state nch : Nat) (do_crc : Bool) (ds : List Chunk) : Peaks where
  state
  nch
  total := total nch ds
  ch := (List.range nch).map fun i => Chan.of do_crc (stream nch i ds)
  do_crc

theorem stream_snoc (nch i : Nat) (ds : List Chunk) (d : Chunk) :
    stream nch i (ds ++ [d]) = stream nch i ds ++ d.piece nch i := by
  simp [stream]

theorem stream_length {nch i : Nat} {ds : List Chunk} (hi : i < nch) (h : ∀ d ∈ ds,d.Whole nch) :
    (stream nch i ds).length = 2 * (ds.map (Chunk.samples nch)).sum := by
  induction ds with
  | nil => rfl
  | cons d ds ih =>
    have hd := h d (List.mem_cons_self ..)
    have hi' : i < d.data.length := hd.data ▸ hi
    have hb := hd.bytes (d.data[i]) (List.getElem_mem hi')
    have ht := ih (fun d hd => h d (List.mem_cons_of_mem _ hd))
    simp only [stream,List.map_cons,List.flatten_cons,List.length_append,List.sum_cons] at ht ⊢
    rw [ht,Chunk.piece,List.getD_eq_getElem _ _ hi',List.length_take]
    omega

theorem channels_map {do_crc : Bool} {n size : Nat} {f g : Nat → Chan} {x : Nat → Nat × Bytes} {is : List Nat}
    (h : ∀ i ∈ is,channel do_crc n size (f i) (x i) = some (g i)) :
    channels do_crc n size (is.map f) (is.map x) = some (is.map g) := by
  induction is with
  | nil => rfl
  | cons i is ih =>
    simp only [List.map_cons,channels,h i (List.mem_cons_self ..),Option.bind_some,
      ih (fun j hj => h j (List.mem_cons_of_mem _ hj)),Option.map_some]

theorem data_range {nch : Nat} {d : Chunk} (h : d.data.length = nch) :
    d.data = (List.range nch).map fun i => d.data.getD i (0,[]) := by
  apply List.ext_getElem
  · simp [h]
  · intro i hi _
    simp [hi]

theorem channels_chunk {nch : Nat} {ds : List Chunk} {d : Chunk} (hn : 0 < nch)
    (h : ∀ d ∈ ds,d.Whole nch) (hd : d.Whole nch) (do_crc : Bool) (state : Nat) :
    channels do_crc (d.len / (2 * nch)) (d.len / nch) (at_chunk state nch do_crc ds).ch d.data =
      some (at_chunk 2 nch do_crc (ds ++ [d])).ch := by
  have hsize : d.len / nch = 2 * d.samples nch := by
    obtain ⟨k,hk⟩ := Nat.dvd_of_mod_eq_zero hd.len
    have h1 : d.len / nch = 2 * k := by
      rw [hk,Nat.mul_comm 2,Nat.mul_assoc,Nat.mul_div_cancel_left _ hn]
    have h2 : d.samples nch = k := by
      rw [Chunk.samples,hk,Nat.mul_div_cancel_left _ (by omega)]
    rw [h1,h2]
  rw [data_range hd.data,hsize]
  apply channels_map
  intro i hi
  have hi' : i < nch := by simpa using hi
  have hlen : i < d.data.length := hd.data ▸ hi'
  rw [stream_snoc]
  refine channel_of (stream_length hi' h) ?_
  rw [List.getD_eq_getElem _ _ hlen]
  exact hd.bytes _ (List.getElem_mem hlen)

theorem process_chunk {state nch : Nat} {do_crc first : Bool} {ds : List Chunk} {d : Chunk} (hs : state ≠ 0)
    (hn : 0 < nch) (h : ∀ d ∈ ds,d.Whole nch) (hd : d.Whole nch) :
    peaks_process (at_chunk state nch do_crc ds) planar16 first d = some (at_chunk 2 nch do_crc (ds ++ [d]),
      if first then {ret := .done,data_out := some d,log := some (found nch do_crc (ds ++ [d]))}
      else {ret := .ok,data_out := some d}) := by
  have ht : u64 (total nch ds + d.len / (2 * nch)) = total nch (ds ++ [d]) := by
    simp [total,Chunk.samples]
  have hc := channels_chunk hn h hd do_crc state
  have hp : peaks_process (at_chunk state nch do_crc ds) planar16 first d =
      (channels do_crc (d.len / (2 * nch)) (d.len / nch) (at_chunk state nch do_crc ds).ch d.data).map fun ch =>
        let p : Peaks := {at_chunk 2 nch do_crc ds with total := u64 (total nch ds + d.len / (2 * nch)),ch}
        if first then (p,{ret := .done,data_out := some d,log := some (report p)})
        else (p,{ret := .ok,data_out := some d}) := by
    simp [peaks_process,at_chunk,planar16,hs]
  rw [hp,hc,ht]
  cases first with
  | false => simp [at_chunk]
  | true =>
    simp only [Option.map_some,if_true,report,found,at_chunk,List.map_map]
    rfl

theorem run_passed {nch : Nat} (do_crc : Bool) (hn : 0 < nch) {ds : List Chunk} :
    ∀ {before : List Chunk} (state : Nat),state ≠ 0 → (∀ d ∈ before,d.Whole nch) → (∀ d ∈ ds,d.Whole nch) →
    ∃ p,run (at_chunk state nch do_crc before) ds = some (p,passed (found nch do_crc (before ++ ds)) ds) := by
  induction ds with
  | nil => exact fun _ _ _ _ => ⟨_,rfl⟩
  | cons d ds ih =>
    intro before state hs hb h
    have hd := h d (List.mem_cons_self ..)
    have hr : ∀ x ∈ ds,x.Whole nch := fun x hx => h x (List.mem_cons_of_mem _ hx)
    have hb' : ∀ x ∈ before ++ [d],x.Whole nch := by
      simp only [List.mem_append,List.mem_singleton]
      rintro x (hx | rfl)
      · exact hb x hx
      · exact hd
    obtain ⟨p,hp⟩ := ih 2 (by decide) hb' hr
    rw [List.append_assoc,List.singleton_append] at hp
    refine ⟨p,?_⟩
    rw [run,process_chunk hs hn hb hd]
    simp only [Option.bind_some,hp,Option.map_some]
    cases ds with
    | nil => rfl
    | cons e ds => rfl

/-- The first call asks for the format. Into whatever chunks a stream in it is divided, and wherever these lie,
they are passed on as they are, and the report says what is found in the whole streams of the channels. -/
theorem peaks_report {nch : Nat} {ds : List Chunk} (hn : 0 < nch) (h8 : nch ≤ 8) (h : ∀ d ∈ ds,d.Whole nch)
    (peaks_crc : Bool) (format : Af) (first : Bool) (d0 : Chunk) :
    ∃ p p1 p2,peaks_open nch peaks_crc = some p ∧
      peaks_process p format first d0 = some (p1,{ret := .more,conv_format := some planar16}) ∧
      run p1 ds = some (p2,passed (found nch peaks_crc ds) ds) := by
  have ho : peaks_open nch peaks_crc = some {at_chunk 0 nch peaks_crc [] with state := 0} := by
    have hz : Chan.of peaks_crc [] = {} := by cases peaks_crc <;> decide
    rw [peaks_open,if_neg (by omega)]
    simp [at_chunk,total,stream,hz,u64,List.map_const']
  obtain ⟨p2,hr⟩ := run_passed peaks_crc hn 1 (by decide) (show ∀ d ∈ ([] : List Chunk),d.Whole nch by simp) h
  exact ⟨_,at_chunk 1 nch peaks_crc [],p2,ho,rfl,hr⟩

def two_pieces : List Chunk :=
  [{len := 4,data := [(1,[0xff,0x7f]),(8,[0x01,0x00])]},{len := 4,data := [(0,[0x02,0x00]),(3,[0xff,0xff])]}]

theorem peaks_report_two_pieces :
    ∃ p p1 p2,peaks_open 2 true = some p ∧ peaks_process p ⟨24,true⟩ false {len := 0,data := []} =
      some (p1,{ret := .more,conv_format := some planar16}) ∧ run p1 two_pieces = some (p2,passed (found 2 true two_pieces) two_pieces) :=
  peaks_report (by decide) (by decide) (by
    simp only [two_pieces,List.forall_mem_cons]
    exact ⟨⟨rfl,rfl,by decide⟩,⟨rfl,rfl,by decide⟩,by simp⟩) true ⟨24,true⟩ false _

end Phiola.PeaksFilter
