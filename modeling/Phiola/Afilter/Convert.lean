import Phiola.Afilter.Mix

/-!
# Conversion of PCM samples

`pcm_convert()` converts formats, layouts and channels. Its result has what is read, the stores in the
caller's buffer, and the stores in the temporary buffer.
-/

namespace Phiola.Pcm

open Memory (Ptr Mem Store Places)

/-! ## The function -/

/-- `ok` is false for an error. -/
structure Result where
  ok : Bool
  reads : List (Ptr × Nat)
  tmp : List (Store UInt8)
  writes : List (Store UInt8)

/-- What is converted once the channels match: `nch` channels in format `ifmt` at `src` in memory
`mem`; the reads and the stores that the mixing of channels has made. -/
structure Plan where
  nch : Nat
  in_ileaved : Bool
  src : Data
  istep : Nat
  ifmt : Fmt
  mem : Mem UInt8
  reads : List (Ptr × Nat)
  tmp : List (Store UInt8)

variable {D : Type} (L : Lib D)

/-- The channels: none, if the conversion is not supported. `tmp` is the block that `ffmem_alloc()`
gives, and `ini` is what is on the stack. -/
def pcm_channels (outpcm inpcm : Af) (data : Data) (samples : Nat) (m : Mem UInt8)
    (tmp : Option Nat) (ini : Nat → Ptr) : Option (Option Plan) :=
  if inpcm.channels = outpcm.channels then
    some (some ⟨inpcm.channels,inpcm.interleaved,data,1,inpcm.format,m,[],[]⟩)
  else
    let nch := outpcm.channels % 16
    let bits := outpcm.channels / 16
    if nch = 1 ∧ bits ≠ 0 then
      let ch := bits - 1
      if ch > 1 then some none
      else if inpcm.interleaved then
        data.ptr.map fun p =>
          some ⟨1,false,
            .pb fun i => if i = 0 then p.add (ch * pcm_bits inpcm.format / 8) else ini i,
            inpcm.channels,inpcm.format,m,[],[]⟩
      else
        data.planes.map fun a =>
          some ⟨1,false,.pb fun i => a (i + ch),1,inpcm.format,m,[],[]⟩
    else if bits = 0 then
      match tmp with
      | none => some none
      | some t =>
        (pcm_chan_mix L.toArith L.ldf nch inpcm data samples m ini).map fun r => r.map fun x =>
          let ws := stored ⟨t,0⟩ 4 L.stf x.writes
          if outpcm.interleaved then
            ⟨nch,true,.b ⟨t,0⟩,1,.float32,m.stores ws,x.reads,ws⟩
          else
            ⟨nch,false,.pb (pcm_setni ini ⟨t,0⟩ .float32 nch),nch,.float32,m.stores ws,x.reads,ws⟩
    else some none

/-- `ffmem_copy()` -/
def ffmem_copy (m : Mem UInt8) (dst src : Ptr) (n : Nat) : Store UInt8 := ⟨dst,m.load src n⟩

/-- The copy of data that needs no conversion. -/
def pcm_copy (out : Data) (samples : Nat) (p : Plan) : Option Result :=
  if samples = 0 then some ⟨true,p.reads,p.tmp,[]⟩
  else if p.in_ileaved then do
    let dst ← out.ptr
    let src ← p.src.ptr
    let n := samples * pcm_size p.ifmt p.nch
    pure ⟨true,p.reads ++ [(src,n)],p.tmp,[ffmem_copy p.mem dst src n]⟩
  else do
    let dst ← out.planes
    let src ← p.src.planes
    let n := samples * pcm_bits p.ifmt / 8
    pure ⟨true,p.reads ++ (List.range p.nch).map fun ich => (src ich,n),p.tmp,
      (List.range p.nch).map fun ich => ffmem_copy p.mem (dst ich) (src ich) n⟩

/-- The loop over channels and samples. -/
def pcm_loop (outpcm : Af) (out : Data) (samples : Nat) (p : Plan) (ini oni : Nat → Ptr) :
    Option Result := do
  let src ← p.src.channels ini p.ifmt p.nch p.in_ileaved
  let istep := if p.in_ileaved then p.nch else p.istep
  let dst ← out.channels oni outpcm.format p.nch outpcm.interleaved
  let ostep := stepOf outpcm.interleaved p.nch
  match switch L p.ifmt outpcm.format with
  | none => pure ⟨false,p.reads,p.tmp,[]⟩
  | some c => pure ⟨true,
      p.reads ++ (List.range p.nch).flatMap fun ich => (List.range samples).map fun i =>
        ((src ich).add (i * istep * c.isz),c.isz),
      p.tmp,
      (List.range p.nch).flatMap fun ich => (List.range samples).map fun i =>
        ⟨(dst ich).add (i * ostep * c.osz),
          c.f (p.mem.load ((src ich).add (i * istep * c.isz)) c.isz)⟩⟩

/-- One channel in the other layout: the pointers are rewritten, so that the data can be copied. -/
def pcm_mono (outpcm : Af) (samples : Nat) (p : Plan) (ini : Nat → Ptr) : Option Plan :=
  if p.in_ileaved ≠ outpcm.interleaved ∧ p.nch = 1 then
    if samples = 0 then some {p with in_ileaved := outpcm.interleaved}
    else if p.in_ileaved then
      p.src.ptr.map fun b => {p with
        src := .pb fun i => if i = 0 then b else ini i
        in_ileaved := outpcm.interleaved}
    else
      p.src.planes.map fun a => {p with src := .b (a 0), in_ileaved := outpcm.interleaved}
  else some p

/-- The formats and the layouts, once the channels match. -/
def pcm_samples (outpcm : Af) (out : Data) (samples : Nat) (p : Plan) (ini oni : Nat → Ptr) :
    Option Result :=
  if p.ifmt = outpcm.format ∧ p.istep = 1 then do
    let p ← pcm_mono outpcm samples p ini
    if p.in_ileaved = outpcm.interleaved then pcm_copy out samples p
    else pcm_loop L outpcm out samples p ini oni
  else pcm_loop L outpcm out samples p ini oni

/-- `pcm_convert()`. There is no result where a loop does not end, or where data is not laid out as its
format says. -/
def pcm_convert (outpcm : Af) (out : Data) (inpcm : Af) (data : Data) (samples : Nat)
    (m : Mem UInt8) (tmp : Option Nat) (ini oni : Nat → Ptr) : Option Result :=
  if inpcm.channels > 8 ∨ outpcm.channels % 16 > 8 then some ⟨false,[],[],[]⟩
  else if inpcm.rate ≠ outpcm.rate then some ⟨false,[],[],[]⟩
  else do
    match ← pcm_channels L outpcm inpcm data samples m tmp ini with
    | none => pure ⟨false,[],[],[]⟩
    | some p => pcm_samples L outpcm out samples p ini oni

/-! ## Bytes of samples -/

/-- Every one of `len` bytes at `q` is a byte of a sample `(c,i)`. -/
def Within (at_ : Nat → Nat → Ptr) (size n samples : Nat) (q : Ptr) (len : Nat) : Prop :=
  ∀ j < len, ∃ c < n, ∃ i < samples, ∃ l < size, q.add j = (at_ c i).add l

variable {size n samples : Nat} {at_ : Nat → Nat → Ptr}

theorem within_sample {c i : Nat} (hc : c < n) (hi : i < samples) :
    Within at_ size n samples (at_ c i) size := fun j hj => ⟨c,hc,i,hi,j,hj,rfl⟩

theorem within_plane {a : Nat → Ptr} {c t len : Nat} (hc : c < n) (h : t + len ≤ samples * size) :
    Within (fun c i => (a c).add (i * size)) size n samples ((a c).add t) len := by
  intro j hj
  have hlt : t + j < samples * size := by omega
  have hsize : 0 < size := Nat.pos_of_ne_zero fun hz => by simp [hz] at hlt
  refine ⟨c,hc,(t + j) / size,Nat.div_lt_of_lt_mul (by rwa [Nat.mul_comm]),(t + j) % size,
    Nat.mod_lt _ hsize,?_⟩
  rw [Ptr.add_add,Ptr.add_add,Nat.mul_comm _ size,Nat.div_add_mod]

theorem within_row {p : Ptr} {t len : Nat} (h : t + len ≤ samples * n * size) :
    Within (fun c i => p.add ((i * n + c) * size)) size n samples (p.add t) len := by
  intro j hj
  have hlt : t + j < samples * n * size := by omega
  have hsize : 0 < size := Nat.pos_of_ne_zero fun hz => by simp [hz] at hlt
  have hn : 0 < n := Nat.pos_of_ne_zero fun hz => by simp [hz] at hlt
  have hk : (t + j) / size < samples * n := Nat.div_lt_of_lt_mul (by rwa [Nat.mul_comm])
  refine ⟨(t + j) / size % n,Nat.mod_lt _ hn,(t + j) / size / n,
    Nat.div_lt_of_lt_mul (by rwa [Nat.mul_comm]),(t + j) % size,Nat.mod_lt _ hsize,?_⟩
  rw [Ptr.add_add,Ptr.add_add,Nat.mul_comm _ n,Nat.div_add_mod,Nat.mul_comm _ size,Nat.div_add_mod]

theorem within_whole_row (p : Ptr) (size n samples : Nat) :
    Within (fun c i => p.add ((i * n + c) * size)) size n samples p (samples * n * size) :=
  within_row (t := 0) (Nat.le_of_eq (Nat.zero_add _))

theorem within_whole_plane (a : Nat → Ptr) (size n samples : Nat) {c : Nat} (hc : c < n) :
    Within (fun c i => (a c).add (i * size)) size n samples (a c) (samples * size) :=
  within_plane (t := 0) hc (Nat.le_of_eq (Nat.zero_add _))

/-! ## The caller's buffer -/

/-- A buffer for `samples` samples in a format; the regions of planar channels do not overlap. -/
structure Buffer (f : Af) (samples : Nat) where
  data : Data
  fits : data.Fits f.interleaved
  apart : ∀ a, data.planes = some a → ∀ c < f.channels % 16, ∀ d < f.channels % 16, c ≠ d →
    Memory.Apart (a c) (samples * f.format.size) (a d) (samples * f.format.size)

variable {f : Af}

/-- The place of a sample in the buffer. -/
def Buffer.at (buf : Buffer f samples) (c i : Nat) : Ptr :=
  buf.data.sample f.format.size (f.channels % 16) c i

theorem Buffer.places (buf : Buffer f samples) :
    Places buf.at f.format.size (f.channels % 16) samples := by
  obtain ⟨data,fits,apart⟩ := buf
  cases data with
  | b p => exact Memory.places_alternate p _ _ _
  | pb a => exact Memory.places_apart (apart a rfl)

/-! ## The conversion of a plan -/

structure Plan.Fits (p : Plan) : Prop where
  layout : p.src.Fits p.in_ileaved
  one : p.in_ileaved = true → p.istep = 1

/-- The place of a sample of a plan. -/
def Plan.at (p : Plan) (c i : Nat) : Ptr := p.src.sample p.ifmt.size p.nch c (i * p.istep)

/-- What a sample becomes. -/
def conv (ifmt ofmt : Fmt) (b : Bytes) : Bytes :=
  if ifmt = ofmt then b else ((switch L ifmt ofmt).map fun c => c.f b).getD []

theorem conv_switch {ifmt ofmt : Fmt} {c : Case} (h : switch L ifmt ofmt = some c) {b : Bytes}
    (hb : b.length = ifmt.size) : conv L ifmt ofmt b = c.f b := by
  unfold conv
  split
  · rename_i heq
    subst heq
    exact (switch_same h hb).symm
  · rw [h]
    rfl

/-- The samples of the plan are converted: what is read is the samples, what is written is in the
buffer, and each sample of the buffer is the plan's sample converted. -/
structure Converts (outpcm : Af) (buf : Buffer outpcm samples) (p : Plan) (r : Result) : Prop where
  value : ∀ o : Mem UInt8, ∀ c < p.nch, ∀ i < samples,
    (o.stores r.writes).load (buf.at c i) outpcm.format.size =
      conv L p.ifmt outpcm.format (p.mem.load (p.at c i) p.ifmt.size)
  reads : ∀ rd ∈ r.reads, rd ∈ p.reads ∨ Within p.at p.ifmt.size p.nch samples rd.1 rd.2
  writes : ∀ w ∈ r.writes,
    Within buf.at outpcm.format.size p.nch samples w.dst w.bytes.length
  tmp : r.tmp = p.tmp

variable {L} {p : Plan} {outpcm : Af} {ini oni : Nat → Ptr}

theorem conv_same {ifmt : Fmt} (b : Bytes) : conv L ifmt ifmt b = b := if_pos rfl

theorem sample_lt {c i : Nat} (hc : c < n) (hi : i < samples) : i * n + c < samples * n := by
  have := Memory.mul_add_le hi n
  omega

@[simp] theorem copy_length (m : Mem UInt8) (dst src : Ptr) (k : Nat) :
    (ffmem_copy m dst src k).bytes.length = k := Memory.load_length m src k

theorem copy_part (m : Mem UInt8) (dst src : Ptr) {k i l : Nat} (h : i + l ≤ k) :
    ((ffmem_copy m dst src k).bytes.drop i).take l = m.load (src.add i) l := Memory.load_part m src h

theorem copy_row {buf : Buffer outpcm samples} {q q' : Ptr} {mem : Mem UInt8}
    {reads : List (Ptr × Nat)} {tmp : List (Store UInt8)} (hbuf : buf.data = .b q')
    (hn : n = outpcm.channels % 16) :
    Converts L outpcm buf ⟨n,true,.b q,1,outpcm.format,mem,reads,tmp⟩
      ⟨true,reads ++ [(q,samples * pcm_size outpcm.format n)],tmp,
        [ffmem_copy mem q' q (samples * pcm_size outpcm.format n)]⟩ := by
  have hlen : samples * pcm_size outpcm.format n = samples * n * outpcm.format.size := by
    rw [pcm_size,Nat.mul_comm (pcm_bits _ / 8),Nat.mul_assoc]
    rfl
  have hat (c i : Nat) : buf.at c i = q'.add ((i * n + c) * outpcm.format.size) := by
    rw [Buffer.at,hbuf,hn]
    rfl
  rw [hlen]
  refine ⟨fun o c hc i hi => ?_,fun rd hrd => ?_,fun w hw => ?_,rfl⟩
  · have hfit := Memory.mul_add_le (sample_lt hc hi) outpcm.format.size
    dsimp only [Plan.at,Data.sample] at hc ⊢
    rw [conv_same,hat,Nat.mul_one]
    exact (Memory.load_store_part (by rw [copy_length]; exact hfit)).trans (copy_part _ _ _ hfit)
  · rcases List.mem_append.mp hrd with hrd | hrd
    · exact .inl hrd
    · obtain rfl := List.mem_singleton.mp hrd
      refine .inr ?_
      unfold Plan.at
      simp only [Nat.mul_one]
      exact within_whole_row q _ n samples
  · obtain rfl := List.mem_singleton.mp hw
    rw [funext fun c => funext fun i => hat c i,copy_length]
    exact within_whole_row q' _ n samples

theorem copy_planes {buf : Buffer outpcm samples} {a a' : Nat → Ptr} {mem : Mem UInt8}
    {reads : List (Ptr × Nat)} {tmp : List (Store UInt8)} (hbuf : buf.data = .pb a')
    (hn : n = outpcm.channels % 16) :
    Converts L outpcm buf ⟨n,false,.pb a,1,outpcm.format,mem,reads,tmp⟩
      ⟨true,reads ++ (List.range n).map fun ich => (a ich,samples * pcm_bits outpcm.format / 8),tmp,
        (List.range n).map fun ich =>
          ffmem_copy mem (a' ich) (a ich) (samples * pcm_bits outpcm.format / 8)⟩ := by
  have hlen := bits_bytes outpcm.format samples
  have hat (c i : Nat) : buf.at c i = (a' c).add (i * outpcm.format.size) := by
    rw [Buffer.at,hbuf]
    rfl
  have hapart : ((List.range n).map fun ich =>
      ffmem_copy mem (a' ich) (a ich) (samples * outpcm.format.size)).Pairwise Store.Apart := by
    refine List.pairwise_map.mpr (List.Pairwise.imp_of_mem ?_ (List.nodup_range (n := n)))
    intro c d hc hd hne
    have := buf.apart a' (by rw [hbuf]; rfl) c (hn ▸ List.mem_range.mp hc) d
      (hn ▸ List.mem_range.mp hd) hne
    unfold Store.Apart
    rw [copy_length,copy_length]
    exact this
  rw [hlen]
  refine ⟨fun o c hc i hi => ?_,fun rd hrd => ?_,fun w hw => ?_,rfl⟩
  · have hfit := Memory.mul_add_le hi outpcm.format.size
    dsimp only [Plan.at,Data.sample] at hc ⊢
    rw [conv_same,hat,Nat.mul_one]
    exact (Memory.load_stores_part hapart (List.mem_map_of_mem (List.mem_range.mpr hc))
      (by rw [copy_length]; exact hfit)).trans (copy_part _ _ _ hfit)
  · rcases List.mem_append.mp hrd with hrd | hrd
    · exact .inl hrd
    · obtain ⟨c,hc,rfl⟩ := List.mem_map.mp hrd
      refine .inr ?_
      unfold Plan.at
      simp only [Nat.mul_one]
      exact within_whole_plane a _ n samples (List.mem_range.mp hc)
  · obtain ⟨c,hc,rfl⟩ := List.mem_map.mp hw
    rw [funext fun c => funext fun i => hat c i,copy_length]
    exact within_whole_plane a' _ n samples (List.mem_range.mp hc)

theorem pcm_copy_spec (buf : Buffer outpcm samples) (hn : p.nch = outpcm.channels % 16)
    (hfmt : p.ifmt = outpcm.format) (hone : p.istep = 1) (hil : p.in_ileaved = outpcm.interleaved)
    (hp : samples ≠ 0 → p.src.Fits p.in_ileaved) :
    ∃ r, pcm_copy buf.data samples p = some r ∧ r.ok = true ∧ Converts L outpcm buf p r := by
  obtain ⟨nch,il,src,istep,ifmt,mem,reads,tmp⟩ := p
  dsimp only at *
  subst hfmt hone hil
  by_cases hs : samples = 0
  · subst hs
    refine ⟨⟨true,reads,tmp,[]⟩,if_pos rfl,rfl,?_⟩
    exact ⟨fun _ _ _ _ hi => absurd hi (Nat.not_lt_zero _),fun _ hrd => .inl hrd,nofun,rfl⟩
  · have hbuf := buf.fits
    have hsrc := hp hs
    unfold pcm_copy
    rw [if_neg hs]
    dsimp only
    generalize hdata : buf.data = d at hbuf ⊢
    cases src with
    | b q =>
      cases d with
      | b q' =>
        rw [if_pos (show outpcm.interleaved = true from hbuf),show outpcm.interleaved = true from hbuf]
        exact ⟨_,rfl,rfl,copy_row hdata hn⟩
      | pb a' => exact absurd (hbuf.symm.trans hsrc) Bool.false_ne_true
    | pb a =>
      cases d with
      | b q' => exact absurd (hsrc.symm.trans hbuf) Bool.false_ne_true
      | pb a' =>
        have hfalse : outpcm.interleaved = false := hbuf
        rw [if_neg (by rw [hfalse]; exact Bool.false_ne_true),hfalse]
        exact ⟨_,rfl,rfl,copy_planes hdata hn⟩

theorem plan_place (hp : p.Fits) (ini : Nat → Ptr) :
    ∃ a, p.src.channels ini p.ifmt p.nch p.in_ileaved = some a ∧ ∀ c < p.nch, ∀ i,
      (a c).add (i * (if p.in_ileaved then p.nch else p.istep) * p.ifmt.size) = p.at c i := by
  obtain ⟨nch,il,src,istep,ifmt,mem,reads,tmp⟩ := p
  obtain ⟨hfit,hone⟩ := hp
  dsimp only at *
  unfold Plan.at
  cases src with
  | b q =>
    rw [show il = true from hfit]
    refine ⟨_,rfl,fun c hc i => ?_⟩
    rw [hone hfit,if_pos rfl,Nat.mul_one]
    exact setni_sample hc i
  | pb a =>
    rw [show il = false from hfit]
    exact ⟨a,rfl,fun _ _ _ => rfl⟩

theorem pcm_loop_spec (L : Lib D) (hp : p.Fits) (buf : Buffer outpcm samples)
    (hn : p.nch = outpcm.channels % 16) (ini oni : Nat → Ptr) :
    ∃ r, pcm_loop L outpcm buf.data samples p ini oni = some r ∧
      if (switch L p.ifmt outpcm.format).isSome then r.ok = true ∧ Converts L outpcm buf p r
      else r = ⟨false,p.reads,p.tmp,[]⟩ := by
  obtain ⟨a,ha,hplace⟩ := plan_place hp ini
  obtain ⟨a',ha',hplace'⟩ := channels_place buf.fits oni outpcm.format p.nch
  unfold pcm_loop
  rw [ha,ha']
  dsimp only [Option.bind_eq_bind,Option.bind_some]
  cases hsw : switch L p.ifmt outpcm.format with
  | none => exact ⟨_,rfl,rfl⟩
  | some s =>
    obtain ⟨hisz,hosz,hlen⟩ := switch_size hsw
    have hat (c : Nat) (hc : c < p.nch) (i : Nat) :
        (a' c).add (i * stepOf outpcm.interleaved p.nch * s.osz) = buf.at c i := by
      rw [hosz,hplace' c hc,Buffer.at,hn]
    have hload (c i : Nat) : (p.mem.load (p.at c i) p.ifmt.size).length = p.ifmt.size :=
      Memory.load_length _ _ _
    have hwrites : ((List.range p.nch).flatMap fun ich => (List.range samples).map fun i =>
        (⟨(a' ich).add (i * stepOf outpcm.interleaved p.nch * s.osz),s.f (p.mem.load
          ((a ich).add (i * (if p.in_ileaved then p.nch else p.istep) * s.isz)) s.isz)⟩ :
            Store UInt8)) =
        Memory.fill buf.at p.nch samples fun c i => s.f (p.mem.load (p.at c i) p.ifmt.size) := by
      refine List.flatMap_congr fun c hc => List.map_congr_left fun i _ => ?_
      rw [hat c (List.mem_range.mp hc),hisz,hplace c (List.mem_range.mp hc)]
    refine ⟨_,rfl,rfl,⟨fun o c hc i hi => ?_,fun rd hrd => ?_,fun w hw => ?_,rfl⟩⟩
    · rw [hwrites,Memory.load_fill (hn ▸ buf.places) (fun c i => hlen _ (hload c i)) hc hi,
        conv_switch L hsw (hload c i)]
    · rcases List.mem_append.mp hrd with hrd | hrd
      · exact .inl hrd
      · obtain ⟨c,hc,hrd⟩ := List.mem_flatMap.mp hrd
        obtain ⟨i,hi,rfl⟩ := List.mem_map.mp hrd
        rw [hisz,hplace c (List.mem_range.mp hc)]
        exact .inr (within_sample (List.mem_range.mp hc) (List.mem_range.mp hi))
    · dsimp only at hw
      rw [hwrites] at hw
      obtain ⟨c,hc,i,hi,rfl⟩ := Memory.mem_fill.mp hw
      rw [hlen _ (hload c i)]
      exact within_sample hc hi

theorem pcm_mono_spec (outpcm : Af) (samples : Nat) (hp : p.Fits) (hone : p.istep = 1)
    (ini : Nat → Ptr) :
    ∃ p', pcm_mono outpcm samples p ini = some p' ∧ p' = {p with
        src := p'.src, in_ileaved := if p.nch = 1 then outpcm.interleaved else p.in_ileaved} ∧
      (samples ≠ 0 → p'.src.Fits p'.in_ileaved) ∧
      ∀ c < p.nch, ∀ i < samples, p'.at c i = p.at c i := by
  obtain ⟨nch,il,src,istep,ifmt,mem,reads,tmp⟩ := p
  obtain ⟨hfit,-⟩ := hp
  dsimp only at *
  subst hone
  unfold pcm_mono
  dsimp only
  by_cases hmono : il ≠ outpcm.interleaved ∧ nch = 1
  · obtain ⟨hne,rfl⟩ := hmono
    rw [if_pos ⟨hne,rfl⟩]
    by_cases hs : samples = 0
    · subst hs
      exact ⟨_,if_pos rfl,rfl,fun h => absurd rfl h,fun _ _ _ hi => absurd hi (Nat.not_lt_zero _)⟩
    · rw [if_neg hs]
      cases src with
      | b q =>
        obtain rfl : il = true := hfit
        rw [if_pos rfl]
        refine ⟨_,rfl,rfl,fun _ => Bool.eq_false_iff.mpr (Ne.symm hne),fun c hc i _ => ?_⟩
        obtain rfl := Nat.lt_one_iff.mp hc
        simp [Plan.at,Data.sample]
      | pb a =>
        obtain rfl : il = false := hfit
        rw [if_neg Bool.false_ne_true]
        refine ⟨_,rfl,rfl,fun _ => Bool.eq_true_of_not_eq_false (Ne.symm hne),fun c hc i _ => ?_⟩
        obtain rfl := Nat.lt_one_iff.mp hc
        simp [Plan.at,Data.sample]
  · rw [if_neg hmono]
    have hil : (if nch = 1 then outpcm.interleaved else il) = il := by
      split
      · rename_i hone
        by_contra hne
        exact hmono ⟨Ne.symm hne,hone⟩
      · rfl
    exact ⟨_,rfl,by rw [hil],fun _ => hfit,fun _ _ _ _ => rfl⟩

/-- The samples of a plan can be converted: they need no conversion, or there is a loop for it. -/
def Supported (L : Lib D) (p : Plan) (outpcm : Af) : Prop :=
  p.ifmt = outpcm.format ∧ p.istep = 1 ∧ (p.in_ileaved = outpcm.interleaved ∨ p.nch = 1) ∨
    (switch L p.ifmt outpcm.format).isSome

theorem pcm_samples_spec (hp : p.Fits) (buf : Buffer outpcm samples)
    (hn : p.nch = outpcm.channels % 16) (ini oni : Nat → Ptr) :
    ∃ r, pcm_samples L outpcm buf.data samples p ini oni = some r ∧
      (Supported L p outpcm ∧ r.ok = true ∧ Converts L outpcm buf p r ∨
        ¬Supported L p outpcm ∧ r = ⟨false,p.reads,p.tmp,[]⟩) := by
  -- without a direct copy the switch decides
  have hloop (hno : ¬(p.ifmt = outpcm.format ∧ p.istep = 1 ∧
      (p.in_ileaved = outpcm.interleaved ∨ p.nch = 1))) :
      ∃ r, pcm_loop L outpcm buf.data samples p ini oni = some r ∧
        (Supported L p outpcm ∧ r.ok = true ∧ Converts L outpcm buf p r ∨
          ¬Supported L p outpcm ∧ r = ⟨false,p.reads,p.tmp,[]⟩) := by
    obtain ⟨r,hr,hspec⟩ := pcm_loop_spec L hp buf hn ini oni
    refine ⟨r,hr,?_⟩
    split at hspec
    · rename_i hs
      exact .inl ⟨.inr hs,hspec⟩
    · rename_i hs
      exact .inr ⟨not_or.mpr ⟨hno,hs⟩,hspec⟩
  unfold pcm_samples
  by_cases hdir : p.ifmt = outpcm.format ∧ p.istep = 1
  · rw [if_pos hdir]
    obtain ⟨p',hp',heq,hfit',hat⟩ := pcm_mono_spec outpcm samples hp hdir.2 ini
    rw [hp']
    dsimp only [Option.bind_eq_bind,Option.bind_some]
    by_cases hil : p'.in_ileaved = outpcm.interleaved
    · rw [if_pos hil]
      have hsup : p.in_ileaved = outpcm.interleaved ∨ p.nch = 1 := by
        rw [heq] at hil
        by_cases hone : p.nch = 1
        · exact .inr hone
        · exact .inl ((if_neg hone).symm.trans hil)
      rw [heq] at hil hfit' hat ⊢
      obtain ⟨r,hr,hok,hconv⟩ := pcm_copy_spec (L := L) buf (p := {p with
        src := p'.src, in_ileaved := if p.nch = 1 then outpcm.interleaved else p.in_ileaved})
        hn hdir.1 hdir.2 hil hfit'
      refine ⟨r,hr,.inl ⟨.inl ⟨hdir.1,hdir.2,hsup⟩,hok,?_⟩⟩
      refine ⟨fun o c hc i hi => ?_,fun rd hrd => ?_,hconv.writes,hconv.tmp⟩
      · rw [hconv.value o c hc i hi,hat c hc i hi]
      · refine (hconv.reads rd hrd).imp_right fun hw j hj => ?_
        obtain ⟨c,hc,i,hi,l,hl,hq⟩ := hw j hj
        exact ⟨c,hc,i,hi,l,hl,hq.trans (by rw [hat c hc i hi])⟩
    · rw [if_neg hil]
      have hno : p.nch ≠ 1 ∧ p.in_ileaved ≠ outpcm.interleaved := by
        rw [heq] at hil
        by_cases hone : p.nch = 1
        · exact absurd (if_pos hone) hil
        · exact ⟨hone,fun h => hil ((if_neg hone).trans h)⟩
      have hsame : pcm_mono outpcm samples p ini = some p := if_neg fun h => hno.1 h.2
      obtain rfl := Option.some.inj (hp'.symm.trans hsame)
      exact hloop fun h => h.2.2.elim hno.2 hno.1
  · rw [if_neg hdir]
    exact hloop fun h => hdir ⟨h.1,h.2.1⟩

/-! ## The plans of the three kinds of requests -/

variable {inpcm : Af} {data : Data} {m : Mem UInt8} {tmp : Option Nat}

/-- A request that is not refused for its numbers of channels or its rates. -/
structure Sane (outpcm inpcm : Af) : Prop where
  in_pos : 1 ≤ inpcm.channels
  in_le : inpcm.channels ≤ 8
  out_pos : 1 ≤ outpcm.channels % 16
  out_le : outpcm.channels % 16 ≤ 8
  rate : inpcm.rate = outpcm.rate

theorem convert_plan (h : Sane outpcm inpcm) {out : Data} :
    pcm_convert L outpcm out inpcm data samples m tmp ini oni =
      (pcm_channels L outpcm inpcm data samples m tmp ini).bind fun
        | none => some ⟨false,[],[],[]⟩
        | some p => pcm_samples L outpcm out samples p ini oni := by
  have hch : ¬(inpcm.channels > 8 ∨ outpcm.channels % 16 > 8) := by
    have := h.in_le
    have := h.out_le
    omega
  unfold pcm_convert
  rw [if_neg hch,if_neg (not_not.mpr h.rate)]
  rfl

/-- The conversion of a plan whose samples are those of the caller at other places. -/
theorem convert_spec (h : Sane outpcm inpcm) (hp : p.Fits)
    (hplan : pcm_channels L outpcm inpcm data samples m tmp ini = some (some p))
    (buf : Buffer outpcm samples) (hn : p.nch = outpcm.channels % 16) (oni : Nat → Ptr) :
    ∃ r, pcm_convert L outpcm buf.data inpcm data samples m tmp ini oni = some r ∧
      (Supported L p outpcm ∧ r.ok = true ∧ Converts L outpcm buf p r ∨
        ¬Supported L p outpcm ∧ r = ⟨false,p.reads,p.tmp,[]⟩) := by
  rw [convert_plan h,hplan]
  exact pcm_samples_spec hp buf hn ini oni

/-- The samples of the caller. -/
def input (inpcm : Af) (data : Data) (m : Mem UInt8) (c i : Nat) : Bytes :=
  m.load (data.sample inpcm.format.size inpcm.channels c i) inpcm.format.size

theorem input_length (inpcm : Af) (data : Data) (m : Mem UInt8) (c i : Nat) :
    (input inpcm data m c i).length = inpcm.format.size :=
  Memory.load_length _ _ _

/-- The samples in the buffer after the stores. -/
def output (buf : Buffer outpcm samples) (o : Mem UInt8) (r : Result) (c i : Nat) : Bytes :=
  (o.stores r.writes).load (buf.at c i) outpcm.format.size

theorem same_plan (hch : inpcm.channels = outpcm.channels) :
    pcm_channels L outpcm inpcm data samples m tmp ini =
      some (some ⟨inpcm.channels,inpcm.interleaved,data,1,inpcm.format,m,[],[]⟩) := if_pos hch

theorem convert_same (L : Lib D) (h : Sane outpcm inpcm) (hch : inpcm.channels = outpcm.channels)
    (hfit : data.Fits inpcm.interleaved) (buf : Buffer outpcm samples) (m : Mem UInt8)
    (tmp : Option Nat) (ini oni : Nat → Ptr) :
    ∃ r, pcm_convert L outpcm buf.data inpcm data samples m tmp ini oni = some r ∧
      (r.ok = true → (inpcm.format = outpcm.format ∨
          (switch L inpcm.format outpcm.format).isSome) ∧
        ∀ o, ∀ c < inpcm.channels, ∀ i < samples,
          output buf o r c i = conv L inpcm.format outpcm.format (input inpcm data m c i)) := by
  have hn : inpcm.channels = outpcm.channels % 16 := by
    have := h.in_le
    omega
  obtain ⟨r,hr,hspec⟩ := convert_spec h ⟨hfit,fun _ => rfl⟩
    (same_plan (L := L) (m := m) hch) buf hn oni
  refine ⟨r,hr,fun hok => ?_⟩
  rcases hspec with ⟨hsup,-,hconv⟩ | ⟨-,rfl⟩
  · refine ⟨hsup.imp_left And.left,fun o c hc i hi => ?_⟩
    refine (hconv.value o c hc i hi).trans ?_
    rw [Plan.at,Nat.mul_one]
    rfl
  · cases hok

theorem select_plan (L : Lib D) (samples : Nat) (m : Mem UInt8) (tmp : Option Nat) (ini : Nat → Ptr)
    (hch : inpcm.channels ≠ outpcm.channels) (hout : outpcm.channels % 16 = 1) {ch : Nat}
    (hbits : outpcm.channels / 16 = ch + 1) (hle : ch ≤ 1) (hfit : data.Fits inpcm.interleaved) :
    ∃ p, pcm_channels L outpcm inpcm data samples m tmp ini = some (some p) ∧ p.Fits ∧
      p.nch = 1 ∧ p.ifmt = inpcm.format ∧ p.mem = m ∧ p.reads = [] ∧ p.tmp = [] ∧
      p.in_ileaved = false ∧ p.istep = stepOf inpcm.interleaved inpcm.channels ∧
      ∀ i, p.at 0 i = data.sample inpcm.format.size inpcm.channels ch i := by
  unfold pcm_channels
  dsimp only
  rw [if_neg hch,if_pos ⟨hout,by omega⟩,hbits,Nat.add_sub_cancel,if_neg (by omega)]
  cases data with
  | b q =>
    rw [show inpcm.interleaved = true from hfit,if_pos rfl]
    refine ⟨_,rfl,⟨rfl,fun h => by cases h⟩,rfl,rfl,rfl,rfl,rfl,rfl,rfl,fun i => ?_⟩
    simp only [Plan.at,Data.sample,if_pos]
    rw [bits_bytes,Ptr.add_add,Nat.add_mul,Nat.add_comm]
  | pb a =>
    rw [show inpcm.interleaved = false from hfit,if_neg Bool.false_ne_true]
    refine ⟨_,rfl,⟨rfl,fun h => by cases h⟩,rfl,rfl,rfl,rfl,rfl,rfl,rfl,fun i => ?_⟩
    simp [Plan.at,Data.sample]

theorem convert_select (L : Lib D) (h : Sane outpcm inpcm) (hch : inpcm.channels ≠ outpcm.channels)
    (hout : outpcm.channels % 16 = 1) (ch : Nat) (hbits : outpcm.channels / 16 = ch + 1)
    (hfit : data.Fits inpcm.interleaved) (buf : Buffer outpcm samples) (m : Mem UInt8)
    (tmp : Option Nat) (ini oni : Nat → Ptr) :
    ∃ r, pcm_convert L outpcm buf.data inpcm data samples m tmp ini oni = some r ∧
      (r.ok = true → ∀ o, ∀ i < samples,
        output buf o r 0 i = conv L inpcm.format outpcm.format (input inpcm data m ch i)) := by
  by_cases hle : ch ≤ 1
  · obtain ⟨p,hplan,hp,hnch,hifmt,hmem,-,-,-,-,hat⟩ :=
      select_plan L samples m tmp ini hch hout hbits hle hfit
    obtain ⟨r,hr,hspec⟩ := convert_spec h hp hplan buf (hnch.trans hout.symm) oni
    refine ⟨r,hr,fun hok o i hi => ?_⟩
    rcases hspec with ⟨-,-,hconv⟩ | ⟨-,rfl⟩
    · have := hconv.value o 0 (by omega) i hi
      rw [hat,hifmt,hmem] at this
      exact this
    · cases hok
  · refine ⟨⟨false,[],[],[]⟩,?_,nofun⟩
    rw [convert_plan h,pcm_channels,if_neg hch]
    dsimp only
    rw [if_pos ⟨hout,by omega⟩,if_pos (by omega)]
    rfl

/-! ## Samples that keep their format -/

/-- With one format and one rate each sample of the output is the input's, in any layouts, also when one
channel of several is selected. -/
theorem relayout_exact (L : Lib D) (outpcm inpcm : Af) (h : Sane outpcm inpcm)
    (hfmt : inpcm.format = outpcm.format) (data : Data) (hfit : data.Fits inpcm.interleaved)
    (samples : Nat) (buf : Buffer outpcm samples) (m : Mem UInt8) (tmp : Option Nat)
    (ini oni : Nat → Ptr) :
    (inpcm.channels = outpcm.channels →
      ∃ r, pcm_convert L outpcm buf.data inpcm data samples m tmp ini oni = some r ∧
        (r.ok = true → ∀ o, ∀ c < inpcm.channels, ∀ i < samples,
          output buf o r c i = input inpcm data m c i)) ∧
    ∀ ch, 1 < inpcm.channels → ch < inpcm.channels → outpcm.channels = 16 * (ch + 1) + 1 →
      ∃ r, pcm_convert L outpcm buf.data inpcm data samples m tmp ini oni = some r ∧
        (r.ok = true → ∀ o, ∀ i < samples, output buf o r 0 i = input inpcm data m ch i) := by
  constructor
  · intro hch
    obtain ⟨r,hr,hok⟩ := convert_same L h hch hfit buf m tmp ini oni
    refine ⟨r,hr,fun hr' o c hc i hi => ?_⟩
    rw [(hok hr').2 o c hc i hi,hfmt,conv_same]
  · intro ch _ _ hout
    have hin := h.in_le
    obtain ⟨r,hr,hok⟩ := convert_select L h (by omega) (by omega) ch (by omega) hfit buf m tmp
      ini oni
    refine ⟨r,hr,fun hr' o i hi => ?_⟩
    rw [hok hr' o i hi,hfmt,conv_same]

/-- The C library on samples that are 0. -/
def silence : Lib Rat where
  toArith := exact
  ldf _ := 0
  ldd _ := 0
  stf _ := [0,0,0,0]
  std _ := [0,0,0,0,0,0,0,0]
  stf_length _ := rfl
  std_length _ := rfl
  int_ftoi _ := 0
  cpu24 b := le b
  cpu24_eq _ := .inl rfl

/-- A buffer for interleaved samples. -/
def row (f : Af) (h : f.interleaved = true) (samples : Nat) : Buffer f samples := ⟨.b ⟨0,0⟩,h,nofun⟩

/-- Two samples of planar stereo, interleaved, and the right channel of them. -/
theorem relayout_stereo :
    (∃ r, pcm_convert silence ⟨.pcm16,2,44100,true⟩ (.b ⟨0,0⟩) ⟨.pcm16,2,44100,false⟩
        (.pb fun c => ⟨c,0⟩) 2 (fun b o => UInt8.ofNat (16 * b + o)) none (fun _ => ⟨0,0⟩)
        (fun _ => ⟨0,0⟩) = some r ∧ r.ok = true ∧
      output (row ⟨.pcm16,2,44100,true⟩ rfl 2) (fun _ _ => 0) r 1 1 = [18,19]) ∧
    ∃ r, pcm_convert silence ⟨.pcm16,33,44100,true⟩ (.b ⟨0,0⟩) ⟨.pcm16,2,44100,false⟩
        (.pb fun c => ⟨c,0⟩) 2 (fun b o => UInt8.ofNat (16 * b + o)) none (fun _ => ⟨0,0⟩)
        (fun _ => ⟨0,0⟩) = some r ∧ r.ok = true ∧
      output (row ⟨.pcm16,33,44100,true⟩ rfl 2) (fun _ _ => 0) r 0 1 = [18,19] := by
  constructor
  · obtain ⟨r,hr,hout⟩ := (relayout_exact silence ⟨.pcm16,2,44100,true⟩
      ⟨.pcm16,2,44100,false⟩ ⟨by decide,by decide,by decide,by decide,rfl⟩ rfl
      (.pb fun c => ⟨c,0⟩) rfl 2 (row _ rfl 2) (fun b o => UInt8.ofNat (16 * b + o)) none
      (fun _ => ⟨0,0⟩) (fun _ => ⟨0,0⟩)).1 rfl
    have hok : r.ok = true := Option.some.inj (congrArg (Option.map Result.ok) hr.symm)
    exact ⟨r,hr,hok,hout hok _ 1 (by decide) 1 (by decide)⟩
  · obtain ⟨r,hr,hout⟩ := (relayout_exact silence ⟨.pcm16,33,44100,true⟩
      ⟨.pcm16,2,44100,false⟩ ⟨by decide,by decide,by decide,by decide,rfl⟩ rfl
      (.pb fun c => ⟨c,0⟩) rfl 2 (row _ rfl 2) (fun b o => UInt8.ofNat (16 * b + o)) none
      (fun _ => ⟨0,0⟩) (fun _ => ⟨0,0⟩)).2 1 (by decide) (by decide) rfl
    have hok : r.ok = true := Option.some.inj (congrArg (Option.map Result.ok) hr.symm)
    exact ⟨r,hr,hok,hout hok _ 1 (by decide)⟩

/-! ## Samples of integers -/

theorem conv_scaled {ifmt ofmt : Fmt} (h : ifmt = ofmt ∨ (switch L ifmt ofmt).isSome)
    (hi : ifmt.isInt) (ho : ofmt.isInt) {b : Bytes} (hb : b.length = ifmt.size) :
    Scaled ifmt.width ofmt.width (ifmt.value b) (ofmt.value (conv L ifmt ofmt b)) ↔
      (ifmt = .pcm32 → ofmt = .pcm16 → Halves (ifmt.value b)) := by
  by_cases hfmt : ifmt = ofmt
  · subst hfmt
    rw [conv_same]
    refine iff_of_true (scaled_up 0 rfl (Int.mul_one _).symm) ?_
    rintro rfl h
    cases h
  · obtain ⟨c,hc⟩ := Option.isSome_iff_exists.mp (h.resolve_left hfmt)
    rw [conv_switch L hc hb]
    exact switch_scaled hc hi ho hb

theorem conv_length {ifmt ofmt : Fmt} (h : ifmt = ofmt ∨ (switch L ifmt ofmt).isSome)
    {b : Bytes} (hb : b.length = ifmt.size) : (conv L ifmt ofmt b).length = ofmt.size := by
  by_cases hfmt : ifmt = ofmt
  · subst hfmt
    rw [conv_same,hb]
  · obtain ⟨c,hc⟩ := Option.isSome_iff_exists.mp (h.resolve_left hfmt)
    rw [conv_switch L hc hb]
    exact (switch_size hc).2.2 b hb

theorem conv_back {ifmt gfmt : Fmt} (h : ifmt = gfmt ∨ (switch L ifmt gfmt).isSome)
    (h' : gfmt = ifmt ∨ (switch L gfmt ifmt).isSome) (hi : ifmt.isInt) (hg : gfmt.isInt)
    (hw : ifmt.width < gfmt.width) {b : Bytes} (hb : b.length = ifmt.size) :
    conv L gfmt ifmt (conv L ifmt gfmt b) = b ↔
      (ifmt = .pcm16 → gfmt = .pcm32 → ifmt.value b = 0) := by
  have hne : ifmt ≠ gfmt := fun heq => absurd hw (by rw [heq]; exact Nat.lt_irrefl _)
  obtain ⟨c,hc⟩ := Option.isSome_iff_exists.mp (h.resolve_left hne)
  obtain ⟨c',hc'⟩ := Option.isSome_iff_exists.mp (h'.resolve_left (Ne.symm hne))
  have hlen := conv_length h hb
  rw [conv_switch L hc' hlen,conv_switch L hc hb]
  exact switch_back hc hc' hi hg hw hb

theorem input_output (h : outpcm.channels ≤ 8) (buf : Buffer outpcm samples) (o : Mem UInt8)
    (r : Result) (c i : Nat) : input outpcm buf.data (o.stores r.writes) c i = output buf o r c i := by
  unfold input output Buffer.at
  rw [Nat.mod_eq_of_lt (by omega)]

/-- Between integer formats every sample is scaled, and a conversion to a wider format and back gives the
samples back: from 32 to 16 bits, exactly if the halves of each sample agree, and from 16 to 32 bits and
back, exactly if all samples are 0. -/
theorem scaling_iff (L : Lib D) (outpcm inpcm : Af) (h : Sane outpcm inpcm)
    (hch : inpcm.channels = outpcm.channels) (hi : inpcm.format.isInt) (ho : outpcm.format.isInt)
    (data : Data) (hfit : data.Fits inpcm.interleaved) (samples : Nat) (buf : Buffer outpcm samples)
    (m : Mem UInt8) (tmp : Option Nat) (ini oni : Nat → Ptr) :
    ∃ r, pcm_convert L outpcm buf.data inpcm data samples m tmp ini oni = some r ∧
      (r.ok = true →
        ((∀ o, ∀ c < inpcm.channels, ∀ i < samples, Scaled inpcm.format.width outpcm.format.width
            (inpcm.format.value (input inpcm data m c i))
            (outpcm.format.value (output buf o r c i))) ↔
          (inpcm.format = .pcm32 → outpcm.format = .pcm16 → ∀ c < inpcm.channels, ∀ i < samples,
            Halves (inpcm.format.value (input inpcm data m c i)))) ∧
        (inpcm.format.width < outpcm.format.width →
          ∀ (backpcm : Af) (buf' : Buffer backpcm samples) (o : Mem UInt8) (r' : Result),
            backpcm.format = inpcm.format → backpcm.channels = inpcm.channels →
            backpcm.rate = inpcm.rate →
            pcm_convert L backpcm buf'.data outpcm buf.data samples (o.stores r.writes) tmp ini oni =
              some r' → r'.ok = true →
            ((∀ o', ∀ c < inpcm.channels, ∀ i < samples,
                output buf' o' r' c i = input inpcm data m c i) ↔
              (inpcm.format = .pcm16 → outpcm.format = .pcm32 → ∀ c < inpcm.channels, ∀ i < samples,
                inpcm.format.value (input inpcm data m c i) = 0)))) := by
  obtain ⟨r,hr,hspec⟩ := convert_same L h hch hfit buf m tmp ini oni
  refine ⟨r,hr,fun hok => ?_⟩
  obtain ⟨hsup,hout⟩ := hspec hok
  have hlen := input_length inpcm data m
  refine ⟨⟨fun hall hf hg c hc i hi' => ?_,fun hcond o c hc i hi' => ?_⟩,?_⟩
  · have := hall (fun _ _ => 0) c hc i hi'
    rw [hout _ c hc i hi'] at this
    exact (conv_scaled hsup hi ho (hlen c i)).mp this hf hg
  · rw [hout o c hc i hi']
    exact (conv_scaled hsup hi ho (hlen c i)).mpr fun hf hg => hcond hf hg c hc i hi'
  · intro hw backpcm buf' o r' hfmt hback hrate hr' hok'
    have hin := h.in_le
    have hpos := h.in_pos
    have hsane : Sane backpcm outpcm := ⟨by omega,by omega,by omega,by omega,by rw [hrate,h.rate]⟩
    obtain ⟨r'',hr'',hspec'⟩ := convert_same L hsane (hch.symm.trans hback.symm) buf.fits buf'
      (o.stores r.writes) tmp ini oni
    obtain rfl := Option.some.inj (hr'.symm.trans hr'')
    obtain ⟨hsup',hout'⟩ := hspec' hok'
    have hsample (o' : Mem UInt8) (c : Nat) (hc : c < inpcm.channels) (i : Nat) (hi' : i < samples) :
        output buf' o' r' c i = input inpcm data m c i ↔ (inpcm.format = .pcm16 →
          outpcm.format = .pcm32 → inpcm.format.value (input inpcm data m c i) = 0) := by
      rw [hout' o' c (hch ▸ hc) i hi',input_output (hch ▸ hin),hout o c hc i hi',hfmt]
      exact conv_back hsup (hfmt ▸ hsup') hi ho hw (hlen c i)
    exact ⟨fun hall hf hg c hc i hi' =>
        (hsample (fun _ _ => 0) c hc i hi').mp (hall _ c hc i hi') hf hg,
      fun hcond o' c hc i hi' => (hsample o' c hc i hi').mpr fun hf hg => hcond hf hg c hc i hi'⟩

/-- A stereo sample of 16 bits in 24 bits. -/
theorem scaling_stereo :
    ∃ r, pcm_convert silence ⟨.pcm24,2,44100,true⟩ (.b ⟨0,0⟩) ⟨.pcm16,2,44100,true⟩ (.b ⟨0,0⟩) 1
        (fun _ o => UInt8.ofNat (100 * o)) none (fun _ => ⟨0,0⟩) (fun _ => ⟨0,0⟩) = some r ∧
      r.ok = true ∧ ∀ c < 2, ∀ i < 1, Scaled 16 24
        (get 2 (input ⟨.pcm16,2,44100,true⟩ (.b ⟨0,0⟩) (fun _ o => UInt8.ofNat (100 * o)) c i))
        (get 3 (output (row ⟨.pcm24,2,44100,true⟩ rfl 1) (fun _ _ => 0) r c i)) := by
  obtain ⟨r,hr,hspec⟩ := scaling_iff silence ⟨.pcm24,2,44100,true⟩ ⟨.pcm16,2,44100,true⟩
    ⟨by decide,by decide,by decide,by decide,rfl⟩ rfl rfl rfl (.b ⟨0,0⟩) rfl 1 (row _ rfl 1)
    (fun _ o => UInt8.ofNat (100 * o)) none (fun _ => ⟨0,0⟩) (fun _ => ⟨0,0⟩)
  have hok : r.ok = true := Option.some.inj (congrArg (Option.map Result.ok) hr.symm)
  exact ⟨r,hr,hok,(hspec hok).1.mpr nofun _⟩

/-- The sample 65536 of 32 bits becomes 0, not 1, in 16 bits. -/
theorem low_half_kept :
    (pcm_convert silence ⟨.pcm16,1,44100,true⟩ (.b ⟨0,0⟩) ⟨.pcm32,1,44100,true⟩ (.b ⟨0,0⟩) 1
        (fun _ o => if o = 2 then 1 else 0) none (fun _ => ⟨0,0⟩) (fun _ => ⟨0,0⟩)).map (fun r =>
      (r.ok,get 4 (input ⟨.pcm32,1,44100,true⟩ (.b ⟨0,0⟩) (fun _ o => if o = 2 then 1 else 0) 0 0),
        get 2 (output (row ⟨.pcm16,1,44100,true⟩ rfl 1) (fun _ _ => 0) r 0 0))) =
      some (true,65536,0) ∧ ¬Scaled 32 16 65536 0 := by
  refine ⟨by decide +kernel,fun h => ?_⟩
  rw [scaled_iff] at h
  omega

end Phiola.Pcm
