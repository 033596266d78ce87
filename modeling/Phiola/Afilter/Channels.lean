import Phiola.Afilter.Convert

/-!
# The channels that a conversion reads and writes

Which requests for other channels are accepted, and that these read and write the samples of channels
that exist. The mask of an unknown number of channels is not recognized as such.
-/

namespace Phiola.Pcm

open Memory (Ptr Mem Store)

variable {D : Type} {L : Lib D} {size n samples : Nat} {at_ : Nat → Nat → Ptr} {p : Plan}
  {outpcm inpcm : Af} {data : Data} {m : Mem UInt8} {tmp : Option Nat} {ini oni : Nat → Ptr}

/-! ## The mix -/

/-- The output channels that the loop of the format writes. -/
def outs (fmt : Fmt) (k : Nat) : List (Nat × Nat) :=
  if fmt = .pcm24 then out_streams_24 (chan_mask k) k (List.range 8) 0
  else out_streams (chan_mask k) k (List.range 8) 0

/-- What the loops do for any numbers of channels: they read at the samples' places or before them, and
write at the values' places or before them. -/
theorem pcm_chan_mix_cases {A : Arith D} {ldf : Bytes → D} {k : Nat} (hfmt : inpcm.format.mixable)
    {src : Nat → Ptr}
    (hsrc : data.channels ini inpcm.format inpcm.channels inpcm.interleaved = some src) :
    (pcm_chan_mix A ldf k inpcm data samples m ini = none ∧ outs inpcm.format k ≠ [] ∧
      2 ^ 32 ≤ samples) ∨
    ∃ val ioff oidx, pcm_chan_mix A ldf k inpcm data samples m ini =
        some (some (mix_loop A inpcm.format.size val ioff oidx (outs inpcm.format k)
          (in_streams (chan_mask inpcm.channels) (List.range 8) 0) (levels A inpcm.channels k) src
          samples m)) ∧
      (∀ i, ioff i ≤ i * stepOf inpcm.interleaved inpcm.channels * inpcm.format.size) ∧
      ∀ c i, oidx c i ≤ c + i * k := by
  rw [pcm_chan_mix_any hsrc]
  obtain ⟨fmt,n,rate,il⟩ := inpcm
  dsimp only at *
  cases fmt with
  | pcm8 => cases hfmt
  | pcm24_4 => cases hfmt
  | float64 => cases hfmt
  | pcm24 =>
    dsimp only
    split
    · rename_i h
      exact .inl ⟨rfl,h⟩
    · exact .inr ⟨_,_,_,rfl,fun i => Nat.mod_le _ _,fun c i => Nat.mod_le _ _⟩
  | pcm16 => exact .inr ⟨_,_,_,rfl,fun i => Nat.le_refl _,fun c i => Nat.le_refl _⟩
  | pcm32 => exact .inr ⟨_,_,_,rfl,fun i => Nat.le_refl _,fun c i => Nat.le_refl _⟩
  | float32 => exact .inr ⟨_,_,_,rfl,fun i => Nat.le_refl _,fun c i => Nat.le_refl _⟩

/-- Bytes at a channel's sample, or before it in the channel's place, are bytes of samples. -/
theorem within_channel {d : Data} {il : Bool} {fmt : Fmt} {a : Nat → Ptr} (hfit : d.Fits il)
    (ha : d.channels ini fmt n il = some a) {c i t : Nat} (hc : c < n) (hi : i < samples)
    (ht : t ≤ i * stepOf il n * fmt.size) :
    Within (d.sample fmt.size n) fmt.size n samples ((a c).add t) fmt.size := by
  cases d with
  | b q =>
    obtain rfl : il = true := hfit
    obtain rfl := Option.some.inj ha
    have hlt := Memory.mul_add_le (sample_lt hc hi) fmt.size
    rw [Nat.add_mul] at hlt
    have ht' : t ≤ i * n * fmt.size := ht
    have hplace : pcm_setni ini q fmt n c = q.add (c * fmt.size) :=
      (if_pos hc).trans (by rw [bits_bytes])
    dsimp only
    rw [hplace,Ptr.add_add]
    exact within_row (by omega)
  | pb b =>
    obtain rfl : il = false := hfit
    obtain rfl := Option.some.inj ha
    have hlt := Memory.mul_add_le hi fmt.size
    have ht' : t ≤ i * 1 * fmt.size := ht
    rw [Nat.mul_one] at ht'
    exact within_plane hc (by omega)

theorem in_streams_ne_nil (n : Nat) : in_streams (chan_mask n) (List.range 8) 0 ≠ [] := by
  rcases chan_mask_cases n with h | h | h | h | h <;> rw [h] <;> decide

theorem out_streams_ne_nil (k : Nat) : out_streams (chan_mask k) k (List.range 8) 0 ≠ [] := by
  rcases chan_mask_cases k with h | h | h | h | h <;> rw [h] <;> exact List.cons_ne_nil _ _

theorem out_streams_24_ne_nil {k : Nat} (hk : k ≠ 1) :
    out_streams_24 (chan_mask k) k (List.range 8) 0 ≠ [] := by
  have hmask : chan_mask k ≠ 4 := by
    unfold chan_mask
    split
    · exact absurd rfl hk
    all_goals decide
  rcases chan_mask_cases k with h | h | h | h | h
  · exact absurd h hmask
  all_goals
    rw [h]
    exact List.cons_ne_nil _ _

/-- A request that must be rejected: a channel is selected that the input has not, or channels are mixed
from or to a number that has no layout. -/
def Bad (outpcm inpcm : Af) : Prop :=
  inpcm.channels ≠ outpcm.channels ∧
    if outpcm.channels % 16 = 1 ∧ outpcm.channels / 16 ≠ 0 then
      inpcm.channels < outpcm.channels / 16
    else outpcm.channels / 16 = 0 ∧ ¬(Documented inpcm.channels ∧ Documented outpcm.channels)

instance (outpcm inpcm : Af) : Decidable (Bad outpcm inpcm) := inferInstanceAs (Decidable (_ ∧ _))

/-- The request is refused for another reason, before data is read: the rates differ; for one channel, it
is neither of the first two or the formats are not supported; for a mix, there is no memory, the format
cannot be mixed, or the output's format is not supported and the mix reads nothing. -/
def Refuses (L : Lib D) (outpcm inpcm : Af) (samples : Nat) (tmp : Option Nat) : Prop :=
  inpcm.rate ≠ outpcm.rate ∨
    if outpcm.channels % 16 = 1 ∧ outpcm.channels / 16 ≠ 0 then
      outpcm.channels / 16 > 2 ∨
        inpcm.format ≠ outpcm.format ∧ switch L inpcm.format outpcm.format = none
    else tmp = none ∨ inpcm.format.mixable = false ∨
      switch L .float32 outpcm.format = none ∧
        (samples = 0 ∨ inpcm.format = .pcm24 ∧ outpcm.channels = 1)

/-- The place of a value in the temporary buffer. -/
def tmp_at (t k c i : Nat) : Ptr := (⟨t,0⟩ : Ptr).add ((i * k + c) * 4)

/-- What is accepted reads bytes of the input's samples, reads and writes bytes of values in the
temporary buffer, and writes bytes of the output's samples; what is bad is rejected, and nothing is
read or written. -/
def Guarded (L : Lib D) (outpcm inpcm : Af) (data : Data) {samples : Nat}
    (buf : Buffer outpcm samples) (m : Mem UInt8) (tmp : Option Nat) (ini oni : Nat → Ptr) : Prop :=
  (∀ r, pcm_convert L outpcm buf.data inpcm data samples m tmp ini oni = some r → r.ok = true →
    (∀ rd ∈ r.reads, Within (data.sample inpcm.format.size inpcm.channels) inpcm.format.size
        inpcm.channels samples rd.1 rd.2 ∨
      ∃ t, tmp = some t ∧ Within (tmp_at t (outpcm.channels % 16)) 4 (outpcm.channels % 16) samples
        rd.1 rd.2) ∧
    (∀ w ∈ r.tmp, ∃ t, tmp = some t ∧ Within (tmp_at t (outpcm.channels % 16)) 4
      (outpcm.channels % 16) samples w.dst w.bytes.length) ∧
    ∀ w ∈ r.writes, Within buf.at outpcm.format.size (outpcm.channels % 16) samples w.dst
      w.bytes.length) ∧
  (Bad outpcm inpcm →
    pcm_convert L outpcm buf.data inpcm data samples m tmp ini oni = some ⟨false,[],[],[]⟩)

/-- What the conversion of a plan reads and writes, if the plan's samples are the caller's or values of
the temporary buffer. -/
theorem Converts.inside {buf : Buffer outpcm samples} {r : Result} (h : Converts L outpcm buf p r)
    (hn : p.nch = outpcm.channels % 16) {q : Ptr → Nat → Prop}
    (hreads : ∀ rd ∈ p.reads, q rd.1 rd.2)
    (hat : ∀ rd : Ptr × Nat, Within p.at p.ifmt.size p.nch samples rd.1 rd.2 → q rd.1 rd.2) :
    (∀ rd ∈ r.reads, q rd.1 rd.2) ∧ ∀ w ∈ r.writes,
      Within buf.at outpcm.format.size (outpcm.channels % 16) samples w.dst w.bytes.length :=
  ⟨fun rd hrd => (h.reads rd hrd).elim (hreads rd) (hat rd),fun w hw => hn ▸ h.writes w hw⟩

theorem Within.congr {at' : Nat → Nat → Ptr} {n' : Nat} {q : Ptr} {len : Nat}
    (h : Within at_ size n samples q len)
    (hat : ∀ c < n, ∃ c' < n', ∀ i < samples, at_ c i = at' c' i) :
    Within at' size n' samples q len := fun j hj => by
  obtain ⟨c,hc,i,hi,l,hl,hq⟩ := h j hj
  obtain ⟨c',hc',heq⟩ := hat c hc
  exact ⟨c',hc',i,hi,l,hl,by rw [hq,heq i hi]⟩

theorem outs_lt {fmt : Fmt} {k : Nat} (hk : Documented k) {o : Nat × Nat} (ho : o ∈ outs fmt k) :
    o.2 < k := by
  have hmem {l : List (Nat × Nat)} (hl : l = (List.range k).map fun c => (chan k c,c)) (ho : o ∈ l) :
      o.2 < k := by
    subst hl
    obtain ⟨c,hc,rfl⟩ := List.mem_map.mp ho
    exact List.mem_range.mp hc
  unfold outs at ho
  split at ho
  · by_cases hmono : k = 1
    · subst hmono
      cases ho
    · exact hmem (out_streams_24_documented hk hmono) ho
  · exact hmem (out_streams_documented hk) ho

theorem outs_nil_iff {fmt : Fmt} {k : Nat} : outs fmt k = [] ↔ fmt = .pcm24 ∧ k = 1 := by
  unfold outs
  split
  · rename_i hfmt
    refine ⟨fun h => ⟨hfmt,by_contra fun hk => out_streams_24_ne_nil hk h⟩,?_⟩
    rintro ⟨-,rfl⟩
    rfl
  · rename_i hfmt
    exact ⟨fun h => absurd h (out_streams_ne_nil k),fun h => absurd h.1 hfmt⟩

variable {A : Arith D} {k isz : Nat} {val : Bytes → D} {ioff : Nat → Nat} {oidx : Nat → Nat → Nat}
  {os is : List (Nat × Nat)} {level : Level D} {src : Nat → Ptr}

theorem mix_loop_reads_nil (his : is ≠ []) :
    (mix_loop A isz val ioff oidx os is level src samples m).reads = [] ↔ os = [] ∨ samples = 0 := by
  unfold mix_loop
  dsimp only
  constructor
  · intro h
    by_contra hne
    obtain ⟨hos,hs⟩ := not_or.mp hne
    obtain ⟨o,ho⟩ := List.exists_mem_of_ne_nil os hos
    obtain ⟨c,hc⟩ := List.exists_mem_of_ne_nil is his
    have hmem : ((src c.2).add (ioff 0),isz) ∈ os.flatMap fun _ => (List.range samples).flatMap
        fun i => is.map fun c => ((src c.2).add (ioff i),isz) :=
      List.mem_flatMap.mpr ⟨o,ho,List.mem_flatMap.mpr ⟨0,List.mem_range.mpr (Nat.pos_of_ne_zero hs),
        List.mem_map_of_mem hc⟩⟩
    rw [h] at hmem
    cases hmem
  · rintro (rfl | rfl)
    · rfl
    · simp

theorem mix_loop_writes_nil (h : os = [] ∨ samples = 0) :
    (mix_loop A isz val ioff oidx os is level src samples m).writes = [] := by
  rcases h with rfl | rfl
  · rfl
  · simp [mix_loop]

theorem mix_loop_inside (hn : Documented inpcm.channels) (hk : Documented k)
    (hfit : data.Fits inpcm.interleaved)
    (hsrc : data.channels ini inpcm.format inpcm.channels inpcm.interleaved = some src)
    (hin : ∀ i, ioff i ≤ i * stepOf inpcm.interleaved inpcm.channels * inpcm.format.size)
    (hout : ∀ c i, oidx c i ≤ c + i * k) {x : Mix D}
    (hx : x = mix_loop A inpcm.format.size val ioff oidx (outs inpcm.format k)
      (in_streams (chan_mask inpcm.channels) (List.range 8) 0) level src samples m) :
    (∀ rd ∈ x.reads, Within (data.sample inpcm.format.size inpcm.channels) inpcm.format.size
      inpcm.channels samples rd.1 rd.2) ∧
    ∀ (t : Nat) (stf : D → Bytes), (∀ y, (stf y).length = 4) → ∀ w ∈ stored ⟨t,0⟩ 4 stf x.writes,
      Within (tmp_at t k) 4 k samples w.dst w.bytes.length := by
  subst hx
  unfold mix_loop
  rw [in_streams_documented hn]
  refine ⟨fun rd hrd => ?_,fun t stf hstf w hw => ?_⟩
  · obtain ⟨o,-,hrd⟩ := List.mem_flatMap.mp hrd
    obtain ⟨i,hi,hrd⟩ := List.mem_flatMap.mp hrd
    rw [List.map_map] at hrd
    obtain ⟨s,hs,rfl⟩ := List.mem_map.mp hrd
    exact within_channel hfit hsrc (List.mem_range.mp hs) (List.mem_range.mp hi) (hin i)
  · obtain ⟨y,hy,rfl⟩ := List.mem_map.mp hw
    obtain ⟨o,ho,hy⟩ := List.mem_flatMap.mp hy
    obtain ⟨i,hi,rfl⟩ := List.mem_map.mp hy
    have hidx := hout o.2 i
    have hlt := sample_lt (outs_lt hk ho) (List.mem_range.mp hi)
    dsimp only
    rw [hstf]
    exact within_row (by omega)

/-! ## The plan for a mix -/

/-- The plan for the values in the temporary buffer. -/
def mix_plan (L : Lib D) (outpcm : Af) (t : Nat) (m : Mem UInt8) (ini : Nat → Ptr) (x : Mix D) : Plan :=
  if outpcm.interleaved then
    ⟨outpcm.channels % 16,true,.b ⟨t,0⟩,1,.float32,m.stores (stored ⟨t,0⟩ 4 L.stf x.writes),x.reads,
      stored ⟨t,0⟩ 4 L.stf x.writes⟩
  else
    ⟨outpcm.channels % 16,false,.pb (pcm_setni ini ⟨t,0⟩ .float32 (outpcm.channels % 16)),
      outpcm.channels % 16,.float32,m.stores (stored ⟨t,0⟩ 4 L.stf x.writes),x.reads,
      stored ⟨t,0⟩ 4 L.stf x.writes⟩

theorem mix_channels {t : Nat} (hch : inpcm.channels ≠ outpcm.channels)
    (hbits : outpcm.channels / 16 = 0) :
    pcm_channels L outpcm inpcm data samples m (some t) ini =
      (pcm_chan_mix L.toArith L.ldf (outpcm.channels % 16) inpcm data samples m ini).map fun r =>
        r.map (mix_plan L outpcm t m ini) := by
  unfold pcm_channels mix_plan
  dsimp only
  rw [if_neg hch,if_neg fun h => h.2 hbits,if_pos hbits]

theorem mix_plan_spec (L : Lib D) (outpcm : Af) (t : Nat) (m : Mem UInt8) (ini : Nat → Ptr)
    (x : Mix D) : (mix_plan L outpcm t m ini x).Fits ∧
      (mix_plan L outpcm t m ini x).nch = outpcm.channels % 16 ∧
      (mix_plan L outpcm t m ini x).ifmt = .float32 ∧
      (mix_plan L outpcm t m ini x).mem = m.stores (stored ⟨t,0⟩ 4 L.stf x.writes) ∧
      (mix_plan L outpcm t m ini x).reads = x.reads ∧
      (mix_plan L outpcm t m ini x).tmp = stored ⟨t,0⟩ 4 L.stf x.writes ∧
      ∀ c < outpcm.channels % 16, ∀ i,
        (mix_plan L outpcm t m ini x).at c i = tmp_at t (outpcm.channels % 16) c i := by
  unfold mix_plan
  split
  · refine ⟨⟨rfl,fun _ => rfl⟩,rfl,rfl,rfl,rfl,rfl,fun c hc i => ?_⟩
    simp only [Plan.at,Data.sample,Nat.mul_one]
    rfl
  · exact ⟨⟨rfl,fun h => by cases h⟩,rfl,rfl,rfl,rfl,rfl,fun c hc i => @setni_sample _ _ .float32 _ _ hc i⟩

/-- The values can be given in the formats that the switch has for `float`. -/
theorem mix_plan_supported (L : Lib D) (outpcm : Af) (t : Nat) (m : Mem UInt8) (ini : Nat → Ptr)
    (x : Mix D) : Supported L (mix_plan L outpcm t m ini x) outpcm ↔
      (switch L .float32 outpcm.format).isSome := by
  unfold Supported
  rw [(mix_plan_spec L outpcm t m ini x).2.2.1]
  refine ⟨fun h => h.elim (fun h => ?_) id,.inr⟩
  rw [← h.1]
  rfl

/-! ## Requests -/

theorem guarded_refused {buf : Buffer outpcm samples}
    (h : pcm_convert L outpcm buf.data inpcm data samples m tmp ini oni = some ⟨false,[],[],[]⟩) :
    Guarded L outpcm inpcm data buf m tmp ini oni := by
  refine ⟨fun r hr hok => ?_,fun _ => h⟩
  obtain rfl := Option.some.inj (h.symm.trans hr)
  cases hok

theorem guarded_same (h : Sane outpcm inpcm) (hch : inpcm.channels = outpcm.channels)
    (hfit : data.Fits inpcm.interleaved) (buf : Buffer outpcm samples) :
    Guarded L outpcm inpcm data buf m tmp ini oni := by
  have hn : inpcm.channels = outpcm.channels % 16 := by
    have := h.in_le
    omega
  obtain ⟨r,hr,hspec⟩ := convert_spec h ⟨hfit,fun _ => rfl⟩ (same_plan (L := L) (m := m) hch) buf hn oni
  refine ⟨fun r' hr' hok => ?_,fun hbad => absurd hch hbad.1⟩
  obtain rfl := Option.some.inj (hr.symm.trans hr')
  rcases hspec with ⟨-,-,hconv⟩ | ⟨-,rfl⟩
  · obtain ⟨hreads,hwrites⟩ := hconv.inside (q := Within (data.sample inpcm.format.size
      inpcm.channels) inpcm.format.size inpcm.channels samples) hn nofun fun rd hrd =>
        hrd.congr fun c hc => ⟨c,hc,fun i _ => by rw [Plan.at,Nat.mul_one]⟩
    refine ⟨fun rd hrd => .inl (hreads rd hrd),fun w hw => ?_,hwrites⟩
    rw [hconv.tmp] at hw
    cases hw
  · cases hok

theorem guarded_select (h : Sane outpcm inpcm) (hch : inpcm.channels ≠ outpcm.channels)
    (hsel : outpcm.channels % 16 = 1 ∧ outpcm.channels / 16 ≠ 0)
    (hfit : data.Fits inpcm.interleaved) (buf : Buffer outpcm samples)
    (href : Bad outpcm inpcm → Refuses L outpcm inpcm samples tmp) :
    Guarded L outpcm inpcm data buf m tmp ini oni := by
  obtain ⟨ch,hbits⟩ := Nat.exists_eq_succ_of_ne_zero hsel.2
  by_cases hle : ch ≤ 1
  · obtain ⟨p,hplan,hp,hnch,hifmt,-,hreads,htmp,-,-,hat⟩ :=
      select_plan L samples m tmp ini hch hsel.1 hbits hle hfit
    obtain ⟨r,hr,hspec⟩ := convert_spec h hp hplan buf (hnch.trans hsel.1.symm) oni
    -- what is bad is refused only for its formats
    have hbad (hlt : inpcm.channels ≤ ch) : r = ⟨false,[],[],[]⟩ := by
      have href := href ⟨hch,by rw [if_pos hsel,hbits]; omega⟩
      rw [Refuses,if_pos hsel,hbits] at href
      obtain ⟨hne,hnone⟩ := (href.resolve_left fun hr => hr h.rate).resolve_left (by omega)
      rcases hspec with ⟨hsup,-,-⟩ | ⟨-,rfl⟩
      · rw [Supported,hifmt,hnone] at hsup
        exact hsup.elim (fun hs => absurd hs.1 hne) nofun
      · rw [hreads,htmp]
    refine ⟨fun r' hr' hok => ?_,fun hb => ?_⟩
    · obtain rfl := Option.some.inj (hr.symm.trans hr')
      rcases hspec with ⟨-,-,hconv⟩ | ⟨-,rfl⟩
      · have hlt : ch < inpcm.channels := by
          by_contra hge
          rw [hbad (by omega)] at hok
          cases hok
        obtain ⟨hrds,hwrites⟩ := hconv.inside (q := Within (data.sample inpcm.format.size
          inpcm.channels) inpcm.format.size inpcm.channels samples) (hnch.trans hsel.1.symm)
          (by rw [hreads]; nofun) fun rd hrd => (hifmt ▸ hrd).congr fun c hc =>
            ⟨ch,hlt,fun i _ => by
              obtain rfl : c = 0 := by omega
              exact hat i⟩
        refine ⟨fun rd hrd => .inl (hrds rd hrd),fun w hw => ?_,hwrites⟩
        rw [hconv.tmp,htmp] at hw
        cases hw
      · cases hok
    · have hlt := hb.2
      rw [if_pos hsel,hbits] at hlt
      rw [hr,hbad (by omega)]
  · refine guarded_refused ?_
    rw [convert_plan h,pcm_channels,if_neg hch]
    dsimp only
    rw [if_pos hsel,if_pos (by omega)]
    rfl

theorem chan_mix_unmixable {A : Arith D} {ldf : Bytes → D} (hfmt : inpcm.format.mixable = false)
    {src : Nat → Ptr}
    (hsrc : data.channels ini inpcm.format inpcm.channels inpcm.interleaved = some src) :
    pcm_chan_mix A ldf k inpcm data samples m ini = some none := by
  rw [pcm_chan_mix_any hsrc]
  obtain ⟨fmt,n,rate,il⟩ := inpcm
  cases fmt <;> first | rfl | cases hfmt

/-- A mix is refused, does not end, or is the conversion of the values in the temporary buffer. -/
theorem convert_mix (h : Sane outpcm inpcm) (hch : inpcm.channels ≠ outpcm.channels)
    (hbits : outpcm.channels / 16 = 0) (hfit : data.Fits inpcm.interleaved)
    (buf : Buffer outpcm samples) :
    ((tmp = none ∨ inpcm.format.mixable = false) ∧
      pcm_convert L outpcm buf.data inpcm data samples m tmp ini oni = some ⟨false,[],[],[]⟩) ∨
    ∃ t src, tmp = some t ∧ inpcm.format.mixable ∧
      data.channels ini inpcm.format inpcm.channels inpcm.interleaved = some src ∧
      ((outs inpcm.format (outpcm.channels % 16) ≠ [] ∧ 2 ^ 32 ≤ samples ∧
        pcm_convert L outpcm buf.data inpcm data samples m tmp ini oni = none) ∨
      ∃ val ioff oidx x r, x = mix_loop L.toArith inpcm.format.size val ioff oidx
          (outs inpcm.format (outpcm.channels % 16))
          (in_streams (chan_mask inpcm.channels) (List.range 8) 0)
          (levels L.toArith inpcm.channels (outpcm.channels % 16)) src samples m ∧
        (∀ i, ioff i ≤ i * stepOf inpcm.interleaved inpcm.channels * inpcm.format.size) ∧
        (∀ c i, oidx c i ≤ c + i * (outpcm.channels % 16)) ∧
        pcm_convert L outpcm buf.data inpcm data samples m tmp ini oni = some r ∧
        ((switch L .float32 outpcm.format).isSome ∧ r.ok = true ∧
            Converts L outpcm buf (mix_plan L outpcm t m ini x) r ∨
          switch L .float32 outpcm.format = none ∧
            r = ⟨false,x.reads,stored ⟨t,0⟩ 4 L.stf x.writes,[]⟩)) := by
  cases tmp with
  | none =>
    refine .inl ⟨.inl rfl,?_⟩
    rw [convert_plan h,pcm_channels,if_neg hch]
    dsimp only
    rw [if_neg fun h => h.2 hbits,if_pos hbits]
    rfl
  | some t =>
    obtain ⟨src,hsrc,-⟩ := channels_place hfit ini inpcm.format inpcm.channels
    have hplan : pcm_channels L outpcm inpcm data samples m (some t) ini =
        (pcm_chan_mix L.toArith L.ldf (outpcm.channels % 16) inpcm data samples m ini).map fun r =>
          r.map (mix_plan L outpcm t m ini) := mix_channels hch hbits
    cases hfmt : inpcm.format.mixable with
    | false =>
      refine .inl ⟨.inr rfl,?_⟩
      rw [convert_plan h,hplan,chan_mix_unmixable hfmt hsrc]
      rfl
    | true =>
      refine .inr ⟨t,src,rfl,rfl,hsrc,?_⟩
      have hcases : (pcm_chan_mix L.toArith L.ldf (outpcm.channels % 16) inpcm data samples m ini = none ∧
          _ ∧ _) ∨ _ := pcm_chan_mix_cases hfmt hsrc
      rcases hcases with ⟨hnone,hne,hbig⟩ | ⟨val,ioff,oidx,hx,hin,hout⟩
      · refine .inl ⟨hne,hbig,?_⟩
        rw [convert_plan h,hplan,hnone]
        rfl
      · rw [hx] at hplan
        obtain ⟨hfits,hnch,-,-,hreads,htmp,-⟩ := mix_plan_spec L outpcm t m ini (mix_loop L.toArith
          inpcm.format.size val ioff oidx (outs inpcm.format (outpcm.channels % 16))
          (in_streams (chan_mask inpcm.channels) (List.range 8) 0)
          (levels L.toArith inpcm.channels (outpcm.channels % 16)) src samples m)
        obtain ⟨r,hr,hspec⟩ := convert_spec h hfits hplan buf hnch oni
        refine .inr ⟨val,ioff,oidx,_,r,rfl,hin,hout,hr,?_⟩
        rw [mix_plan_supported,hreads,htmp,Option.not_isSome_iff_eq_none] at hspec
        exact hspec

theorem guarded_mix (h : Sane outpcm inpcm) (hch : inpcm.channels ≠ outpcm.channels)
    (hbits : outpcm.channels / 16 = 0) (hfit : data.Fits inpcm.interleaved)
    (buf : Buffer outpcm samples) (href : Bad outpcm inpcm → Refuses L outpcm inpcm samples tmp) :
    Guarded L outpcm inpcm data buf m tmp ini oni := by
  have hk : outpcm.channels % 16 = outpcm.channels := by omega
  have hmix : ¬(outpcm.channels % 16 = 1 ∧ outpcm.channels / 16 ≠ 0) := fun h => h.2 hbits
  have hcases : (_ ∧ pcm_convert L outpcm buf.data inpcm data samples m tmp ini oni =
      some ⟨false,[],[],[]⟩) ∨ _ := convert_mix h hch hbits hfit buf
  rcases hcases with ⟨-,hr⟩ | ⟨t,src,rfl,hfmt,hsrc,hrest⟩
  · exact guarded_refused hr
  · -- what is bad has nothing to mix, in a format that the switch has not
    have hbad (hb : Bad outpcm inpcm) : switch L .float32 outpcm.format = none ∧
        (outs inpcm.format (outpcm.channels % 16) = [] ∨ samples = 0) := by
      have hor := (href hb).resolve_left fun hr => hr h.rate
      rw [if_neg hmix] at hor
      obtain ⟨hsw,hnil⟩ := (hor.resolve_left nofun).resolve_left (by rw [hfmt]; exact nofun)
      refine ⟨hsw,hnil.symm.imp_left fun hm => outs_nil_iff.mpr ⟨hm.1,hk.trans hm.2⟩⟩
    rcases hrest with ⟨hne,hbig,hr⟩ | ⟨val,ioff,oidx,x,r,hx,hin,hout,hr,hspec⟩
    · refine ⟨fun r' hr' => ?_,fun hb => ?_⟩
      · rw [hr] at hr'
        cases hr'
      · rcases (hbad hb).2 with hnil | rfl
        · exact absurd hnil hne
        · exact absurd hbig (by decide)
    · refine ⟨fun r' hr' hok => ?_,fun hb => ?_⟩
      · obtain rfl := Option.some.inj (hr.symm.trans hr')
        rcases hspec with ⟨hsw,-,hconv⟩ | ⟨-,rfl⟩
        · have hdoc : Documented inpcm.channels ∧ Documented (outpcm.channels % 16) := by
            by_contra hno
            have hb : Bad outpcm inpcm := ⟨hch,by rw [if_neg hmix]; exact ⟨hbits,hk ▸ hno⟩⟩
            rw [(hbad hb).1] at hsw
            cases hsw
          obtain ⟨-,hnch,hifmt,-,hreads,htmp,hat⟩ := mix_plan_spec L outpcm t m ini x
          obtain ⟨hrds,hws⟩ := mix_loop_inside hdoc.1 hdoc.2 hfit hsrc hin hout hx
          obtain ⟨hreads',hwrites⟩ := hconv.inside hnch (q := fun a n =>
            Within (data.sample inpcm.format.size inpcm.channels) inpcm.format.size inpcm.channels
              samples a n ∨ ∃ t', some t = some t' ∧ Within (tmp_at t' (outpcm.channels % 16)) 4
                (outpcm.channels % 16) samples a n)
            (fun rd hrd => .inl (hrds rd (hreads ▸ hrd))) fun rd hrd => .inr ⟨t,rfl,by
              rw [hifmt,hnch] at hrd
              exact hrd.congr fun c hc => ⟨c,hc,fun i _ => hat c hc i⟩⟩
          refine ⟨hreads',fun w hw => ⟨t,rfl,?_⟩,hwrites⟩
          rw [hconv.tmp,htmp] at hw
          exact hws t L.stf L.stf_length w hw
        · cases hok
      · obtain ⟨hsw,hnil⟩ := hbad hb
        rcases hspec with ⟨hsome,-⟩ | ⟨-,rfl⟩
        · rw [hsw] at hsome
          cases hsome
        · have hwrites : (mix_loop L.toArith inpcm.format.size val ioff oidx
              (outs inpcm.format (outpcm.channels % 16)) (in_streams (chan_mask inpcm.channels) (List.range 8) 0)
              (levels L.toArith inpcm.channels (outpcm.channels % 16)) src samples m).writes = [] :=
            mix_loop_writes_nil hnil
          rw [← hx] at hwrites
          have hreads : x.reads = [] := hx ▸ (mix_loop_reads_nil (in_streams_ne_nil _)).mpr hnil
          rw [hr,hreads,hwrites]
          rfl

/-- A buffer that starts at the start of a block, with a block for each planar channel. -/
def blocks (f : Af) (samples : Nat) : Buffer f samples where
  data := plain f.interleaved
  fits := plain_fits f.interleaved
  apart a ha c _ d _ hne hb := by
    obtain ⟨fmt,n,rate,il⟩ := f
    cases il with
    | true => cases ha
    | false =>
      obtain rfl := Option.some.inj ha
      exact absurd hb hne

/-- If bad requests are rejected, they are refused for another reason. -/
theorem refuses_of_guarded (hin : 1 ≤ inpcm.channels) (hin' : inpcm.channels ≤ 8)
    (hout : 1 ≤ outpcm.channels % 16) (hout' : outpcm.channels % 16 ≤ 8)
    (h : Guarded L outpcm inpcm (plain inpcm.interleaved) (blocks outpcm samples) m tmp ini oni)
    (hb : Bad outpcm inpcm) : Refuses L outpcm inpcm samples tmp := by
  by_contra hno
  obtain ⟨hrate,hno⟩ := not_or.mp hno
  have hs : Sane outpcm inpcm := ⟨hin,hin',hout,hout',not_not.mp hrate⟩
  have hr := h.2 hb
  have hfit := plain_fits inpcm.interleaved
  by_cases hsel : outpcm.channels % 16 = 1 ∧ outpcm.channels / 16 ≠ 0
  · rw [if_pos hsel] at hno
    obtain ⟨hle,hsw⟩ := not_or.mp hno
    have hlt := hb.2
    rw [if_pos hsel] at hlt
    obtain ⟨ch,hbits⟩ := Nat.exists_eq_succ_of_ne_zero hsel.2
    have hone : inpcm.channels = 1 := by omega
    obtain ⟨p,hplan,hp,hnch,hifmt,-,-,-,-,hstep,-⟩ :=
      select_plan L samples m tmp ini hb.1 hsel.1 hbits (by omega) hfit
    obtain ⟨r,hr',hspec⟩ := convert_spec hs hp hplan (blocks outpcm samples)
      (hnch.trans hsel.1.symm) oni
    obtain rfl := Option.some.inj (hr.symm.trans hr')
    have hstep : p.istep = 1 := by
      rw [hstep,hone]
      cases inpcm.interleaved <;> rfl
    rcases hspec with ⟨-,hok,-⟩ | ⟨hsup,-⟩
    · cases hok
    · refine hsw ⟨fun heq => hsup (.inl ⟨hifmt.trans heq,hstep,.inr hnch⟩),?_⟩
      rw [← hifmt]
      exact Option.not_isSome_iff_eq_none.mp fun hsome => hsup (.inr hsome)
  · rw [if_neg hsel] at hno
    have hbits := hb.2
    rw [if_neg hsel] at hbits
    have hcases : (_ ∧ pcm_convert L outpcm (blocks outpcm samples).data inpcm (plain inpcm.interleaved)
        samples m tmp ini oni = some ⟨false,[],[],[]⟩) ∨ _ :=
      convert_mix hs hb.1 hbits.1 hfit (blocks outpcm samples)
    rcases hcases with ⟨href,-⟩ | ⟨t,src,-,-,-,hrest⟩
    · exact hno (href.imp_right .inl)
    · rcases hrest with ⟨-,-,hnone⟩ | ⟨val,ioff,oidx,x,r,hx,-,-,hr',hspec⟩
      · exact absurd (hr.symm.trans hnone) nofun
      · obtain rfl := Option.some.inj (hr.symm.trans hr')
        rcases hspec with ⟨-,hok,-⟩ | ⟨hsw,heq⟩
        · cases hok
        · have hreads : x.reads = [] := (congrArg Result.reads heq).symm
          rw [hx] at hreads
          have hnil := (mix_loop_reads_nil (in_streams_ne_nil _)).mp hreads
          refine hno (.inr (.inr ⟨hsw,hnil.symm.imp_right fun hnil => ?_⟩))
          have := outs_nil_iff.mp hnil
          exact ⟨this.1,by omega⟩

/-- Whatever the data and the buffers are, what is accepted stays within the channels that exist and what
is bad is rejected before data is touched, exactly if a bad request is refused for another reason. -/
theorem channels_iff (L : Lib D) (outpcm inpcm : Af) (hin : 1 ≤ inpcm.channels)
    (hin' : inpcm.channels ≤ 8) (hout : 1 ≤ outpcm.channels % 16) (hout' : outpcm.channels % 16 ≤ 8)
    (samples : Nat) (tmp : Option Nat) :
    (∀ (data : Data) (buf : Buffer outpcm samples) (m : Mem UInt8) (ini oni : Nat → Ptr),
      data.Fits inpcm.interleaved → Guarded L outpcm inpcm data buf m tmp ini oni) ↔
      (Bad outpcm inpcm → Refuses L outpcm inpcm samples tmp) := by
  refine ⟨fun h hb => ?_,fun href data buf m ini oni hfit => ?_⟩
  · have hguarded := h (plain inpcm.interleaved) (blocks outpcm samples) (fun _ _ => 0) (fun _ => ⟨0,0⟩)
      (fun _ => ⟨0,0⟩) (plain_fits _)
    exact refuses_of_guarded hin hin' hout hout' hguarded hb
  · by_cases hrate : inpcm.rate = outpcm.rate
    · have hs : Sane outpcm inpcm := ⟨hin,hin',hout,hout',hrate⟩
      by_cases hch : inpcm.channels = outpcm.channels
      · exact guarded_same hs hch hfit buf
      · by_cases hsel : outpcm.channels % 16 = 1 ∧ outpcm.channels / 16 ≠ 0
        · exact guarded_select hs hch hsel hfit buf href
        · by_cases hbits : outpcm.channels / 16 = 0
          · exact guarded_mix hs hch hbits hfit buf href
          · refine guarded_refused ?_
            rw [convert_plan hs,pcm_channels,if_neg hch]
            dsimp only
            rw [if_neg hsel,if_neg hbits]
            rfl
    · refine guarded_refused ?_
      unfold pcm_convert
      rw [if_neg (by omega),if_pos hrate]

/-- From 5.1 to stereo. -/
theorem channels_surround :
    Guarded silence ⟨.pcm16,2,44100,true⟩ ⟨.pcm16,6,44100,false⟩ (plain false)
      (blocks ⟨.pcm16,2,44100,true⟩ 4) (fun _ _ => 0) (some 9) (fun _ => ⟨0,0⟩) (fun _ => ⟨0,0⟩) :=
  (channels_iff silence ⟨.pcm16,2,44100,true⟩ ⟨.pcm16,6,44100,false⟩ (by decide) (by decide)
    (by decide) (by decide) 4 (some 9)).mpr (fun hb => absurd ⟨by decide,by decide⟩ hb.2.2) _ _ _ _ _
      rfl

/-- One sample of 3 channels is mixed to stereo, and 8 samples are read. -/
theorem three_channels_mixed :
    (pcm_convert silence ⟨.pcm16,2,44100,true⟩ (.b ⟨0,0⟩) ⟨.pcm16,3,44100,true⟩ (.b ⟨0,0⟩) 1
        (fun _ _ => 0) (some 9) (fun _ => ⟨7,0⟩) (fun _ => ⟨7,0⟩)).map (fun r =>
      (r.ok,(r.reads.take 4).map Prod.fst)) =
      some (true,[⟨0,0⟩,⟨0,2⟩,⟨0,4⟩,⟨7,0⟩]) ∧
    ¬Guarded silence ⟨.pcm16,2,44100,true⟩ ⟨.pcm16,3,44100,true⟩ (.b ⟨0,0⟩)
        (row ⟨.pcm16,2,44100,true⟩ rfl 1) (fun _ _ => 0) (some 9) (fun _ => ⟨7,0⟩)
        (fun _ => ⟨7,0⟩) := by
  have hrun : (pcm_convert silence ⟨.pcm16,2,44100,true⟩ (.b ⟨0,0⟩) ⟨.pcm16,3,44100,true⟩ (.b ⟨0,0⟩) 1
      (fun _ _ => 0) (some 9) (fun _ => ⟨7,0⟩) (fun _ => ⟨7,0⟩)).map (fun r =>
        (r.ok,(r.reads.take 4).map Prod.fst)) =
      some (true,[⟨0,0⟩,⟨0,2⟩,⟨0,4⟩,⟨7,0⟩]) := by decide +kernel
  refine ⟨hrun,fun h => ?_⟩
  have := congrArg (Option.map fun r => (r.ok,(r.reads.take 4).map Prod.fst)) (h.2 (by decide))
  exact absurd (hrun.symm.trans this) (by decide)

end Phiola.Pcm
