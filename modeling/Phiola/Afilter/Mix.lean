import Mathlib.Algebra.Order.Field.Rat
import Mathlib.Algebra.BigOperators.Group.List.Basic
import Phiola.Afilter.Pcm

/-!
# Mixing channels

The samples of all input channels make each output channel, with the gains of a table that depends on
the two layouts. With exact arithmetic the result is compared with the documented matrix.
-/

namespace Phiola.Pcm

open Memory (Ptr Mem Store)

/-! ## The gain table -/

def CHAN_FL : Nat := 1
def CHAN_FR : Nat := 2
def CHAN_FC : Nat := 4
def CHAN_LFE : Nat := 8
def CHAN_BL : Nat := 0x10
def CHAN_BR : Nat := 0x20
def CHAN_SL : Nat := 0x40
def CHAN_SR : Nat := 0x80

/-- The mask of a number of channels; for an unknown number it is `(uint)-1`. -/
def chan_mask (channels : Nat) : Nat :=
  match channels with
  | 1 => CHAN_FC
  | 2 => CHAN_FL ||| CHAN_FR
  | 6 => CHAN_FL ||| CHAN_FR ||| CHAN_FC ||| CHAN_LFE ||| CHAN_BL ||| CHAN_BR
  | 8 => CHAN_FL ||| CHAN_FR ||| CHAN_FC ||| CHAN_LFE ||| CHAN_BL ||| CHAN_BR ||| CHAN_SL ||| CHAN_SR
  | _ => 0xffffffff

def FL : Nat := 0
def FR : Nat := 1
def FC : Nat := 2
def LFE : Nat := 3
def BL : Nat := 4
def BR : Nat := 5
def SL : Nat := 6
def SR : Nat := 7

/-- `double level[8][8]`: the gain of an input channel in an output channel. -/
abbrev Level (D : Type) := Nat → Nat → D

def Level.set {D : Type} (level : Level D) (oc ic : Nat) (x : D) : Level D := fun o i =>
  if o = oc ∧ i = ic then x else level o i

variable {D : Type} (A : Arith D)

def sqrt1_2 : Rat := 70710678118654752440 / 100000000000000000000

def row_sum (row : Nat → D) : D := (List.range 8).foldl (fun sum ic => A.add sum (row ic)) (A.lit 0)

/-- The gains of each used output channel are divided by their sum. -/
def normalize (omask : Nat) (level : Level D) : Level D := fun oc ic =>
  if omask.testBit oc && !A.isZero (row_sum A (level oc)) then
    A.div (level oc ic) (row_sum A (level oc))
  else level oc ic

def chan_fill_gain_levels (imask omask : Nat) : Option (Level D) := do
  let r := A.lit sqrt1_2
  let equal := imask &&& omask
  let level : Level D := fun o i => if o = i ∧ equal.testBit o then A.lit 1 else A.lit 0
  let unused := imask &&& (omask ^^^ 0xffffffff)
  let level ←
    if unused &&& CHAN_FL ≠ 0 then
      if omask &&& CHAN_FC ≠ 0 then some ((level.set FC FL r).set FC FR r) else none
    else some level
  let level ←
    if unused &&& CHAN_FC ≠ 0 then
      if omask &&& CHAN_FL ≠ 0 then some ((level.set FL FC r).set FR FC r) else none
    else some level
  let level ←
    if unused &&& CHAN_BL ≠ 0 then
      if omask &&& CHAN_FL ≠ 0 then some ((level.set FL BL r).set FR BR r)
      else if omask &&& CHAN_FC ≠ 0 then
        some ((level.set FC BL (A.mul r r)).set FC BR (A.mul r r))
      else none
    else some level
  let level ←
    if unused &&& CHAN_SL ≠ 0 then
      if omask &&& CHAN_FL ≠ 0 then some ((level.set FL SL r).set FR SR r)
      else if omask &&& CHAN_FC ≠ 0 then
        some ((level.set FC SL (A.mul r r)).set FC SR (A.mul r r))
      else none
    else some level
  some (normalize A omask level)

/-! ## The loops -/

/-- The input channels of the mask, each with the number of its stream. -/
def in_streams (imask : Nat) : List Nat → Nat → List (Nat × Nat)
  | [],_ => []
  | ic :: ics,icstm =>
    if imask.testBit ic then (ic,icstm) :: in_streams imask ics (icstm + 1)
    else in_streams imask ics icstm

/-- The output channels that the loops over 16-bit, 32-bit and `float` samples write. -/
def out_streams (omask ochan : Nat) : List Nat → Nat → List (Nat × Nat)
  | [],_ => []
  | oc :: ocs,ocstm =>
    if omask.testBit oc then
      (oc,ocstm) :: if ocstm + 1 = ochan then [] else out_streams omask ochan ocs (ocstm + 1)
    else out_streams omask ochan ocs ocstm

/-- The output channels that the loop over 24-bit samples writes: it counts a stream also for a
channel that is not in the mask. -/
def out_streams_24 (omask ochan : Nat) : List Nat → Nat → List (Nat × Nat)
  | [],_ => []
  | oc :: ocs,ocstm =>
    let rest := if ocstm + 1 = ochan then [] else out_streams_24 omask ochan ocs (ocstm + 1)
    if omask.testBit oc then (oc,ocstm) :: rest else rest

/-- What is read, and the values written in the array of `float`. -/
structure Mix (D : Type) where
  reads : List (Ptr × Nat)
  writes : List (Nat × D)

/-- The body of a loop: `isz` bytes of a sample have the value `val`, sample `i` is `ioff i` bytes
behind the channel's first, and it is written at `oidx`. -/
def mix_loop (isz : Nat) (val : Bytes → D) (ioff : Nat → Nat) (oidx : Nat → Nat → Nat)
    (outs ins : List (Nat × Nat)) (level : Level D) (src : Nat → Ptr) (samples : Nat)
    (m : Mem UInt8) : Mix D where
  reads := outs.flatMap fun _ => (List.range samples).flatMap fun i =>
    ins.map fun c => ((src c.2).add (ioff i),isz)
  writes := outs.flatMap fun o => (List.range samples).map fun i =>
    (oidx o.2 i,pcm_limf A (ins.foldl (fun sum c =>
      A.add sum (A.mul (val (m.load ((src c.2).add (ioff i)) isz)) (level o.1 c.1))) (A.lit 0)))

/-- `_pcm_chan_mix()`; `ini` is what is on the stack. There is no result where the `uint` counter of
the loop over 24-bit samples never reaches `samples`. -/
def pcm_chan_mix (ldf : Bytes → D) (ochan : Nat) (inpcm : Af) (idata : Data) (samples : Nat)
    (m : Mem UInt8) (ini : Nat → Ptr) : Option (Option (Mix D)) :=
  let imask := chan_mask inpcm.channels
  let omask := chan_mask ochan
  if imask = 0 ∨ omask = 0 then some none
  else
    match chan_fill_gain_levels A imask omask with
    | none => some none
    | some level => do
      let src ← idata.channels ini inpcm.format inpcm.channels inpcm.interleaved
      let istep := stepOf inpcm.interleaved inpcm.channels
      let outs := out_streams omask ochan (List.range 8) 0
      let ins := in_streams imask (List.range 8) 0
      match inpcm.format with
      | .pcm16 => some (mix_loop A 2 (fun b => pcm_16le_flt A (get 2 b)) (fun i => i * istep * 2)
          (fun ocstm i => ocstm + i * ochan) outs ins level src samples m)
      | .pcm24 =>
        let outs := out_streams_24 omask ochan (List.range 8) 0
        if outs ≠ [] ∧ 2 ^ 32 ≤ samples then none
        else some (mix_loop A 3 (fun b => pcm_24_flt A (int_ltoh24s b))
          (fun i => i * istep * 3 % 2 ^ 32) (fun ocstm i => (ocstm + i * ochan) % 2 ^ 32) outs ins
          level src samples m)
      | .pcm32 => some (mix_loop A 4 (fun b => pcm_32_flt A (get 4 b)) (fun i => i * istep * 4)
          (fun ocstm i => ocstm + i * ochan) outs ins level src samples m)
      | .float32 => some (mix_loop A 4 ldf (fun i => i * istep * 4)
          (fun ocstm i => ocstm + i * ochan) outs ins level src samples m)
      | _ => some none

/-! ## The documented layouts -/

/-- The channels of a layout in their order: 1, 2, 5.1 and 7.1. -/
def layout : Nat → List Nat
  | 1 => [FC]
  | 2 => [FL,FR]
  | 6 => [FL,FR,FC,LFE,BL,BR]
  | 8 => [FL,FR,FC,LFE,BL,BR,SL,SR]
  | _ => []

/-- The number of channels has a layout. -/
def Documented (n : Nat) : Prop := n = 1 ∨ n = 2 ∨ n = 6 ∨ n = 8

instance (n : Nat) : Decidable (Documented n) := inferInstanceAs (Decidable (_ ∨ _))

/-- The channel of a stream. -/
def chan (n c : Nat) : Nat := (layout n).getD c 0

theorem Documented.pos {n : Nat} (h : Documented n) : 0 < n := by
  rcases h with rfl | rfl | rfl | rfl <;> decide

/-- The formats that can be mixed. -/
def Fmt.mixable : Fmt → Bool
  | .pcm16 | .pcm24 | .pcm32 | .float32 => true
  | .pcm8 | .pcm24_4 | .float64 => false

/-- The value of a sample as a fraction of the full scale. -/
def fraction (ldf : Bytes → D) : Fmt → Bytes → D
  | .pcm16,b => pcm_16le_flt A (get 2 b)
  | .pcm24,b => pcm_24_flt A (get 3 b)
  | .pcm32,b => pcm_32_flt A (get 4 b)
  | _,b => ldf b

/-- The gains between two layouts. -/
def levels (n k : Nat) : Level D :=
  (chan_fill_gain_levels A (chan_mask n) (chan_mask k)).getD fun _ _ => A.lit 0

/-- The sample of an output channel, from those of the input channels. -/
def mix_sample (ldf : Bytes → D) (fmt : Fmt) (n k : Nat) (x : Nat → Bytes) (c : Nat) : D :=
  pcm_limf A ((List.range n).foldl (fun sum s =>
    A.add sum (A.mul (fraction A ldf fmt (x s)) (levels A n k (chan k c) (chan n s)))) (A.lit 0))

theorem in_streams_documented {n : Nat} (h : Documented n) :
    in_streams (chan_mask n) (List.range 8) 0 = (List.range n).map fun s => (chan n s,s) := by
  rcases h with rfl | rfl | rfl | rfl <;> decide

theorem out_streams_documented {k : Nat} (h : Documented k) :
    out_streams (chan_mask k) k (List.range 8) 0 = (List.range k).map fun c => (chan k c,c) := by
  rcases h with rfl | rfl | rfl | rfl <;> decide

theorem out_streams_24_documented {k : Nat} (h : Documented k) (hk : k ≠ 1) :
    out_streams_24 (chan_mask k) k (List.range 8) 0 = (List.range k).map fun c => (chan k c,c) := by
  rcases h with rfl | rfl | rfl | rfl
  · exact absurd rfl hk
  all_goals decide

theorem chan_mask_cases (n : Nat) : chan_mask n = 4 ∨ chan_mask n = 3 ∨ chan_mask n = 63 ∨
    chan_mask n = 255 ∨ chan_mask n = 0xffffffff := by
  unfold chan_mask
  split <;> decide

theorem chan_mask_ne_zero (n : Nat) : chan_mask n ≠ 0 := by
  rcases chan_mask_cases n with h | h | h | h | h <;> rw [h] <;> decide

/-- The table can be filled for any two numbers of channels, also for those without a layout. -/
theorem levels_eq (n k : Nat) :
    chan_fill_gain_levels A (chan_mask n) (chan_mask k) = some (levels A n k) := by
  unfold levels
  rcases chan_mask_cases n with h | h | h | h | h <;>
    rcases chan_mask_cases k with h' | h' | h' | h' | h' <;> rw [h,h'] <;> rfl

/-- What is read for `k` channels of `samples` samples. -/
def mix_reads (fmt : Fmt) (n k : Nat) (idata : Data) (samples : Nat) : List (Ptr × Nat) :=
  (List.range k).flatMap fun _ => (List.range samples).flatMap fun i =>
    (List.range n).map fun s => (idata.sample fmt.size n s i,fmt.size)

/-- The values of `k` alternating channels. -/
def mix_writes (k samples : Nat) (f : Nat → Nat → D) : List (Nat × D) :=
  (List.range k).flatMap fun c => (List.range samples).map fun i => (c + i * k,f c i)

variable {A} {ldf : Bytes → D} {fmt : Fmt} {n k samples : Nat} {idata : Data} {m : Mem UInt8}
  {ini : Nat → Ptr}

theorem mix_loop_writes {isz : Nat} {val : Bytes → D} {ioff : Nat → Nat} {oidx : Nat → Nat → Nat}
    {src : Nat → Ptr} {level : Level D} (hidx : ∀ c < k, ∀ i < samples, oidx c i = c + i * k) :
    (mix_loop A isz val ioff oidx ((List.range k).map fun c => (chan k c,c))
        ((List.range n).map fun s => (chan n s,s)) level src samples m).writes =
      mix_writes k samples fun c i => pcm_limf A ((List.range n).foldl (fun sum s =>
        A.add sum (A.mul (val (m.load ((src s).add (ioff i)) isz)) (level (chan k c) (chan n s))))
          (A.lit 0)) := by
  unfold mix_loop mix_writes
  simp only [List.flatMap_map,List.foldl_map]
  refine List.flatMap_congr fun c hc => List.map_congr_left fun i hi => ?_
  rw [hidx c (List.mem_range.mp hc) i (List.mem_range.mp hi)]

theorem mix_loop_eq {isz : Nat} {val : Bytes → D} {ioff : Nat → Nat} {oidx : Nat → Nat → Nat}
    {outs ins : List (Nat × Nat)} {src : Nat → Ptr} (hisz : isz = fmt.size)
    (houts : outs = (List.range k).map fun c => (chan k c,c))
    (hins : ins = (List.range n).map fun s => (chan n s,s))
    (hsrc : ∀ s < n, ∀ i < samples, (src s).add (ioff i) = idata.sample fmt.size n s i)
    (hidx : ∀ c < k, ∀ i < samples, oidx c i = c + i * k)
    (hval : ∀ b : Bytes, b.length = fmt.size → val b = fraction A ldf fmt b) :
    mix_loop A isz val ioff oidx outs ins (levels A n k) src samples m =
      ⟨mix_reads fmt n k idata samples,mix_writes k samples fun c i =>
        mix_sample A ldf fmt n k (fun s => m.load (idata.sample fmt.size n s i) fmt.size) c⟩ := by
  subst hisz houts hins
  refine (Mix.mk.injEq ..).mpr ⟨?_,(mix_loop_writes hidx).trans ?_⟩
  · unfold mix_reads
    simp only [List.flatMap_map,List.map_map]
    refine List.flatMap_congr fun c _ => List.flatMap_congr fun i hi => List.map_congr_left ?_
    intro s hs
    simp only [Function.comp,hsrc s (List.mem_range.mp hs) i (List.mem_range.mp hi)]
  · unfold mix_writes mix_sample
    refine List.flatMap_congr fun c _ => List.map_congr_left fun i hi => ?_
    refine congrArg (fun y => (c + i * k,pcm_limf A y)) (List.foldl_ext _ _ _ fun sum s hs => ?_)
    rw [hsrc s (List.mem_range.mp hs) i (List.mem_range.mp hi),hval _ (Memory.load_length _ _ _)]

/-- The loop over 24-bit samples is right for `samples` samples and `k` output channels: it has nothing
to do, or there are several channels and no index exceeds an `uint`. -/
def Fits24 (inpcm : Af) (k samples : Nat) : Prop :=
  samples = 0 ∨ k ≠ 1 ∧ samples * k ≤ 2 ^ 32 ∧ (samples - 1) * stepOf inpcm.interleaved inpcm.channels * 3 < 2 ^ 32

instance (inpcm : Af) (k samples : Nat) : Decidable (Fits24 inpcm k samples) :=
  inferInstanceAs (Decidable (_ ∨ _))

theorem fits24_index {inpcm : Af} (h : Fits24 inpcm k samples) {c i : Nat} (hc : c < k)
    (hi : i < samples) : c + i * k < 2 ^ 32 ∧ i * stepOf inpcm.interleaved inpcm.channels * 3 < 2 ^ 32 := by
  rcases h with rfl | ⟨-,hk,hs⟩
  · cases hi
  · have hik := Memory.mul_add_le hi k
    have his : i * stepOf inpcm.interleaved inpcm.channels * 3 ≤ (samples - 1) * stepOf inpcm.interleaved inpcm.channels * 3 := by gcongr; omega
    omega

theorem pcm_chan_mix_any {inpcm : Af} {src : Nat → Ptr}
    (hsrc : idata.channels ini inpcm.format inpcm.channels inpcm.interleaved = some src) :
    pcm_chan_mix A ldf k inpcm idata samples m ini =
      let istep := stepOf inpcm.interleaved inpcm.channels
      let outs := out_streams (chan_mask k) k (List.range 8) 0
      let outs_24 := out_streams_24 (chan_mask k) k (List.range 8) 0
      let ins := in_streams (chan_mask inpcm.channels) (List.range 8) 0
      let level := levels A inpcm.channels k
      match inpcm.format with
      | .pcm16 => some (mix_loop A 2 (fun b => pcm_16le_flt A (get 2 b)) (fun i => i * istep * 2)
          (fun ocstm i => ocstm + i * k) outs ins level src samples m)
      | .pcm24 =>
        if outs_24 ≠ [] ∧ 2 ^ 32 ≤ samples then none
        else some (mix_loop A 3 (fun b => pcm_24_flt A (int_ltoh24s b))
          (fun i => i * istep * 3 % 2 ^ 32) (fun ocstm i => (ocstm + i * k) % 2 ^ 32) outs_24 ins
          level src samples m)
      | .pcm32 => some (mix_loop A 4 (fun b => pcm_32_flt A (get 4 b)) (fun i => i * istep * 4)
          (fun ocstm i => ocstm + i * k) outs ins level src samples m)
      | .float32 => some (mix_loop A 4 ldf (fun i => i * istep * 4)
          (fun ocstm i => ocstm + i * k) outs ins level src samples m)
      | _ => some none := by
  unfold pcm_chan_mix
  dsimp only
  rw [if_neg (not_or.mpr ⟨chan_mask_ne_zero _,chan_mask_ne_zero k⟩),levels_eq]
  dsimp only
  rw [hsrc]
  rfl

/-- Between documented layouts each output channel is written in turn, each sample at its place. -/
theorem pcm_chan_mix_eq {inpcm : Af} (hn : Documented inpcm.channels) (hk : Documented k)
    (hfmt : inpcm.format.mixable) (hfit : idata.Fits inpcm.interleaved)
    (h24 : inpcm.format = .pcm24 → Fits24 inpcm k samples) :
    pcm_chan_mix A ldf k inpcm idata samples m ini =
      some (some ⟨mix_reads inpcm.format inpcm.channels k idata samples,
        mix_writes k samples fun c i => mix_sample A ldf inpcm.format inpcm.channels k
          (fun s => m.load (idata.sample inpcm.format.size inpcm.channels s i)
            inpcm.format.size) c⟩) := by
  obtain ⟨src,hsrc,hplace⟩ := channels_place hfit ini inpcm.format inpcm.channels
  have hins := in_streams_documented hn
  have houts := out_streams_documented hk
  rw [pcm_chan_mix_any hsrc]
  obtain ⟨fmt,n,rate,il⟩ := inpcm
  dsimp only at *
  have hloop (val : Bytes → D)
      (hval : ∀ b : Bytes, b.length = fmt.size → val b = fraction A ldf fmt b) :=
    congrArg (fun x => some (some x)) (mix_loop_eq (m := m) rfl houts hins
      (fun s hs i (_ : i < samples) => hplace s hs i) (fun _ _ _ _ => rfl) hval)
  cases fmt with
  | pcm8 => cases hfmt
  | pcm24_4 => cases hfmt
  | float64 => cases hfmt
  | pcm24 =>
    have h24 := h24 rfl
    dsimp only
    by_cases hmono : k = 1
    · subst hmono
      obtain rfl : samples = 0 := h24.resolve_right fun h => h.1 rfl
      rfl
    · have houts := out_streams_24_documented hk hmono
      have hsmall : samples < 2 ^ 32 := by
        have : 2 ≤ k := by rcases hk with rfl | rfl | rfl | rfl <;> omega
        rcases h24 with rfl | ⟨-,hle,-⟩
        · decide
        · have := Nat.mul_le_mul_left samples this
          omega
      rw [if_neg fun h => absurd h.2 (Nat.not_le.mpr hsmall)]
      refine congrArg (fun x => some (some x)) (mix_loop_eq rfl houts hins (fun s hs i hi => ?_)
        (fun c hc i hi => ?_) fun b hb => ?_)
      · rw [Nat.mod_eq_of_lt (fits24_index h24 hk.pos hi).2]
        exact hplace s hs i
      · exact Nat.mod_eq_of_lt (fits24_index h24 hc hi).1
      · exact congrArg (pcm_24_flt A) (int_ltoh24s_eq hb)
  | pcm16 => exact hloop _ fun _ _ => rfl
  | pcm32 => exact hloop _ fun _ _ => rfl
  | float32 => exact hloop _ fun _ _ => rfl

/-! ## Stores of floating point values -/

/-- The stores of values at `p`, `sz` bytes each. -/
def stored {V : Type} (p : Ptr) (sz : Nat) (enc : D → List V) (ws : List (Nat × D)) :
    List (Store V) :=
  ws.map fun w => ⟨p.add (w.1 * sz),enc w.2⟩

theorem stored_mix {V : Type} (p : Ptr) (sz : Nat) (enc : D → List V) (k samples : Nat)
    (f : Nat → Nat → D) : stored p sz enc (mix_writes k samples f) =
      Memory.fill (fun c i => p.add ((i * k + c) * sz)) k samples fun c i => enc (f c i) := by
  unfold stored mix_writes Memory.fill
  rw [List.map_flatMap]
  refine List.flatMap_congr fun c _ => ?_
  rw [List.map_map]
  refine List.map_congr_left fun i _ => ?_
  rw [Function.comp,Nat.add_comm]

theorem load_stored {V : Type} {o : Mem V} {p : Ptr} {sz : Nat} {e : D → List V}
    (he : ∀ x, (e x).length = sz) {f : Nat → Nat → D} {c i : Nat} (hc : c < k)
    (hi : i < samples) :
    (o.stores (stored p sz e (mix_writes k samples f))).load (p.add ((i * k + c) * sz)) sz =
      e (f c i) := by
  rw [stored_mix]
  exact Memory.load_fill (Memory.places_alternate p sz k samples) (fun c i => he (f c i)) hc hi

/-- The `j`-th value of the array, or none if it is not written. -/
def written (ws : List (Nat × D)) (j : Nat) : Option D :=
  Mem.stores (fun _ _ => none) (stored ⟨0,0⟩ 1 (fun x => [some x]) ws) 0 j

theorem written_mix {f : Nat → Nat → D} {c i : Nat} (hc : c < k) (hi : i < samples) :
    written (mix_writes k samples f) (c + i * k) = some (f c i) := by
  have h : (Mem.stores (fun _ _ => none) (stored ⟨0,0⟩ 1 (fun x => [some x])
      (mix_writes k samples f))).load ((⟨0,0⟩ : Ptr).add ((i * k + c) * 1)) 1 = [some (f c i)] :=
    load_stored (e := fun x => [some x]) (f := f) (fun _ => rfl) hc hi
  simpa [Mem.load,Memory.Ptr.add,written,Nat.add_comm] using h

theorem written_none {ws : List (Nat × D)} {j : Nat} (h : ∀ w ∈ ws, w.1 ≠ j) :
    written ws j = none := by
  have hload : (Mem.stores (fun _ _ => none) (stored ⟨0,0⟩ 1 (fun x => [some x]) ws)).load ⟨0,j⟩ 1 =
      Mem.load (fun _ _ => (none : Option D)) ⟨0,j⟩ 1 := by
    refine Memory.load_stores_apart fun s hs => ?_
    obtain ⟨w,hw,rfl⟩ := List.mem_map.mp hs
    intro _
    have := h w hw
    simp [Memory.Ptr.add]
    omega
  simpa [Mem.load,written] using hload

/-! ## The documented matrix -/

/-- Exact arithmetic. -/
def exact : Arith Rat where
  ofInt x := x
  lit := id
  add := (· + ·)
  mul := (· * ·)
  div := (· / ·)
  lt x y := x < y
  isZero x := x = 0

/-- What is left of a channel that the output has not: the front channels go to the center and the
center to the front channels; the back and side channels go to the front channels, or to the center
with half of their power. -/
def gain (outs : List Nat) (oc ic : Nat) : Rat :=
  if oc = ic then 1
  else if ic ∈ outs then 0
  else if ic = FL ∨ ic = FR then if oc = FC then sqrt1_2 else 0
  else if ic = FC then if oc = FL ∨ oc = FR then sqrt1_2 else 0
  else if ic = LFE then 0
  else if FL ∈ outs then
    if oc = FL ∧ (ic = BL ∨ ic = SL) ∨ oc = FR ∧ (ic = BR ∨ ic = SR) then sqrt1_2 else 0
  else if oc = FC then sqrt1_2 * sqrt1_2 else 0

/-- The gain of a channel among all that go to the output channel. -/
def weight (n k oc ic : Nat) : Rat :=
  gain (layout k) oc ic / ((layout n).map (gain (layout k) oc)).sum

theorem levels_documented (n k : Nat) (hn : Documented n) (hk : Documented k) :
    ∀ c < k, ∀ s < n, levels exact n k (chan k c) (chan n s) = weight n k (chan k c) (chan n s) := by
  rcases hn with rfl | rfl | rfl | rfl <;> rcases hk with rfl | rfl | rfl | rfl <;> decide +kernel

/-- The clipped sum of the samples of a place, weighted for output channel `c`. -/
def mixed (ldf : Bytes → Rat) (fmt : Fmt) (n k : Nat) (x : Nat → Bytes) (c : Nat) : Rat :=
  max (-1) (min 1 ((List.range n).map fun s =>
    weight n k (chan k c) (chan n s) * fraction exact ldf fmt (x s)).sum)

theorem pcm_limf_exact (x : Rat) : pcm_limf exact x = max (-1) (min 1 x) := by
  unfold pcm_limf
  simp only [exact,id,decide_eq_true_eq]
  split
  · rename_i h
    rw [min_eq_left (le_of_lt h),max_eq_right (by decide)]
  · rename_i h
    rw [min_eq_right (not_lt.mp h)]
    split
    · rename_i h'
      rw [max_eq_left (le_of_lt h')]
    · rename_i h'
      rw [max_eq_right (not_lt.mp h')]

theorem foldl_sum (l : List Nat) (f : Nat → Rat) (x : Rat) :
    l.foldl (fun sum s => sum + f s) x = x + (l.map f).sum := by
  induction l generalizing x with
  | nil => simp
  | cons s l ih => rw [List.foldl_cons,ih,List.map_cons,List.sum_cons,add_assoc]

/-- With exact arithmetic a sample is what the documented matrix gives. -/
theorem mix_sample_exact (hn : Documented n) (hk : Documented k) {ldf : Bytes → Rat} {c : Nat}
    (hc : c < k) (x : Nat → Bytes) : mix_sample exact ldf fmt n k x c = mixed ldf fmt n k x c := by
  rw [mix_sample,pcm_limf_exact,mixed]
  congr 2
  refine (foldl_sum _ _ _).trans ((zero_add _).trans ?_)
  refine congrArg List.sum (List.map_congr_left fun s hs => ?_)
  rw [← levels_documented n k hn hk c hc s (List.mem_range.mp hs),mul_comm]
  rfl

/-- All values of the output are written, each the one of the documented matrix. -/
def Mixes (ldf : Bytes → Rat) (k : Nat) (inpcm : Af) (idata : Data) (samples : Nat) (m : Mem UInt8)
    (ini : Nat → Ptr) : Prop :=
  ∃ x, pcm_chan_mix exact ldf k inpcm idata samples m ini = some (some x) ∧
    ∀ c < k, ∀ i < samples, written x.writes (c + i * k) = some (mixed ldf inpcm.format inpcm.channels
      k (fun s => m.load (idata.sample inpcm.format.size inpcm.channels s i) inpcm.format.size) c)

theorem mixes_of_fits {ldf : Bytes → Rat} {inpcm : Af} (hn : Documented inpcm.channels)
    (hk : Documented k) (hfmt : inpcm.format.mixable) (hfit : idata.Fits inpcm.interleaved)
    (h24 : inpcm.format = .pcm24 → Fits24 inpcm k samples) :
    Mixes ldf k inpcm idata samples m ini :=
  ⟨_,pcm_chan_mix_eq hn hk hfmt hfit h24,fun c hc i hi => by
    rw [written_mix hc hi,mix_sample_exact hn hk hc]⟩

/-! ## Where the loop over 24-bit samples is wrong -/

/-- A memory with one byte that is not 0: the upper byte of the sample at `p`. -/
def spot (p : Ptr) : Mem UInt8 := fun b o => if b = p.block ∧ o = p.off + 2 then 64 else 0

theorem spot_self (p : Ptr) : (spot p).load p 3 = [0,0,64] := by
  simp [spot,Mem.load,List.range_succ]

theorem spot_other {p q : Ptr} (h : q.block = p.block → q.off + 2 < p.off + 2 ∨ p.off + 2 < q.off) :
    (spot p).load q 3 = [0,0,0] := by
  have hbyte (j : Nat) (hj : j < 3) : spot p q.block (q.off + j) = 0 := by
    refine if_neg fun hb => ?_
    have := h hb.1
    omega
  simp [Mem.load,List.range_succ,hbyte 1 (by decide),hbyte 2 (by decide),
    show spot p q.block q.off = 0 from hbyte 0 (by decide)]

/-- Data in each layout that starts at the start of a block. -/
def plain (interleaved : Bool) : Data := if interleaved then .b ⟨0,0⟩ else .pb fun s => ⟨s,0⟩

theorem plain_fits (il : Bool) : (plain il).Fits il := by cases il <;> rfl

/-- The sample that has a byte that is not 0 is the first channel's; the samples that are read instead,
one turn of the counter before, have none. -/
theorem plain_loads {il : Bool} {i : Nat} (hn : n ≤ 8) (hi : 2 ^ 32 ≤ i * stepOf il n * 3)
    {a : Nat → Ptr} (ha : (plain il).channels ini .pcm24 n il = some a) :
    (∀ s < n, (spot ((plain il).sample 3 n 0 i)).load ((plain il).sample 3 n s i) 3 =
      if s = 0 then [0,0,64] else [0,0,0]) ∧
    ∀ s < n, (spot ((plain il).sample 3 n 0 i)).load ((a s).add (i * stepOf il n * 3 % 2 ^ 32)) 3 =
      [0,0,0] := by
  have hmod := Nat.mod_lt (i * stepOf il n * 3) (by decide : 2 ^ 32 > 0)
  refine ⟨fun s hs => ?_,fun s hs => spot_other ?_⟩
  · by_cases hzero : s = 0
    · rw [if_pos hzero,hzero]
      exact spot_self _
    · rw [if_neg hzero]
      refine spot_other ?_
      cases il with
      | true =>
        intro _
        simp only [plain,if_true,Data.sample,Memory.Ptr.add]
        omega
      | false => exact fun hb => absurd hb hzero
  · cases il with
    | true =>
      obtain rfl := Option.some.inj ha
      intro _
      have hoff : (pcm_setni ini ⟨0,0⟩ .pcm24 n s).off = s * 24 / 8 := by
        rw [pcm_setni,if_pos hs]
        exact Nat.zero_add _
      simp only [stepOf,if_true] at hi hmod ⊢
      simp only [plain,if_true,Data.sample,Memory.Ptr.add,hoff]
      omega
    | false =>
      obtain rfl := Option.some.inj ha
      intro _
      simp only [stepOf,Bool.false_eq_true,if_false,Nat.mul_one] at hi hmod ⊢
      simp only [plain,Bool.false_eq_true,if_false,Data.sample,Memory.Ptr.add]
      omega

theorem weight_pos (hn : Documented n) (hk : Documented k) :
    ∃ c < k, 0 < weight n k (chan k c) (chan n 0) := by
  rcases hn with rfl | rfl | rfl | rfl <;> rcases hk with rfl | rfl | rfl | rfl <;>
    first | exact ⟨0,by decide,by decide +kernel⟩ | exact ⟨2,by decide,by decide +kernel⟩

theorem Documented.le_eight {n : Nat} (h : Documented n) : n ≤ 8 := by
  rcases h with rfl | rfl | rfl | rfl <;> decide

theorem mixed_spot {ldf : Bytes → Rat} (hn : Documented n) {x : Nat → Bytes} {c : Nat}
    (hx : ∀ s < n, x s = if s = 0 then [0,0,64] else [0,0,0]) :
    mixed ldf .pcm24 n k x c = max (-1) (min 1 (weight n k (chan k c) (chan n 0) * (1 / 2))) := by
  have hhalf : fraction exact ldf .pcm24 [0,0,64] = 1 / 2 := by
    have hget : get 3 [0,0,64] = 4194304 := by decide
    change ((get 3 [0,0,64] : Int) : Rat) * (1 / 8388608) = 1 / 2
    rw [hget]
    norm_num
  have hzero : fraction exact ldf .pcm24 [0,0,0] = 0 := by
    have hget : get 3 [0,0,0] = 0 := by decide
    change ((get 3 [0,0,0] : Int) : Rat) * (1 / 8388608) = 0
    rw [hget,Int.cast_zero,zero_mul]
  obtain ⟨n,rfl⟩ := Nat.exists_eq_succ_of_ne_zero hn.pos.ne'
  have hrest : ((List.range n).map fun s => weight (n + 1) k (chan k c) (chan (n + 1) (s + 1)) *
      fraction exact ldf .pcm24 (x (s + 1))).sum = 0 := by
    refine List.sum_eq_zero fun y hy => ?_
    obtain ⟨s,hs,rfl⟩ := List.mem_map.mp hy
    rw [hx (s + 1) (Nat.succ_lt_succ (List.mem_range.mp hs)),if_neg (Nat.succ_ne_zero s),hzero,
      mul_zero]
  rw [mixed,List.range_succ_eq_map,List.map_cons,List.sum_cons,List.map_map]
  rw [hx 0 hn.pos,if_pos rfl,hhalf]
  refine congrArg (fun y => max (-1) (min 1 y)) ?_
  exact (congrArg _ hrest).trans (add_zero _)

theorem fits24_of_mixes {ldf : Bytes → Rat} {inpcm : Af} (hn : Documented inpcm.channels)
    (hk : Documented k) (hfmt : inpcm.format = .pcm24)
    (h : ∀ m idata ini, idata.Fits inpcm.interleaved → Mixes ldf k inpcm idata samples m ini) :
    Fits24 inpcm k samples := by
  by_contra hnot
  obtain ⟨hs,hwrap⟩ : samples ≠ 0 ∧ (k ≠ 1 → samples * k ≤ 2 ^ 32 →
      2 ^ 32 ≤ (samples - 1) * stepOf inpcm.interleaved inpcm.channels * 3) := by
    unfold Fits24 at hnot
    push Not at hnot
    exact hnot
  obtain ⟨fmt,n,rate,il⟩ := inpcm
  subst hfmt
  dsimp only at *
  let ini : Nat → Ptr := fun _ => ⟨0,0⟩
  obtain ⟨a,ha,hplace⟩ := channels_place (plain_fits il) ini .pcm24 n
  obtain ⟨x,hx,hout⟩ := h (spot ((plain il).sample 3 n 0 (samples - 1))) (plain il) ini (plain_fits il)
  rw [pcm_chan_mix_any ha] at hx
  dsimp only at hx hout
  split at hx
  · cases hx
  · rename_i hsmall
    obtain rfl := Option.some.inj (Option.some.inj hx)
    by_cases hmono : k = 1
    · subst hmono
      have := hout 0 Nat.one_pos 0 (Nat.pos_of_ne_zero hs)
      change written [] _ = _ at this
      rw [written_none fun _ hw => absurd hw List.not_mem_nil] at this
      cases this
    · rw [out_streams_24_documented hk hmono,in_streams_documented hn] at hout
      have hpos : 0 < samples := Nat.pos_of_ne_zero hs
      have hkpos := hk.pos
      by_cases hle : samples * k ≤ 2 ^ 32
      · obtain ⟨c,hc,hweight⟩ := weight_pos hn hk
        obtain ⟨hloads,hwrong⟩ := plain_loads hn.le_eight (hwrap hmono hle) ha
        have hlast := hout c hc (samples - 1) (by omega)
        rw [show Fmt.pcm24.size = 3 from rfl,mixed_spot hn hloads,mix_loop_writes fun c hc i hi => ?_,
          written_mix hc (by omega),Option.some.injEq,pcm_limf_exact] at hlast
        · have hsilent : pcm_24_flt exact (int_ltoh24s [0,0,0]) = 0 := by
            have hget : int_ltoh24s [0,0,0] = 0 := by decide
            change ((int_ltoh24s [0,0,0] : Int) : Rat) * (1 / 8388608) = 0
            rw [hget,Int.cast_zero,zero_mul]
          have hsum (f : Nat → Rat) : (List.range n).foldl (fun sum s => exact.add sum (exact.mul
              (pcm_24_flt exact (int_ltoh24s ((spot ((plain il).sample 3 n 0 (samples - 1))).load
                ((a s).add ((samples - 1) * stepOf il n * 3 % 2 ^ 32)) 3))) (f s))) (exact.lit 0) =
                0 := by
            refine (foldl_sum _ _ _).trans ((zero_add _).trans (List.sum_eq_zero fun y hy => ?_))
            obtain ⟨s,hs',rfl⟩ := List.mem_map.mp hy
            rw [hwrong s (List.mem_range.mp hs'),hsilent]
            exact zero_mul _
          rw [hsum] at hlast
          have hheard : (0 : Rat) < max (-1) (min 1 (weight n k (chan k c) (chan n 0) * (1 / 2))) :=
            lt_max_of_lt_right (lt_min one_pos (mul_pos hweight (by norm_num)))
          rw [← hlast] at hheard
          exact absurd hheard (by norm_num)
        · have := Memory.mul_add_le hi k
          exact Nat.mod_eq_of_lt (by omega)
      · have := hout (k - 1) (by omega) (samples - 1) (by omega)
        have hlast : k - 1 + (samples - 1) * k + 1 = samples * k := by
          obtain ⟨j,rfl⟩ := Nat.exists_eq_succ_of_ne_zero hs
          rw [Nat.succ_sub_one,Nat.succ_mul]
          omega
        rw [written_none fun w hw => ?_] at this
        · cases this
        · simp only [mix_loop,List.mem_flatMap,List.mem_map] at hw
          obtain ⟨o,-,i,-,rfl⟩ := hw
          have := Nat.mod_lt (o.2 + i * k) (by decide : 2 ^ 32 > 0)
          dsimp only
          omega

theorem mixes_same {ldf : Bytes → Rat} {inpcm inpcm' : Af} {idata' : Data} {m' : Mem UInt8}
    {ini' : Nat → Ptr} {x x' : Mix Rat} (hch : inpcm'.channels = inpcm.channels)
    (h : Mixes ldf k inpcm idata samples m ini) (h' : Mixes ldf k inpcm' idata' samples m' ini')
    (hx : pcm_chan_mix exact ldf k inpcm idata samples m ini = some (some x))
    (hx' : pcm_chan_mix exact ldf k inpcm' idata' samples m' ini' = some (some x'))
    (hsame : ∀ s < inpcm.channels, ∀ i < samples,
      fraction exact ldf inpcm.format
          (m.load (idata.sample inpcm.format.size inpcm.channels s i) inpcm.format.size) =
        fraction exact ldf inpcm'.format
          (m'.load (idata'.sample inpcm'.format.size inpcm'.channels s i) inpcm'.format.size))
    {c i : Nat} (hc : c < k) (hi : i < samples) :
    written x.writes (c + i * k) = written x'.writes (c + i * k) := by
  obtain ⟨y,hy,hout⟩ := h
  obtain ⟨y',hy',hout'⟩ := h'
  obtain rfl := Option.some.inj (Option.some.inj (hx.symm.trans hy))
  obtain rfl := Option.some.inj (Option.some.inj (hx'.symm.trans hy'))
  rw [hout c hc i hi,hout' c hc i hi]
  unfold mixed
  rw [hch] at hsame ⊢
  have hlist := List.map_congr_left fun s (hs : s ∈ List.range inpcm.channels) =>
    congrArg (weight inpcm.channels k (chan k c) (chan inpcm.channels s) * ·)
      (hsame s (List.mem_range.mp hs) i hi)
  rw [hlist]

/-- Between documented layouts and from a format that can be mixed the output is that of the documented
matrix, whatever the samples are, exactly if the loop over 24-bit samples is right for the lengths; and
inputs of different formats with the same fractions give the same output. -/
theorem mixes_iff (ldf : Bytes → Rat) (k : Nat) (inpcm : Af) (samples : Nat)
    (hn : Documented inpcm.channels) (hk : Documented k) (hfmt : inpcm.format.mixable) :
    ((∀ m idata ini, idata.Fits inpcm.interleaved → Mixes ldf k inpcm idata samples m ini) ↔
      (inpcm.format = .pcm24 → Fits24 inpcm k samples)) ∧
    ∀ m idata ini inpcm' m' idata' ini' x x', inpcm'.channels = inpcm.channels →
      Mixes ldf k inpcm idata samples m ini → Mixes ldf k inpcm' idata' samples m' ini' →
      pcm_chan_mix exact ldf k inpcm idata samples m ini = some (some x) →
      pcm_chan_mix exact ldf k inpcm' idata' samples m' ini' = some (some x') →
      (∀ s < inpcm.channels, ∀ i < samples,
        fraction exact ldf inpcm.format
            (m.load (idata.sample inpcm.format.size inpcm.channels s i) inpcm.format.size) =
          fraction exact ldf inpcm'.format
            (m'.load (idata'.sample inpcm'.format.size inpcm'.channels s i) inpcm'.format.size)) →
      ∀ c < k, ∀ i < samples, written x.writes (c + i * k) = written x'.writes (c + i * k) := by
  refine ⟨⟨fun h h24 => fits24_of_mixes hn hk h24 h,fun h24 m idata ini hfit => ?_⟩,?_⟩
  · exact mixes_of_fits hn hk hfmt hfit h24
  · intro m idata ini inpcm' m' idata' ini' x x' hch h h' hx hx' hsame c hc i hi
    exact mixes_same hch h h' hx hx' hsame hc hi

/-- A memory in which every 16-bit number, or every 24-bit number, has only its highest byte. -/
def tops (size : Nat) : Mem UInt8 := fun _ i => if i % size = size - 1 then 64 else 0

/-- Two samples of 7.1 in 16 bits to stereo, and one stereo sample of 24 bits to 7.1; and the same fractions of
stereo in 16 and in 24 bits to 7.1. -/
theorem mixes_stereo :
    Mixes (fun _ => 0) 2 ⟨.pcm16,8,44100,true⟩ (.b ⟨0,0⟩) 2 (fun _ _ => 64) (fun _ => ⟨0,0⟩) ∧
      Mixes (fun _ => 0) 8 ⟨.pcm24,2,44100,false⟩ (.pb fun s => ⟨s,0⟩) 1 (fun _ _ => 64)
        (fun _ => ⟨0,0⟩) ∧
      ∀ x x', pcm_chan_mix exact (fun _ => 0) 8 ⟨.pcm16,2,44100,true⟩ (.b ⟨0,0⟩) 1 (tops 2) (fun _ => ⟨0,0⟩) =
          some (some x) →
        pcm_chan_mix exact (fun _ => 0) 8 ⟨.pcm24,2,44100,false⟩ (.pb fun s => ⟨s,0⟩) 1 (tops 3)
          (fun _ => ⟨0,0⟩) = some (some x') →
        ∀ c < 8, ∀ i < 1, written x.writes (c + i * 8) = written x'.writes (c + i * 8) := by
  have h16 := mixes_iff (fun _ => 0) 8 ⟨.pcm16,2,44100,true⟩ 1 (by decide) (by decide) rfl
  have h24 := mixes_iff (fun _ => 0) 8 ⟨.pcm24,2,44100,false⟩ 1 (by decide) (by decide) rfl
  refine ⟨(mixes_iff _ 2 ⟨.pcm16,8,44100,true⟩ 2 (by decide) (by decide) rfl).1.mpr nofun _ _ _ rfl,
    h24.1.mpr (by decide) _ _ _ rfl,fun x x' hx hx' => ?_⟩
  refine h16.2 (tops 2) (.b ⟨0,0⟩) (fun _ => ⟨0,0⟩) ⟨.pcm24,2,44100,false⟩ (tops 3) (.pb fun s => ⟨s,0⟩)
    (fun _ => ⟨0,0⟩) x x' rfl (h16.1.mpr nofun _ _ _ rfl) (h24.1.mpr (by decide) _ _ _ rfl) hx hx' ?_
  decide +kernel

/-- One stereo sample of 24 bits to mono: nothing is written. -/
theorem mono_not_written :
    pcm_chan_mix exact (fun _ => 0) 1 ⟨.pcm24,2,44100,true⟩ (.b ⟨0,0⟩) 1 (fun _ _ => 64)
        (fun _ => ⟨0,0⟩) = some (some ⟨[],[]⟩) ∧
      ¬Mixes (fun _ => 0) 1 ⟨.pcm24,2,44100,true⟩ (.b ⟨0,0⟩) 1 (fun _ _ => 64) (fun _ => ⟨0,0⟩) := by
  refine ⟨rfl,fun ⟨x,hx,hout⟩ => ?_⟩
  obtain rfl := Option.some.inj (Option.some.inj hx)
  have := hout 0 Nat.one_pos 0 Nat.one_pos
  change written [] _ = _ at this
  rw [written_none fun _ hw => absurd hw List.not_mem_nil] at this
  cases this

end Phiola.Pcm
