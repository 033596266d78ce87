import Mathlib.Algebra.Group.Int.Defs
import Mathlib.Algebra.Group.Nat.Defs

/-!
# The header of an APE file

`ape_parse()` over memory with the number of bytes that are there. What it reads, and what it adds and
multiplies as `uint`, is kept beside the result.
-/

namespace Phiola.Ape

abbrev Mem := Nat → UInt8

/-- The number in `n` bytes, low byte first. -/
def le (m : Mem) (off : Nat) : Nat → Nat
  | 0 => 0
  | n + 1 => (m off).toNat + 256 * le m (off + 1) n

def bytes (m : Mem) (off n : Nat) : List UInt8 := (List.range n).map fun i => m (off + i)

/-- A number that is returned as an `int`. -/
def i32 (n : Nat) : Int := (n : Int).bmod (2 ^ 32)

/-- `ffape_info`, of which `channels` is a `u_char`; `total_samples` is none until it is set. -/
structure Info where
  version : Nat
  comp_level : Nat
  comp_level_orig : Nat
  frame_blocks : Nat
  total_samples : Option Nat
  seekpoints : Nat
  format : Nat
  channels : Nat
  rate : Nat
  wavhdr_size : Nat
  md5 : List UInt8

/-- The result, the ends of what was read, and the exact values of the sums and products of the type `uint`. -/
structure Out where
  r : Int
  info : Info
  reads : List Nat
  values : List Nat

def ret (r : Int) (info : Info) : Out := ⟨r,info,[],[]⟩

/-- `n` bytes are read. -/
def rd (m : Mem) (off n : Nat) (k : Nat → Out) : Out :=
  let o := k (le m off n)
  { o with reads := (off + n) :: o.reads }

/-- `n` bytes are copied or compared. -/
def copy (m : Mem) (off n : Nat) (k : List UInt8 → Out) : Out :=
  let o := k (bytes m off n)
  { o with reads := (off + n) :: o.reads }

def add32 (a b : Nat) (k : Nat → Out) : Out :=
  let o := k ((a + b) % 2 ^ 32)
  { o with values := (a + b) :: o.values }

def mul32 (a b : Nat) (k : Nat → Out) : Out :=
  let o := k (a * b % 2 ^ 32)
  { o with values := a * b :: o.values }

/-! ## The parser -/

def APE_EHDR : Int := 1
def APE_EFMT : Int := 2

def APE_F8BIT : Nat := 1
def APE_FPEAK : Nat := 4
def APE_F24BIT : Nat := 8
def APE_FNSEEKEL : Nat := 0x10
def APE_FNOWAVHDR : Nat := 0x20

def MAC : List UInt8 := [77,65,67,32]

/-- `comp_level` of the header in `info` -/
def set_comp (comp_level : Nat) (info : Info) : Info :=
  { info with
    comp_level := if comp_level % 1000 = 0 ∧ comp_level ≤ 5000 then comp_level / 1000 else info.comp_level,
    comp_level_orig := comp_level }

/-- `info->total_samples`, when the last frame is shorter than the others -/
def set_total (total_frames lastframe_blocks frame_blocks : Nat) (info : Info) (k : Info → Out) : Out :=
  if total_frames ≠ 0 ∧ lastframe_blocks < frame_blocks then
    mul32 (total_frames - 1) frame_blocks fun x => add32 x lastframe_blocks fun n =>
      k { info with total_samples := some n }
  else k info

/-- `frame_blocks` of the old layout -/
def old_blocks (version comp_level : Nat) : Nat :=
  if version ≥ 3950 then 73728 * 4
  else if version ≥ 3900 ∨ (version ≥ 3800 ∧ comp_level = 4000) then 73728
  else 9216

/-- `sz` -/
def old_size (flags : Nat) : Nat :=
  32 + (if flags &&& APE_FPEAK ≠ 0 then 4 else 0) + (if flags &&& APE_FNSEEKEL ≠ 0 then 4 else 0)

/-- `_ape_parse_old()` after the seek points are known; `p` is the offset from `data`. -/
def parse_old_end (info : Info) (m : Mem) (len flags sz p : Nat) : Out :=
  let format := if flags &&& APE_F8BIT ≠ 0 then 8 else if flags &&& APE_F24BIT ≠ 0 then 24 else 16
  rd m 10 2 fun channels => rd m 12 4 fun rate =>
    let info := { info with format := format,channels := channels % 2 ^ 8,rate := rate }
    if flags &&& APE_FNOWAVHDR = 0 then
      rd m 16 4 fun wavhdr_size => add32 sz wavhdr_size fun s =>
        if s > len then ret 0 info else ret (i32 (p + wavhdr_size)) info
    else ret (i32 p) info

/-- `_ape_parse_old()` after the number of samples is known -/
def parse_old_seek (m : Mem) (len flags sz total_frames : Nat) (info : Info) : Out :=
  let p := if flags &&& APE_FPEAK ≠ 0 then 32 + 4 else 32
  if flags &&& APE_FNSEEKEL ≠ 0 then
    rd m p 4 fun seekpts => parse_old_end { info with seekpoints := seekpts } m len flags sz (p + 4)
  else parse_old_end { info with seekpoints := total_frames } m len flags sz p

def _ape_parse_old (info : Info) (m : Mem) (len : Nat) : Out :=
  if 32 > len then ret 0 info
  else
    rd m 8 2 fun flags =>
      let sz := old_size flags
      if sz > len then ret 0 info
      else
        rd m 6 2 fun comp_level =>
          let frame_blocks := old_blocks info.version comp_level
          let info := { set_comp comp_level info with frame_blocks := frame_blocks }
          rd m 24 4 fun total_frames => rd m 28 4 fun lastframe_blocks =>
            set_total total_frames lastframe_blocks frame_blocks info
              (parse_old_seek m len flags sz total_frames)

/-- `ape_parse()` after the number of samples is known -/
def parse_new_end (m : Mem) (desc_size hdr_size : Nat) (info : Info) : Out :=
  rd m (desc_size + 16) 2 fun bps =>
    if bps > 32 then ret (-APE_EFMT) info
    else
      rd m (desc_size + 18) 2 fun channels => rd m (desc_size + 20) 4 fun rate =>
        rd m 16 4 fun seektbl_size => copy m 36 16 fun md5 => rd m (desc_size + 2) 2 fun flags =>
          let info := { info with
            format := bps,channels := channels % 2 ^ 8,rate := rate,seekpoints := seektbl_size / 4,md5 := md5 }
          if flags &&& APE_FNOWAVHDR = 0 then
            rd m 20 4 fun wavhdr_size => add32 desc_size hdr_size fun s =>
              ret (i32 s) { info with wavhdr_size := wavhdr_size }
          else add32 desc_size hdr_size fun s => ret (i32 s) info

/-- `ape_parse()` after the sizes are checked -/
def parse_new (info : Info) (m : Mem) (desc_size hdr_size : Nat) : Out :=
  rd m desc_size 2 fun comp_level =>
    rd m (desc_size + 4) 4 fun frame_blocks =>
      let info := { set_comp comp_level info with frame_blocks := frame_blocks }
      rd m (desc_size + 12) 4 fun total_frames => rd m (desc_size + 8) 4 fun lastframe_blocks =>
        set_total total_frames lastframe_blocks frame_blocks info (parse_new_end m desc_size hdr_size)

/-- `ape_parse()`. The first check is for `sizeof(8)`, which is 4. -/
def ape_parse (info : Info) (m : Mem) (len : Nat) : Out :=
  if len < 4 then ret 0 info
  else
    copy m 0 4 fun id =>
      if id ≠ MAC then ret (-APE_EHDR) info
      else
        rd m 4 2 fun version =>
          let info := { info with version := version }
          if version < 3980 then _ape_parse_old info m len
          else
            rd m 8 4 fun desc => rd m 12 4 fun hdr =>
              let desc_size := max 52 desc
              let hdr_size := max 24 hdr
              if desc_size + hdr_size > len then ret 0 info
              else parse_new info m desc_size hdr_size

/-! ## What is read and what is computed -/

/-- Nothing is read behind the end. -/
def Out.Within (o : Out) (len : Nat) : Prop := ∀ e ∈ o.reads, e ≤ len

/-- No sum and no product wraps. -/
def Out.Exact (o : Out) : Prop := ∀ v ∈ o.values, v < 2 ^ 32

variable {m : Mem} {len off n a b : Nat} {k : Nat → Out} {c : List UInt8 → Out} {r : Int} {info : Info}

@[simp] theorem ret_r : (ret r info).r = r := rfl
@[simp] theorem ret_info : (ret r info).info = info := rfl
@[simp] theorem ret_within : (ret r info).Within len := by simp [Out.Within,ret]
@[simp] theorem ret_exact : (ret r info).Exact := by simp [Out.Exact,ret]
@[simp] theorem rd_r : (rd m off n k).r = (k (le m off n)).r := rfl
@[simp] theorem rd_info : (rd m off n k).info = (k (le m off n)).info := rfl
@[simp] theorem rd_within : (rd m off n k).Within len ↔ off + n ≤ len ∧ (k (le m off n)).Within len := by
  simp [Out.Within,rd]
@[simp] theorem rd_exact : (rd m off n k).Exact ↔ (k (le m off n)).Exact := Iff.rfl
@[simp] theorem copy_r : (copy m off n c).r = (c (bytes m off n)).r := rfl
@[simp] theorem copy_info : (copy m off n c).info = (c (bytes m off n)).info := rfl
@[simp] theorem copy_within : (copy m off n c).Within len ↔
    off + n ≤ len ∧ (c (bytes m off n)).Within len := by
  simp [Out.Within,copy]
@[simp] theorem copy_exact :
    (copy m off n c).Exact ↔ (c (bytes m off n)).Exact := Iff.rfl
@[simp] theorem add32_r : (add32 a b k).r = (k ((a + b) % 2 ^ 32)).r := rfl
@[simp] theorem add32_info : (add32 a b k).info = (k ((a + b) % 2 ^ 32)).info := rfl
@[simp] theorem add32_within : (add32 a b k).Within len ↔ (k ((a + b) % 2 ^ 32)).Within len := Iff.rfl
@[simp] theorem add32_exact : (add32 a b k).Exact ↔ a + b < 2 ^ 32 ∧ (k ((a + b) % 2 ^ 32)).Exact := by
  simp [Out.Exact,add32]
@[simp] theorem mul32_r : (mul32 a b k).r = (k (a * b % 2 ^ 32)).r := rfl
@[simp] theorem mul32_info : (mul32 a b k).info = (k (a * b % 2 ^ 32)).info := rfl
@[simp] theorem mul32_within : (mul32 a b k).Within len ↔ (k (a * b % 2 ^ 32)).Within len := Iff.rfl
@[simp] theorem mul32_exact : (mul32 a b k).Exact ↔ a * b < 2 ^ 32 ∧ (k (a * b % 2 ^ 32)).Exact := by
  simp [Out.Exact,mul32]

theorem le_lt (m : Mem) (off n : Nat) : le m off n < 256 ^ n := by
  induction n generalizing off with
  | zero => exact Nat.one_pos
  | succ n ih =>
    have hb := (m off).toNat_lt
    have := ih (off + 1)
    rw [le,Nat.pow_succ]
    omega

/-! ## The fields -/

def Mac (m : Mem) : Prop := bytes m 0 4 = MAC

def version (m : Mem) : Nat := le m 4 2

/-- The samples: of all frames but the last, and of the last. -/
def samples (total_frames lastframe_blocks frame_blocks : Nat) : Nat :=
  (total_frames - 1) * frame_blocks + lastframe_blocks

/-- What is set as the number of samples fits an `uint`. -/
def SamplesFit (total_frames lastframe_blocks frame_blocks : Nat) : Prop :=
  total_frames ≠ 0 → lastframe_blocks < frame_blocks →
    samples total_frames lastframe_blocks frame_blocks < 2 ^ 32

namespace Old

def flags (m : Mem) : Nat := le m 8 2
def size (m : Mem) : Nat := old_size (flags m)
def wavhdr_size (m : Mem) : Nat := le m 16 4
def total_frames (m : Mem) : Nat := le m 24 4
def lastframe_blocks (m : Mem) : Nat := le m 28 4
def frame_blocks (m : Mem) : Nat := old_blocks (version m) (le m 6 2)

/-- The size of the header with the WAV header fits an `uint`, and an `int` when it is returned. -/
def SizeFits (m : Mem) (len : Nat) : Prop :=
  flags m &&& APE_FNOWAVHDR = 0 →
    size m + wavhdr_size m < 2 ^ 32 ∧ (size m + wavhdr_size m ≤ len → size m + wavhdr_size m < 2 ^ 31)

def Fits (m : Mem) (len : Nat) : Prop :=
  size m ≤ len →
    SamplesFit (total_frames m) (lastframe_blocks m) (frame_blocks m) ∧ SizeFits m len

end Old

namespace New

def desc_size (m : Mem) : Nat := max 52 (le m 8 4)
def hdr_size (m : Mem) : Nat := max 24 (le m 12 4)
def frame_blocks (m : Mem) : Nat := le m (desc_size m + 4) 4
def lastframe_blocks (m : Mem) : Nat := le m (desc_size m + 8) 4
def total_frames (m : Mem) : Nat := le m (desc_size m + 12) 4
def bps (m : Mem) : Nat := le m (desc_size m + 16) 2

def Fits (m : Mem) (len : Nat) : Prop :=
  desc_size m + hdr_size m ≤ len →
    SamplesFit (total_frames m) (lastframe_blocks m) (frame_blocks m) ∧
      (bps m ≤ 32 → desc_size m + hdr_size m < 2 ^ 31)

end New

/-- The number of samples in the header -/
def total (m : Mem) : Nat :=
  if version m < 3980 then samples (Old.total_frames m) (Old.lastframe_blocks m) (Old.frame_blocks m)
  else samples (New.total_frames m) (New.lastframe_blocks m) (New.frame_blocks m)

/-- A call, with no number of samples set before. -/
def parsed (info : Info) (m : Mem) (len : Nat) : Out := ape_parse { info with total_samples := none } m len

/-- What is expected from the parser: 0, an error, or a size within the input; nothing is read behind the
input; nothing wraps; the number of samples is exact; and more input doesn't change the result. -/
structure Bounded (info : Info) (m : Mem) (len : Nat) : Prop where
  result : (parsed info m len).r = 0 ∨
    ((parsed info m len).r = -APE_EHDR ∧ ¬ Mac m) ∨
    ((parsed info m len).r = -APE_EFMT ∧ 3980 ≤ version m ∧ 32 < New.bps m) ∨
    (0 < (parsed info m len).r ∧ (parsed info m len).r ≤ len)
  within : (parsed info m len).Within len
  exact_ : (parsed info m len).Exact
  total : ∀ n, (parsed info m len).info.total_samples = some n → n = total m
  grown : (parsed info m len).r ≠ 0 → ∀ more ≥ len, (parsed info m more).r = (parsed info m len).r

/-- With the signature there are as many bytes as are read before the sizes are checked, and the numbers of
the header fit their types. -/
def Safe (m : Mem) (len : Nat) : Prop :=
  4 ≤ len → Mac m → 6 ≤ len ∧ (version m < 3980 → Old.Fits m len) ∧
    (3980 ≤ version m → 16 ≤ len ∧ New.Fits m len)

theorem i32_small (h : n < 2 ^ 31) : i32 n = n := by
  unfold i32
  rw [Int.bmod_def]
  split <;> omega

theorem i32_large (h : 2 ^ 31 ≤ n) (h' : n < 2 ^ 32) : i32 n < 0 := by
  unfold i32
  rw [Int.bmod_def]
  split <;> omega

/-! ## The number of samples -/

theorem product_iff {x l : Nat} : x < 2 ^ 32 ∧ x % 2 ^ 32 + l < 2 ^ 32 ↔ x + l < 2 ^ 32 := by
  constructor
  · rintro ⟨hx,hl⟩
    rwa [Nat.mod_eq_of_lt hx] at hl
  · intro h
    have hx : x < 2 ^ 32 := by omega
    exact ⟨hx,by rwa [Nat.mod_eq_of_lt hx]⟩

/-- What follows the number of samples is computed with the number, or without it. -/
theorem set_total_cases (len tf lf fb : Nat) (info : Info) (k : Info → Out) :
    ∃ t, ((set_total tf lf fb info k).r = (k { info with total_samples := t }).r) ∧
      ((set_total tf lf fb info k).info = (k { info with total_samples := t }).info) ∧
      ((set_total tf lf fb info k).Within len ↔ (k { info with total_samples := t }).Within len) ∧
      ((set_total tf lf fb info k).Exact ↔
        SamplesFit tf lf fb ∧ (k { info with total_samples := t }).Exact) ∧
      (SamplesFit tf lf fb → t = info.total_samples ∨ t = some (samples tf lf fb)) := by
  unfold SamplesFit samples
  by_cases h : tf ≠ 0 ∧ lf < fb
  · refine ⟨some (((tf - 1) * fb % 2 ^ 32 + lf) % 2 ^ 32),?_,?_,?_,?_,?_⟩
    · simp only [set_total,if_pos h,mul32_r,add32_r]
    · simp only [set_total,if_pos h,mul32_info,add32_info]
    · simp only [set_total,if_pos h,mul32_within,add32_within]
    · simp only [set_total,if_pos h,mul32_exact,add32_exact,← and_assoc,product_iff]
      exact and_congr_left fun _ => ⟨fun hl _ _ => hl,fun hf => hf h.1 h.2⟩
    · intro hf
      have hs := hf h.1 h.2
      have hp := product_iff.mpr hs
      right
      rw [Nat.mod_eq_of_lt hp.2,Nat.mod_eq_of_lt hp.1]
  · refine ⟨info.total_samples,?_,?_,?_,?_,fun _ => .inl rfl⟩
    · simp only [set_total,if_neg h]
    · simp only [set_total,if_neg h]
    · simp only [set_total,if_neg h]
    · simp only [set_total,if_neg h]
      exact ⟨fun he => ⟨fun h1 h2 => absurd ⟨h1,h2⟩ h,he⟩,fun he => he.2⟩

/-! ## The old layout -/

/-- 0, or a size within the input -/
def Sized (len : Nat) (r : Int) : Prop := r = 0 ∨ (0 < r ∧ r ≤ len)

theorem old_size_le (flags : Nat) : 32 ≤ old_size flags ∧ old_size flags ≤ 40 := by
  unfold old_size
  split <;> split <;> omega

theorem old_end_spec (info : Info) (hsz : Old.size m ≤ len) :
    (parse_old_end info m len (Old.flags m) (Old.size m) (Old.size m)).info.total_samples =
        info.total_samples ∧
      (parse_old_end info m len (Old.flags m) (Old.size m) (Old.size m)).Within len ∧
      ((parse_old_end info m len (Old.flags m) (Old.size m) (Old.size m)).Exact ∧
        Sized len (parse_old_end info m len (Old.flags m) (Old.size m) (Old.size m)).r ↔ Old.SizeFits m len) := by
  have hbounds := old_size_le (Old.flags m)
  have h32 : 32 ≤ Old.size m := hbounds.1
  have h40 : Old.size m ≤ 40 := hbounds.2
  have hwr : ∀ n, n ≤ len → n < 2 ^ 31 → 0 < n → Sized len (i32 n) := by
    intro n hn hlt hpos
    rw [i32_small hlt]
    exact .inr (by omega)
  unfold parse_old_end Old.SizeFits Old.wavhdr_size
  by_cases hw : Old.flags m &&& APE_FNOWAVHDR = 0
  · simp only [rd_info,rd_within,rd_exact,rd_r,hw,if_true,add32_info,add32_within,add32_exact,add32_r,
      forall_const]
    generalize le m 16 4 = wav
    by_cases hfit : Old.size m + wav < 2 ^ 32
    · rw [Nat.mod_eq_of_lt hfit]
      by_cases hgt : Old.size m + wav > len
      · simp only [if_pos hgt,ret_info,ret_within,ret_exact,ret_r,and_true,true_and]
        exact ⟨by omega,fun _ => ⟨hfit,fun h => by omega⟩,fun h => ⟨h.1,.inl rfl⟩⟩
      · simp only [if_neg hgt,ret_info,ret_within,ret_exact,ret_r,and_true,true_and]
        refine ⟨by omega,fun h => ⟨hfit,fun _ => ?_⟩,fun h => ⟨hfit,hwr _ (by omega) (h.2 (by omega)) (by omega)⟩⟩
        refine Nat.lt_of_not_le fun hlarge => ?_
        have hneg := i32_large hlarge hfit
        rcases h.2 with h0 | ⟨h0,-⟩ <;> omega
    · refine ⟨?_,?_,fun h => absurd h.1.1 hfit,fun h => absurd h.1 hfit⟩
      · split <;> rfl
      · split <;> simp <;> omega
  · simp only [rd_info,rd_within,rd_exact,rd_r,hw,if_false,ret_info,ret_within,ret_exact,ret_r,true_and,
      and_true,false_implies,iff_true]
    exact ⟨by omega,hwr _ hsz (by omega) (by omega)⟩

theorem old_seek_spec (info : Info) (tf : Nat) (hsz : Old.size m ≤ len) :
    (parse_old_seek m len (Old.flags m) (Old.size m) tf info).info.total_samples = info.total_samples ∧
      (parse_old_seek m len (Old.flags m) (Old.size m) tf info).Within len ∧
      ((parse_old_seek m len (Old.flags m) (Old.size m) tf info).Exact ∧
        Sized len (parse_old_seek m len (Old.flags m) (Old.size m) tf info).r ↔ Old.SizeFits m len) := by
  have hsize : Old.size m = old_size (Old.flags m) := rfl
  unfold parse_old_seek
  unfold old_size at hsize
  by_cases hs : Old.flags m &&& APE_FNSEEKEL ≠ 0
  · rw [if_pos hs] at hsize
    have hp : (if Old.flags m &&& APE_FPEAK ≠ 0 then 32 + 4 else 32) + 4 = Old.size m := by
      rw [hsize]
      split <;> rfl
    simp only [if_pos hs,rd_info,rd_within,rd_exact,rd_r,hp]
    obtain ⟨hi,hw,he⟩ := old_end_spec
      { info with seekpoints := le m (if Old.flags m &&& APE_FPEAK ≠ 0 then 32 + 4 else 32) 4 } hsz
    exact ⟨hi,⟨hsz,hw⟩,he⟩
  · rw [if_neg hs] at hsize
    have hp : (if Old.flags m &&& APE_FPEAK ≠ 0 then 32 + 4 else 32) = Old.size m := by
      rw [hsize]
      split <;> rfl
    simp only [if_neg hs,hp]
    exact old_end_spec { info with seekpoints := tf } hsz

theorem old_spec (len : Nat) (info : Info) (hv : info.version = version m) (ht : info.total_samples = none) :
    (_ape_parse_old info m len).Within len ∧
      ((_ape_parse_old info m len).Exact ∧ Sized len (_ape_parse_old info m len).r ↔ Old.Fits m len) ∧
      (Old.Fits m len → ∀ n, (_ape_parse_old info m len).info.total_samples = some n →
        n = samples (Old.total_frames m) (Old.lastframe_blocks m) (Old.frame_blocks m)) := by
  have hbounds : 32 ≤ Old.size m := (old_size_le (Old.flags m)).1
  unfold _ape_parse_old
  by_cases h32 : 32 > len
  · simp only [if_pos h32,ret_within,ret_exact,ret_r,ret_info,ht]
    exact ⟨trivial,⟨fun _ hsz => by omega,fun _ => ⟨trivial,.inl rfl⟩⟩,fun _ n hn => by cases hn⟩
  · simp only [if_neg h32,rd_info,rd_within,rd_exact,rd_r]
    change (8 + 2 ≤ len ∧ Out.Within (if Old.size m > len then _ else _) len) ∧
      (Out.Exact (if Old.size m > len then _ else _) ∧ Sized len (Out.r (if Old.size m > len then _ else _)) ↔ _) ∧
      (_ → ∀ n, (Out.info (if Old.size m > len then _ else _)).total_samples = some n → _)
    by_cases hsz : Old.size m > len
    · simp only [if_pos hsz,ret_within,ret_exact,ret_r,ret_info,ht]
      exact ⟨⟨by omega,trivial⟩,⟨fun _ hle => by omega,fun _ => ⟨trivial,.inl rfl⟩⟩,fun _ n hn => by cases hn⟩
    · have hle : Old.size m ≤ len := Nat.le_of_not_gt hsz
      simp only [if_neg hsz,rd_info,rd_within,rd_exact,rd_r,hv]
      obtain ⟨t,hr,hi,hw,he,htot⟩ := set_total_cases len (Old.total_frames m) (Old.lastframe_blocks m)
        (Old.frame_blocks m) { set_comp (le m 6 2) info with frame_blocks := Old.frame_blocks m }
        (parse_old_seek m len (Old.flags m) (Old.size m) (Old.total_frames m))
      obtain ⟨hi',hw',he'⟩ := old_seek_spec
        { set_comp (le m 6 2) info with frame_blocks := Old.frame_blocks m,total_samples := t }
        (Old.total_frames m) hle
      refine ⟨⟨by omega,by omega,by omega,by omega,hw.mpr hw'⟩,⟨?_,?_⟩,?_⟩
      · rintro ⟨hex,hs⟩ _
        have hx := he.mp hex
        exact ⟨hx.1,he'.mp ⟨hx.2,(congrArg (Sized len) hr).mp hs⟩⟩
      · intro hf
        have hx := hf hle
        have hy := he'.mpr hx.2
        exact ⟨he.mpr ⟨hx.1,hy.1⟩,(congrArg (Sized len) hr).mpr hy.2⟩
      · intro hf n hn
        have hset : t = some n := hi'.symm.trans ((congrArg Info.total_samples hi).symm.trans hn)
        rcases htot (hf hle).1 with h | h
        · have hnone : (set_comp (le m 6 2) info).total_samples = none := ht
          rw [h] at hset
          cases hnone.symm.trans hset
        · exact (Option.some.inj (h.symm.trans hset)).symm

/-! ## The new layout -/

theorem new_end_spec (info : Info) (hle : New.desc_size m + New.hdr_size m ≤ len) :
    (parse_new_end m (New.desc_size m) (New.hdr_size m) info).info.total_samples = info.total_samples ∧
      (parse_new_end m (New.desc_size m) (New.hdr_size m) info).Within len ∧
      ((parse_new_end m (New.desc_size m) (New.hdr_size m) info).Exact ∧
        ((parse_new_end m (New.desc_size m) (New.hdr_size m) info).r = -APE_EFMT ∧ 32 < New.bps m ∨
          Sized len (parse_new_end m (New.desc_size m) (New.hdr_size m) info).r) ↔
        (New.bps m ≤ 32 → New.desc_size m + New.hdr_size m < 2 ^ 31)) := by
  have hd : 52 ≤ New.desc_size m := Nat.le_max_left ..
  have hh : 24 ≤ New.hdr_size m := Nat.le_max_left ..
  unfold parse_new_end
  simp only [rd_info,rd_within,rd_exact,rd_r]
  change Info.total_samples (Out.info (if New.bps m > 32 then _ else _)) = _ ∧
    (_ ∧ Out.Within (if New.bps m > 32 then _ else _) len) ∧
    (Out.Exact (if New.bps m > 32 then _ else _) ∧
      (Out.r (if New.bps m > 32 then _ else _) = _ ∧ _ ∨ Sized len (Out.r (if New.bps m > 32 then _ else _))) ↔ _)
  by_cases hb : New.bps m > 32
  · simp only [if_pos hb,ret_info,ret_within,ret_exact,ret_r]
    exact ⟨trivial,⟨by omega,trivial⟩,⟨fun _ h => by omega,fun _ => ⟨trivial,.inl ⟨trivial,hb⟩⟩⟩⟩
  · have hsum : (New.desc_size m + New.hdr_size m < 2 ^ 32 ∧
        (i32 ((New.desc_size m + New.hdr_size m) % 2 ^ 32) = -APE_EFMT ∧ 32 < New.bps m ∨
          Sized len (i32 ((New.desc_size m + New.hdr_size m) % 2 ^ 32)))) ↔
        (New.bps m ≤ 32 → New.desc_size m + New.hdr_size m < 2 ^ 31) := by
      constructor
      · rintro ⟨hlt,hr⟩ _
        refine Nat.lt_of_not_le fun hlarge => ?_
        have hneg := i32_large hlarge hlt
        rw [Nat.mod_eq_of_lt hlt] at hr
        rcases hr with ⟨-,h⟩ | h | ⟨h,-⟩ <;> omega
      · intro h
        have hlt := h (by omega)
        rw [Nat.mod_eq_of_lt (by omega),i32_small hlt]
        exact ⟨by omega,.inr (.inr (by omega))⟩
    simp only [if_neg hb,rd_info,rd_within,rd_exact,rd_r,copy_info,copy_within,copy_exact,copy_r]
    by_cases hf : le m (New.desc_size m + 2) 2 &&& APE_FNOWAVHDR = 0
    · simp only [if_pos hf,rd_info,rd_within,rd_exact,rd_r,add32_info,add32_within,add32_exact,add32_r,ret_info,
        ret_within,ret_exact,ret_r,and_true]
      exact ⟨trivial,by omega,hsum⟩
    · simp only [if_neg hf,add32_info,add32_within,add32_exact,add32_r,ret_info,ret_within,ret_exact,ret_r,
        and_true]
      exact ⟨trivial,by omega,hsum⟩

theorem new_spec (info : Info) (ht : info.total_samples = none)
    (hle : New.desc_size m + New.hdr_size m ≤ len) :
    (parse_new info m (New.desc_size m) (New.hdr_size m)).Within len ∧
      ((parse_new info m (New.desc_size m) (New.hdr_size m)).Exact ∧
        ((parse_new info m (New.desc_size m) (New.hdr_size m)).r = -APE_EFMT ∧ 32 < New.bps m ∨
          Sized len (parse_new info m (New.desc_size m) (New.hdr_size m)).r) ↔ New.Fits m len) ∧
      (New.Fits m len → ∀ n, (parse_new info m (New.desc_size m) (New.hdr_size m)).info.total_samples = some n →
        n = samples (New.total_frames m) (New.lastframe_blocks m) (New.frame_blocks m)) := by
  have hd : 52 ≤ New.desc_size m := Nat.le_max_left ..
  have hh : 24 ≤ New.hdr_size m := Nat.le_max_left ..
  unfold parse_new
  simp only [rd_info,rd_within,rd_exact,rd_r]
  obtain ⟨t,hr,hi,hw,he,htot⟩ := set_total_cases len (New.total_frames m) (New.lastframe_blocks m)
    (New.frame_blocks m) { set_comp (le m (New.desc_size m) 2) info with frame_blocks := New.frame_blocks m }
    (parse_new_end m (New.desc_size m) (New.hdr_size m))
  obtain ⟨hi',hw',he'⟩ := new_end_spec
    { set_comp (le m (New.desc_size m) 2) info with frame_blocks := New.frame_blocks m,total_samples := t } hle
  refine ⟨⟨by omega,by omega,by omega,by omega,hw.mpr hw'⟩,⟨?_,?_⟩,?_⟩
  · rintro ⟨hex,hs⟩ _
    have hx := he.mp hex
    refine ⟨hx.1,he'.mp ⟨hx.2,?_⟩⟩
    exact (congrArg (fun r => r = -APE_EFMT ∧ 32 < New.bps m ∨ Sized len r) hr).mp hs
  · intro hf
    have hx := hf hle
    have hy := he'.mpr hx.2
    refine ⟨he.mpr ⟨hx.1,hy.1⟩,?_⟩
    exact (congrArg (fun r => r = -APE_EFMT ∧ 32 < New.bps m ∨ Sized len r) hr).mpr hy.2
  · intro hf n hn
    have hset : t = some n := hi'.symm.trans ((congrArg Info.total_samples hi).symm.trans hn)
    rcases htot (hf hle).1 with h | h
    · have hnone : (set_comp (le m (New.desc_size m) 2) info).total_samples = none := ht
      rw [h] at hset
      cases hnone.symm.trans hset
    · exact (Option.some.inj (h.symm.trans hset)).symm

/-! ## More input -/

theorem set_total_grown {tf lf fb : Nat} {k k' : Info → Out} (h : ∀ i, (k i).r ≠ 0 → (k' i).r = (k i).r)
    (hr : (set_total tf lf fb info k).r ≠ 0) :
    (set_total tf lf fb info k').r = (set_total tf lf fb info k).r := by
  unfold set_total at hr ⊢
  split
  · rename_i hs
    rw [if_pos hs] at hr
    exact h _ hr
  · rename_i hs
    rw [if_neg hs] at hr
    exact h _ hr

theorem old_end_grown {more flags sz p : Nat} (hmore : len ≤ more)
    (h : (parse_old_end info m len flags sz p).r ≠ 0) :
    (parse_old_end info m more flags sz p).r = (parse_old_end info m len flags sz p).r := by
  unfold parse_old_end at h ⊢
  by_cases hw : flags &&& APE_FNOWAVHDR = 0
  · simp only [rd_r,if_pos hw,add32_r] at h ⊢
    by_cases hgt : (sz + le m 16 4) % 2 ^ 32 > len
    · rw [if_pos hgt] at h
      exact absurd rfl h
    · rw [if_neg hgt,if_neg (by omega)]
  · simp only [rd_r,if_neg hw]

theorem old_seek_grown {more flags sz tf : Nat} (hmore : len ≤ more)
    (h : (parse_old_seek m len flags sz tf info).r ≠ 0) :
    (parse_old_seek m more flags sz tf info).r = (parse_old_seek m len flags sz tf info).r := by
  unfold parse_old_seek at h ⊢
  by_cases hs : flags &&& APE_FNSEEKEL ≠ 0
  · simp only [if_pos hs,rd_r] at h ⊢
    exact old_end_grown hmore h
  · simp only [if_neg hs] at h ⊢
    exact old_end_grown hmore h

theorem old_grown {more : Nat} (hmore : len ≤ more) (h : (_ape_parse_old info m len).r ≠ 0) :
    (_ape_parse_old info m more).r = (_ape_parse_old info m len).r := by
  unfold _ape_parse_old at h ⊢
  by_cases h32 : 32 > len
  · rw [if_pos h32] at h
    exact absurd rfl h
  · rw [if_neg h32] at h
    rw [if_neg h32,if_neg (by omega)]
    simp only [rd_r] at h ⊢
    by_cases hsz : old_size (le m 8 2) > len
    · rw [if_pos hsz] at h
      exact absurd rfl h
    · rw [if_neg hsz] at h
      rw [if_neg hsz,if_neg (by omega)]
      simp only [rd_r] at h ⊢
      exact set_total_grown (fun i hi => old_seek_grown hmore hi) h

theorem parse_grown {more : Nat} (hmore : len ≤ more) (h : (ape_parse info m len).r ≠ 0) :
    (ape_parse info m more).r = (ape_parse info m len).r := by
  unfold ape_parse at h ⊢
  by_cases h4 : len < 4
  · rw [if_pos h4] at h
    exact absurd rfl h
  · rw [if_neg h4] at h
    rw [if_neg h4,if_neg (by omega)]
    simp only [copy_r] at h ⊢
    by_cases hm : bytes m 0 4 ≠ MAC
    · rw [if_pos hm,if_pos hm]
    · simp only [if_neg hm,rd_r] at h ⊢
      by_cases hv : le m 4 2 < 3980
      · rw [if_pos hv] at h
        rw [if_pos hv,if_pos hv]
        exact old_grown hmore h
      · simp only [if_neg hv,rd_r] at h ⊢
        by_cases hgt : max 52 (le m 8 4) + max 24 (le m 12 4) > len
        · rw [if_pos hgt] at h
          exact absurd rfl h
        · rw [if_neg hgt,if_neg (by omega)]

/-! ## The parser -/

theorem parsed_old (info : Info) (h4 : 4 ≤ len) (hm : Mac m) (hv : version m < 3980) :
    ∃ i : Info, i.version = version m ∧ i.total_samples = none ∧
      (parsed info m len).r = (_ape_parse_old i m len).r ∧
      (parsed info m len).info = (_ape_parse_old i m len).info ∧
      ((parsed info m len).Within len ↔ 6 ≤ len ∧ (_ape_parse_old i m len).Within len) ∧
      ((parsed info m len).Exact ↔ (_ape_parse_old i m len).Exact) := by
  have hlen : ¬ len < 4 := by omega
  have hid : ¬ bytes m 0 4 ≠ MAC := fun h => h hm
  have hver : le m 4 2 < 3980 := hv
  refine ⟨{ info with total_samples := none,version := le m 4 2 },rfl,rfl,?_⟩
  unfold parsed ape_parse
  simp only [if_neg hlen,copy_r,copy_info,copy_within,copy_exact,if_neg hid,rd_r,rd_info,rd_within,rd_exact,
    if_pos hver]
  exact ⟨trivial,trivial,⟨fun h => h.2,fun h => ⟨h4,h⟩⟩,trivial⟩

theorem parsed_new (len : Nat) (info : Info) (h4 : 4 ≤ len) (hm : Mac m) (hv : 3980 ≤ version m) :
    ∃ i : Info, i.total_samples = none ∧
      ((parsed info m len).Within len → 16 ≤ len) ∧
      (16 ≤ len → New.desc_size m + New.hdr_size m > len → (parsed info m len).r = 0 ∧
        (parsed info m len).info.total_samples = none ∧ (parsed info m len).Within len ∧
        (parsed info m len).Exact) ∧
      (New.desc_size m + New.hdr_size m ≤ len →
        (parsed info m len).r = (parse_new i m (New.desc_size m) (New.hdr_size m)).r ∧
        (parsed info m len).info = (parse_new i m (New.desc_size m) (New.hdr_size m)).info ∧
        ((parsed info m len).Within len ↔
          16 ≤ len ∧ (parse_new i m (New.desc_size m) (New.hdr_size m)).Within len) ∧
        ((parsed info m len).Exact ↔ (parse_new i m (New.desc_size m) (New.hdr_size m)).Exact)) := by
  have hlen : ¬ len < 4 := by omega
  have hid : ¬ bytes m 0 4 ≠ MAC := fun h => h hm
  have hver : ¬ le m 4 2 < 3980 := Nat.not_lt_of_le hv
  refine ⟨{ info with total_samples := none,version := le m 4 2 },rfl,?_⟩
  unfold parsed ape_parse
  simp only [if_neg hlen,copy_r,copy_info,copy_within,copy_exact,if_neg hid,rd_r,rd_info,rd_within,rd_exact,
    if_neg hver]
  refine ⟨fun h => h.2.2.2.1,fun h16 hgt => ?_,fun hle => ?_⟩
  · have hgt' : max 52 (le m 8 4) + max 24 (le m 12 4) > len := hgt
    simp only [if_pos hgt',ret_r,ret_info,ret_within,ret_exact]
    exact ⟨trivial,trivial,⟨by omega,by omega,by omega,by omega,trivial⟩,trivial⟩
  · have hle' : ¬ max 52 (le m 8 4) + max 24 (le m 12 4) > len := Nat.not_lt_of_le hle
    simp only [if_neg hle']
    exact ⟨rfl,rfl,⟨fun h => h.2.2.2,fun h => ⟨by omega,by omega,by omega,h⟩⟩,Iff.rfl⟩

/-- The parser does what is expected exactly with an input that is safe. -/
theorem bounded_iff (info : Info) (m : Mem) (len : Nat) : Bounded info m len ↔ Safe m len := by
  have hgrown : (parsed info m len).r ≠ 0 → ∀ more ≥ len, (parsed info m more).r = (parsed info m len).r :=
    fun h more hmore => parse_grown hmore h
  by_cases h4 : len < 4
  · refine ⟨fun _ h => by omega,fun _ => ?_⟩
    have hp : parsed info m len = ret 0 { info with total_samples := none } := if_pos h4
    refine ⟨.inl (by rw [hp]; rfl),by rw [hp]; exact ret_within,by rw [hp]; exact ret_exact,fun n hn => ?_,
      hgrown⟩
    rw [hp] at hn
    cases hn
  have h4' : 4 ≤ len := Nat.le_of_not_lt h4
  by_cases hm : Mac m
  · rcases Nat.lt_or_ge (version m) 3980 with hv | hv
    · obtain ⟨i,hiv,hit,hr,hi,hw,he⟩ := parsed_old info h4' hm hv
      obtain ⟨hw',he',ht'⟩ := old_spec len i hiv hit
      have htotal : total m = samples (Old.total_frames m) (Old.lastframe_blocks m) (Old.frame_blocks m) :=
        if_pos hv
      constructor
      · intro h _ _
        refine ⟨(hw.mp h.within).1,fun _ => he'.mp ⟨he.mp h.exact_,?_⟩,fun h' => by omega⟩
        rw [← hr]
        rcases h.result with h' | ⟨-,h'⟩ | ⟨-,h',-⟩ | h'
        · exact .inl h'
        · exact absurd hm h'
        · omega
        · exact .inr h'
      · intro h
        obtain ⟨h6,hf,-⟩ := h h4' hm
        obtain ⟨hex,hs⟩ := he'.mpr (hf hv)
        refine ⟨?_,hw.mpr ⟨h6,hw'⟩,he.mpr hex,fun n hn => ?_,hgrown⟩
        · rw [hr]
          exact hs.imp_right fun h => .inr (.inr h)
        · rw [htotal]
          exact ht' (hf hv) n (hi ▸ hn)
    · obtain ⟨i,hit,h16,hsmall,hlarge⟩ := parsed_new len info h4' hm hv
      have htotal : total m = samples (New.total_frames m) (New.lastframe_blocks m) (New.frame_blocks m) :=
        if_neg (Nat.not_lt_of_le hv)
      rcases Nat.lt_or_ge len (New.desc_size m + New.hdr_size m) with hgt | hle
      · constructor
        · intro h _ _
          have := h16 h.within
          exact ⟨by omega,fun h' => by omega,fun _ => ⟨this,fun h' => by omega⟩⟩
        · intro h
          obtain ⟨hr,hi,hw,he⟩ := hsmall ((h h4' hm).2.2 hv).1 hgt
          refine ⟨.inl hr,hw,he,fun n hn => ?_,hgrown⟩
          rw [hi] at hn
          cases hn
      · obtain ⟨hr,hi,hw,he⟩ := hlarge hle
        obtain ⟨hw',he',ht'⟩ := new_spec i hit hle
        constructor
        · intro h _ _
          refine ⟨?_,fun h' => by omega,fun _ => ⟨h16 h.within,he'.mp ⟨he.mp h.exact_,?_⟩⟩⟩
          · have := h16 h.within
            omega
          · rw [← hr]
            rcases h.result with h' | ⟨-,h'⟩ | ⟨h',-,h''⟩ | h'
            · exact .inr (.inl h')
            · exact absurd hm h'
            · exact .inl ⟨h',h''⟩
            · exact .inr (.inr h')
        · intro h
          obtain ⟨h16',hf⟩ := (h h4' hm).2.2 hv
          obtain ⟨hex,hs⟩ := he'.mpr hf
          refine ⟨?_,hw.mpr ⟨h16',hw'⟩,he.mpr hex,fun n hn => ?_,hgrown⟩
          · rw [hr]
            rcases hs with ⟨h1,h2⟩ | h1 | h1
            · exact .inr (.inr (.inl ⟨h1,hv,h2⟩))
            · exact .inl h1
            · exact .inr (.inr (.inr h1))
          · rw [htotal]
            exact ht' hf n (hi ▸ hn)
  · refine ⟨fun _ _ h => absurd h hm,fun _ => ?_⟩
    have hid : bytes m 0 4 ≠ MAC := hm
    have hp : parsed info m len = copy m 0 4 fun _ => ret (-APE_EHDR) { info with total_samples := none } := by
      unfold parsed ape_parse
      rw [if_neg h4]
      unfold copy
      simp only [if_pos hid]
    refine ⟨.inr (.inl ⟨by rw [hp]; rfl,hm⟩),?_,?_,fun n hn => ?_,hgrown⟩
    · rw [hp,copy_within]
      exact ⟨by omega,ret_within⟩
    · rw [hp,copy_exact]
      exact ret_exact
    · rw [hp] at hn
      cases hn

/-- The signature, and zeros. -/
def signature : Mem := fun i => MAC.getD i 0

/-- With the four bytes of the signature the version behind them is read. -/
theorem signature_not_bounded : ∃ info, ¬ Bounded info signature 4 := by
  refine ⟨⟨0,0,0,0,none,0,0,0,0,0,[]⟩,fun h => ?_⟩
  exact absurd (h.within 6 (by decide)) (by decide)

end Phiola.Ape
