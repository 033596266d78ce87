import Mathlib.Algebra.Group.Nat.Defs
import Phiola.Framework.Runs

/-!
# Gapless playback of MP3

`mpeg_dec_process()` without a seek request. A frame is its position, which the reader has put into
`audio.pos`, and the number of samples that it decodes to.
-/

namespace Phiola.MpegDec

open Runs

/-- `audio.mpeg1_delay`, `audio.mpeg1_padding` and `audio.total`, from the header of the file. -/
structure Hdr where
  mpeg1_delay : Nat
  mpeg1_padding : Nat
  total : Nat

/-- `struct mpeg_dec`; a `seek` of `~0` is `none`. -/
structure Dec where
  pos : Nat
  seek : Option Nat

def mpeg_dec_open (h : Hdr) : Dec := ⟨0,if h.mpeg1_delay ≠ 0 then some h.mpeg1_delay else none⟩

/-- The samples that are cut from the end of the data. -/
def padding (h : Hdr) (pos len : Nat) : Nat :=
  if h.total ≠ 0 ∧ h.mpeg1_padding ≠ 0 ∧ pos < h.total ∧ h.total < pos + len then
    min ((pos + len - h.total) % 2 ^ 32) h.mpeg1_padding
  else 0

/-- `mpeg_dec_process()`: a frame that is passed with `PHI_FFWD`, at `x.1`, decodes to `x.2` samples. -/
def mpeg_dec_process (h : Hdr) (m : Dec) (x : Nat × Nat) : Dec × Option Chunk :=
  let m := {m with pos := x.1}
  let samples := x.2
  if samples = 0 then (m,none)
  else
    let pos := (m.pos + 2 ^ 64 - h.mpeg1_delay) % 2 ^ 64
    match m.seek with
    | some seek =>
      if m.pos + samples ≤ seek then ({m with pos := m.pos + samples},none)
      else
        let skip_samples := seek - m.pos
        let pos := (pos + skip_samples) % 2 ^ 64
        let len := samples - skip_samples
        (⟨m.pos + samples,none⟩,some ⟨pos,m.pos + skip_samples,len - padding h pos len⟩)
    | none => (⟨m.pos + samples,none⟩,some ⟨pos,m.pos,samples - padding h pos samples⟩)

/-- What is passed on of a frame. -/
def passed (h : Hdr) (x : Nat × Nat) : Option Chunk :=
  let start := max x.1 h.mpeg1_delay
  if x.1 + x.2 ≤ start then none
  else
    let len := x.1 + x.2 - start
    some ⟨start - h.mpeg1_delay,start,len - padding h (start - h.mpeg1_delay) len⟩

/-- The samples before the delay are skipped, or were before. -/
def Inv (h : Hdr) (m : Dec) (p : Nat) : Prop :=
  m.seek = some h.mpeg1_delay ∨ m.seek = none ∧ h.mpeg1_delay ≤ p

variable {h : Hdr} {ns : List Nat}

theorem process_eq {m : Dec} {x : Nat × Nat} (hx : x.1 + x.2 < 2 ^ 64) (hm : Inv h m x.1) :
    (mpeg_dec_process h m x).2 = passed h x ∧ Inv h (mpeg_dec_process h m x).1 (x.1 + x.2) := by
  obtain ⟨p,n⟩ := x
  dsimp only at hx hm ⊢
  unfold mpeg_dec_process passed
  dsimp only
  by_cases hn : n = 0
  · rw [if_pos hn,if_pos (by omega)]
    exact ⟨rfl,hm.imp_right fun hm => ⟨hm.1,by omega⟩⟩
  rw [if_neg hn]
  rcases hm with hseek | ⟨hseek,hle⟩
  · rw [hseek]
    dsimp only
    by_cases hskip : p + n ≤ h.mpeg1_delay
    · rw [if_pos hskip,if_pos (by omega)]
      exact ⟨rfl,.inl rfl⟩
    · have hpos : ((p + 2 ^ 64 - h.mpeg1_delay) % 2 ^ 64 + (h.mpeg1_delay - p)) % 2 ^ 64 =
          max p h.mpeg1_delay - h.mpeg1_delay := by omega
      rw [if_neg hskip,if_neg (by omega),hpos]
      dsimp only
      rw [show p + (h.mpeg1_delay - p) = max p h.mpeg1_delay by omega,
        show n - (h.mpeg1_delay - p) = p + n - max p h.mpeg1_delay by omega]
      exact ⟨rfl,.inr ⟨rfl,by omega⟩⟩
  · rw [hseek,show max p h.mpeg1_delay = p by omega,if_neg (by omega),Nat.add_sub_cancel_left,
      show (p + 2 ^ 64 - h.mpeg1_delay) % 2 ^ 64 = p - h.mpeg1_delay by omega]
    exact ⟨rfl,.inr ⟨rfl,by omega⟩⟩

theorem inv_open (h : Hdr) : Inv h (mpeg_dec_open h) 0 := by
  by_cases hd : h.mpeg1_delay = 0
  · exact .inr ⟨by simp [mpeg_dec_open,hd],Nat.le_of_eq hd⟩
  · exact .inl (by simp [mpeg_dec_open,hd])

/-- What is passed on of frames of these lengths. -/
def decode (h : Hdr) (ns : List Nat) : List Chunk := play (mpeg_dec_process h) (mpeg_dec_open h) (runs 0 ns)

theorem decode_eq (hlen : ns.sum < 2 ^ 64) : decode h ns = (runs 0 ns).filterMap (passed h) :=
  play_eq (I := Inv h) (fun _ _ hx hm => process_eq (by have := le_of_mem_runs hx; omega) hm) (inv_open h)

theorem padding_eq {pos len : Nat} (ht : 0 < h.total) (hpad : h.mpeg1_padding ≤ 4095)
    (hend : pos + len ≤ h.total + h.mpeg1_padding) :
    padding h pos len = if pos < h.total then pos + len - h.total else 0 := by
  unfold padding
  split <;> split <;> omega

/-- A frame is passed on as it has to be unless all its samples are padding. -/
theorem passed_iff {x : Nat × Nat} (ht : 0 < h.total) (hpad : h.mpeg1_padding ≤ 4095)
    (hend : x.1 + x.2 ≤ h.mpeg1_delay + h.total + h.mpeg1_padding) :
    taken (passed h) x = clip h.mpeg1_delay (h.mpeg1_delay + h.total) x ↔
      (x.2 ≠ 0 → x.1 < h.mpeg1_delay + h.total) := by
  obtain ⟨p,n⟩ := x
  dsimp only at hend ⊢
  unfold taken passed
  dsimp only
  by_cases hskip : p + n ≤ max p h.mpeg1_delay
  · rw [if_pos hskip,clip_nil (by dsimp only; omega)]
    exact ⟨fun _ _ => by omega,fun _ => rfl⟩
  · rw [if_neg hskip,padding_eq ht hpad (by omega)]
    dsimp only [Option.elim_some,Chunk.samples,clip]
    rw [range'_inj]
    split <;> omega

/-- The samples without delay and padding are passed on, at positions from 0 on, if and only if no frame
has padding only. -/
theorem mpeg_gapless_iff (ht : 0 < h.total) (hpad : h.mpeg1_padding ≤ 4095)
    (hsum : ns.sum = h.mpeg1_delay + h.total + h.mpeg1_padding) (hlen : ns.sum < 2 ^ 64) :
    ((decode h ns).flatMap Chunk.samples = List.range' h.mpeg1_delay h.total ∧
      (decode h ns).flatMap Chunk.positions = List.range' 0 h.total) ↔
    ∀ x ∈ runs 0 ns, x.2 ≠ 0 → x.1 < h.mpeg1_delay + h.total := by
  have hclip : List.range' h.mpeg1_delay h.total =
      clip h.mpeg1_delay (h.mpeg1_delay + h.total) (0,ns.sum) := by
    rw [clip_zero (by omega),Nat.add_sub_cancel_left]
  have hpos : (decode h ns).flatMap Chunk.samples = List.range' h.mpeg1_delay h.total →
      (decode h ns).flatMap Chunk.positions = List.range' 0 h.total := by
    refine positions_eq fun c hc _ => ?_
    rw [decode_eq hlen] at hc
    obtain ⟨x,-,hx⟩ := List.mem_filterMap.mp hc
    dsimp only [passed] at hx
    split at hx
    · cases hx
    · cases hx
      dsimp only
      omega
  rw [and_iff_left_of_imp hpos,decode_eq hlen,flatMap_filterMap,hclip,
    flatMap_iff]
  · refine forall_congr' fun x => ⟨fun hx hmem => ?_,fun hx hmem => ?_⟩
    all_goals have := le_of_mem_runs hmem
    · exact (passed_iff ht hpad (by omega)).mp (hx hmem)
    · exact (passed_iff ht hpad (by omega)).mpr (hx hmem)
  · intro x _ i hi
    unfold taken passed at hi
    dsimp only at hi
    split at hi
    · cases hi
    · dsimp only [Option.elim_some,Chunk.samples] at hi
      rw [List.mem_range'_1] at hi
      omega

/-- Two frames, the second one with the padding and three samples more. -/
theorem mpeg_gapless_two : ((decode ⟨2,3,8⟩ [7,6]).flatMap Chunk.samples = List.range' 2 8 ∧
    (decode ⟨2,3,8⟩ [7,6]).flatMap Chunk.positions = List.range' 0 8) ↔
    ∀ x ∈ runs 0 [7,6], x.2 ≠ 0 → x.1 < 2 + 8 :=
  mpeg_gapless_iff (by decide) (by decide) (by decide) (by decide)

/-- Two frames, the second one with padding only. -/
theorem padding_frame_passed : (decode ⟨2,3,8⟩ [10,3]).flatMap Chunk.samples ≠ List.range' 2 8 := by
  have hdecode : decode ⟨2,3,8⟩ [10,3] = [⟨0,2,8⟩,⟨8,10,3⟩] := by
    simp [decode,mpeg_dec_open,runs,play,mpeg_dec_process,padding]
  rw [hdecode]
  decide

end Phiola.MpegDec
