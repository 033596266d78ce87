import Mathlib.Algebra.Group.Nat.Defs
import Mathlib.Algebra.Order.Group.Int
import Phiola.Framework.Runs

/-!
# Gapless playback of AAC

`ffaac_decode()` while the format stays the same. A frame is its position in the stream, with the encoder's
delay, and the number of samples that it decodes to.
-/

namespace Phiola.AacDec

open Runs

/-- The fields of `ffaac` that the container sets. -/
structure Conf where
  enc_delay : Nat
  end_padding : Nat
  total_samples : Nat

/-- The number of samples to skip: a difference of 64 bits with a sign, put into 32 bits without. -/
def skip (seek cursample : Nat) : Nat :=
  (max (Int.bmod ((seek : Int) - cursample) (2 ^ 64)) 0 % 2 ^ 32).toNat

/-- `ffmin(r - end_padding, r)`, unsigned. -/
def trim (r end_padding : Nat) : Nat := min ((r + 2 ^ 32 - end_padding) % 2 ^ 32) r

/-- The end of `ffaac_decode()`: `r` samples from `cursample` on. -/
def result (c : Conf) (cursample r : Nat) : Chunk :=
  ⟨cursample - c.enc_delay,cursample,
    if c.total_samples + c.enc_delay ≤ cursample + r then trim r c.end_padding else r⟩

/-- `ffaac_decode()` after `ffaac_input()`, if the library has `x.2` samples; the state is `seek_sample`. -/
def ffaac_decode (c : Conf) (seek_sample : Option Nat) (x : Nat × Nat) : Option Nat × Option Chunk :=
  if x.2 = 0 then (seek_sample,none)
  else
    match seek_sample with
    | some seek =>
      let skip := skip seek x.1
      if x.2 ≤ skip then (some seek,none) else (none,some (result c (x.1 + skip) (x.2 - skip)))
    | none => (none,some (result c x.1 x.2))

/-- `ffaac_open()`, or `ffaac_seek()` to a sample: the results for frames from position `p` on. -/
def decode (c : Conf) (sample p : Nat) (ns : List Nat) : List Chunk :=
  play (ffaac_decode c) (some (sample + c.enc_delay)) (runs p ns)

/-! ## From the start -/

/-- What is returned of a frame. -/
def returned (c : Conf) (x : Nat × Nat) : Option Chunk :=
  let start := max x.1 c.enc_delay
  if x.1 + x.2 ≤ start then none else some (result c start (x.1 + x.2 - start))

def Inv (c : Conf) (seek_sample : Option Nat) (p : Nat) : Prop :=
  seek_sample = some c.enc_delay ∧ p ≤ c.enc_delay ∨ seek_sample = none ∧ c.enc_delay ≤ p

variable {c : Conf} {p : Nat} {ns : List Nat}

theorem skip_eq {seek cursample : Nat} (hle : cursample ≤ seek) (hlt : seek < 2 ^ 63) :
    skip seek cursample = (seek - cursample) % 2 ^ 32 := by
  rw [skip,Int.bmod_eq_of_le (by omega) (by omega)]
  omega

theorem decode_start {s : Option Nat} {x : Nat × Nat} (hdelay : c.enc_delay < 2 ^ 32)
    (hs : Inv c s x.1) :
    (ffaac_decode c s x).2 = returned c x ∧ Inv c (ffaac_decode c s x).1 (x.1 + x.2) := by
  obtain ⟨p,n⟩ := x
  dsimp only at hs ⊢
  unfold ffaac_decode returned
  dsimp only
  by_cases hn : n = 0
  · rw [if_pos hn,if_pos (by omega)]
    rw [hn]
    exact ⟨rfl,hs⟩
  rw [if_neg hn]
  rcases hs with ⟨rfl,hle⟩ | ⟨rfl,hle⟩
  · dsimp only
    have hskip : skip c.enc_delay p = c.enc_delay - p := by
      rw [skip_eq hle (by omega)]
      omega
    rw [hskip]
    by_cases hall : n ≤ c.enc_delay - p
    · rw [if_pos hall,if_pos (by omega)]
      exact ⟨rfl,.inl ⟨rfl,by omega⟩⟩
    · rw [if_neg hall,if_neg (by omega),show p + (c.enc_delay - p) = max p c.enc_delay by omega,
        show n - (c.enc_delay - p) = p + n - max p c.enc_delay by omega]
      exact ⟨rfl,.inr ⟨rfl,by omega⟩⟩
  · rw [show max p c.enc_delay = p by omega,if_neg (by omega),Nat.add_sub_cancel_left]
    exact ⟨rfl,.inr ⟨rfl,by omega⟩⟩

theorem decode_eq (hdelay : c.enc_delay < 2 ^ 32) : decode c 0 0 ns = (runs 0 ns).filterMap (returned c) :=
  play_eq (I := Inv c) (fun _ _ _ hs => decode_start hdelay hs) (.inl ⟨by rw [Nat.zero_add],Nat.zero_le _⟩)

theorem trim_eq {r pad : Nat} (hr : 0 < r) (hr' : r < 2 ^ 31) (hpad : pad < 2 ^ 32) :
    trim r pad = if pad ≤ r then r - pad else r := by
  unfold trim
  split <;> omega

/-- No frame ends in the padding or behind it, or it holds the whole padding; one that ends where the padding
begins has less samples than the padding, or there is none. -/
def Trimmed (c : Conf) (x : Nat × Nat) : Prop :=
  let start := max x.1 c.enc_delay
  let e := c.enc_delay + c.total_samples
  start < x.1 + x.2 → e ≤ x.1 + x.2 →
    x.1 + x.2 = e ∧ (c.end_padding = 0 ∨ x.1 + x.2 - start < c.end_padding) ∨
      x.1 + x.2 = e + c.end_padding ∧ start ≤ e

theorem returned_iff {x : Nat × Nat} (hn : x.2 < 2 ^ 31) (hpad : c.end_padding < 2 ^ 32)
    (hend : x.1 + x.2 ≤ c.enc_delay + c.total_samples + c.end_padding) :
    taken (returned c) x = clip c.enc_delay (c.enc_delay + c.total_samples) x ↔ Trimmed c x := by
  obtain ⟨p,n⟩ := x
  dsimp only at hn hend
  unfold taken returned Trimmed
  dsimp only
  by_cases hskip : p + n ≤ max p c.enc_delay
  · rw [if_pos hskip,clip_nil (by dsimp only; omega)]
    exact ⟨fun _ _ => by omega,fun _ => rfl⟩
  · rw [if_neg hskip]
    dsimp only [result,Option.elim_some,Chunk.samples,clip]
    rw [trim_eq (by omega) (by omega) hpad,range'_inj]
    split
    · split <;> omega
    · omega

theorem gapless (hdelay : c.enc_delay < 2 ^ 32) (hpad : c.end_padding < 2 ^ 32)
    (hns : ∀ n ∈ ns, n < 2 ^ 31) (hsum : ns.sum = c.enc_delay + c.total_samples + c.end_padding) :
    (decode c 0 0 ns).flatMap Chunk.samples = List.range' c.enc_delay c.total_samples ↔
      ∀ x ∈ runs 0 ns, Trimmed c x := by
  have hclip : List.range' c.enc_delay c.total_samples =
      clip c.enc_delay (c.enc_delay + c.total_samples) (0,ns.sum) := by
    rw [clip_zero (by omega),Nat.add_sub_cancel_left]
  have htrim (r : Nat) : trim r c.end_padding ≤ r := Nat.min_le_right _ _
  rw [decode_eq hdelay,flatMap_filterMap,hclip,flatMap_iff]
  · refine forall_congr' fun x => ⟨fun hx hmem => ?_,fun hx hmem => ?_⟩
    all_goals
      have := le_of_mem_runs hmem
      have := hns _ (snd_of_mem_runs hmem)
    · exact (returned_iff this hpad (by omega)).mp (hx hmem)
    · exact (returned_iff this hpad (by omega)).mpr (hx hmem)
  · intro x _ i hi
    unfold taken returned at hi
    dsimp only at hi
    split at hi
    · cases hi
    · dsimp only [result,Option.elim_some,Chunk.samples] at hi
      rw [List.mem_range'_1] at hi
      have := htrim (x.1 + x.2 - max x.1 c.enc_delay)
      split at hi <;> omega

/-! ## After a seek -/

/-- The frames before sample `t` are skipped although 32 bits are compared, and the one with `t` is not cut
as a whole. -/
def Sought (c : Conf) (t : Nat) (x : Nat × Nat) : Prop :=
  (x.1 + x.2 ≤ t → x.2 ≤ (t - x.1) % 2 ^ 32) ∧
    ¬(x.1 ≤ t ∧ t < x.1 + x.2 ∧ c.enc_delay + c.total_samples ≤ x.1 + x.2 ∧ c.end_padding = x.1 + x.2 - t)

theorem le_of_mem_play {i : Nat} (h : i ∈ (play (ffaac_decode c) none (runs p ns)).flatMap Chunk.samples) :
    p ≤ i := by
  induction ns generalizing p with
  | nil => cases h
  | cons n ns ih =>
    have hnext : (ffaac_decode c none (p,n)).1 = none := by
      unfold ffaac_decode
      split <;> rfl
    rw [runs,play,List.flatMap_append,List.mem_append,hnext] at h
    rcases h with h | h
    · unfold ffaac_decode at h
      dsimp only at h
      split at h
      · cases h
      · simp only [Option.toList_some,List.flatMap_cons,List.flatMap_nil,List.append_nil,Chunk.samples,
          result,List.mem_range'_1] at h
        exact h.1
    · have := ih h
      omega

theorem seek {t : Nat} (ht : t < c.enc_delay + c.total_samples) (ht' : t < 2 ^ 63)
    (hpad : c.end_padding < 2 ^ 32) (hp : p ≤ t) (hin : t < p + ns.sum) (hns : ∀ n ∈ ns, n < 2 ^ 31) :
    ((play (ffaac_decode c) (some t) (runs p ns)).flatMap Chunk.samples).head? = some t ↔
      ∀ x ∈ runs p ns, Sought c t x := by
  induction ns generalizing p with
  | nil =>
    rw [List.sum_nil] at hin
    omega
  | cons n ns ih =>
    rw [List.sum_cons] at hin
    rw [List.forall_mem_cons] at hns
    obtain ⟨hn,hns⟩ := hns
    rw [runs,play,List.flatMap_append,List.forall_mem_cons]
    unfold Sought at ih ⊢
    dsimp only at ih ⊢
    by_cases hbefore : p + n ≤ t
    · by_cases hskip : n ≤ (t - p) % 2 ^ 32
      · have hstep : ffaac_decode c (some t) (p,n) = (some t,none) := by
          unfold ffaac_decode
          dsimp only
          rw [skip_eq hp ht',if_pos hskip,ite_self]
        rw [hstep]
        refine (ih hbefore (by omega) hns).trans (iff_and_self.mpr fun _ => ⟨fun _ => hskip,?_⟩)
        omega
      · -- a sample before the target comes first
        have hstep : ffaac_decode c (some t) (p,n) = (none,some (result c (p + (t - p) % 2 ^ 32)
            (n - (t - p) % 2 ^ 32))) := by
          unfold ffaac_decode
          dsimp only
          rw [skip_eq hp ht',if_neg (by omega),if_neg hskip]
        obtain ⟨k,hk⟩ : ∃ k, n - (t - p) % 2 ^ 32 = k + 1 := ⟨n - (t - p) % 2 ^ 32 - 1,by omega⟩
        rw [hstep]
        constructor
        · intro h
          simp only [Option.toList_some,List.flatMap_cons,List.flatMap_nil,List.append_nil,Chunk.samples,
            result] at h
          rw [if_neg (by omega),hk,List.range'_succ,List.cons_append,List.head?_cons,
            Option.some.injEq] at h
          omega
        · rintro ⟨⟨h,-⟩,-⟩
          exact absurd (h hbefore) hskip
    · have hsmall : (t - p) % 2 ^ 32 = t - p := by omega
      have hstep : ffaac_decode c (some t) (p,n) = (none,some (result c t (p + n - t))) := by
        unfold ffaac_decode
        dsimp only
        rw [skip_eq hp ht',if_neg (by omega),hsmall,if_neg (by omega),show p + (t - p) = t by omega,
          show n - (t - p) = p + n - t by omega]
      have htail : ∀ x ∈ runs (p + n) ns, (x.1 + x.2 ≤ t → x.2 ≤ (t - x.1) % 2 ^ 32) ∧
          ¬(x.1 ≤ t ∧ t < x.1 + x.2 ∧ c.enc_delay + c.total_samples ≤ x.1 + x.2 ∧
            c.end_padding = x.1 + x.2 - t) := by
        intro x hx
        have := le_of_mem_runs hx
        omega
      have hlen : (result c t (p + n - t)).len = 0 ↔
          c.enc_delay + c.total_samples ≤ p + n ∧ c.end_padding = p + n - t := by
        dsimp only [result]
        rw [trim_eq (by omega) (by omega) hpad]
        split
        · split <;> omega
        · omega
      rw [hstep,and_iff_left htail]
      simp only [Option.toList_some,List.flatMap_cons,List.flatMap_nil,List.append_nil]
      cases hl : (result c t (p + n - t)).len with
      | zero =>
        have hcut := hlen.mp hl
        constructor
        · intro h
          rw [Chunk.samples,hl] at h
          have := le_of_mem_play (List.mem_of_mem_head? h)
          omega
        · rintro ⟨-,h⟩
          exact absurd ⟨hp,by omega,hcut⟩ h
      | succ k =>
        rw [Chunk.samples,hl]
        refine ⟨fun _ => ⟨fun _ => by omega,fun h => ?_⟩,fun _ => rfl⟩
        rw [hlen.mpr h.2.2] at hl
        cases hl

/-- Without a seek exactly the samples between delay and padding are returned, if and only if the last frames
are such that the padding can be cut; after a seek the target comes first if and only if the difference to no
frame before it is too large and not the whole rest of the stream is cut. -/
theorem aac_gapless_iff (hdelay : c.enc_delay < 2 ^ 32) (hpad : c.end_padding < 2 ^ 32)
    (hns : ∀ n ∈ ns, n < 2 ^ 31) (hsum : p + ns.sum = c.enc_delay + c.total_samples + c.end_padding)
    (hend : p + ns.sum < 2 ^ 63) :
    (p = 0 → ((decode c 0 0 ns).flatMap Chunk.samples = List.range' c.enc_delay c.total_samples ↔
      ∀ x ∈ runs 0 ns, Trimmed c x)) ∧
    ∀ s, s < c.total_samples → p ≤ s + c.enc_delay →
      (((decode c s p ns).flatMap Chunk.samples).head? = some (s + c.enc_delay) ↔
        ∀ x ∈ runs p ns, Sought c (s + c.enc_delay) x) :=
  ⟨fun hp => gapless hdelay hpad hns (by omega),
    fun s hs hp => seek (by omega) (by omega) hpad hp (by omega) hns⟩

theorem aac_gapless_two : (0 = 0 → ((decode ⟨3,2,5⟩ 0 0 [4,6]).flatMap Chunk.samples = List.range' 3 5 ↔
    ∀ x ∈ runs 0 [4,6], Trimmed ⟨3,2,5⟩ x)) ∧
    ∀ s, s < 5 → 0 ≤ s + 3 → (((decode ⟨3,2,5⟩ s 0 [4,6]).flatMap Chunk.samples).head? = some (s + 3) ↔
      ∀ x ∈ runs 0 [4,6], Sought ⟨3,2,5⟩ (s + 3) x) :=
  aac_gapless_iff (c := ⟨3,2,5⟩) (by decide) (by decide) (by decide) (by decide) (by decide)

/-- The padding ends one frame and fills another one. -/
theorem padding_over_two_frames : (decode ⟨0,4,4⟩ 0 0 [6,2]).flatMap Chunk.samples ≠ List.range' 0 4 := by
  have hdecode : decode ⟨0,4,4⟩ 0 0 [6,2] = [⟨0,0,2⟩,⟨6,6,2⟩] := by
    simp [decode,runs,play,ffaac_decode,skip,result,trim]
  rw [hdecode]
  decide

end Phiola.AacDec
