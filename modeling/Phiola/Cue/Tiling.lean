import Mathlib.Algebra.Group.Nat.Defs
import Phiola.Cue.Sheet

/-!
# Where the tracks of a cue sheet begin and end

The cue hook moves the positions of a track so that they begin with 0 at its start mark, and the
'until' filter ends the track at a number of milliseconds after that. Both compute their sample
position from CD frames, each in its own way.
-/

namespace Phiola

def cdframesToSamples (val : UInt64) (rate : UInt32) : UInt64 := val * rate.toUInt64 / 75

def cdframesToMsec (val : UInt64) : UInt64 := val / 75 * 1000

def msecToSamples (msec : UInt64) (rate : UInt32) : UInt64 := msec * rate.toUInt64 / 1000

/-- The fields of `phi_track` that the hook and the filter read. -/
structure CuePlay where
  seekCdframes : UInt64
  untilCdframes : UInt64
  untilMsec : UInt64
  rate : UInt32
  total : UInt64

/-- `struct cuehook` -/
structure CueHook where
  absSeek : UInt64
  absSeekMs : UInt64
  deriving DecidableEq, Repr

/-- `cuehook_open()`; without marks the filter is skipped. -/
def cuehookOpen (t : CuePlay) : Option (CueHook × CuePlay) :=
  if t.seekCdframes = 0 ∧ t.untilCdframes = 0 then none
  else
    let absSeek := cdframesToSamples t.seekCdframes t.rate
    some (⟨absSeek,cdframesToMsec t.seekCdframes⟩,
      { t with
        total := t.total - absSeek
        untilMsec :=
          if t.untilCdframes ≠ 0 then
            t.untilMsec + cdframesToMsec (t.untilCdframes - t.seekCdframes)
          else t.untilMsec })

/-- `audio.pos` after the hook: a difference below 0, as a signed number, becomes 0. -/
def CueHook.pos (c : CueHook) (pos : UInt64) : UInt64 :=
  if (pos - c.absSeek).toNat < 2 ^ 63 then pos - c.absSeek else 0

/-- `until_open()`: the sample at which the track ends; without a limit the filter is skipped. -/
def untilOpen (t : CuePlay) : Option (UInt64 × CuePlay) :=
  if t.untilMsec = 0 then none
  else
    let untl := msecToSamples t.untilMsec t.rate
    some (untl, { t with total := if t.total ≠ -1 then untl else t.total })

/-- `until_process()` for a chunk of `samps` samples at `pos`: how many of them are left, and whether
they are the last ones. -/
def untilProcess (untl pos : UInt64) (samps : UInt32) : UInt64 × Bool :=
  if pos + samps.toUInt64 ≥ untl then (if untl > pos then untl - pos else 0, true)
  else (samps.toUInt64, false)

/-- The sample of the file at which the track begins: the one that gets the position 0. -/
def trackStart (t : CuePlay) : UInt64 := ((cuehookOpen t).map fun p => p.1.absSeek).getD 0

/-- The sample of the file at which the filter ends the track, if it does. -/
def trackEnd (t : CuePlay) : Option UInt64 :=
  match cuehookOpen t with
  | none => (untilOpen t).map Prod.fst
  | some (c, t) => (untilOpen t).map fun p => c.absSeek + p.1

/-- A track of a cue sheet with its two marks. -/
def cuePlay (rate start stop : UInt32) : CuePlay := ⟨start.toUInt64,stop.toUInt64,0,rate,0⟩

/-- Less than a millisecond apart. -/
def WithinMsec (rate : UInt32) (a b : UInt64) : Prop :=
  a = b ∨ (a.toNat - b.toNat + (b.toNat - a.toNat)) * 1000 < rate.toNat

/-- No product that is computed for a track is above its type. -/
structure NoWrap (rate start stop : UInt32) : Prop where
  samples : start.toNat * rate.toNat < 2 ^ 64
  seekMsec : start.toNat / 75 * 1000 < 2 ^ 64
  untilMsec : (stop.toNat - start.toNat) / 75 * 1000 < 2 ^ 64
  untilSamples : (stop.toNat - start.toNat) / 75 * 1000 * rate.toNat < 2 ^ 64
  length : (stop.toNat - start.toNat) * 1000 < 2 ^ 32

/-- A track ends less than a millisecond from where the next one, at its end mark, begins. -/
def Joins (rate start stop : UInt32) : Prop :=
  (∃ e, trackEnd (cuePlay rate start stop) = some e ∧
    ∀ next, WithinMsec rate e (trackStart (cuePlay rate stop next))) ∧ NoWrap rate start stop

/-- The track is whole seconds long, or the rate is so low that no sample is in the part of a second
that is left over; and it is not shorter than a second nor longer than 32 bits of 1/75000 second. -/
def WholeSeconds (rate start stop : UInt32) : Prop :=
  let d := stop.toNat - start.toNat
  75 ≤ d ∧ d * 1000 < 2 ^ 32 ∧ (75 ∣ d ∨ (rate.toNat < 75 ∧
    (start.toNat + d / 75 * 75) * rate.toNat / 75 = stop.toNat * rate.toNat / 75))

/-- The marks of the tracks of a file. -/
structure CueMarks where
  marks : List UInt32
  increasing : marks.Pairwise (· < ·)

section Values

variable {rate start stop : UInt32}

theorem mul_lt (a b : UInt32) : a.toNat * b.toNat < 2 ^ 64 :=
  (Nat.mul_lt_mul'' a.toNat_lt b.toNat_lt).trans_eq (Nat.pow_add 2 32 32).symm

theorem toNat_samples (v rate : UInt32) :
    (cdframesToSamples v.toUInt64 rate).toNat = v.toNat * rate.toNat / 75 := by
  have h := mul_lt v rate
  simp only [cdframesToSamples,UInt64.toNat_div,UInt64.toNat_mul,UInt32.toNat_toUInt64,
    Nat.mod_eq_of_lt h]
  rfl

theorem toNat_msec (h : start < stop) :
    (cdframesToMsec (stop.toUInt64 - start.toUInt64)).toNat =
      (stop.toNat - start.toNat) / 75 * 1000 := by
  have hlt := UInt32.lt_iff_toNat_lt.mp h
  have hstop := stop.toNat_lt
  have hle : start.toUInt64 ≤ stop.toUInt64 := by
    rw [UInt64.le_iff_toNat_le,UInt32.toNat_toUInt64,UInt32.toNat_toUInt64]
    omega
  simp only [cdframesToMsec,UInt64.toNat_mul,UInt64.toNat_div,UInt64.toNat_sub_of_le _ _ hle,
    UInt32.toNat_toUInt64]
  exact Nat.mod_eq_of_lt (by simp; omega)

theorem toNat_trackStart (rate stop next : UInt32) :
    (trackStart (cuePlay rate stop next)).toNat = stop.toNat * rate.toNat / 75 := by
  unfold trackStart cuehookOpen
  by_cases h : (cuePlay rate stop next).seekCdframes = 0 ∧ (cuePlay rate stop next).untilCdframes = 0
  · have h0 : stop.toNat = 0 := by
      have := congrArg UInt64.toNat h.1
      simpa [cuePlay] using this
    rw [if_pos h,h0]
    simp
  · rw [if_neg h]
    exact toNat_samples stop rate

/-- After the hook the 'until' filter has the whole seconds of the track. -/
theorem trackEnd_eq (h : start < stop) :
    trackEnd (cuePlay rate start stop) =
      if (stop.toNat - start.toNat) / 75 = 0 then none
      else some (cdframesToSamples start.toUInt64 rate +
        msecToSamples (cdframesToMsec (stop.toUInt64 - start.toUInt64)) rate) := by
  have hstop : stop.toUInt64 ≠ 0 := by
    intro h0
    have := UInt32.lt_iff_toNat_lt.mp h
    have hs := congrArg UInt64.toNat h0
    rw [UInt32.toNat_toUInt64] at hs
    exact absurd this (by rw [hs]; exact Nat.not_lt_zero _)
  have hz : cdframesToMsec (stop.toUInt64 - start.toUInt64) = 0 ↔
      (stop.toNat - start.toNat) / 75 = 0 := by
    rw [← UInt64.toNat_inj,toNat_msec h]
    simp
  simp only [trackEnd,cuehookOpen,cuePlay,hstop,and_false,if_false,ne_eq,not_false_eq_true,if_true,
    UInt64.zero_add,untilOpen,hz]
  split_ifs <;> rfl

theorem toNat_trackEnd (h : start < stop) (hd : (stop.toNat - start.toNat) * 1000 < 2 ^ 32) :
    (cdframesToSamples start.toUInt64 rate +
      msecToSamples (cdframesToMsec (stop.toUInt64 - start.toUInt64)) rate).toNat =
    start.toNat * rate.toNat / 75 + (stop.toNat - start.toNat) / 75 * rate.toNat := by
  have hm : (stop.toNat - start.toNat) / 75 * 1000 < 2 ^ 32 :=
    (Nat.mul_le_mul_right 1000 (Nat.div_le_self _ 75)).trans_lt hd
  have hprod : (stop.toNat - start.toNat) / 75 * 1000 * rate.toNat < 2 ^ 64 :=
    (Nat.mul_lt_mul'' hm rate.toNat_lt).trans_eq (Nat.pow_add 2 32 32).symm
  have hms : (msecToSamples (cdframesToMsec (stop.toUInt64 - start.toUInt64)) rate).toNat =
      (stop.toNat - start.toNat) / 75 * rate.toNat := by
    simp only [msecToSamples,UInt64.toNat_div,UInt64.toNat_mul,toNat_msec h,UInt32.toNat_toUInt64,
      Nat.mod_eq_of_lt hprod]
    rw [Nat.mul_right_comm]
    exact Nat.mul_div_cancel _ (by decide)
  have hs := mul_lt start rate
  rw [UInt64.toNat_add,toNat_samples,hms]
  refine Nat.mod_eq_of_lt ?_
  rw [Nat.mul_right_comm] at hprod
  omega

end Values

/-- A part of a second that is left over is at least a 75th of a second. -/
theorem leftOver {x j r : Nat} (hj : 0 < j) (hr : 75 ≤ r) :
    r ≤ ((x + j * r) / 75 - x / 75) * 1000 := by
  have hjr : r ≤ j * r := Nat.le_mul_of_pos_left r hj
  omega

theorem end_eq (a d r : Nat) : a * r / 75 + d / 75 * r = (a + d / 75 * 75) * r / 75 := by
  rw [Nat.add_mul,Nat.mul_right_comm (d / 75) 75 r,Nat.add_mul_div_right _ _ (by decide)]

section Joins

variable {rate start stop : UInt32}

theorem joins_of_wholeSeconds (h : start < stop) (hw : WholeSeconds rate start stop) :
    Joins rate start stop := by
  obtain ⟨hd,hlen,hsame⟩ := hw
  have hlt := UInt32.lt_iff_toNat_lt.mp h
  have hdiv : (stop.toNat - start.toNat) / 75 ≠ 0 := by omega
  have hsec : (stop.toNat - start.toNat) / 75 * 1000 < 2 ^ 32 :=
    (Nat.mul_le_mul_right 1000 (Nat.div_le_self _ 75)).trans_lt hlen
  refine ⟨⟨_,(trackEnd_eq h).trans (if_neg hdiv),fun next => .inl ?_⟩,?_⟩
  · apply UInt64.toNat_inj.mp
    rw [toNat_trackEnd h hlen,toNat_trackStart,end_eq]
    rcases hsame with hdvd | hlow
    · rw [Nat.div_mul_cancel hdvd,Nat.add_sub_cancel' hlt.le]
    · exact hlow.2
  · refine ⟨mul_lt start rate,?_,hsec.trans (by decide),?_,hlen⟩
    · have := start.toNat_lt
      exact (Nat.mul_lt_mul_of_lt_of_le ((Nat.div_le_self _ 75).trans_lt this) (by decide)
        (by decide)).trans_le (by decide : 2 ^ 32 * 1000 ≤ 2 ^ 64)
    · exact (Nat.mul_lt_mul'' hsec rate.toNat_lt).trans_eq (Nat.pow_add 2 32 32).symm

theorem wholeSeconds_of_joins (h : start < stop) (hj : Joins rate start stop) :
    WholeSeconds rate start stop := by
  obtain ⟨⟨e,he,hnear⟩,hn⟩ := hj
  have hlt := UInt32.lt_iff_toNat_lt.mp h
  have hlen := hn.length
  rw [trackEnd_eq h] at he
  by_cases hdiv : (stop.toNat - start.toNat) / 75 = 0
  · rw [if_pos hdiv] at he
    cases he
  rw [if_neg hdiv] at he
  have hend : e.toNat = (start.toNat + (stop.toNat - start.toNat) / 75 * 75) * rate.toNat / 75 := by
    rw [← Option.some.inj he,toNat_trackEnd h hlen,end_eq]
  have hs := toNat_trackStart rate stop 0
  refine ⟨by omega,hlen,?_⟩
  by_contra hne
  obtain ⟨hdvd,hlow⟩ := not_or.mp hne
  have hmod : 0 < (stop.toNat - start.toNat) % 75 :=
    Nat.pos_of_ne_zero fun h0 => hdvd (Nat.dvd_of_mod_eq_zero h0)
  -- the end mark is a part of a second after the last whole second
  have hsplit : stop.toNat * rate.toNat =
      (start.toNat + (stop.toNat - start.toNat) / 75 * 75) * rate.toNat +
        (stop.toNat - start.toNat) % 75 * rate.toNat := by
    rw [← Nat.add_mul]
    congr 1
    omega
  have hne' : e.toNat ≠ (trackStart (cuePlay rate stop 0)).toNat ∨ 75 ≤ rate.toNat := by
    rw [hend,hs]
    by_cases hr : 75 ≤ rate.toNat
    · exact .inr hr
    · exact .inl fun heq => hlow ⟨by omega,heq⟩
  have hgap := leftOver
    (x := (start.toNat + (stop.toNat - start.toNat) / 75 * 75) * rate.toNat) (r := rate.toNat) hmod
  rw [← hsplit,← hend,← hs] at hgap
  have hle : e.toNat ≤ (trackStart (cuePlay rate stop 0)).toNat := by
    rw [hend,hs,hsplit]
    exact Nat.div_le_div_right (Nat.le_add_right _ _)
  have hnext := hnear 0
  rw [WithinMsec,← UInt64.toNat_inj] at hnext
  omega

end Joins

/-- The chunk of the file at sample `p` that holds the end of the track is cut there. -/
theorem untilProcess_end {c : CueHook} {untl p : UInt64} {samps : UInt32}
    (hp : c.absSeek ≤ p) (hend : p.toNat ≤ c.absSeek.toNat + untl.toNat)
    (hlen : c.absSeek.toNat + untl.toNat ≤ p.toNat + samps.toNat)
    (hbound : p.toNat + samps.toNat < 2 ^ 63) :
    (untilProcess untl (c.pos p) samps).2 = true ∧
      p.toNat + (untilProcess untl (c.pos p) samps).1.toNat = c.absSeek.toNat + untl.toNat := by
  have hle := UInt64.le_iff_toNat_le.mp hp
  have hsub := UInt64.toNat_sub_of_le _ _ hp
  have hpos : c.pos p = p - c.absSeek := if_pos (by omega)
  have hsum : (p - c.absSeek + samps.toUInt64).toNat = p.toNat - c.absSeek.toNat + samps.toNat := by
    rw [UInt64.toNat_add,hsub,UInt32.toNat_toUInt64]
    exact Nat.mod_eq_of_lt (by omega)
  have hreach : p - c.absSeek + samps.toUInt64 ≥ untl := by
    rw [ge_iff_le,UInt64.le_iff_toNat_le,hsum]
    omega
  rw [hpos,untilProcess,if_pos hreach]
  refine ⟨rfl,?_⟩
  by_cases hgt : untl > p - c.absSeek
  · have hlt := UInt64.lt_iff_toNat_lt.mp hgt
    have hge : p - c.absSeek ≤ untl := UInt64.le_iff_toNat_le.mpr hlt.le
    simp only [if_pos hgt,UInt64.toNat_sub_of_le _ _ hge,hsub]
    omega
  · have hge : untl.toNat ≤ (p - c.absSeek).toNat :=
      UInt64.le_iff_toNat_le.mp (UInt64.not_lt.mp hgt)
    simp only [if_neg hgt]
    have h0 : (0 : UInt64).toNat = 0 := rfl
    omega

/-- The tracks of a file join exactly if they are whole seconds long. -/
theorem tracks_join (rate : UInt32) (m : CueMarks) :
    (∀ k (hk : k + 1 < m.marks.length), Joins rate m.marks[k] m.marks[k + 1]) ↔
      ∀ k (hk : k + 1 < m.marks.length), WholeSeconds rate m.marks[k] m.marks[k + 1] := by
  have hlt : ∀ k (hk : k + 1 < m.marks.length), m.marks[k] < m.marks[k + 1] := fun k hk =>
    List.pairwise_iff_getElem.mp m.increasing k (k + 1) (by omega) hk (Nat.lt_succ_self k)
  constructor
  · intro h k hk
    exact wholeSeconds_of_joins (hlt k hk) (h k hk)
  · intro h k hk
    exact joins_of_wholeSeconds (hlt k hk) (h k hk)

/-- At 44100 Hz a track of 100 frames ends at 1 s, where the next one begins at 1.333 s. -/
theorem tracks_apart :
    ∃ m : CueMarks, m.marks = [0,100,200] ∧ trackEnd (cuePlay 44100 0 100) = some 44100 ∧
      trackStart (cuePlay 44100 100 200) = 58800 ∧
      ¬ ∀ k (hk : k + 1 < m.marks.length), Joins 44100 m.marks[k] m.marks[k + 1] := by
  refine ⟨⟨[0,100,200],by decide⟩,rfl,by decide +kernel,by decide +kernel,fun h => ?_⟩
  obtain ⟨⟨e,he,hnear⟩,_⟩ := h 0 (by decide)
  have hend : trackEnd (cuePlay 44100 0 100) = some 44100 := by decide +kernel
  cases Option.some.inj (hend.symm.trans he)
  have hfar : ¬ WithinMsec 44100 44100 (trackStart (cuePlay 44100 100 0)) := by
    unfold WithinMsec
    decide +kernel
  exact hfar (hnear 0)

end Phiola
