import Mathlib.Algebra.Group.Nat.Defs
import Phiola.Framework.Runs

/-!
# Positions and length of Opus

`opus_in_decode()` once the headers are read, without a seek. Positions in the stream count the samples
that are skipped at the start, `preskip`.
-/

namespace Phiola.OpusDec

open Runs

/-- `info.preskip` and `total_samples`, which is `audio.total` of the container. -/
structure Conf where
  preskip : Nat
  total_samples : Nat

/-- `struct opus_dec` with its `ffopus`; `~0` is `none`. -/
structure Dec where
  pos : Nat
  seek_sample : Option Nat
  pagepos : Option Nat

/-- The end of `ffopus_decode()`: `r` samples in the buffer, the first of which is sample `first` of the
stream. What is reported is `ffopus_startpos()`. -/
def data (c : Conf) (o : Dec) (first r : Nat) : Dec × Option Chunk :=
  let r := if o.pos < c.total_samples ∧ c.total_samples ≤ o.pos + r then c.total_samples - o.pos else r
  ({o with pos := o.pos + r},some ⟨o.pos,first,r⟩)

/-- `ffopus_decode()` of a packet. -/
def ffopus_decode (c : Conf) (o : Dec) (x : Nat × Nat) : Dec × Option Chunk :=
  match o.seek_sample with
  | some seek =>
    if o.pos < seek then
      let skip := min (seek - o.pos) x.2
      let o := {o with pos := o.pos + skip}
      if o.pos ≠ seek ∨ x.2 = skip then (o,none)
      else data c {o with seek_sample := none} (x.1 + skip) (x.2 - skip)
    else data c {o with seek_sample := none} x.1 x.2
  | none => data c o x.1 x.2

/-- `opus_in_decode()` of a packet whose page the reader reports in `audio.pos`. -/
def opus_in_decode (c : Conf) (o : Dec) (z : Packet) : Dec × Option Chunk :=
  ffopus_decode c (if o.pagepos = some z.page then o else {o with pos := z.page, pagepos := some z.page})
    z.run

/-- What is passed on of packets, of which some start a page. -/
def decode (c : Conf) (zs : List (Bool × Nat)) : List Chunk :=
  play (opus_in_decode c) ⟨0,some c.preskip,none⟩ (packets 0 0 zs)

/-- `audio.total` as the filter leaves it. -/
def total (c : Conf) : Nat := c.total_samples - c.preskip

/-! ## What is passed on of a packet -/

/-- The samples that are passed on of a packet. -/
def passed (c : Conf) (x : Nat × Nat) : List Nat :=
  let start := max x.1 c.preskip
  List.range' start
    (if start < c.total_samples then min (x.1 + x.2) c.total_samples - start else x.1 + x.2 - start)

/-- The rest of a packet after the first samples starts before the end, if there is any. -/
def Within (c : Conf) (x : Nat × Nat) : Prop :=
  max x.1 c.preskip < x.1 + x.2 → max x.1 c.preskip < c.total_samples

/-- `pos` is the position of the next packet, or both are at the end or behind it. -/
def At (c : Conf) (o : Dec) (p : Nat) : Prop :=
  (o.seek_sample = some c.preskip ∧ p ≤ c.preskip ∧ o.pos = p) ∨
    (o.seek_sample = none ∧ c.preskip ≤ p ∧ (o.pos = p ∨ c.total_samples ≤ o.pos ∧ c.total_samples ≤ p))

def Inv (c : Conf) (o : Dec) (page p : Nat) : Prop :=
  At c o p ∧ (o.pagepos = some page ∨ o.pagepos = none ∧ page = p)

variable {c : Conf} {o : Dec} {p n : Nat}

theorem data_eq (hp : c.preskip ≤ p) (hseek : o.seek_sample = none)
    (hpos : o.pos = p ∨ c.total_samples ≤ o.pos ∧ c.total_samples ≤ p) :
    ∃ d k, data c o p n = (d,some k) ∧ k.samples = passed c (p,n) ∧
      (Within c (p,n) → k.len ≠ 0 → k.first = k.pos) ∧ At c d (p + n) ∧ d.pagepos = o.pagepos := by
  refine ⟨_,_,rfl,?_,?_,.inr ⟨hseek,by omega,?_⟩,rfl⟩
  · dsimp only [Chunk.samples,passed]
    rw [show max p c.preskip = p by omega]
    congr 1
    split <;> split <;> omega
  · dsimp only [Within]
    rw [show max p c.preskip = p by omega]
    split <;> omega
  · dsimp only
    split <;> omega

theorem decode_packet (h : At c o p) :
    (ffopus_decode c o (p,n)).2.elim [] Chunk.samples = passed c (p,n) ∧
      (∀ k, (ffopus_decode c o (p,n)).2 = some k → Within c (p,n) → k.len ≠ 0 → k.first = k.pos) ∧
      At c (ffopus_decode c o (p,n)).1 (p + n) ∧ (ffopus_decode c o (p,n)).1.pagepos = o.pagepos := by
  have hdata {o' : Dec} {q m : Nat} (hpage : o'.pagepos = o.pagepos) (hq : c.preskip ≤ q)
      (hseek : o'.seek_sample = none) (hpos : o'.pos = q ∨ c.total_samples ≤ o'.pos ∧ c.total_samples ≤ q)
      (hpassed : passed c (q,m) = passed c (p,n)) (hwithin : Within c (p,n) → Within c (q,m))
      (hsum : q + m = p + n) : (data c o' q m).2.elim [] Chunk.samples = passed c (p,n) ∧
        (∀ k, (data c o' q m).2 = some k → Within c (p,n) → k.len ≠ 0 → k.first = k.pos) ∧
        At c (data c o' q m).1 (p + n) ∧ (data c o' q m).1.pagepos = o.pagepos := by
    obtain ⟨d,k,heq,hk,hkpos,hat,hd⟩ := data_eq (n := m) hq hseek hpos
    rw [heq]
    exact ⟨hk.trans hpassed,fun _ he hw => Option.some.inj he ▸ hkpos (hwithin hw),hsum ▸ hat,hd.trans hpage⟩
  rcases h with ⟨hseek,hle,hpos⟩ | ⟨hseek,hle,hpos⟩
  · unfold ffopus_decode
    rw [hseek]
    dsimp only
    by_cases hlt : o.pos < c.preskip
    · rw [if_pos hlt]
      by_cases hall : o.pos + min (c.preskip - o.pos) n ≠ c.preskip ∨ n = min (c.preskip - o.pos) n
      · rw [if_pos hall]
        refine ⟨?_,nofun,.inl ⟨rfl,by omega,by dsimp only; omega⟩,rfl⟩
        dsimp only [passed,Option.elim_none]
        rw [if_congr Iff.rfl (show min (p + n) c.total_samples - max p c.preskip = 0 by omega)
          (show p + n - max p c.preskip = 0 by omega),ite_self]
        rfl
      · rw [if_neg hall]
        refine hdata rfl (by omega) rfl (.inl (by dsimp only; omega)) ?_ ?_ (by omega)
        · dsimp only [passed]
          rw [show p + min (c.preskip - o.pos) n + (n - min (c.preskip - o.pos) n) = p + n by omega,
            show max (p + min (c.preskip - o.pos) n) c.preskip = max p c.preskip by omega]
        · dsimp only [Within]
          omega
    · rw [if_neg hlt]
      exact hdata rfl (by omega) rfl (.inl hpos) rfl id rfl
  · unfold ffopus_decode
    rw [hseek]
    exact hdata rfl hle hseek hpos rfl id rfl

theorem step_inv {page page' : Nat}
    (hpage : page' = page ∨ page' = p) (h : Inv c o page p) :
    (opus_in_decode c o ⟨page',(p,n)⟩).2.elim [] Chunk.samples = passed c (p,n) ∧
      (∀ k, (opus_in_decode c o ⟨page',(p,n)⟩).2 = some k →
        Within c (p,n) → k.len ≠ 0 → k.first = k.pos) ∧
      Inv c (opus_in_decode c o ⟨page',(p,n)⟩).1 page' (p + n) := by
  obtain ⟨hat,hold⟩ := h
  -- the position at the start of a page is the one that is there already
  obtain ⟨o',ho',hat',hnew⟩ : ∃ o', (if o.pagepos = some page' then o else
      {o with pos := page', pagepos := some page'}) = o' ∧ At c o' p ∧ o'.pagepos = some page' := by
    by_cases hsame : o.pagepos = some page'
    · exact ⟨o,if_pos hsame,hat,hsame⟩
    · have hp : page' = p := by
        rcases hpage with rfl | hp
        · rcases hold with hold | ⟨-,hold⟩
          · exact absurd hold hsame
          · exact hold
        · exact hp
      refine ⟨_,if_neg hsame,?_,rfl⟩
      rcases hat with ⟨hseek,hle,-⟩ | ⟨hseek,hle,-⟩
      · exact .inl ⟨hseek,hle,hp⟩
      · exact .inr ⟨hseek,hle,.inl hp⟩
  unfold opus_in_decode
  dsimp only
  rw [ho']
  obtain ⟨hout,hpos,hnext,hkept⟩ := decode_packet (n := n) hat'
  exact ⟨hout,hpos,hnext,.inl (hkept.trans hnew)⟩

theorem passed_iff {x : Nat × Nat} :
    passed c x = clip c.preskip c.total_samples x ↔ Within c x := by
  unfold passed clip Within
  dsimp only
  rw [range'_inj]
  split <;> omega

end Phiola.OpusDec
