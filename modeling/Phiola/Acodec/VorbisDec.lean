import Mathlib.Algebra.Group.Nat.Defs
import Phiola.Framework.Runs

/-!
# Seeking in Vorbis

`vorbis_in_decode()` after a seek request, once the headers are read. The reader reports the position of the
page with every packet; `audio.seek` stays set until data is passed on.
-/

namespace Phiola.VorbisDec

open Runs

/-- `struct vorbis_dec` with its `ffvorbis`, and `audio.seek` in samples; `~0` is `none`. -/
structure Dec where
  cursample : Nat
  pagepos : Nat
  seek_sample : Option Nat
  seek : Option Nat

/-- `ffmin(r, total_samples - cursample)`, unsigned. -/
def cut (total : Option Nat) (cursample r : Nat) : Nat :=
  match total with
  | some t => min r ((t + 2 ^ 64 - cursample) % 2 ^ 64)
  | none => r

/-- The end of `ffvorbis_decode()`: `r` samples in the buffer, the first of which is sample `first` of the
stream. -/
def data (total : Option Nat) (v : Dec) (first r : Nat) : Dec × Option Chunk :=
  let r := cut total v.cursample r
  ({v with cursample := v.cursample + r},some ⟨v.cursample,first,r⟩)

/-- `ffvorbis_decode()` of a packet. -/
def ffvorbis_decode (total : Option Nat) (v : Dec) (x : Nat × Nat) : Dec × Option Chunk :=
  if x.2 = 0 then (v,none)
  else
    match v.seek_sample with
    | some seek =>
      let seek := max seek v.cursample
      let skip := min (seek - v.cursample) x.2
      let v := {v with cursample := v.cursample + skip, seek_sample := some seek}
      if v.cursample ≠ seek ∨ x.2 = skip then (v,none)
      else data total {v with seek_sample := none} (x.1 + skip) (x.2 - skip)
    | none => data total v x.1 x.2

/-- `audio.seek` is unset by the filter that gets the data, if there is any. -/
def seen : Dec × Option Chunk → Dec × Option Chunk
  | (v,some k) => (if k.len ≠ 0 then {v with seek := none} else v,some k)
  | (v,none) => (v,none)

/-- The seek target and the position of the page, taken over from the track. -/
def place (v : Dec) (page : Nat) : Dec :=
  let v := if v.seek.isSome then {v with seek_sample := v.seek} else v
  if v.pagepos ≠ page then {v with cursample := page, pagepos := page} else v

/-- `vorbis_in_decode()` of a packet. -/
def vorbis_in_decode (total : Option Nat) (v : Dec) (z : Packet) : Dec × Option Chunk :=
  seen (ffvorbis_decode total (place v z.page) z.run)

/-- What is passed on after a request to seek to sample `s`, from page `q` on. -/
def decode (total : Option Nat) (v : Dec) (s q : Nat) (zs : List (Bool × Nat)) : List Chunk :=
  play (vorbis_in_decode total) {v with seek := some s} (packets q q zs)

variable {total : Option Nat} {v : Dec} {s e p n page : Nat}

/-- The end of what is passed on: the total, or the end of what there is. -/
def Stop (total : Option Nat) (e last : Nat) : Prop := total = some e ∨ total = none ∧ last ≤ e

theorem cut_eq {r cursample : Nat} (h : Stop total e (cursample + r)) (he : e < 2 ^ 63)
    (hlt : cursample + r < 2 ^ 63) :
    cut total cursample r = if cursample ≤ e then min r (e - cursample) else r := by
  unfold cut
  rcases h with rfl | ⟨rfl,h⟩ <;> dsimp only <;> split <;> omega

theorem decode_seek (hn : n ≠ 0) (hseek : v.seek_sample = some s) : ffvorbis_decode total v (p,n) =
    if v.cursample + n ≤ s then ({v with cursample := v.cursample + n},none)
    else data total {v with cursample := max s v.cursample, seek_sample := none} (p + (s - v.cursample))
      (n - (s - v.cursample)) := by
  unfold ffvorbis_decode
  dsimp only
  rw [if_neg hn,hseek]
  dsimp only
  by_cases hall : v.cursample + n ≤ s
  · rw [if_pos hall,if_pos (by omega),show max s v.cursample = s by omega,
      show min (s - v.cursample) n = n by omega]
  · rw [if_neg hall,if_neg (by omega),show min (max s v.cursample - v.cursample) n = s - v.cursample by omega,
      show v.cursample + (s - v.cursample) = max s v.cursample by omega]

theorem decode_on (hn : n ≠ 0) (hseek : v.seek_sample = none) :
    ffvorbis_decode total v (p,n) = data total v p n := by
  unfold ffvorbis_decode
  rw [if_neg hn,hseek]

/-! ## From a right position -/

/-- The position of the next packet is known, or the end was reached on the page. -/
def Placed (e : Nat) (v : Dec) (page p : Nat) : Prop :=
  v.cursample = p ∧ (p ≤ e ∨ e < page) ∨ v.cursample = e ∧ e ≤ p ∧ page ≤ e

/-- The target is still to be reached, or was. -/
def Seeking (s : Nat) (v : Dec) (p : Nat) : Prop :=
  v.seek = some s ∨ v.seek = none ∧ v.seek_sample = none ∧ s ≤ p

def Inv (s e : Nat) (v : Dec) (page p : Nat) : Prop :=
  (v.pagepos = page ∧ Placed e v page p ∨ v.pagepos ≠ page ∧ page = p) ∧ page ≤ p ∧ Seeking s v p

theorem place_inv {page' : Nat} (hpage : page' = page ∨ page' = p) (h : Inv s e v page p) :
    (place v page').pagepos = page' ∧ Placed e (place v page') page' p ∧ page' ≤ p ∧
      ((place v page').seek = some s ∧ (place v page').seek_sample = some s ∨
        (place v page').seek = none ∧ (place v page').seek_sample = none ∧ s ≤ p) := by
  obtain ⟨hold,hle,hseek⟩ := h
  have hle' : page' ≤ p := by
    rcases hpage with rfl | rfl
    · exact hle
    · exact Nat.le_refl _
  by_cases hsame : v.pagepos = page'
  · have hat : Placed e v page' p := by
      rcases hold with ⟨hp,hat⟩ | ⟨hp,hq⟩
      · rwa [← hsame,hp]
      · rcases hpage with rfl | rfl
        · exact absurd hsame hp
        · exact absurd (hsame.trans hq.symm) hp
    rcases hseek with hs | ⟨hs,hs',hsp⟩
    · have heq : place v page' = {v with seek_sample := some s} := by simp [place,hs,hsame]
      rw [heq]
      exact ⟨hsame,hat,hle',.inl ⟨hs,rfl⟩⟩
    · have heq : place v page' = v := by simp [place,hs,hsame]
      rw [heq]
      exact ⟨hsame,hat,hle',.inr ⟨hs,hs',hsp⟩⟩
  · have hp : page' = p := by
      rcases hpage with rfl | hp
      · rcases hold with ⟨hp,-⟩ | ⟨-,hq⟩
        · exact absurd hp hsame
        · exact hq
      · exact hp
    rcases hseek with hs | ⟨hs,hs',hsp⟩
    · have heq : place v page' = ⟨page',page',some s,some s⟩ := by simp [place,hs,hsame]
      rw [heq]
      exact ⟨rfl,.inl ⟨hp,by omega⟩,hle',.inl ⟨rfl,rfl⟩⟩
    · have heq : place v page' = ⟨page',page',none,none⟩ := by simp [place,hs,hs',hsame]
      rw [heq]
      exact ⟨rfl,.inl ⟨hp,by omega⟩,hle',.inr ⟨rfl,rfl,hsp⟩⟩

/-- What is passed on of a packet. -/
def passed (s e : Nat) (z : Packet) : List Nat :=
  if z.page ≤ e then clip s e z.run else List.range' z.run.1 z.run.2

theorem data_seen (first : Nat) {r : Nat} (hstop : Stop total e (v.cursample + r)) (he : e < 2 ^ 63)
    (hlt : v.cursample + r < 2 ^ 63) :
    ∃ w k, seen (data total v first r) = (w,some ⟨v.cursample,first,k⟩) ∧
      k = (if v.cursample ≤ e then min r (e - v.cursample) else r) ∧ w.cursample = v.cursample + k ∧
      w.pagepos = v.pagepos ∧ w.seek_sample = v.seek_sample ∧ w.seek = if k ≠ 0 then none else v.seek := by
  refine ⟨_,_,rfl,cut_eq hstop he hlt,?_,?_,?_,?_⟩
  all_goals
    dsimp only
    split <;> rfl

theorem step_inv {page' : Nat} (hs : s < e) (he : e < 2 ^ 63) (hlast : p + n < 2 ^ 63)
    (hstop : Stop total e (p + n)) (hpage : page' = page ∨ page' = p) (h : Inv s e v page p) :
    (vorbis_in_decode total v ⟨page',(p,n)⟩).2.elim [] Chunk.samples = passed s e ⟨page',(p,n)⟩ ∧
      (∀ k, (vorbis_in_decode total v ⟨page',(p,n)⟩).2 = some k → k.len ≠ 0 → k.first = 0 + k.pos) ∧
      Inv s e (vorbis_in_decode total v ⟨page',(p,n)⟩).1 page' (p + n) := by
  obtain ⟨hp,hat,hle,hseek⟩ := place_inv hpage h
  unfold vorbis_in_decode
  dsimp only
  generalize place v page' = w at hp hat hseek
  by_cases hn : n = 0
  · have hdec : ffvorbis_decode total w (p,n) = (w,none) := by
      unfold ffvorbis_decode
      rw [if_pos hn]
    rw [hdec,hn]
    refine ⟨?_,nofun,.inl ⟨hp,hat⟩,hle,hseek.imp_left And.left⟩
    dsimp only [seen,Option.elim_none,passed]
    rw [clip_nil (by dsimp only; omega),List.range'_zero,ite_self]
  · -- what is passed on from sample `a` of the packet on
    have hdata (w' : Dec) {a : Nat} (hp' : w'.pagepos = page') (hsample : w'.seek_sample = none)
        (ha : a = max s p) (han : a < p + n) (hseek' : w'.seek = some s ∨ w'.seek = none)
        (hat' : w'.cursample = a ∧ (a ≤ e ∨ e < page') ∨ w'.cursample = e ∧ e ≤ p ∧ page' ≤ e) :
        (seen (data total w' a (p + n - a))).2.elim [] Chunk.samples = passed s e ⟨page',(p,n)⟩ ∧
          (∀ k, (seen (data total w' a (p + n - a))).2 = some k → k.len ≠ 0 → k.first = 0 + k.pos) ∧
          Inv s e (seen (data total w' a (p + n - a))).1 page' (p + n) := by
      have hstop' : Stop total e (w'.cursample + (p + n - a)) := by
        rcases hstop with hstop | ⟨hstop,hend⟩
        · exact .inl hstop
        · exact .inr ⟨hstop,by omega⟩
      obtain ⟨u,k,hu,hk,hcur,hpage',hsample',hseek''⟩ := data_seen a hstop' he (by omega)
      rw [hu]
      refine ⟨?_,?_,.inl ⟨hpage'.trans hp',?_⟩,by omega,?_⟩
      · dsimp only [Option.elim_some,Chunk.samples,passed,clip]
        rw [hk,show max p s = a by omega]
        by_cases hpe : page' ≤ e
        · rw [if_pos hpe,range'_inj]
          split <;> omega
        · rw [if_neg hpe,show a = p by omega,range'_inj]
          split <;> omega
      · intro c hc
        cases hc
        dsimp only
        rw [hk]
        split <;> omega
      · unfold Placed
        rw [hcur,hk]
        split <;> omega
      · unfold Seeking
        rw [hseek'',hsample',hsample]
        by_cases hk0 : k = 0
        · rw [if_neg (not_not.mpr hk0)]
          exact hseek'.imp_right fun h => ⟨h,rfl,by omega⟩
        · exact .inr ⟨if_pos hk0,rfl,by omega⟩
    rcases hseek with ⟨hw,hw'⟩ | ⟨hw,hw',hsp⟩
    · rw [decode_seek hn hw']
      by_cases hall : w.cursample + n ≤ s
      · rw [if_pos hall]
        refine ⟨?_,nofun,.inl ⟨hp,?_⟩,by omega,.inl hw⟩
        · dsimp only [seen,Option.elim_none,passed]
          unfold Placed at hat
          rw [clip_nil (by dsimp only; omega),if_pos (by omega)]
        · unfold Placed at hat ⊢
          dsimp only [seen]
          omega
      · unfold Placed at hat
        rw [if_neg hall,show p + (s - w.cursample) = max s p by omega,
          show n - (s - w.cursample) = p + n - max s p by omega]
        exact hdata _ hp rfl rfl (by omega) (.inl hw) (by dsimp only; omega)
    · unfold Placed at hat
      have h := hdata w hp hw' rfl (by omega) (.inr hw) (by omega)
      rw [decode_on hn hw']
      rwa [show max s p = p by omega,Nat.add_sub_cancel_left] at h

/-- The samples from the target to the end are passed on, and their positions are reported. -/
def Right (s e : Nat) (x : Nat × Nat) (cs : List Chunk) : Prop :=
  cs.flatMap Chunk.samples = clip s e x ∧ cs.flatMap Chunk.positions = clip s e x

/-- No samples are on a page that starts behind the end. -/
def Within (e : Nat) (zs : List Packet) : Prop := ∀ z ∈ zs, z.run.2 ≠ 0 → z.page ≤ e

theorem Stop.mono {last : Nat} (h : Stop total e last) (hle : n ≤ last) : Stop total e n :=
  h.imp_right fun h => ⟨h.1,by omega⟩

theorem right_iff {zs : List (Bool × Nat)} (hs : s < e) (he : e < 2 ^ 63)
    (hlast : p + (zs.map Prod.snd).sum < 2 ^ 63) (hstop : Stop total e (p + (zs.map Prod.snd).sum))
    (h : Inv s e v page p) :
    Right s e (p,(zs.map Prod.snd).sum) (play (vorbis_in_decode total) v (packets page p zs)) ↔
      Within e (packets page p zs) := by
  have hstep : ∀ v page' z, z ∈ packets page p zs → z.page = page' ∨ z.page = z.run.1 →
      Inv s e v page' z.run.1 → (vorbis_in_decode total v z).2.elim [] Chunk.samples = passed s e z ∧
        (∀ k, (vorbis_in_decode total v z).2 = some k → k.len ≠ 0 → k.first = 0 + k.pos) ∧
        Inv s e (vorbis_in_decode total v z).1 z.page (z.run.1 + z.run.2) := by
    intro v page' z hz hpage h
    have hmem := le_of_mem_runs (run_mem hz)
    exact step_inv hs he (Nat.lt_of_le_of_lt hmem.2 hlast) (hstop.mono hmem.2) hpage h
  obtain ⟨hsamples,hpos⟩ := play_packets hstep h
  have heq := map_positions hpos
  simp only [Nat.zero_add,List.map_id'] at heq
  rw [Right,heq,and_self,hsamples]
  constructor
  · intro hclip z hz hn
    by_contra hpage
    have hmem : z.run.1 ∈ (packets page p zs).flatMap (passed s e) := by
      refine List.mem_flatMap.mpr ⟨z,hz,?_⟩
      rw [passed,if_neg hpage,List.mem_range'_1]
      omega
    rw [hclip,mem_clip] at hmem
    have := page_le h.2.1 hz
    omega
  · intro hwithin
    rw [← flatMap_clip,← map_run page p zs,List.flatMap_map]
    refine List.flatMap_congr fun z hz => ?_
    by_cases hpage : z.page ≤ e
    · exact if_pos hpage
    · have hn : z.run.2 = 0 := by
        by_contra hn
        exact hpage (hwithin z hz hn)
      rw [passed,if_neg hpage,hn,clip_nil (by omega)]
      rfl

/-! ## From a position of the same page -/

/-- The samples of the packets that come before another page. -/
def onpage (page p : Nat) : List (Bool × Nat) → Nat
  | [] => 0
  | (start,n) :: zs => if start ∧ p ≠ page then 0 else n + onpage page (p + n) zs

theorem le_of_mem_play {zs : List (Bool × Nat)} {i : Nat}
    (h : i ∈ (play (vorbis_in_decode total) v (packets page p zs)).flatMap Chunk.samples) : p ≤ i := by
  induction zs generalizing v page p with
  | nil => cases h
  | cons z zs ih =>
    obtain ⟨start,n⟩ := z
    rw [packets,play,List.flatMap_append,List.mem_append] at h
    rcases h with h | h
    · have hfirst {w : Dec} {first r : Nat} {k : Chunk} (hle : p ≤ first)
          (hk : (seen (data total w first r)).2 = some k) (hi : i ∈ k.samples) : p ≤ i := by
        cases hk
        rw [Chunk.samples,List.mem_range'_1] at hi
        exact Nat.le_trans hle hi.1
      obtain ⟨k,hk,hi⟩ := List.mem_flatMap.mp h
      rw [Option.mem_toList] at hk
      unfold vorbis_in_decode at hk
      dsimp only at hk
      generalize place v _ = w at hk
      by_cases hn : n = 0
      · unfold ffvorbis_decode at hk
        rw [if_pos hn] at hk
        cases hk
      · cases hw : w.seek_sample with
        | none =>
          rw [decode_on hn hw] at hk
          exact hfirst (Nat.le_refl _) hk hi
        | some t =>
          rw [decode_seek hn hw] at hk
          split at hk
          · cases hk
          · exact hfirst (by omega) hk hi
    · have := ih h
      omega

/-- The packets of the page are skipped, counted from sample `k`, or the end seems to be reached. -/
def Skipped (total : Option Nat) (s e k p onpage : Nat) : Prop :=
  p + onpage ≤ s ∧ (k + onpage ≤ s ∨ total = some e ∧ k = e)

theorem clip_behind {m : Nat} (h : p + n ≤ s) : clip s e (p,n + m) = clip s e (p + n,m) := by
  rw [← clip_append,clip_nil (by dsimp only; omega),List.nil_append]

theorem right_cons {c : Option Chunk} {cs : List Chunk} {m : Nat} (hc : ∀ k, c = some k → k.len = 0)
    (h : p + n ≤ s) : Right s e (p,n + m) (c.toList ++ cs) ↔ Right s e (p + n,m) cs := by
  have hnil {g : Chunk → List Nat} (hg : ∀ k, k.len = 0 → g k = []) :
      (c.toList ++ cs).flatMap g = cs.flatMap g := by
    cases c with
    | none => rfl
    | some k => simp [hg k (hc k rfl)]
  rw [Right,Right,hnil (fun k hk => by rw [Chunk.samples,hk]; rfl),
    hnil (fun k hk => by rw [Chunk.positions,hk]; rfl),clip_behind h]

theorem not_right {c : Option Chunk} {zs : List (Bool × Nat)} (hc : ∀ k, c = some k → k.len = 0)
    (hs : max s p < e) (h : max s p < p + n) : ¬Right s e (p,n + (zs.map Prod.snd).sum)
      (c.toList ++ play (vorbis_in_decode total) v (packets page (p + n) zs)) := by
  intro hright
  have hmem : max s p ∈ clip s e (p,n + (zs.map Prod.snd).sum) := by
    rw [mem_clip]
    dsimp only
    omega
  rw [← hright.1,List.flatMap_append,List.mem_append] at hmem
  rcases hmem with hmem | hmem
  · obtain ⟨k,hk,hi⟩ := List.mem_flatMap.mp hmem
    rw [Chunk.samples,hc k (Option.mem_toList.mp hk)] at hi
    cases hi
  · have := le_of_mem_play hmem
    omega

/-- The first sample is not at the position that is reported for it. -/
theorem not_right_of_ne {x : Nat × Nat} {k : Chunk} {cs : List Chunk} (hlen : k.len ≠ 0)
    (hne : k.first ≠ k.pos) : ¬Right s e x (k :: cs) := by
  intro hright
  obtain ⟨m,hm⟩ := Nat.exists_eq_succ_of_ne_zero hlen
  have heq := hright.1.trans hright.2.symm
  simp only [List.flatMap_cons,Chunk.samples,Chunk.positions,hm,List.range'_succ,List.cons_append] at heq
  exact hne (List.cons.inj heq).1

theorem within_cons {start : Bool} {zs : List (Bool × Nat)} (hpage : (if start then p else page) ≤ e) :
    Within e (packets page p ((start,n) :: zs)) ↔
      Within e (packets (if start then p else page) (p + n) zs) := by
  rw [Within,packets,List.forall_mem_cons]
  exact and_iff_right fun _ => hpage

theorem stale_iff {zs : List (Bool × Nat)} {k : Nat} (hs : s < e) (he : e < 2 ^ 63)
    (hlast : k + (zs.map Prod.snd).sum < 2 ^ 63 ∧ p + (zs.map Prod.snd).sum < 2 ^ 63)
    (hstop : Stop total e (p + (zs.map Prod.snd).sum))
    (hend : e ≤ p + (zs.map Prod.snd).sum) (hp : p < e) (hle : page ≤ p) (hk : k ≠ p)
    (hseek : v.seek = some s) (hpage : v.pagepos = page) (hcur : v.cursample = k)
    (hskip : p = page ∨ Skipped total s e k p 0) :
    Right s e (p,(zs.map Prod.snd).sum) (play (vorbis_in_decode total) v (packets page p zs)) ↔
      Skipped total s e k p (onpage page p zs) ∧ Within e (packets page p zs) := by
  induction zs generalizing v p k with
  | nil => exact absurd hend (by simpa using hp)
  | cons z zs ih =>
    obtain ⟨start,n⟩ := z
    by_cases hnew : start = true ∧ p ≠ page
    · -- another page
      have hpackets : packets page p ((start,n) :: zs) = packets p p ((start,n) :: zs) := by
        simp [packets,hnew.1]
      rw [onpage,if_pos hnew,and_iff_right (hskip.resolve_left hnew.2),hpackets]
      exact right_iff hs he (by omega) hstop
        ⟨.inr ⟨fun h => hnew.2 (h.symm.trans hpage),rfl⟩,Nat.le_refl _,.inl hseek⟩
    have hsame : (if start then p else page) = page := by
      cases start with
      | true => exact not_not.mp fun h => hnew ⟨rfl,h⟩
      | false => rfl
    rw [onpage,if_neg hnew,within_cons (by omega),hsame,packets,play,hsame]
    simp only [List.map_cons,List.sum_cons] at hlast hstop hend ⊢
    have hplace : place v page = {v with seek_sample := some s} := by simp [place,hseek,hpage]
    have hstep : vorbis_in_decode total v ⟨page,(p,n)⟩ =
        seen (ffvorbis_decode total {v with seek_sample := some s} (p,n)) := by
      unfold vorbis_in_decode
      rw [hplace]
    rw [hstep]
    by_cases hn : n = 0
    · subst hn
      have hdec : ffvorbis_decode total {v with seek_sample := some s} (p,0) =
          ({v with seek_sample := some s},none) := by
        unfold ffvorbis_decode
        rw [if_pos rfl]
      rw [hdec,Nat.zero_add,Nat.zero_add,Nat.add_zero]
      exact ih (by omega) (by simpa using hstop) (by omega) hp hle hk hseek hpage hcur hskip
    rw [decode_seek hn rfl]
    dsimp only
    rw [hcur]
    -- where nothing is passed on, the packet has to lie before the target
    have hnext {w : Dec} {c : Option Chunk} {j : Nat} (hc : ∀ k, c = some k → k.len = 0)
        (hj : p + n ≤ s → j ≠ p + n ∧ j + (zs.map Prod.snd).sum < 2 ^ 63 ∧
          (j ≤ s ∨ total = some e ∧ j = e)) (hw : w.seek = some s) (hwpage : w.pagepos = page)
        (hwcur : w.cursample = j)
        (hskip' : ∀ m, Skipped total s e j (p + n) m ↔ Skipped total s e k p (n + m)) :
        Right s e (p,n + (zs.map Prod.snd).sum)
            (c.toList ++ play (vorbis_in_decode total) w (packets page (p + n) zs)) ↔
          Skipped total s e k p (n + onpage page (p + n) zs) ∧ Within e (packets page (p + n) zs) := by
      by_cases hbefore : p + n ≤ s
      · obtain ⟨hne,hlt,hj⟩ := hj hbefore
        rw [right_cons hc hbefore,← hskip']
        exact ih ⟨hlt,by omega⟩ (by rwa [Nat.add_assoc]) (by omega) (by omega) (by omega) hne hw hwpage hwcur
          (.inr ⟨hbefore,hj⟩)
      · refine iff_of_false (not_right hc (by omega) (by omega)) fun h => ?_
        have := h.1.1
        omega
    by_cases hall : k + n ≤ s
    · rw [if_pos hall]
      refine hnext (j := k + n) (fun c hc => by cases hc) ?_ hseek hpage rfl ?_
      · omega
      · intro m
        have hne : k + n ≠ e := by omega
        have hne' : k ≠ e := by omega
        simp only [Skipped,hne,hne',and_false,or_false,Nat.add_assoc]
    · rw [if_neg hall]
      by_cases hstale : total = some e ∧ k = e
      · obtain ⟨htotal,rfl⟩ := hstale
        obtain ⟨w,r,hdata,hr,hwcur,hwpage,-,hwseek⟩ := data_seen (p + (s - k))
          (v := {v with cursample := max s k, seek_sample := none}) (r := n - (s - k)) (e := k) (.inl htotal) he
          (by dsimp only; omega)
        dsimp only at hdata hr hwcur hwpage hwseek
        have hr0 : r = 0 := by
          rw [hr]
          split <;> omega
        rw [hdata]
        refine hnext (w := w) (j := k) ?_ ?_ ?_ (hwpage.trans hpage) (by omega) ?_
        · intro c hc
          cases hc
          exact hr0
        · exact fun hbefore => ⟨by omega,by omega,.inr ⟨htotal,rfl⟩⟩
        · rw [hwseek,if_neg (not_not.mpr hr0),hseek]
        · intro m
          simp only [Skipped,htotal,and_self,or_true,and_true,Nat.add_assoc]
      · have hlen : cut total (max s k) (n - (s - k)) ≠ 0 := by
          rcases hstop with htotal | ⟨htotal,-⟩
          · rw [cut_eq (.inl htotal) he (by omega)]
            have hne : k ≠ e := fun h => hstale ⟨htotal,h⟩
            split <;> omega
          · rw [htotal]
            dsimp only [cut]
            omega
        refine iff_of_false (not_right_of_ne (k := ⟨max s k,p + (s - k),_⟩) hlen ?_) ?_
        · dsimp only
          omega
        · rintro ⟨⟨-,h | h⟩,-⟩
          · omega
          · exact hstale h

/-- After a seek request, the samples from the target or the start of the page on up to the end are passed on,
with their positions, if and only if no samples are on a page behind the end, and the page that was found is
not the current one, or its start is the current position, or it is skipped all the same. -/
theorem vorbis_decode_iff {zs : List (Bool × Nat)} {q : Nat} (hs : s < e) (hq : q < e)
    (hstop : total = some e ∨ total = none ∧ e = q + (zs.map Prod.snd).sum)
    (hend : e ≤ q + (zs.map Prod.snd).sum)
    (hlast : v.cursample + (zs.map Prod.snd).sum < 2 ^ 63) (hlast' : q + (zs.map Prod.snd).sum < 2 ^ 63) :
    Right s e (q,(zs.map Prod.snd).sum) (decode total v s q zs) ↔
      (q ≠ v.pagepos ∨ v.cursample = q ∨ Skipped total s e v.cursample q (onpage q q zs)) ∧
        Within e (packets q q zs) := by
  have hstop' : Stop total e (q + (zs.map Prod.snd).sum) := hstop.imp_right fun h => ⟨h.1,by omega⟩
  by_cases hpage : q = v.pagepos
  · by_cases hcur : v.cursample = q
    · rw [and_iff_right (.inr (.inl hcur))]
      exact right_iff hs (by omega) (by omega) hstop'
        ⟨.inl ⟨hpage.symm,.inl ⟨hcur,.inl (by omega)⟩⟩,Nat.le_refl _,.inl rfl⟩
    · rw [show (q ≠ v.pagepos ∨ v.cursample = q ∨ Skipped total s e v.cursample q (onpage q q zs)) ↔
        Skipped total s e v.cursample q (onpage q q zs) by simp [hpage] at hcur ⊢; simp [hcur]]
      exact stale_iff hs (by omega) ⟨hlast,hlast'⟩ hstop' hend hq (Nat.le_refl _) hcur rfl hpage.symm rfl (.inl rfl)
  · rw [and_iff_right (.inl hpage)]
    exact right_iff hs (by omega) (by omega) hstop'
      ⟨.inr ⟨fun h => hpage h.symm,rfl⟩,Nat.le_refl _,.inl rfl⟩

theorem decode_found :
    Right 4 12 (0,12) (decode (some 12) ⟨7,6,none,none⟩ 4 0 [(true,3),(false,3),(true,6)]) ↔
      (0 ≠ 6 ∨ 7 = 0 ∨ Skipped (some 12) 4 12 7 0 (onpage 0 0 [(true,3),(false,3),(true,6)])) ∧
        Within 12 (packets 0 0 [(true,3),(false,3),(true,6)]) :=
  vorbis_decode_iff (v := ⟨7,6,none,none⟩) (by decide) (by decide)
    (.inl rfl) (by decide) (by decide) (by decide)

/-- The page that was found is the current one: counting goes on from the current sample. -/
theorem same_page_stale :
    ¬Right 2 12 (0,12) (decode (some 12) ⟨6,0,none,none⟩ 2 0 [(true,3),(false,3),(false,6)]) := by
  have hdecode : decode (some 12) ⟨6,0,none,none⟩ 2 0 [(true,3),(false,3),(false,6)] =
      [⟨6,0,3⟩,⟨9,3,3⟩,⟨12,6,0⟩] := by
    simp [decode,packets,play,vorbis_in_decode,place,ffvorbis_decode,data,cut,seen]
  rintro ⟨-,h⟩
  rw [hdecode] at h
  exact absurd h (by decide)

end Phiola.VorbisDec
