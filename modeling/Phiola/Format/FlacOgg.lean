import Phiola.Acodec.Blocks

/-!
# FLAC in Ogg

The packets of `ogg_decode()` go through `flacogg_in_read()` to `flac_dec_decode()`. A packet has a FLAC frame,
and `audio.pos` is the start of the page that it begins on.
-/

namespace Phiola.FlacOgg

open Runs Blocks

/-- `audio` of the track; `seek` is in samples, and `-1` is `none`. -/
structure Track where
  seek_req : Bool
  seek : Option Nat
  pos : Nat

/-- `struct flacogg_r` -/
structure Flacogg where
  apos : Nat
  page_start_pos : Nat

/-- `ogg_decode()` of a packet; a request to seek is done by then. -/
def ogg_decode (t : Track) (page : Nat) : Track :=
  {t with seek_req := t.seek_req && t.seek.isNone, pos := page}

/-- `flacogg_in_read()` of a frame of `fr_samples` samples. -/
def flacogg_in_read (fr_samples : Nat) (f : Flacogg) (t : Track) : Flacogg × Track × Bool :=
  let f : Flacogg := if f.page_start_pos ≠ t.pos then ⟨t.pos,t.pos⟩ else f
  let next : Flacogg := {f with apos := (f.apos + fr_samples) % 2 ^ 64}
  match if t.seek_req then t.seek else none with
  | some seek =>
    if (f.apos + fr_samples) % 2 ^ 64 ≤ seek then (next,t,false)
    else (next,{t with seek_req := false, pos := f.apos},true)
  | none => (next,{t with pos := f.apos},true)

/-- `flac_dec_decode()` of the frame at sample `p`. -/
def flac_dec_decode (fr_samples p : Nat) (t : Track) : Track × Chunk :=
  let k := cut_start (· % 2 ^ 64) t.seek (t.pos,fr_samples)
  ({t with pos := k.pos, seek := seen t.seek k},⟨k.pos,p + (k.first - t.pos),k.len⟩)

/-- The chain, for a packet. -/
def chain (fr_samples : Nat) (s : Flacogg × Track) (z : Packet) : (Flacogg × Track) × Option Chunk :=
  let (f,t,ok) := flacogg_in_read fr_samples s.1 (ogg_decode s.2 z.page)
  if ok then
    let (t,c) := flac_dec_decode fr_samples z.run.1 t
    ((f,t),some c)
  else ((f,t),none)

/-- What is passed on of frames from the start of the page at sample `q` on. -/
def decode (fr_samples : Nat) (f : Flacogg) (t : Track) (q : Nat) (zs : List (Bool × Nat)) : List Chunk :=
  play (chain fr_samples) (f,t) (packets q q zs)

variable {s q p b fr page : Nat} {f : Flacogg} {t : Track} {z : Packet} {zs : List (Bool × Nat)}

/-! ## A packet -/

/-- The position that is counted for a packet. -/
def counted (f : Flacogg) (page : Nat) : Nat := if f.page_start_pos ≠ page then page else f.apos

theorem read_eq : flacogg_in_read fr f (ogg_decode t page) =
    (⟨(counted f page + fr) % 2 ^ 64,page⟩,{ogg_decode t page with pos := counted f page},true) := by
  obtain ⟨apos,start⟩ := f
  simp only [flacogg_in_read,counted,ogg_decode]
  by_cases hpage : start = page
  · subst hpage
    rcases t with ⟨_ | _,_ | _,_⟩ <;> simp
  · rcases t with ⟨_ | _,_ | _,_⟩ <;> simp [hpage]

/-- The chunk of a packet, cut by the decoder. -/
def chunk (fr : Nat) (f : Flacogg) (t : Track) (z : Packet) : Chunk :=
  let k := cut_start (· % 2 ^ 64) t.seek (counted f z.page,fr)
  ⟨k.pos,z.run.1 + (k.first - counted f z.page),k.len⟩

theorem chain_eq (fr : Nat) (f : Flacogg) (t : Track) (z : Packet) :
    (chain fr (f,t) z).2 = some (chunk fr f t z) ∧
    (chain fr (f,t) z).1.1 = ⟨(counted f z.page + fr) % 2 ^ 64,z.page⟩ ∧
    (chain fr (f,t) z).1.2.seek =
      seen t.seek (cut_start (· % 2 ^ 64) t.seek (counted f z.page,fr)) := by
  simp only [chain,read_eq]
  exact ⟨rfl,rfl,rfl⟩

theorem cut_end {wrap : Nat → Nat} (seek : Option Nat) {n : Nat} (hn : 0 < n) (hle : ∀ i, wrap i ≤ i)
    (hp : wrap p = p) :
    (cut_start wrap seek (p,n)).len ≠ 0 ∧ p ≤ (cut_start wrap seek (p,n)).first ∧
      (cut_start wrap seek (p,n)).first + (cut_start wrap seek (p,n)).len = p + n := by
  cases seek with
  | none => exact ⟨Nat.pos_iff_ne_zero.mp hn,Nat.le_refl _,rfl⟩
  | some s =>
    have := hle (p + n)
    simp only [cut_start,hp]
    split
    · dsimp only
      omega
    · exact ⟨Nat.pos_iff_ne_zero.mp hn,Nat.le_refl _,rfl⟩

theorem chunk_end (hfr : 0 < fr) (hpos : counted f z.page < 2 ^ 64) :
    (chunk fr f t z).len ≠ 0 ∧ (chunk fr f t z).first + (chunk fr f t z).len = z.run.1 + fr := by
  obtain ⟨hlen,hle,hend⟩ := cut_end t.seek hfr (fun i => Nat.mod_le i (2 ^ 64))
    (Nat.mod_eq_of_lt hpos)
  refine ⟨hlen,?_⟩
  dsimp only [chunk]
  omega

theorem counted_lt (hapos : f.apos < 2 ^ 64) (hpage : page < 2 ^ 64) : counted f page < 2 ^ 64 := by
  rw [counted]
  split <;> assumption

/-- Every packet is passed on up to the end of a frame of the usual length. -/
theorem chunk_mem (hfr : 0 < fr) {zs : List Packet} (hpages : ∀ z ∈ zs, z.page < 2 ^ 64) {x : Flacogg × Track}
    (hapos : x.1.apos < 2 ^ 64) (hz : z ∈ zs) :
    ∃ c ∈ play (chain fr) x zs, c.len ≠ 0 ∧ c.first + c.len = z.run.1 + fr := by
  induction zs generalizing x with
  | nil => cases hz
  | cons y ys ih =>
    obtain ⟨f,t⟩ := x
    obtain ⟨hout,hf,-⟩ := chain_eq fr f t y
    have hpos := counted_lt hapos (hpages y (List.mem_cons_self ..))
    rw [play,hout]
    rcases List.mem_cons.mp hz with rfl | hz
    · exact ⟨_,List.mem_cons_self ..,chunk_end hfr hpos⟩
    · obtain ⟨c,hc,hend⟩ := ih (fun z hz => hpages z (List.mem_cons_of_mem _ hz))
        (by rw [hf]; exact Nat.mod_lt _ (by decide)) hz
      exact ⟨c,List.mem_cons_of_mem _ hc,hend⟩

/-! ## Frames of one length -/

theorem decode_rest (hs : s ≤ p) (hzs : ∀ z ∈ zs, z.2 = fr) (hb : p + (zs.map Prod.snd).sum ≤ b)
    (hlast : b < 2 ^ 64) (hseek : t.seek = none) (hapos : f.apos = p) (hpage : f.page_start_pos = page) :
    Right s b p (zs.map Prod.snd) (play (chain fr) (f,t) (packets page p zs)) := by
  induction zs generalizing p page f t with
  | nil => exact right_nil
  | cons z zs ih =>
    obtain ⟨start,n⟩ := z
    obtain rfl : n = fr := hzs _ (List.mem_cons_self ..)
    rw [List.map_cons,List.sum_cons] at hb
    set y : Packet := ⟨if start then p else page,(p,n)⟩
    have hcount : counted f y.page = p := by
      rw [counted,hpage,hapos]
      by_cases hstart : start
      · exact ite_eq_right_iff.mpr fun _ => if_pos hstart
      · exact if_neg (not_not.mpr (if_neg hstart).symm)
    obtain ⟨hout,hf,ht⟩ := chain_eq n f t y
    rw [hcount] at hf ht
    rw [hseek,seen_none] at ht
    have hchunk : chunk n f t y = ⟨p % 2 ^ 64,p,n⟩ := by
      simp only [chunk,hcount,hseek,cut_start,Nat.sub_self,Nat.add_zero]
      rfl
    rw [packets,play,hout,hchunk,List.map_cons]
    refine right_some (clip_all (n := n) hs (by omega)).symm (fun _ => ?_)
      (ih (by omega) (fun z hz => hzs z (List.mem_cons_of_mem _ hz)) (by omega) ht ?_ ?_)
    · exact Nat.mod_eq_of_lt (by omega)
    · rw [hf]
      exact Nat.mod_eq_of_lt (by omega)
    · rw [hf]

/-- The frames from the page on: after them the last one, of `m` samples. -/
def frames (zs : List (Bool × Nat)) (start : Bool) (m : Nat) : List Nat := (zs ++ [(start,m)]).map Prod.snd

section Last
variable {start : Bool} {m : Nat}

theorem frames_sum : (frames zs start m).sum = (zs.map Prod.snd).sum + m := by
  simp [frames]

theorem last_mem_runs {ns : List Nat} : (p + ns.sum,m) ∈ runs p (ns ++ [m]) := by
  induction ns generalizing p with
  | nil => exact List.mem_singleton_self _
  | cons n ns ih =>
    rw [List.sum_cons,← Nat.add_assoc]
    exact List.mem_cons_of_mem _ ih

theorem packet_lt (hlast : q + (frames zs start m).sum < 2 ^ 64) :
    ∀ z ∈ packets q q (zs ++ [(start,m)]), z.page < 2 ^ 64 := by
  intro z hz
  have hle := page_le (Nat.le_refl q) hz
  have hrun := (le_of_mem_runs (run_mem hz)).2
  rw [show ((zs ++ [(start,m)]).map Prod.snd).sum = (frames zs start m).sum from rfl] at hrun
  omega

/-- A last frame that is shorter is passed on with samples that it does not have. -/
theorem last_full (hfr : 0 < fr) (hlast : q + (frames zs start m).sum < 2 ^ 64) (hapos : f.apos < 2 ^ 64)
    (h : Right s (q + (frames zs start m).sum) q (frames zs start m)
      (decode fr f t q (zs ++ [(start,m)]))) : fr ≤ m := by
  have hmem : (q + (zs.map Prod.snd).sum,m) ∈ (packets q q (zs ++ [(start,m)])).map Packet.run := by
    rw [map_run,List.map_append]
    exact last_mem_runs
  obtain ⟨z,hz,hrun⟩ := List.mem_map.mp hmem
  obtain ⟨c,hc,hlen,hend⟩ := chunk_mem (x := (f,t)) hfr (packet_lt hlast) hapos hz
  rw [hrun] at hend
  have hsample : c.first + (c.len - 1) ∈ c.samples := List.mem_range'_1.mpr ⟨by omega,by omega⟩
  have hin : c.first + (c.len - 1) ∈ (decode fr f t q (zs ++ [(start,m)])).flatMap Chunk.samples :=
    List.mem_flatMap.mpr ⟨c,hc,hsample⟩
  rw [h.1] at hin
  have := (mem_clip.mp hin).2.2
  rw [frames_sum] at this
  omega

end Last

/-! ## A request to seek -/

theorem cut_pos (seek : Option Nat) {n : Nat} (hp : p < 2 ^ 64) :
    (cut_start (· % 2 ^ 64) seek (p,n)).pos = (cut_start (· % 2 ^ 64) seek (p,n)).first := by
  have hmod : p % 2 ^ 64 = p := Nat.mod_eq_of_lt hp
  cases seek with
  | none => exact hmod
  | some s =>
    simp only [cut_start,hmod]
    split
    · dsimp only
      omega
    · rfl

theorem cut_reach {n : Nat} (hp : p < 2 ^ 64) (hn : 0 < n)
    (h : s ≤ (cut_start (· % 2 ^ 64) (some s) (p,n)).first) : s < p + n := by
  have hmod : p % 2 ^ 64 = p := Nat.mod_eq_of_lt hp
  simp only [cut_start,hmod] at h
  split at h <;> dsimp only at h <;> omega

theorem counted_iff : counted f q = q ↔ f.page_start_pos ≠ q ∨ f.apos = q := by
  rw [counted]
  split <;> simp_all

theorem first_frame {n : Nat} (hfr : 0 < fr) (hq : q < 2 ^ 64) (hapos : f.apos < 2 ^ 64)
    (hseek : t.seek = some s)
    (hpos : (chunk fr f t ⟨q,(q,n)⟩).pos = (chunk fr f t ⟨q,(q,n)⟩).first)
    (hle : s ≤ (chunk fr f t ⟨q,(q,n)⟩).first) :
    s < q + fr ∧ (f.page_start_pos ≠ q ∨ f.apos = q) := by
  have hlt := counted_lt (f := f) hapos hq
  have hcut := cut_pos (some s) (n := fr) hlt
  have hge := (cut_end (some s) hfr (fun i => Nat.mod_le i (2 ^ 64)) (Nat.mod_eq_of_lt hlt)).2.1
  simp only [chunk,hseek] at hpos hle
  have hcount : counted f q = q := by omega
  rw [hcount] at hle hlt hge
  exact ⟨cut_reach hlt hfr (by omega),counted_iff.mp hcount⟩

theorem seek_right (hfr : 0 < fr) (hzs : ∀ z ∈ zs, z.2 = fr) (hlast : q + (zs.map Prod.snd).sum < 2 ^ 64)
    (hq : q ≤ s) (hseek : t.seek = some s) (hs : s < q + fr) (hf : f.page_start_pos ≠ q ∨ f.apos = q) :
    Right s (q + (zs.map Prod.snd).sum) q (zs.map Prod.snd) (decode fr f t q zs) := by
  cases zs with
  | nil => exact right_nil
  | cons z zs =>
    obtain ⟨start,n⟩ := z
    obtain rfl : n = fr := hzs _ (List.mem_cons_self ..)
    rw [List.map_cons,List.sum_cons] at hlast ⊢
    dsimp only at hlast ⊢
    have hcount : counted f q = q := counted_iff.mpr hf
    have hcut : cut_start (· % 2 ^ 64) (some s) (q,n) = ⟨s,s,q + n - s⟩ :=
      cut_start_eq (· % 2 ^ 64) hq hs (Nat.mod_eq_of_lt (by omega)) (Nat.mod_eq_of_lt (by omega))
        fun _ => Nat.mod_eq_of_lt (by omega)
    obtain ⟨hout,hnext,ht⟩ := chain_eq n f t ⟨q,(q,n)⟩
    dsimp only at hnext ht
    rw [hcount] at hnext ht
    rw [hseek,hcut,seen_pos (by dsimp only; omega)] at ht
    have hchunk : chunk n f t ⟨q,(q,n)⟩ = ⟨s,s,q + n - s⟩ := by
      simp only [chunk,hcount,hseek,hcut,Nat.add_sub_cancel' hq]
    rw [decode,packets,ite_self,play,hout,hchunk]
    refine right_some (clip_start hq (by omega)).symm (fun _ => rfl)
      (decode_rest (by omega) (fun z hz => hzs z (List.mem_cons_of_mem _ hz)) (by omega) (by omega) ht ?_ ?_)
    · rw [hnext]
      exact Nat.mod_eq_of_lt (by omega)
    · rw [hnext]

/-! ## The whole stream -/

section Stream
variable {start : Bool} {m : Nat}

theorem mem_frames (hzs : ∀ z ∈ zs, z.2 = fr) : ∀ z ∈ zs ++ [(start,fr)], z.2 = fr := by
  intro z hz
  rcases List.mem_append.mp hz with hz | hz
  · exact hzs z hz
  · exact congrArg Prod.snd (List.mem_singleton.mp hz)

theorem head_chunk (hfr : 0 < fr) (hlast : q + (frames zs start m).sum < 2 ^ 64) (hapos : f.apos < 2 ^ 64)
    (hseek : t.seek = some s)
    (h : Right s (q + (frames zs start m).sum) q (frames zs start m) (decode fr f t q (zs ++ [(start,m)]))) :
    s < q + fr ∧ (f.page_start_pos ≠ q ∨ f.apos = q) := by
  obtain ⟨n,hmem⟩ : ∃ n, chunk fr f t ⟨q,(q,n)⟩ ∈ decode fr f t q (zs ++ [(start,m)]) := by
    cases zs with
    | nil =>
      refine ⟨m,?_⟩
      rw [decode,List.nil_append,packets,ite_self,play,(chain_eq ..).1]
      exact List.mem_cons_self ..
    | cons z zs =>
      refine ⟨z.2,?_⟩
      rw [decode,List.cons_append,packets,ite_self,play,(chain_eq ..).1]
      exact List.mem_cons_self ..
  have hq : q < 2 ^ 64 := by omega
  have hlen := (chunk_end (t := t) (z := ⟨q,(q,n)⟩) hfr (counted_lt (f := f) hapos hq)).1
  exact first_frame hfr hq hapos hseek (h.pos _ hmem hlen) (h.first hmem hlen).1

/-- After a request to seek the samples from the target on are passed on, at their positions, if and only if
the last frame is as long as the others, the target is in the first frame of the page, and the page is not
the last one that was seen, unless no frame of it was counted. Without a request only the last frame matters. -/
theorem flacogg_iff (fr m : Nat) (zs : List (Bool × Nat)) (start : Bool) (hm : 0 < m) (hle : m ≤ fr)
    (hzs : ∀ z ∈ zs, z.2 = fr) :
    (∀ (f : Flacogg) (pos q s : Nat), f.apos < 2 ^ 64 → q ≤ s → q + (frames zs start m).sum < 2 ^ 64 →
      (Right s (q + (frames zs start m).sum) q (frames zs start m)
          (decode fr f ⟨true,some s,pos⟩ q (zs ++ [(start,m)])) ↔
        m = fr ∧ s < q + fr ∧ (f.page_start_pos ≠ q ∨ f.apos = q))) ∧
    ((frames zs start m).sum < 2 ^ 64 →
      (Right 0 (frames zs start m).sum 0 (frames zs start m)
          (decode fr ⟨0,0⟩ ⟨false,none,0⟩ 0 (zs ++ [(start,m)])) ↔ m = fr)) := by
  have hfr : 0 < fr := by omega
  constructor
  · intro f pos q s hapos hq hlast
    constructor
    · intro h
      exact ⟨Nat.le_antisymm hle (last_full hfr hlast hapos h),head_chunk hfr hlast hapos rfl h⟩
    · rintro ⟨rfl,hs,hf⟩
      exact seek_right hfr (mem_frames hzs) hlast hq rfl hs hf
  · intro hlast
    constructor
    · intro h
      rw [← Nat.zero_add (frames zs start m).sum] at hlast h
      exact Nat.le_antisymm hle (last_full hfr hlast (by decide) h)
    · rintro rfl
      exact decode_rest (Nat.le_refl _) (mem_frames hzs) (Nat.le_of_eq (Nat.zero_add _)) hlast rfl rfl rfl

theorem flacogg_iff_two :
    Right 1 6 0 [2,2,2] (decode 2 ⟨0,0⟩ ⟨true,some 1,0⟩ 0 [(true,2),(false,2),(true,2)]) ∧
      Right 0 6 0 [2,2,2] (decode 2 ⟨0,0⟩ ⟨false,none,0⟩ 0 [(true,2),(false,2),(true,2)]) :=
  ⟨((flacogg_iff 2 2 [(true,2),(false,2)] true (by decide) (by decide) (by decide)).1 ⟨0,0⟩ 0 0 1 (by decide)
      (by decide) (by decide)).mpr ⟨rfl,by decide,.inr rfl⟩,
    ((flacogg_iff 2 2 [(true,2),(false,2)] true (by decide) (by decide) (by decide)).2 (by decide)).mpr rfl⟩

/-- A page with two frames, of which the second has the target: both are passed on. -/
theorem flacogg_target_second :
    ¬ Right 3 4 0 [2,2] (decode 2 ⟨0,0⟩ ⟨true,some 3,0⟩ 0 [(true,2),(false,2)]) := by
  intro h
  exact absurd h.1 (by decide)

end Stream

end Phiola.FlacOgg
