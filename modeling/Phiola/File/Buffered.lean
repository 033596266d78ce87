import Phiola.Framework.Machine
import Phiola.File.Write

/-!
# Buffered output

The chunks as the producer sees them, each at the offset it is meant for, against the writes
the kernel gets. What the buffer holds is one more piece on top of the writes, and together
they always show what the chunks show.
-/

namespace Phiola

open Overlay

/-- The chunks with their offsets: one begins where its seek request says, or else where the
one before ended. -/
def chunksFrom (off : Nat) : List FwCall → List (Nat × Bytes)
  | [] => []
  | c :: cs =>
    (c.seek.getD off, c.dataIn) :: chunksFrom (u64 (c.seek.getD off + c.dataIn.length)) cs

/-- `fffile_writeat()` could write all bytes of this chunk at its offset. -/
def Writable (p : Nat × Bytes) : Prop := p.2 = [] ∨ p.1 + p.2.length ≤ offMax

instance (p : Nat × Bytes) : Decidable (Writable p) :=
  inferInstanceAs (Decidable (p.2 = [] ∨ p.1 + p.2.length ≤ offMax))

/-- An open filter between two calls of `process()`, with the last result. -/
structure FwRun where
  ret : PhiR
  f : FileW
  dir : Dir

namespace FwRun

/-- The conveyor calls `process()` again only after `PHI_MORE`. -/
def step (sys : Sys) (s : FwRun) (c : FwCall) : Option FwRun :=
  if s.ret = .more then
    let r := fwProcess sys c s.f s.dir
    some ⟨r.1, r.2.1, r.2.2⟩
  else none

end FwRun

section Buffer

variable {b : FcacheBuf} {cap off : Nat} {inp : Bytes}

/-- The buffer lies below the largest file offset. -/
def FcacheBuf.Fits (b : FcacheBuf) : Prop := b.off + b.ptr.length ≤ offMax

theorem i64_nonneg {n : Nat} (h : n ≤ offMax) (hn : n ≠ offMax) :
    ¬ i64 n < 0 ∧ (i64 n).toNat = n := by
  have hlt : n < 2 ^ 63 := Nat.lt_of_le_of_ne h hn
  rw [i64_of_lt hlt]
  exact ⟨by omega, Int.toNat_natCast n⟩

/-- The part of a chunk that goes over the buffer, as one piece with it. -/
theorem lay_overlap (s : Sheet UInt8) {k n : Nat} (hk : k ≤ b.ptr.length) (hn : n ≤ inp.length) :
    lay (lay s b.off b.ptr) (b.off + k) (inp.take n) =
      lay s b.off (b.ptr.take k ++ inp.take n ++ b.ptr.drop (k + n)) := by
  have h := lay_splice s b.off k b.ptr (inp.take n) hk
  rwa [List.length_take_of_le hn] at h

theorem length_overlap {k n : Nat} (hk : k ≤ b.ptr.length) (hn : n ≤ inp.length) :
    (b.ptr.take k ++ inp.take n ++ b.ptr.drop (k + n)).length = max b.ptr.length (k + n) := by
  simp only [List.length_append, List.length_take, List.length_drop]
  omega

/-- Without an offset to write at, `fbuf_write()` has taken the whole chunk into the buffer. -/
theorem fbufWrite_keeps (hb : b.Fits) (hinp : Writable (off, inp))
    (h : (fbufWrite b cap inp off).woff < 0) (s : Sheet UInt8) :
    (fbufWrite b cap inp off).inp = [] ∧ (fbufWrite b cap inp off).buf.Fits ∧
      lay s (fbufWrite b cap inp off).buf.off (fbufWrite b cap inp off).buf.ptr =
        lay (lay s b.off b.ptr) off inp := by
  revert h
  have hmax : offMax = 2 ^ 63 := rfl
  fun_cases fbufWrite b cap inp off with
  | case1 hnil =>
    intro _
    exact ⟨hnil, hb, by rw [hnil, lay_nil]⟩
  | case2 hnil hptr hin k n ptr hgrow =>
    intro _
    obtain ⟨hlow,hend,hcap⟩ := hin
    have hfit : off + inp.length ≤ offMax := hinp.resolve_left hnil
    have hb' : b.off + b.ptr.length ≤ offMax := hb
    rw [u64_of_lt (by omega)] at hend
    have hroom : u64 (b.off + cap) ≤ b.off + cap := Nat.mod_le _ _
    have hn : n = inp.length := by
      have := hgrow.2
      omega
    have hk : k ≤ b.ptr.length := by omega
    refine ⟨by rw [hn, List.drop_length], ?_, ?_⟩
    · show b.off + ptr.length ≤ offMax
      rw [length_overlap hk (by omega)]
      omega
    · show lay s b.off ptr = _
      rw [← lay_overlap s hk (by omega), hn, List.take_length]
      congr 1; omega
  | case3 hnil hptr hin k n ptr hgrow =>
    intro h
    have hpos : 0 < b.ptr.length := List.length_pos_iff.mpr hptr
    have hb' : b.off + b.ptr.length ≤ offMax := hb
    exact absurd h (i64_nonneg (by omega) (by omega)).1
  | case4 hnil hptr hin =>
    intro h
    have hpos : 0 < b.ptr.length := List.length_pos_iff.mpr hptr
    have hb' : b.off + b.ptr.length ≤ offMax := hb
    exact absurd h (i64_nonneg (by omega) (by omega)).1
  | case5 hnil hptr hcap =>
    intro h
    have hpos : 0 < inp.length := List.length_pos_iff.mpr hnil
    have hfit : off + inp.length ≤ offMax := hinp.resolve_left hnil
    exact absurd h (i64_nonneg (by omega) (by omega)).1
  | case6 hnil hptr hcap =>
    intro _
    have hempty : b.ptr = [] := by simpa using hptr
    refine ⟨rfl, hinp.resolve_left hnil, ?_⟩
    rw [hempty, lay_nil]

theorem fbufWrite_out (h : ¬ (fbufWrite b cap inp off).woff < 0) :
    (fbufWrite b cap inp off).out ≠ [] := by
  revert h
  fun_cases fbufWrite b cap inp off with
  | case1 hnil => intro h; exact absurd (by decide : (-1 : Int) < 0) h
  | case2 hnil hptr hin k n ptr hgrow => intro h; exact absurd (by decide : (-1 : Int) < 0) h
  | case3 hnil hptr hin k n ptr hgrow =>
    intro _
    have hpos : 0 < b.ptr.length := List.length_pos_iff.mpr hptr
    have hend : u64 (b.off + b.ptr.length) ≤ b.off + b.ptr.length := Nat.mod_le _ _
    have hlen : ptr.length = max b.ptr.length (k + n) := length_overlap (by omega) (by omega)
    show ptr ≠ []
    exact List.length_pos_iff.mp (by omega)
  | case4 hnil hptr hin => intro _; exact hptr
  | case5 hnil hptr hcap => intro _; exact hnil
  | case6 hnil hptr hcap => intro h; exact absurd (by decide : (-1 : Int) < 0) h

/-- With an offset, the output at that offset stands for the buffer and the part of the chunk
that was taken. -/
theorem fbufWrite_flushes (hb : b.Fits) (hinp : Writable (off, inp))
    (h : ¬ (fbufWrite b cap inp off).woff < 0) (s : Sheet UInt8) :
    (fbufWrite b cap inp off).woff.toNat + (fbufWrite b cap inp off).out.length ≤ offMax ∧
      ∃ n, n ≤ inp.length ∧ (fbufWrite b cap inp off).inp = inp.drop n ∧
        lay s (fbufWrite b cap inp off).woff.toNat (fbufWrite b cap inp off).out =
          lay (lay s b.off b.ptr) off (inp.take n) := by
  revert h
  have hmax : offMax = 2 ^ 63 := rfl
  fun_cases fbufWrite b cap inp off with
  | case1 hnil => intro h; exact absurd (by decide : (-1 : Int) < 0) h
  | case2 hnil hptr hin k n ptr hgrow => intro h; exact absurd (by decide : (-1 : Int) < 0) h
  | case3 hnil hptr hin k n ptr hgrow =>
    intro _
    obtain ⟨hlow,hend,hcap⟩ := hin
    have hfit : off + inp.length ≤ offMax := hinp.resolve_left hnil
    have hpos : 0 < b.ptr.length := List.length_pos_iff.mpr hptr
    have hb' : b.off + b.ptr.length ≤ offMax := hb
    rw [u64_of_lt (by omega)] at hend
    have hk : k ≤ b.ptr.length := by omega
    have hlen : ptr.length = max b.ptr.length (k + n) := length_overlap hk (by omega)
    have hoff : (i64 b.off).toNat = b.off := (i64_nonneg (by omega) (by omega)).2
    refine ⟨?_, n, by omega, rfl, ?_⟩
    · show (i64 b.off).toNat + ptr.length ≤ offMax
      omega
    · show lay s (i64 b.off).toNat ptr = _
      rw [hoff, ← lay_overlap s hk (by omega)]
      congr 1; omega
  | case4 hnil hptr hin =>
    intro _
    have hpos : 0 < b.ptr.length := List.length_pos_iff.mpr hptr
    have hb' : b.off + b.ptr.length ≤ offMax := hb
    have hoff : (i64 b.off).toNat = b.off := (i64_nonneg (by omega) (by omega)).2
    refine ⟨?_, 0, Nat.zero_le _, rfl, ?_⟩
    · show (i64 b.off).toNat + b.ptr.length ≤ offMax
      omega
    · show lay s (i64 b.off).toNat b.ptr = _
      rw [hoff, List.take_zero, lay_nil]
  | case5 hnil hptr hcap =>
    intro _
    have hempty : b.ptr = [] := by simpa using hptr
    have hpos : 0 < inp.length := List.length_pos_iff.mpr hnil
    have hfit : off + inp.length ≤ offMax := hinp.resolve_left hnil
    have hoff : (i64 off).toNat = off := (i64_nonneg (by omega) (by omega)).2
    refine ⟨?_, inp.length, Nat.le_refl _, by rw [List.drop_length], ?_⟩
    · show (i64 off).toNat + inp.length ≤ offMax
      omega
    · show lay s (i64 off).toNat inp = _
      rw [hoff, hempty, lay_nil, List.take_length]
  | case6 hnil hptr hcap => intro h; exact absurd (by decide : (-1 : Int) < 0) h

/-- The rest of a chunk after an output, at the offset where it continues. -/
theorem fbufWrite_rest (hb : b.Fits) (hinp : Writable (off, inp))
    (h : ¬ (fbufWrite b cap inp off).woff < 0) (s : Sheet UInt8) :
    ∃ off', off' = u64 (off + (inp.length - (fbufWrite b cap inp off).inp.length)) ∧
      Writable (off', (fbufWrite b cap inp off).inp) ∧
      u64 (off' + (fbufWrite b cap inp off).inp.length) = u64 (off + inp.length) ∧
      lay (lay s (fbufWrite b cap inp off).woff.toNat (fbufWrite b cap inp off).out) off'
        (fbufWrite b cap inp off).inp = lay (lay s b.off b.ptr) off inp := by
  obtain ⟨hend,n,hn,hrest,hlay⟩ := fbufWrite_flushes hb hinp h s
  have hlen : (fbufWrite b cap inp off).inp.length = inp.length - n := by
    rw [hrest, List.length_drop]
  refine ⟨_, rfl, ?_⟩
  rw [hlen, hlay, hrest, show inp.length - (inp.length - n) = n by omega]
  by_cases hnil : inp.drop n = []
  · have hall : inp.length ≤ n := List.drop_eq_nil_iff.mp hnil
    rw [hnil, lay_nil, List.take_of_length_le hall]
    refine ⟨.inl rfl, ?_, rfl⟩
    unfold u64
    omega
  · have hfit : off + inp.length ≤ offMax :=
      hinp.resolve_left fun h => hnil (by rw [show inp = [] from h, List.drop_nil])
    have hmax : offMax = 2 ^ 63 := rfl
    rw [u64_of_lt (by omega)]
    refine ⟨.inr ?_, ?_, lay_take_drop _ off n inp hn⟩
    · show off + n + (inp.drop n).length ≤ offMax
      rw [List.length_drop]
      omega
    · congr 1; omega

end Buffer

/-- What the filter has done to the directory so far: it wrote to the one file it has open. -/
structure Kept (f₀ : FileW) (c : Bytes) (d₀ : Dir) (f : FileW) (d : Dir) : Prop where
  fd : f.fd = f₀.fd
  name : f.name = f₀.name
  tmp : f.filenameTmp = f₀.filenameTmp
  file : ∀ fd ∈ f₀.fd, d fd = some (writeAll c f.written)
  frame : ∀ n, n ∉ f₀.fd → d n = d₀ n
  extent : Extent (layAll blank f.written) f.size

section Loop

variable {sys : Sys} {f₀ f f' : FileW} {c : Bytes} {d₀ d d' : Dir} {bs : Bytes} {off : Nat}

theorem fwWrite_some (h : fwWrite sys f d bs off = some (f', d')) :
    ∃ fd, f.fd = some fd ∧ d' = d.set fd ((d fd).map (writeat · off bs)) ∧
      f' = { f with size := max f.size (off + bs.length), tries := f.tries + 1,
                    written := f.written ++ [(off, bs)] } := by
  unfold fwWrite at h
  split at h
  · cases h
  · rename_i fd hfd
    split at h
    · simp only [Option.some.injEq, Prod.mk.injEq] at h
      exact ⟨fd, hfd, h.2.symm, h.1.symm⟩
    · cases h

/-- A write that the system lets pass and that fits below the largest offset succeeds. -/
theorem fwWrite_of_ok {fd : String} (hw : ∀ n, sys.writeOk n = true) (hfd : f.fd = some fd)
    (hoff : off + bs.length ≤ offMax) : (fwWrite sys f d bs off).isSome = true := by
  unfold fwWrite
  rw [hfd]
  show (if _ then _ else _ : Option (FileW × Dir)).isSome = true
  rw [if_pos ⟨hw _, hoff⟩]
  rfl

theorem Kept.write (h : Kept f₀ c d₀ f d) (hbs : bs ≠ [])
    (hw : fwWrite sys f d bs off = some (f', d')) : Kept f₀ c d₀ f' d' := by
  obtain ⟨fd,hfd,rfl,rfl⟩ := fwWrite_some hw
  have hfd₀ : f₀.fd = some fd := h.fd ▸ hfd
  constructor
  · exact h.fd
  · exact h.name
  · exact h.tmp
  · intro fd' hmem
    obtain rfl : fd = fd' := by rw [hfd₀] at hmem; exact Option.some.inj hmem
    rw [Dir.set_self, h.file fd hmem]
    simp [writeAll]
  · intro n hn
    rw [Dir.set_other, h.frame n hn]
    rintro rfl
    exact hn hfd₀
  · show Extent (layAll blank (f.written ++ [(off, bs)])) _
    rw [layAll_snoc]
    exact h.extent.lay off hbs

/-- A change of the buffer, the position or the final mark is no change of a file. -/
theorem Kept.congr (h : Kept f₀ c d₀ f d) (hf : f'.fd = f.fd) (hname : f'.name = f.name)
    (htmp : f'.filenameTmp = f.filenameTmp) (hw : f'.written = f.written)
    (hsize : f'.size = f.size) : Kept f₀ c d₀ f' d :=
  ⟨hf.trans h.fd, hname.trans h.name, htmp.trans h.tmp, by rw [hw]; exact h.file, h.frame,
    by rw [hw, hsize]; exact h.extent⟩

/-- Whatever the kernel refuses, the filter touches nothing but the file it has open. -/
theorem fwLoop_kept (first : Bool) (inp : Bytes) (h : Kept f₀ c d₀ f d) :
    Kept f₀ c d₀ (fwLoop sys first f d inp off).2.1 (fwLoop sys first f d inp off).2.2 := by
  fun_induction fwLoop sys first f d inp off with
  | case1 f d inp off r f' hwoff hfirst hbuf hwrite => exact h.congr rfl rfl rfl rfl rfl
  | case2 f d inp off r f' hwoff hfirst hbuf f'' d' hwrite =>
    have h' : Kept f₀ c d₀ f' d := h.congr rfl rfl rfl rfl rfl
    exact (h'.write hbuf hwrite).congr rfl rfl rfl rfl rfl
  | case3 f d inp off r f' hwoff hfirst hbuf => exact h.congr rfl rfl rfl rfl rfl
  | case4 f d inp off r off' f' hwoff hfirst => exact h.congr rfl rfl rfl rfl rfl
  | case5 f d inp off r f' hwoff hwrite => exact h.congr rfl rfl rfl rfl rfl
  | case6 f d inp off r off' f' hwoff f'' d' hwrite ih =>
    have h' : Kept f₀ c d₀ f' d := h.congr rfl rfl rfl rfl rfl
    apply ih
    exact (h'.write (fbufWrite_out hwoff) hwrite).congr rfl rfl rfl rfl rfl

variable (sys d off) in
/-- The mark `fin` is set together with `PHI_DONE`, and only in the last call. -/
theorem fwLoop_fin (first : Bool) (inp : Bytes) (h : f.fin = false) :
    ((fwLoop sys first f d inp off).2.1.fin = true ↔ (fwLoop sys first f d inp off).1 = .done) ∧
      ((fwLoop sys first f d inp off).1 = .done → first = true) ∧
      ((fwLoop sys first f d inp off).1 = .more → first = false) := by
  have hwrite_fin : ∀ {f f' : FileW} {d d' : Dir} {bs : Bytes} {off : Nat},
      fwWrite sys f d bs off = some (f', d') → f'.fin = f.fin := by
    intro f f' d d' bs off hw
    obtain ⟨fd,_,_,rfl⟩ := fwWrite_some hw
    rfl
  fun_induction fwLoop sys first f d inp off with
  | case1 f d inp off r f' hwoff hfirst hbuf hwrite => simp [f',h]
  | case2 f d inp off r f' hwoff hfirst hbuf f'' d' hwrite => simp [hfirst]
  | case3 f d inp off r f' hwoff hfirst hbuf => simp [hfirst]
  | case4 f d inp off r off' f' hwoff hfirst => simpa [f',h] using hfirst
  | case5 f d inp off r f' hwoff hwrite => simp [f',h]
  | case6 f d inp off r off' f' hwoff f'' d' hwrite ih => exact ih ((hwrite_fin hwrite).trans h)

/-- What the writes and the buffer on top of them show. -/
def FileW.shows (f : FileW) : Sheet UInt8 :=
  lay (layAll blank f.written) f.wbuf.off f.wbuf.ptr

theorem fwLoop_ok (first : Bool) (inp : Bytes) (hw : ∀ n, sys.writeOk n = true)
    (hfd : f.fd.isSome = true) (hfit : f.wbuf.Fits) (hinp : Writable (off, inp)) :
    (fwLoop sys first f d inp off).1 = if first then .done else .more := by
  fun_induction fwLoop sys first f d inp off with
  | case1 f d inp off r f' hwoff hfirst hbuf hwrite =>
    obtain ⟨_,hr,_⟩ := fbufWrite_keeps hfit hinp hwoff blank
    obtain ⟨fd,hfd⟩ := Option.isSome_iff_exists.mp hfd
    have hsome : (fwWrite sys f' d r.buf.ptr r.buf.off).isSome = true := fwWrite_of_ok hw hfd hr
    rw [hwrite] at hsome
    cases hsome
  | case2 f d inp off r f' hwoff hfirst hbuf f'' d' hwrite => rw [if_pos hfirst]
  | case3 f d inp off r f' hwoff hfirst hbuf => rw [if_pos hfirst]
  | case4 f d inp off r off' f' hwoff hfirst => rw [if_neg hfirst]
  | case5 f d inp off r f' hwoff hwrite =>
    obtain ⟨hend,_⟩ := fbufWrite_flushes hfit hinp hwoff blank
    obtain ⟨fd,hfd⟩ := Option.isSome_iff_exists.mp hfd
    have hsome : (fwWrite sys f' d r.out r.woff.toNat).isSome = true :=
      fwWrite_of_ok hw hfd hend
    rw [hwrite] at hsome
    cases hsome
  | case6 f d inp off r off' f' hwoff f'' d' hwrite ih =>
    obtain ⟨fd,_,_,hf''⟩ := fwWrite_some hwrite
    obtain ⟨_,rfl,hwritable,_⟩ := fbufWrite_rest hfit hinp hwoff blank
    exact ih (by rw [hf'']; exact hfd) (Nat.zero_le _) hwritable

variable (sys d) in
/-- A call that doesn't fail adds its chunk to what the filter shows; the last call leaves
nothing in the buffer that the file doesn't have. -/
theorem fwLoop_shows (first : Bool) (inp : Bytes) (hfit : f.wbuf.Fits)
    (hinp : Writable (off, inp)) (hret : (fwLoop sys first f d inp off).1 ≠ .err) :
    if first then layAll blank (fwLoop sys first f d inp off).2.1.written = lay f.shows off inp
    else
      (fwLoop sys first f d inp off).2.1.shows = lay f.shows off inp ∧
        (fwLoop sys first f d inp off).2.1.wbuf.Fits ∧
        (fwLoop sys first f d inp off).2.1.offCur = u64 (off + inp.length) := by
  fun_induction fwLoop sys first f d inp off with
  | case1 f d inp off r f' hwoff hfirst hbuf hwrite => exact absurd rfl hret
  | case2 f d inp off r f' hwoff hfirst hbuf f'' d' hwrite =>
    obtain ⟨hrest,hr,hlay⟩ := fbufWrite_keeps hfit hinp hwoff (layAll blank f.written)
    obtain ⟨fd,_,_,rfl⟩ := fwWrite_some hwrite
    rw [if_pos hfirst]
    show layAll blank (f.written ++ [(r.buf.off, r.buf.ptr)]) = _
    rw [layAll_snoc]
    exact hlay
  | case3 f d inp off r f' hwoff hfirst hbuf =>
    obtain ⟨hrest,hr,hlay⟩ := fbufWrite_keeps hfit hinp hwoff (layAll blank f.written)
    rw [if_pos hfirst]
    have hnil : r.buf.ptr = [] := by simpa using hbuf
    show layAll blank f.written = _
    rw [show f.shows = lay (layAll blank f.written) f.wbuf.off f.wbuf.ptr from rfl, ← hlay]
    show _ = lay (layAll blank f.written) r.buf.off r.buf.ptr
    rw [hnil, lay_nil]
  | case4 f d inp off r off' f' hwoff hfirst =>
    obtain ⟨hrest,hr,hlay⟩ := fbufWrite_keeps hfit hinp hwoff (layAll blank f.written)
    rw [if_neg hfirst]
    refine ⟨hlay, hr, ?_⟩
    show u64 (off + (inp.length - r.inp.length)) = _
    have hlen : r.inp.length = 0 := by
      show (fbufWrite f.wbuf f.bufCap inp off).inp.length = 0
      rw [hrest]; rfl
    rw [hlen, Nat.sub_zero]
  | case5 f d inp off r f' hwoff hwrite => exact absurd rfl hret
  | case6 f d inp off r off' f' hwoff f'' d' hwrite ih =>
    obtain ⟨_,rfl,hwritable,hcur,hlay⟩ := fbufWrite_rest hfit hinp hwoff (layAll blank f.written)
    obtain ⟨fd,_,_,hf''⟩ := fwWrite_some hwrite
    have hshows : lay ({ f'' with wbuf := ⟨[], 0⟩ } : FileW).shows off' r.inp =
        lay f.shows off inp := by
      show lay (lay (layAll blank f''.written) 0 []) off' r.inp = _
      rw [lay_nil, hf'', layAll_snoc]
      exact hlay
    rw [← hshows, ← hcur]
    exact ih (Nat.zero_le _) hwritable hret

end Loop

/-- The contents of the file a filter has just opened, and what it starts from. -/
theorem fwOpen_some {sys : Sys} {conf : OFile} {d₀ d : Dir} {f : FileW}
    (h : fwOpen sys conf d₀ = (some f, d)) :
    ∃ fn, fn = (if conf.nameTmp then tmpName conf.name else conf.name) ∧ f.fd = some fn ∧
      f.name = conf.name ∧ f.filenameTmp = (if conf.nameTmp then some fn else none) ∧
      f.wbuf = ⟨[], 0⟩ ∧ f.offCur = 0 ∧ f.fin = false ∧ f.written = [] ∧
      Kept f ((d₀ fn).getD []) d₀ f d := by
  simp only [fwOpen] at h
  split at h
  · cases h
  · split at h
    · cases h
    · rename_i hexists d' hfile
      simp only [Prod.mk.injEq, Option.some.injEq] at h
      obtain ⟨rfl,rfl⟩ := h
      refine ⟨_, rfl, rfl, ?_, ?_, ?_, ?_, ?_, ?_, ?_⟩
      all_goals try (split <;> rfl)
      unfold fffileOpen at hfile
      split at hfile
      · cases hfile
      · constructor
        · rfl
        · rfl
        · rfl
        · intro fd hfd
          obtain rfl := Option.mem_some_iff.mp hfd
          split at hfile
          · rename_i hnone
            obtain rfl := Option.some.inj hfile
            rw [Dir.set_self, hnone]
            split <;> rfl
          · rename_i old hold
            split at hfile
            · cases hfile
            · obtain rfl := Option.some.inj hfile
              rw [hold]
              split <;> rfl
        · intro n hn
          have hne : n ≠ _ := fun h => hn (Option.mem_some_iff.mpr h.symm)
          split at hfile
          · obtain rfl := Option.some.inj hfile
            exact Dir.set_other hne
          · split at hfile
            · cases hfile
            · obtain rfl := Option.some.inj hfile
              rfl
        · split <;> exact extent_blank

namespace FwRun

variable {sys : Sys} {s s' : FwRun} {calls : List FwCall} {last c : FwCall}

theorem step_some (h : step sys s c = some s') :
    s.ret = .more ∧ s'.ret = (fwProcess sys c s.f s.dir).1 ∧
      s'.f = (fwProcess sys c s.f s.dir).2.1 ∧ s'.dir = (fwProcess sys c s.f s.dir).2.2 := by
  unfold step at h
  split at h
  · rename_i hret
    obtain rfl := Option.some.inj h
    exact ⟨hret, rfl, rfl, rfl⟩
  · cases h

theorem run_kept {f₀ : FileW} {old : Bytes} {d₀ : Dir}
    (hrun : Machine.run (step sys) s calls = some s') (h : Kept f₀ old d₀ s.f s.dir) :
    Kept f₀ old d₀ s'.f s'.dir := by
  apply Machine.run_invariant (I := fun s => Kept f₀ old d₀ s.f s.dir) _ hrun h
  intro s c s' hk hs
  obtain ⟨_,_,hf,hd⟩ := step_some hs
  rw [hf, hd]
  exact fwLoop_kept c.first c.dataIn hk

/-- The filter is marked as finished exactly when it has returned `PHI_DONE`. -/
theorem run_fin (hrun : Machine.run (step sys) s calls = some s')
    (h : s.f.fin = true ↔ s.ret = .done) : s'.f.fin = true ↔ s'.ret = .done := by
  apply Machine.run_invariant (I := fun s => s.f.fin = true ↔ s.ret = .done) _ hrun h
  intro s c s' hfin hs
  obtain ⟨hret,hr,hf,_⟩ := step_some hs
  have hnot : s.f.fin = false := by simpa [hret] using hfin
  rw [hf, hr]
  exact (fwLoop_fin _ _ _ c.first c.dataIn hnot).1

/-- After a last call that succeeded, the kernel has been given what the chunks show. -/
theorem run_shows (hfit : s.f.wbuf.Fits) (hchunks : ∀ p ∈ chunksFrom s.f.offCur calls, Writable p)
    (hrun : Machine.run (step sys) s calls = some s') (hret : s.ret = .more)
    (hdone : s'.ret = .done) (hfin : s.f.fin = false) :
    layAll blank s'.f.written = layAll s.f.shows (chunksFrom s.f.offCur calls) := by
  induction calls generalizing s with
  | nil =>
    simp only [Machine.run, List.foldlM_nil, Option.pure_def, Option.some.injEq] at hrun
    rw [← hrun, hret] at hdone
    cases hdone
  | cons c calls ih =>
    obtain ⟨m,hm,hrest⟩ := Machine.run_cons_eq_some.mp hrun
    obtain ⟨_,hr,hf,hd⟩ := step_some hm
    have hdata : Writable (c.seek.getD s.f.offCur, c.dataIn) := hchunks _ List.mem_cons_self
    have hshows := fwLoop_shows sys s.dir c.first c.dataIn hfit hdata
    have hmark := fwLoop_fin sys s.dir (c.seek.getD s.f.offCur) c.first c.dataIn hfin
    have hcases : m.ret = .more ∨ m.ret = .done ∧ calls = [] := by
      cases calls with
      | nil =>
        simp only [Machine.run, List.foldlM_nil, Option.pure_def, Option.some.injEq] at hrest
        exact .inr ⟨hrest ▸ hdone, rfl⟩
      | cons c' calls =>
        obtain ⟨m',hm',_⟩ := Machine.run_cons_eq_some.mp hrest
        exact .inl (step_some hm').1
    rcases hcases with hmret | ⟨hmret,rfl⟩
    · rw [hr] at hmret
      have hmret' : (fwLoop sys c.first s.f s.dir c.dataIn (c.seek.getD s.f.offCur)).1 = .more :=
        hmret
      have hfirst : ¬ c.first = true := by rw [hmark.2.2 hmret']; decide
      rw [if_neg hfirst] at hshows
      obtain ⟨hsh,hfit',hcur⟩ := hshows (by rw [hmret']; decide)
      have hcur' : m.f.offCur = u64 (c.seek.getD s.f.offCur + c.dataIn.length) := hf ▸ hcur
      have hmfin : m.f.fin = false := by
        rw [hf, ← Bool.not_eq_true]
        intro h
        rw [hmark.1.mp h] at hmret'
        cases hmret'
      have hrec := ih (hf ▸ hfit')
        (fun p hp => hchunks p (List.mem_cons_of_mem _ (hcur' ▸ hp))) hrest (hr ▸ hmret) hmfin
      rw [hrec, hcur', hf]
      exact congrArg (layAll · _) hsh
    · simp only [Machine.run, List.foldlM_nil, Option.pure_def, Option.some.injEq] at hrest
      subst hrest
      rw [hr] at hmret
      have hmret' : (fwLoop sys c.first s.f s.dir c.dataIn (c.seek.getD s.f.offCur)).1 = .done :=
        hmret
      rw [if_pos (hmark.2.1 hmret')] at hshows
      rw [hf]
      exact hshows (by rw [hmret']; decide)

/-- When the kernel writes all it is given, all calls up to the last one can be made. -/
theorem run_ok {f₀ : FileW} {old : Bytes} {d₀ : Dir} (hw : ∀ n, sys.writeOk n = true)
    (hfd : f₀.fd.isSome = true) (hkept : Kept f₀ old d₀ s.f s.dir) (hret : s.ret = .more)
    (hfit : s.f.wbuf.Fits) (hcalls : ∀ c ∈ calls, c.first = false) (hlast : last.first = true)
    (hchunks : ∀ p ∈ chunksFrom s.f.offCur (calls ++ [last]), Writable p) :
    ∃ s', Machine.run (step sys) s (calls ++ [last]) = some s' ∧ s'.ret = .done := by
  induction calls generalizing s with
  | nil =>
    have hdata : Writable (last.seek.getD s.f.offCur, last.dataIn) :=
      hchunks _ List.mem_cons_self
    have h := fwLoop_ok (d := s.dir) last.first last.dataIn hw (by rw [hkept.fd]; exact hfd)
      hfit hdata
    rw [if_pos hlast] at h
    have hstep : step sys s last = some ⟨(fwProcess sys last s.f s.dir).1,
      (fwProcess sys last s.f s.dir).2.1, (fwProcess sys last s.f s.dir).2.2⟩ := if_pos hret
    exact ⟨_, Machine.run_cons_eq_some.mpr ⟨_, hstep, rfl⟩, h⟩
  | cons c calls ih =>
    have hdata : Writable (c.seek.getD s.f.offCur, c.dataIn) := hchunks _ List.mem_cons_self
    have hmore := fwLoop_ok (d := s.dir) c.first c.dataIn hw (by rw [hkept.fd]; exact hfd)
      hfit hdata
    have hshows := fwLoop_shows sys s.dir c.first c.dataIn hfit hdata
    have hnot : ¬ c.first = true := by rw [hcalls c List.mem_cons_self]; decide
    rw [if_neg hnot] at hmore hshows
    obtain ⟨_,hfit',hcur⟩ := hshows (by rw [hmore]; decide)
    have hstep : step sys s c = some ⟨(fwProcess sys c s.f s.dir).1,
      (fwProcess sys c s.f s.dir).2.1, (fwProcess sys c s.f s.dir).2.2⟩ := if_pos hret
    have hcur' : (fwProcess sys c s.f s.dir).2.1.offCur =
      u64 (c.seek.getD s.f.offCur + c.dataIn.length) := hcur
    obtain ⟨s',hrun,hdone⟩ := ih (s := ⟨_, _, _⟩) (fwLoop_kept c.first c.dataIn hkept)
      hmore hfit' (fun c' hc' => hcalls c' (List.mem_cons_of_mem c hc'))
      (fun p hp => hchunks p (List.mem_cons_of_mem _ (hcur' ▸ hp)))
    exact ⟨s', Machine.run_cons_eq_some.mpr ⟨_, hstep, hrun⟩, hdone⟩

end FwRun

/-- The file that unbuffered output of the chunks makes of the old one. -/
structure Delivered (old : Bytes) (chunks : List (Nat × Bytes)) (b : Bytes) : Prop where
  length : b.length = reach chunks
  last : ∀ pre p post x, chunks = pre ++ p :: post → Covers p.1 p.2.length x →
    (∀ q ∈ post, ¬ Covers q.1 q.2.length x) → b[x]? = p.2[x - p.1]?
  rest : ∀ x < b.length, (∀ p ∈ chunks, ¬ Covers p.1 p.2.length x) → byteAt b x = byteAt old x

/-- Two lists of pieces that show the same make the same file, up to its length. -/
theorem delivered_of_layAll {old : Bytes} {ws chunks : List (Nat × Bytes)}
    (h : layAll blank ws = layAll blank chunks) {n : Nat} (hn : Extent (layAll blank ws) n) :
    Delivered old chunks (trunc (writeAll old ws) n) := by
  have hlen : (trunc (writeAll old ws) n).length = n := length_trunc _ _
  have hreach : n = reach chunks := hn.unique (h ▸ extent_reach chunks)
  constructor
  · exact hlen.trans hreach
  · intro pre p post x hsplit hcov hpost
    have hin : x - p.1 < p.2.length := by obtain ⟨_,_⟩ := hcov; omega
    have hsee : layAll blank ws x = some p.2[x - p.1] := by
      rw [h, hsplit, layAll_last hcov hpost, List.getElem?_eq_getElem hin]
    have hx : x < n := hn.below x (by rw [hsee]; rfl)
    have hbyte := byteAt_trunc (c := writeAll old ws) hx
    rw [byteAt_writeAll, hsee, Option.getD_some, byteAt,
      List.getElem?_eq_getElem (by omega), Option.getD_some] at hbyte
    rw [List.getElem?_eq_getElem (by omega), List.getElem?_eq_getElem hin, hbyte]
  · intro x hx hnone
    have hsee : layAll blank ws x = none := by
      rw [h, ← Option.not_isSome_iff_eq_none, layAll_isSome]
      rintro ⟨p,hp,hc⟩
      exact hnone p hp hc
    rw [byteAt_trunc (by omega), byteAt_writeAll, hsee, Option.getD_none]

/-- A finished filter closes its file at the length it wrote; a temporary file gets the
target's name. -/
theorem fwClose_finished {sys : Sys} {f : FileW} {d : Dir} {fn : String} {c : Bytes}
    (hfd : f.fd = some fn) (hfin : f.fin = true) (hfile : d fn = some c)
    (htrunc : sys.truncOk = true)
    (hname : f.filenameTmp = none ∧ f.name = fn ∨
      f.filenameTmp = some fn ∧ f.name ≠ fn ∧ sys.closeOk = true ∧ sys.renameOk = true) :
    fwClose sys f d f.name = some (trunc c f.size) ∧
      (f.filenameTmp = some fn → fwClose sys f d fn = none) := by
  unfold fwClose
  simp only [hfd, htrunc, hfile, hfin, if_true, Option.map_some, Bool.not_true]
  rcases hname with ⟨htmp,heq⟩ | ⟨htmp,hne,hclose,hren⟩
  · rw [htmp, heq]
    refine ⟨?_, fun h => by cases h⟩
    split <;> simp
  · rw [htmp]
    simp only [hclose, Bool.not_true, fffileRename, hren, Dir.set_self, Option.isSome_some,
      and_self, if_true]
    exact ⟨by simp [Dir.set_other hne], fun _ => by simp⟩

/-- What a filter leaves that ended with `PHI_DONE`. -/
theorem delivered_of_done {sys : Sys} {conf : OFile} {d₀ d : Dir} {f : FileW}
    {calls : List FwCall} {s : FwRun} (hopen : fwOpen sys conf d₀ = (some f, d))
    (hrun : Machine.run (FwRun.step sys) ⟨.more, f, d⟩ calls = some s) (hdone : s.ret = .done)
    (htrunc : sys.truncOk = true)
    (hname : conf.nameTmp = true → sys.closeOk = true ∧ sys.renameOk = true)
    (hchunks : ∀ p ∈ chunksFrom 0 calls, Writable p) :
    ∃ c, fwClose sys s.f s.dir conf.name = some c ∧
      Delivered ((f.fd.bind d₀).getD []) (chunksFrom 0 calls) c ∧
      (conf.nameTmp = true → fwClose sys s.f s.dir (tmpName conf.name) = none) ∧
      s.f.size = reach (chunksFrom 0 calls) ∧
      layAll blank s.f.written = layAll blank (chunksFrom 0 calls) := by
  obtain ⟨fn,hfn,hfd,hconf,htmp,hbuf,hcur,hfin,hwritten,hkept⟩ := fwOpen_some hopen
  have hshows₀ : f.shows = blank := by simp [FileW.shows,hbuf,hwritten]
  have hlay : layAll blank s.f.written = layAll blank (chunksFrom 0 calls) := by
    rw [FwRun.run_shows (by rw [hbuf]; exact Nat.zero_le _) (by rw [hcur]; exact hchunks) hrun rfl
      hdone hfin, hshows₀, hcur]
  have hk := FwRun.run_kept hrun hkept
  have hsfin : s.f.fin = true := (FwRun.run_fin hrun (by simp [hfin])).mpr hdone
  have hsname : s.f.name = conf.name := hk.name.trans hconf
  have hclose := fwClose_finished (hk.fd.trans hfd) hsfin (hk.file fn hfd) htrunc
  rw [hsname, hk.tmp, htmp] at hclose
  refine ⟨trunc (writeAll ((d₀ fn).getD []) s.f.written) s.f.size, ?_, ?_, ?_, ?_, hlay⟩
  · apply (hclose _).1
    by_cases hnt : conf.nameTmp = true
    · have hne : conf.name ≠ fn := by rw [hfn, if_pos hnt]; exact (tmpName_ne conf.name).symm
      exact .inr ⟨if_pos hnt, hne, hname hnt⟩
    · exact .inl ⟨if_neg hnt, by rw [hfn, if_neg hnt]⟩
  · rw [hfd]
    exact delivered_of_layAll hlay hk.extent
  · intro hnt
    have htmpfn : tmpName conf.name = fn := by rw [hfn, if_pos hnt]
    have hne : conf.name ≠ fn := by rw [← htmpfn]; exact (tmpName_ne conf.name).symm
    rw [htmpfn]
    exact (hclose (.inr ⟨if_pos hnt, hne, hname hnt⟩)).2 (if_pos hnt)
  · exact hk.extent.unique (hlay ▸ extent_reach _)

/-- Buffered output is unbuffered output: for every size of the buffer, every sequence of
chunks and seek requests and every directory, if the kernel writes all it is given, then the
last call ends with `PHI_DONE`, the file holds at each offset the byte of the last chunk over
it, the kernel was given nothing for other offsets, and the file ends where the farthest
chunk ends. -/
theorem buffered_output (sys : Sys) (conf : OFile) (d₀ d : Dir) (f : FileW)
    (calls : List FwCall) (last : FwCall) (hopen : fwOpen sys conf d₀ = (some f, d))
    (hcalls : ∀ c ∈ calls, c.first = false) (hlast : last.first = true)
    (hw : ∀ n, sys.writeOk n = true) (htrunc : sys.truncOk = true)
    (hname : conf.nameTmp = true → sys.closeOk = true ∧ sys.renameOk = true)
    (hchunks : ∀ p ∈ chunksFrom 0 (calls ++ [last]), Writable p) :
    ∃ s c, Machine.run (FwRun.step sys) ⟨.more, f, d⟩ (calls ++ [last]) = some s ∧
      s.ret = .done ∧ fwClose sys s.f s.dir conf.name = some c ∧
      Delivered ((f.fd.bind d₀).getD []) (chunksFrom 0 (calls ++ [last])) c ∧
      s.f.size = reach (chunksFrom 0 (calls ++ [last])) ∧
      ∀ w ∈ s.f.written, ∀ x, Covers w.1 w.2.length x →
        ∃ p ∈ chunksFrom 0 (calls ++ [last]), Covers p.1 p.2.length x := by
  obtain ⟨fn,_,hfd,_,_,hbuf,hcur,_,_,hkept⟩ := fwOpen_some hopen
  obtain ⟨s,hrun,hdone⟩ := FwRun.run_ok (s := ⟨.more, f, d⟩) hw (by simp [hfd]) hkept rfl
    (by rw [hbuf]; exact Nat.zero_le _) hcalls hlast (by rw [hcur]; exact hchunks)
  obtain ⟨c,hclose,hdel,_,hsize,hlay⟩ := delivered_of_done hopen hrun hdone htrunc hname hchunks
  refine ⟨s, c, hrun, hdone, hclose, hdel, hsize, ?_⟩
  intro w hw x hx
  have hseen : (layAll blank s.f.written x).isSome = true := layAll_isSome.mpr ⟨w, hw, hx⟩
  rw [hlay] at hseen
  exact layAll_isSome.mp hseen

/-- A system that refuses nothing. -/
def goodSys : Sys := ⟨true, fun _ => true, true, true, true, true⟩

def emptyDir : Dir := fun _ => none

/-- A small buffer. -/
def smallBuf : OFile := ⟨"a.wav", false, true, 4⟩

/-- A header, data that overflows the buffer, and the header rewritten by the last call. -/
def headerRewrite : List FwCall := [⟨false, none, [0, 0]⟩, ⟨false, none, [1, 2, 3, 4, 5]⟩]

def headerLast : FwCall := ⟨true, some 0, [7]⟩

theorem buffered_output_header :
    ∃ s c, Machine.run (FwRun.step goodSys)
        ⟨.more, ((fwOpen goodSys smallBuf emptyDir).1.getD default),
          (fwOpen goodSys smallBuf emptyDir).2⟩ (headerRewrite ++ [headerLast]) = some s ∧
      s.ret = .done ∧ fwClose goodSys s.f s.dir "a.wav" = some c ∧
      Delivered [] (chunksFrom 0 (headerRewrite ++ [headerLast])) c ∧
      s.f.size = reach (chunksFrom 0 (headerRewrite ++ [headerLast])) ∧
      ∀ w ∈ s.f.written, ∀ x, Covers w.1 w.2.length x →
        ∃ p ∈ chunksFrom 0 (headerRewrite ++ [headerLast]), Covers p.1 p.2.length x :=
  buffered_output goodSys smallBuf emptyDir _ _ headerRewrite headerLast rfl (by decide) rfl
    (fun _ => rfl) rfl (by decide) (by decide)

end Phiola
