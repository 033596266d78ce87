import Phiola.Framework.Machine
import Phiola.Track.Conveyor
import Phiola.File.Write

/-!
# The file-read filter

The filter reads blocks at offsets aligned to 4 KiB into the buffers of a cache, and passes on
the part of a block from the requested offset. A buffer of less than 4 KiB, which `-rbuffer`
allows, leaves a part of each 4 KiB of the file out of reach.
-/

namespace Phiola

def align : Nat := 4 * 1024

/-- `struct fcache` -/
structure Fcache where
  bufs : List FcacheBuf
  idx : Nat
  deriving DecidableEq, Repr

/-- `fcache_init()` -/
def Fcache.init (nbufs : Nat) : Fcache := ⟨List.replicate nbufs ⟨[], 2 ^ 64 - 1⟩, 0⟩

/-- `fcache_find()` -/
def Fcache.find (c : Fcache) (off : Nat) : Option FcacheBuf :=
  c.bufs.find? fun b => b.off ≤ off ∧ off < b.off + b.ptr.length

/-- Put what was read into the buffer of `fcache_nextbuf()`. -/
def Fcache.fill (c : Fcache) (b : FcacheBuf) : Fcache :=
  ⟨c.bufs.set c.idx b, (c.idx + 1) % c.bufs.length⟩

/-- `struct file_r` -/
structure FileR where
  offCur : Nat
  bufCap : Nat
  fcache : Fcache
  eof : Bool
  deriving DecidableEq, Repr

/-- `ifile.buf_size` as the play command sets it from `-rbuffer`. -/
def rbufferSize (kb : Nat) : Nat := kb * 1024 % 2 ^ 32

def frOpen (bufSize : Nat) : FileR :=
  { offCur := 0, bufCap := if bufSize ≠ 0 then bufSize else 64 * 1024,
    fcache := Fcache.init 2, eof := false }

/-- What `fr_process()` does with the block it has found or read. -/
def frDone (f : FileR) (b : FcacheBuf) (off : Nat) : PhiR × Bytes × FileR :=
  let out := b.ptr.drop (min b.ptr.length (off - b.off))
  let f := { f with offCur := b.off + b.ptr.length }
  if f.eof ∧ out = [] then (.done, [], f)
  else (.data, out, { f with eof := out = [] })

/-- `fr_process()` on a file with these contents: the result, `t->data_out` and the filter.
`seek` is `t->input.seek`, `none` for `~0ULL`. -/
def frProcess (file : Bytes) (f : FileR) (seek : Option Nat) : PhiR × Bytes × FileR :=
  let off := seek.getD f.offCur
  match f.fcache.find off with
  | some b => frDone f b off
  | none =>
    let offAl := off - off % align
    let b : FcacheBuf := ⟨readat file f.bufCap offAl, offAl⟩
    frDone { f with fcache := f.fcache.fill b } b off

/-- The filter between two calls, with what it has passed on since the last seek request. -/
structure FrRun where
  ret : PhiR
  f : FileR
  start : Nat
  got : Bytes
  deriving DecidableEq, Repr

namespace FrRun

def init (kb : Nat) : FrRun := ⟨.data, frOpen (rbufferSize kb), 0, []⟩

/-- The conveyor doesn't call the filter again after `PHI_DONE`. -/
def step (file : Bytes) (s : FrRun) (seek : Option Nat) : Option FrRun :=
  if s.ret = .done then none
  else
    let r := frProcess file s.f seek
    some ⟨r.1, r.2.2, seek.getD s.start, (if seek = none then s.got else []) ++ r.2.1⟩

/-- What came since the last seek request is the file from there on, and all of it at the
end. -/
structure Delivers (file : Bytes) (s : FrRun) : Prop where
  pre : s.got <+: file.drop s.start
  all : s.ret = .done → s.got = file.drop s.start

end FrRun

/-- The buffer holds a part of the file. -/
def FcacheBuf.Reads (b : FcacheBuf) (file : Bytes) : Prop := b.ptr <+: file.drop b.off

/-- Reading at an aligned offset reaches the requested one, unless the file ends before. -/
def Reaches (cap : Nat) (file : Bytes) : Prop := align ≤ cap ∨ file.length ≤ cap

instance (cap : Nat) (file : Bytes) : Decidable (Reaches cap file) :=
  inferInstanceAs (Decidable (align ≤ cap ∨ file.length ≤ cap))

section Blocks

variable {file : Bytes} {f : FileR} {b : FcacheBuf} {cap off : Nat}

theorem Fcache.find_some {c : Fcache} (h : c.find off = some b) :
    b ∈ c.bufs ∧ b.off ≤ off ∧ off < b.off + b.ptr.length := by
  have hmem := List.mem_of_find?_eq_some h
  have hprop := List.find?_some h
  simp only [decide_eq_true_eq] at hprop
  exact ⟨hmem, hprop⟩

theorem Fcache.find_none {c : Fcache}
    (h : ∀ b ∈ c.bufs, ¬ (b.off ≤ off ∧ off < b.off + b.ptr.length)) : c.find off = none := by
  rw [Fcache.find, List.find?_eq_none]
  intro b hb
  simpa only [decide_eq_true_eq] using h b hb

theorem readat_reads (file : Bytes) (cap off : Nat) : (⟨readat file cap off, off⟩ : FcacheBuf).Reads file :=
  List.take_prefix _ _

theorem FcacheBuf.Reads.from (h : b.Reads file) (hoff : b.off ≤ off) :
    b.ptr.drop (off - b.off) <+: file.drop off := by
  obtain ⟨t,ht⟩ := h
  have hd : (file.drop b.off).drop (off - b.off) = file.drop off := by
    rw [List.drop_drop, Nat.add_sub_cancel' hoff]
  rw [← hd, ← ht, List.drop_append]
  exact List.prefix_append _ _

theorem FcacheBuf.Reads.length_le (h : b.Reads file) : b.ptr.length ≤ file.length - b.off := by
  have hlen := List.IsPrefix.length_le h
  rwa [List.length_drop] at hlen

/-- A block read for an offset inside of the file has the byte at that offset. -/
theorem readat_covers (h : Reaches cap file) (hoff : off < file.length) :
    off < off - off % align + (readat file cap (off - off % align)).length := by
  have hmod : off % align < align := Nat.mod_lt _ (by decide)
  have hle : off % align ≤ off := Nat.mod_le _ _
  rw [readat, List.length_take, List.length_drop]
  rcases h with h | h
  · omega
  · omega

/-- A block read for an offset behind the file ends where the file does, or behind it. -/
theorem readat_end (h : Reaches cap file) (hoff : file.length ≤ off) :
    file.length ≤ off - off % align + (readat file cap (off - off % align)).length := by
  have hmod : off % align < align := Nat.mod_lt _ (by decide)
  have hle : off % align ≤ off := Nat.mod_le _ _
  rw [readat, List.length_take, List.length_drop]
  rcases h with h | h
  · omega
  · omega

/-- The block a call of `fr_process()` passes on. -/
structure Serves (file : Bytes) (off : Nat) (b : FcacheBuf) : Prop where
  reads : b.Reads file
  le : b.off ≤ off
  covers : off < file.length → off < b.off + b.ptr.length
  behind : file.length ≤ off → file.length ≤ b.off + b.ptr.length

theorem frProcess_serves (hcap : Reaches f.bufCap file)
    (hblocks : ∀ b ∈ f.fcache.bufs, b.Reads file) (seek : Option Nat) :
    ∃ f' b, frProcess file f seek = frDone f' b (seek.getD f.offCur) ∧ f'.bufCap = f.bufCap ∧
      (∀ b ∈ f'.fcache.bufs, b.Reads file) ∧ Serves file (seek.getD f.offCur) b := by
  simp only [frProcess]
  generalize hoff : seek.getD f.offCur = off
  cases hfind : f.fcache.find off with
  | some b =>
    obtain ⟨hmem,hlow,hhigh⟩ := Fcache.find_some hfind
    have hr := hblocks b hmem
    have hlen := hr.length_le
    exact ⟨f, b, rfl, rfl, hblocks, hr, hlow, fun _ => hhigh, fun _ => by omega⟩
  | none =>
    have hr := readat_reads file f.bufCap (off - off % align)
    refine ⟨_, _, rfl, rfl, ?_, hr, Nat.sub_le _ _, readat_covers hcap, readat_end hcap⟩
    intro b hb
    rcases List.mem_or_eq_of_mem_set hb with h | rfl
    · exact hblocks b h
    · exact hr

theorem frDone_out (f : FileR) (b : FcacheBuf) (off : Nat) :
    (frDone f b off).2.1 = b.ptr.drop (off - b.off) := by
  have hdrop : b.ptr.drop (min b.ptr.length (off - b.off)) = b.ptr.drop (off - b.off) := by
    by_cases h : b.ptr.length ≤ off - b.off
    · rw [Nat.min_eq_left h, List.drop_length, List.drop_eq_nil_of_le h]
    · rw [Nat.min_eq_right (by omega)]
  simp only [frDone]
  split
  · rename_i hnil
    rw [← hdrop, hnil.2]
  · exact hdrop

theorem frDone_f (f : FileR) (b : FcacheBuf) (off : Nat) :
    (frDone f b off).2.2.offCur = b.off + b.ptr.length ∧
      (frDone f b off).2.2.bufCap = f.bufCap ∧ (frDone f b off).2.2.fcache = f.fcache := by
  simp only [frDone]
  split <;> exact ⟨rfl, rfl, rfl⟩

theorem frDone_done (h : (frDone f b off).1 = .done) : (frDone f b off).2.1 = [] := by
  simp only [frDone] at h ⊢
  split
  · rfl
  · rename_i hnot
    rw [if_neg hnot] at h
    cases h

end Blocks

namespace FrRun

variable {file : Bytes} {s s' : FrRun} {seek : Option Nat}

/-- Between two calls the filter stands where the delivered part ends, or behind the file. -/
structure Reading (file : Bytes) (s : FrRun) : Prop where
  cap : Reaches s.f.bufCap file
  blocks : ∀ b ∈ s.f.fcache.bufs, b.Reads file
  delivers : Delivers file s
  pos : s.f.offCur = s.start + s.got.length ∨
    file.length ≤ s.f.offCur ∧ file.length ≤ s.start + s.got.length

theorem reading_init {kb : Nat} (h : Reaches (frOpen (rbufferSize kb)).bufCap file) :
    Reading file (init kb) := by
  refine ⟨h, ?_, ⟨List.nil_prefix, fun h => by cases h⟩, .inl rfl⟩
  intro b hb
  rw [List.eq_of_mem_replicate hb]
  exact List.nil_prefix

theorem prefix_append_of_drop {α : Type} {as bs l : List α} (ha : as <+: l)
    (hb : bs <+: l.drop as.length) : as ++ bs <+: l := by
  obtain ⟨t,rfl⟩ := ha
  rw [List.drop_left] at hb
  exact (List.prefix_append_right_inj as).mpr hb

theorem Reading.step (h : Reading file s) (hs : step file s seek = some s') :
    Reading file s' := by
  unfold FrRun.step at hs
  split at hs
  · cases hs
  obtain rfl := Option.some.inj hs
  obtain ⟨f',b,heq,hcap,hblocks,hserves⟩ := frProcess_serves h.cap h.blocks seek
  obtain ⟨hcur,hcap',hcache⟩ := frDone_f f' b (seek.getD s.f.offCur)
  have hout := frDone_out f' b (seek.getD s.f.offCur)
  -- a seek request starts anew at its offset
  obtain ⟨got,hgot⟩ : ∃ got, got = if seek = none then s.got else [] := ⟨_, rfl⟩
  obtain ⟨start,hstart⟩ : ∃ start, start = seek.getD s.start := ⟨_, rfl⟩
  obtain ⟨off,hoff⟩ : ∃ off, off = seek.getD s.f.offCur := ⟨_, rfl⟩
  have hpre : got <+: file.drop start := by
    cases seek with
    | none => rw [hgot, hstart]; exact h.delivers.pre
    | some p => rw [hgot]; exact List.nil_prefix
  have hpos : off = start + got.length ∨ file.length ≤ off ∧ file.length ≤ start + got.length := by
    cases seek with
    | none => rw [hgot, hstart, hoff]; exact h.pos
    | some p => left; rw [hgot, hstart, hoff]; rfl
  rw [← hgot, ← hstart, heq]
  rw [← hoff] at hserves hout hcur hcap' hcache ⊢
  have hnodata : file.length ≤ off → (frDone f' b off).2.1 = [] := by
    intro hle
    have hlen := hserves.reads.length_le
    rw [hout, List.drop_eq_nil_iff]
    omega
  have hall : file.length ≤ off → got = file.drop start := by
    intro hle
    apply hpre.eq_of_length_le
    rw [List.length_drop]
    omega
  constructor
  · show Reaches (frDone f' b off).2.2.bufCap file
    rw [hcap', hcap]
    exact h.cap
  · show ∀ b' ∈ (frDone f' b off).2.2.fcache.bufs, b'.Reads file
    rw [hcache]
    exact hblocks
  · constructor
    · show got ++ (frDone f' b off).2.1 <+: file.drop start
      by_cases hin : off < file.length
      · rw [hout]
        apply prefix_append_of_drop hpre
        rw [List.drop_drop, show start + got.length = off by omega]
        exact hserves.reads.from hserves.le
      · rw [hnodata (by omega), List.append_nil]
        exact hpre
    · intro hdone
      show got ++ (frDone f' b off).2.1 = file.drop start
      have hnil := frDone_done hdone
      rw [hnil, List.append_nil]
      apply hall
      by_contra hin
      have hcov := hserves.covers (by omega)
      rw [hout, List.drop_eq_nil_iff] at hnil
      have := hserves.le
      omega
  · show (frDone f' b off).2.2.offCur = start + (got ++ (frDone f' b off).2.1).length ∨
      file.length ≤ (frDone f' b off).2.2.offCur ∧
        file.length ≤ start + (got ++ (frDone f' b off).2.1).length
    rw [hcur, List.length_append]
    by_cases hin : off < file.length
    · left
      have hcov := hserves.covers hin
      have hle := hserves.le
      rw [hout, List.length_drop]
      omega
    · right
      have hend := hserves.behind (by omega)
      omega

/-- With a short buffer every offset below 4 KiB is served by the start of the file. -/
theorem frProcess_short {cap off : Nat} {c : Fcache} {e : Bool} {blk : FcacheBuf}
    (hblk : blk = ⟨file.take cap, 0⟩) (hoff : off < align)
    (hmiss : ∀ b ∈ c.bufs, ¬ (b.off ≤ off ∧ off < b.off + b.ptr.length)) :
    frProcess file ⟨off, cap, c, e⟩ none = frDone ⟨off, cap, c.fill blk, e⟩ blk off := by
  have hal : off - off % align = 0 := by rw [Nat.mod_eq_of_lt hoff, Nat.sub_self]
  simp only [frProcess, Option.getD_none, Fcache.find_none hmiss, hal, readat, List.drop_zero, hblk]

/-- A file that is longer than a short buffer ends after the first block. -/
theorem short_buffer_ends {kb : Nat} (h : ¬ Reaches (frOpen (rbufferSize kb)).bufCap file) :
    ∃ s, Machine.run (step file) (init kb) [none,none,none] = some s ∧
      s.ret = .done ∧ s.got ≠ file.drop s.start := by
  obtain ⟨cap,hcap⟩ : ∃ cap, cap = (frOpen (rbufferSize kb)).bufCap := ⟨_, rfl⟩
  rw [← hcap] at h
  have halign : cap < align := by
    by_contra hge
    exact h (.inl (by omega))
  have hlong : cap < file.length := by
    by_contra hge
    exact h (.inr (by omega))
  have hpos : 0 < cap := by
    rw [hcap]
    show 0 < if rbufferSize kb ≠ 0 then rbufferSize kb else 64 * 1024
    split <;> omega
  obtain ⟨blk,hblk⟩ : ∃ blk : FcacheBuf, blk = ⟨file.take cap, 0⟩ := ⟨_, rfl⟩
  have hblen : blk.ptr.length = cap := by rw [hblk, List.length_take]; omega
  obtain ⟨none',hnone⟩ : ∃ b : FcacheBuf, b = ⟨[], 2 ^ 64 - 1⟩ := ⟨_, rfl⟩
  have hbase : blk.off = 0 := by rw [hblk]
  have hal : align = 4096 := rfl
  -- neither an empty buffer nor the start of the file has the byte at `cap`
  have hempty : ∀ off ≤ cap, ¬ (none'.off ≤ off ∧ off < none'.off + none'.ptr.length) := by
    intro off hoff
    rw [hnone]
    rintro ⟨h,_⟩
    have h' : 2 ^ 64 - 1 ≤ off := h
    omega
  have hshort : ¬ (blk.off ≤ cap ∧ cap < blk.off + blk.ptr.length) := by omega
  have hne : blk.ptr ≠ [] := List.length_pos_iff.mp (by omega)
  have hinit : init kb = ⟨.data, ⟨0, cap, ⟨[none', none'], 0⟩, false⟩, 0, []⟩ := by
    rw [hnone, hcap]; rfl
  have h1 : step file (init kb) none =
      some ⟨.data, ⟨cap, cap, ⟨[blk, none'], 1⟩, false⟩, 0, blk.ptr⟩ := by
    have hp := frProcess_short (c := ⟨[none', none'], 0⟩) (e := false) hblk (by decide : 0 < align)
      (by simpa using hempty 0 (Nat.zero_le _))
    rw [hinit]
    simp [step,hp,frDone,Fcache.fill,hblen,hne,hbase]
  have h2 : step file ⟨.data, ⟨cap, cap, ⟨[blk, none'], 1⟩, false⟩, 0, blk.ptr⟩ none =
      some ⟨.data, ⟨cap, cap, ⟨[blk, blk], 0⟩, true⟩, 0, blk.ptr⟩ := by
    have hp := frProcess_short (c := ⟨[blk, none'], 1⟩) (e := false) hblk halign
      (List.forall_mem_cons.mpr ⟨hshort, List.forall_mem_singleton.mpr (hempty cap (Nat.le_refl _))⟩)
    simp [step,hp,frDone,Fcache.fill,hblen,hbase]
  have h3 : step file ⟨.data, ⟨cap, cap, ⟨[blk, blk], 0⟩, true⟩, 0, blk.ptr⟩ none =
      some ⟨.done, ⟨cap, cap, ⟨[blk, blk], 1⟩, true⟩, 0, blk.ptr⟩ := by
    have hp := frProcess_short (c := ⟨[blk, blk], 0⟩) (e := true) hblk halign
      (List.forall_mem_cons.mpr ⟨hshort, List.forall_mem_singleton.mpr hshort⟩)
    simp [step,hp,frDone,Fcache.fill,hblen,hbase]
  refine ⟨_, Machine.run_cons_eq_some.mpr ⟨_, h1, Machine.run_cons_eq_some.mpr
    ⟨_, h2, Machine.run_cons_eq_some.mpr ⟨_, h3, rfl⟩⟩⟩, rfl, ?_⟩
  intro hall
  have hlen := congrArg List.length hall
  simp only [List.drop_zero] at hlen
  omega

/-- The filter delivers the file, whatever is sought and when, exactly when the buffer has at
least 4 KiB or holds the whole file. -/
theorem delivers_iff (file : Bytes) (kb : Nat) :
    (∀ calls s, Machine.run (step file) (init kb) calls = some s → Delivers file s) ↔
      Reaches (frOpen (rbufferSize kb)).bufCap file := by
  constructor
  · intro hall
    by_contra hshort
    obtain ⟨s,hrun,hret,hnot⟩ := short_buffer_ends hshort
    exact hnot ((hall _ s hrun).all hret)
  · intro hcap calls s hrun
    exact (Machine.run_invariant (fun s a s' h hs => h.step hs) hrun (reading_init hcap)).delivers

/-- A file of 1025 bytes read with `-rbuffer 1`. -/
theorem rbuffer_one_kb :
    ∃ s, Machine.run (step (List.replicate 1025 0)) (init 1) [none,none,none] = some s ∧
      s.ret = .done ∧ s.got ≠ (List.replicate 1025 0 : Bytes).drop s.start := by
  obtain ⟨s,hrun,hret,hnot⟩ := short_buffer_ends (by decide +kernel :
    ¬ Reaches (frOpen (rbufferSize 1)).bufCap (List.replicate 1025 0))
  exact ⟨s, hrun, hret, hnot⟩

end FrRun

end Phiola
