import Phiola.Track.Conveyor
import Phiola.File.Disk

/-!
# The file-write filter

The filter gathers the chunks it gets in one buffer and passes the buffer to the kernel when
it is full or when a chunk doesn't continue it. With `name_tmp` it works on `NAME.tmp` and
renames that file in the end. Expanding `@variables` in the name, the file time and the
log are left out.
-/

namespace Phiola

/-- `struct fcache_buf`, where `ptr` is the `len` bytes in use. -/
structure FcacheBuf where
  ptr : Bytes
  off : Nat
  deriving DecidableEq, Repr, Inhabited

/-- What `fbuf_write()` leaves: the buffer, the rest of the input, the returned offset and
the output, which is set only with an offset that is not negative. -/
structure FbufWrite where
  buf : FcacheBuf
  inp : Bytes
  woff : Int
  out : Bytes
  deriving DecidableEq, Repr

def fbufWrite (b : FcacheBuf) (cap : Nat) (inp : Bytes) (off : Nat) : FbufWrite :=
  if inp = [] then ⟨b, inp, -1, []⟩
  else if b.ptr ≠ [] then
    if b.off ≤ off ∧ off ≤ u64 (b.off + b.ptr.length) ∧ off < u64 (b.off + cap) then
      -- new data overlaps with our buffer
      let k := off - b.off
      let n := min inp.length (cap - k)
      let ptr := b.ptr.take k ++ inp.take n ++ b.ptr.drop (k + n)
      if b.ptr.length < u64 (k + n) ∧ k + n ≠ cap then ⟨⟨ptr, b.off⟩, inp.drop n, -1, []⟩
      else ⟨⟨ptr, b.off⟩, inp.drop n, i64 b.off, ptr⟩
    else ⟨b, inp, i64 b.off, b.ptr⟩
  else if cap < inp.length then ⟨b, [], i64 off, inp⟩
  else ⟨⟨inp, off⟩, [], -1, []⟩

/-- The part of `phi_track_conf.ofile` the filter reads, with the name after `fw_name()`. -/
structure OFile where
  name : String
  nameTmp : Bool
  overwrite : Bool
  bufSize : Nat

/-- `struct file_w`. An open descriptor is the name it was opened under. `written` holds what
the kernel was given so far, `tries` counts the writes. -/
structure FileW where
  fd : Option String
  offCur : Nat
  size : Nat
  wbuf : FcacheBuf
  bufCap : Nat
  name : String
  filenameTmp : Option String
  fin : Bool
  tries : Nat
  written : List (Nat × Bytes)
  deriving Inhabited

/-- One call of `process()`: whether the filter is first in the chain, `t->output.seek`
(`none` is `~0ULL`) and `t->data_in`. -/
structure FwCall where
  first : Bool
  seek : Option Nat
  dataIn : Bytes

def tmpName (name : String) : String := name ++ ".tmp"

theorem tmpName_ne (name : String) : tmpName name ≠ name := by
  intro h
  have hlen := congrArg String.length h
  simp [tmpName] at hlen

def fwClose (sys : Sys) (f : FileW) (d : Dir) : Dir :=
  match f.fd with
  | none => d
  | some fd =>
    let d := if sys.truncOk then d.set fd ((d fd).map (trunc · f.size)) else d
    if !sys.closeOk then d
    else if !f.fin then fffileRemove sys d f.name
    else
      match f.filenameTmp with
      | some tmp => (fffileRename sys d tmp f.name).1
      | none => d

def fwOpen (sys : Sys) (conf : OFile) (d : Dir) : Option FileW × Dir :=
  let f : FileW :=
    { fd := none, offCur := 0, size := 0, wbuf := ⟨[], 0⟩,
      bufCap := if conf.bufSize ≠ 0 then conf.bufSize else 64 * 1024,
      name := conf.name, filenameTmp := none, fin := false, tries := 0, written := [] }
  if conf.nameTmp ∧ !conf.overwrite ∧ (d conf.name).isSome then (none, fwClose sys f d)
  else
    let f := if conf.nameTmp then { f with filenameTmp := some (tmpName conf.name) } else f
    let fn := if conf.nameTmp then tmpName conf.name else conf.name
    match fffileOpen sys d fn (!conf.overwrite) with
    | none => (none, fwClose sys f d)
    | some d => (some { f with fd := some fn }, d)

/-- Pass data to kernel. `none` is a failed write. -/
def fwWrite (sys : Sys) (f : FileW) (d : Dir) (bs : Bytes) (off : Nat) : Option (FileW × Dir) :=
  match f.fd with
  | none => none
  | some fd =>
    if sys.writeOk f.tries ∧ off + bs.length ≤ offMax then
      some ({ f with size := max f.size (off + bs.length), tries := f.tries + 1,
                     written := f.written ++ [(off, bs)] },
            d.set fd ((d fd).map (writeat · off bs)))
    else none

theorem fbufWrite_progress {b : FcacheBuf} {cap : Nat} {inp : Bytes} {off : Nat}
    (h : ¬ (fbufWrite b cap inp off).woff < 0) :
    2 * (fbufWrite b cap inp off).inp.length < 2 * inp.length + (if b.ptr = [] then 0 else 1) := by
  revert h
  fun_cases fbufWrite b cap inp off with
  | case1 hinp => intro h; exact absurd (by decide : (-1 : Int) < 0) h
  | case2 hinp hb hin k n ptr hgrow => intro h; exact absurd (by decide : (-1 : Int) < 0) h
  | case3 hinp hb hin k n ptr hgrow =>
    intro _
    rw [if_neg hb, List.length_drop]
    omega
  | case4 hinp hb hin =>
    intro _
    rw [if_neg hb]
    exact Nat.lt_succ_self _
  | case5 hinp hb hcap =>
    intro _
    have hpos : 0 < inp.length := List.length_pos_iff.mpr hinp
    simp only [List.length_nil]
    omega
  | case6 hinp hb hcap => intro h; exact absurd (by decide : (-1 : Int) < 0) h

/-- The loop of `fw_process()`. -/
def fwLoop (sys : Sys) (first : Bool) (f : FileW) (d : Dir) (inp : Bytes) (off : Nat) :
    PhiR × FileW × Dir :=
  let r := fbufWrite f.wbuf f.bufCap inp off
  let off' := u64 (off + (inp.length - r.inp.length))
  let f' := { f with wbuf := r.buf }
  if _h : r.woff < 0 then
    if first then
      if r.buf.ptr ≠ [] then
        match fwWrite sys f' d r.buf.ptr r.buf.off with
        | none => (.err, f', d)
        | some (f'', d') => (.done, { f'' with fin := true }, d')
      else (.done, { f' with fin := true }, d)
    else (.more, { f' with offCur := off' }, d)
  else
    match fwWrite sys f' d r.out r.woff.toNat with
    | none => (.err, f', d)
    | some (f'', d') => fwLoop sys first { f'' with wbuf := ⟨[], 0⟩ } d' r.inp off'
termination_by 2 * inp.length + (if f.wbuf.ptr = [] then 0 else 1)
decreasing_by simpa using fbufWrite_progress _h

def fwProcess (sys : Sys) (c : FwCall) (f : FileW) (d : Dir) : PhiR × FileW × Dir :=
  fwLoop sys c.first f d c.dataIn (c.seek.getD f.offCur)

end Phiola
