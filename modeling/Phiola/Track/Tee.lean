import Phiola.Framework.Machine
import Phiola.Track.Conveyor
import Mathlib.Data.List.Range

/-!
# Recording the pieces of a stream

The tee filter stands behind the icy filter and before the playback. What comes through it goes into the
ring of a bridge, from which an output track of its own writes a file. When the icy filter has set new
metadata the filter lets the output track finish and starts the next one. The rings never overflow here.
-/

namespace Phiola

/-- What the stream brings: a chunk, with the metadata that the icy filter read before it, or metadata
from a filter behind the tee filter. -/
inductive StreamEv (α M : Type)
  | chunk (data : List α) (tags : Option M)
  | tags (m : M)
  deriving DecidableEq

/-- The stream cut into pieces: those that are complete, and the one that grows. -/
structure Recording (α : Type) where
  done : List (List α)
  last : Option (List α)
  hasMeta : Bool
  deriving DecidableEq

namespace Recording

variable {α M : Type}

def init (hasMeta : Bool) : Recording α := ⟨[],none,hasMeta⟩

/-- A chunk with new metadata begins a piece if there was metadata before. -/
def next (r : Recording α) : StreamEv α M → Recording α
  | .tags _ => { r with hasMeta := true }
  | .chunk data tags =>
    match r.last with
    | none => ⟨r.done,some data,r.hasMeta || tags.isSome⟩
    | some d =>
      if r.hasMeta && tags.isSome then ⟨r.done ++ [d],some data,true⟩
      else ⟨r.done,some (d ++ data),r.hasMeta || tags.isSome⟩

def pieces (r : Recording α) : List (List α) := r.done ++ r.last.toList

/-- The recording of a stream. -/
def of (hasMeta : Bool) (hist : List (StreamEv α M)) : Recording α := hist.foldl next (init hasMeta)

theorem of_snoc (hasMeta : Bool) (hist : List (StreamEv α M)) (ev : StreamEv α M) :
    of hasMeta (hist ++ [ev]) = (of hasMeta hist).next ev := by
  rw [of,List.foldl_append]
  rfl

end Recording

/-- The bytes of a stream. -/
def streamData {α M : Type} (hist : List (StreamEv α M)) : List α :=
  hist.flatMap fun
    | .chunk data _ => data
    | .tags _ => []

namespace Recording

variable {α M : Type}

theorem flatten_next (r : Recording α) (ev : StreamEv α M) :
    (r.next ev).pieces.flatten = r.pieces.flatten ++ streamData [ev] := by
  cases ev with
  | tags m => simp [next,pieces,streamData]
  | chunk data tags =>
    cases hl : r.last with
    | none => simp [next,pieces,streamData,hl]
    | some d =>
      by_cases hm : (r.hasMeta && tags.isSome) = true
      · simp [next,pieces,streamData,hl,hm]
      · simp [next,pieces,streamData,hl,hm]

theorem flatten_pieces (hasMeta : Bool) (hist : List (StreamEv α M)) :
    (of hasMeta hist).pieces.flatten = streamData hist := by
  induction hist using List.reverseRecOn with
  | nil => rfl
  | append_singleton hist ev ih =>
    rw [of_snoc,flatten_next,ih]
    simp [streamData]

end Recording

/-- `enum` of `tee_process()` -/
inductive TeeState
  | init
  | waitMeta
  | data
  deriving DecidableEq, Repr

/-- `struct tee_brg`; `sent` is no field of the source: all that was written into the ring. -/
structure TeeBrg (α : Type) where
  users : Nat
  ring : List α
  sent : List α
  deriving DecidableEq

/-- An output track with its bridge and its writer: its metadata, how much of the ring is held by
`rhead`, what the writer got; whether its task is posted, whether it was told to stop, whether it is
closed. -/
structure TeeTrack (α M : Type) where
  tags : Option M
  udata : Nat
  hold : Nat
  file : List α
  woken : Bool
  stop : Bool
  closed : Bool
  deriving DecidableEq

/-- A track with the tee filter, its `struct tee`, the bridges and the output tracks in the order of
their creation. `behind` says that a filter behind the tee filter is the current one, `live` that the tee
filter is in the chain; `hist` is no field of the source. -/
structure TeeRun (α M : Type) where
  tags : Option M
  metaChanged : Bool
  state : TeeState
  outTrk : Option Nat
  brg : Option Nat
  brgs : Nat → TeeBrg α
  nBrg : Nat
  trks : Nat → TeeTrack α M
  nTrk : Nat
  behind : Bool
  live : Bool
  hist : List (StreamEv α M)

namespace TeeRun

variable {α M : Type}

/-- A track that may have metadata from the start. -/
def init (tags : Option M) : TeeRun α M :=
  ⟨tags,false,.init,none,none,fun _ => ⟨0,[],[]⟩,0,fun _ => ⟨none,0,0,[],false,false,false⟩,0,false,true,
    []⟩

def setBrg (s : TeeRun α M) (b : Nat) (x : TeeBrg α) : TeeRun α M :=
  { s with brgs := Function.update s.brgs b x }

def setTrk (s : TeeRun α M) (k : Nat) (x : TeeTrack α M) : TeeRun α M :=
  { s with trks := Function.update s.trks k x }

/-- `tee_brg_new()` -/
def brgNew (s : TeeRun α M) : TeeRun α M :=
  { s.setBrg s.nBrg ⟨1,[],[]⟩ with brg := some s.nBrg, nBrg := s.nBrg + 1 }

/-- `tee_brg_unref()` -/
def brgUnref (s : TeeRun α M) : Option Nat → TeeRun α M
  | none => s
  | some b => s.setBrg b { s.brgs b with users := (s.brgs b).users - 1 }

/-- `ffring_writestr()` -/
def write (s : TeeRun α M) (data : List α) : TeeRun α M :=
  match s.brg with
  | none => s
  | some b =>
    s.setBrg b { s.brgs b with ring := (s.brgs b).ring ++ data, sent := (s.brgs b).sent ++ data }

/-- `track->create()` with `meta_if->copy()` -/
def trkCreate (s : TeeRun α M) : TeeRun α M :=
  { s.setTrk s.nTrk ⟨s.tags,0,0,[],false,false,false⟩ with
    outTrk := some s.nTrk, nTrk := s.nTrk + 1 }

/-- `track->start()` of the output track with the bridge. -/
def trkStart (s : TeeRun α M) : TeeRun α M :=
  match s.outTrk, s.brg with
  | some k, some b =>
    (s.setBrg b { s.brgs b with users := 2 }).setTrk k { s.trks k with udata := b, woken := true }
  | some _, none => s
  | none, _ => s

/-- `track->wake()` -/
def trkWake (s : TeeRun α M) : TeeRun α M :=
  match s.outTrk with
  | some k => s.setTrk k { s.trks k with woken := true }
  | none => s

/-- `track->stop()` -/
def trkStop (s : TeeRun α M) : TeeRun α M :=
  match s.outTrk with
  | some k => s.setTrk k { s.trks k with woken := true, stop := true }
  | none => s

/-- The end of `tee_process()`. -/
def pass (s : TeeRun α M) (data : List α) (start wake : Bool) : TeeRun α M :=
  let s := if s.brg.isNone then s.brgNew else s
  let s := s.write data
  if start then s.trkStart else if wake then s.trkWake else s

def passRet (first : Bool) : PhiR := if first then .done else .data

/-- The case `I_WAIT_META`. -/
def waitMeta (s : TeeRun α M) (fwd first : Bool) (data : List α) : TeeRun α M × PhiR :=
  if s.tags.isNone then
    if fwd then (s.pass data false false,passRet first) else (s,.more)
  else ({ s.trkCreate with state := .data }.pass data true false,passRet first)

/-- The current output track is told to stop. -/
def cut (s : TeeRun α M) : TeeRun α M :=
  { (s.trkStop.brgUnref s.brg) with outTrk := none, brg := none, state := .waitMeta }

/-- `tee_process()` -/
def process (s : TeeRun α M) (fwd first : Bool) (data : List α) : TeeRun α M × PhiR :=
  match s.state with
  | .init => ({ s with state := .waitMeta }.pass data false false,passRet first)
  | .data =>
    if !fwd then (s,.more)
    else if !s.metaChanged then (s.pass data false true,passRet first)
    else s.cut.waitMeta fwd first data
  | .waitMeta => s.waitMeta fwd first data

/-- `icy_meta()`, when the icy filter read metadata before the chunk. -/
def icyMeta (s : TeeRun α M) (m : Option M) : TeeRun α M :=
  { s with tags := m.or s.tags, metaChanged := s.metaChanged || m.isSome }

/-- The conveyor goes on from the tee filter: forward, or back to the filter before it. -/
def goOn (x : TeeRun α M × PhiR) : TeeRun α M :=
  { x.1 with behind := x.2 != .more, live := x.2 != .done }

/-- `tee_brg_process()` of the output track `k`, and the writer; `n` bytes come in one part. -/
def outRun (s : TeeRun α M) (k n : Nat) : Option (TeeRun α M) :=
  let t := s.trks k
  let b := s.brgs t.udata
  let ring := b.ring.drop t.hold
  if ring = [] then
    if t.stop then
      some ((s.setBrg t.udata { b with ring := [] }).setTrk k { t with hold := 0, closed := true }
        |>.brgUnref (some t.udata))
    else
      some ((s.setBrg t.udata { b with ring := [] }).setTrk k { t with hold := 0, woken := false })
  else if 0 < n ∧ n ≤ ring.length then
    some ((s.setBrg t.udata { b with ring := ring }).setTrk k
      { t with hold := n, file := t.file ++ ring.take n })
  else none

inductive Act (α M : Type)
  | fwd (data : List α) (tags : Option M) (first : Bool)
  | back
  | ui
  | tags (m : M)
  | out (k n : Nat)
  | close
  deriving DecidableEq

def step (s : TeeRun α M) : Act α M → Option (TeeRun α M)
  -- a chunk comes from the icy filter
  | .fwd data tags first =>
    if s.live ∧ s.behind = false then
      some (goOn ({ s.icyMeta tags with hist := s.hist ++ [StreamEv.chunk data tags] }.process true first data))
    else none
  -- the playback wants more
  | .back =>
    if s.live ∧ s.state ≠ .init then some (goOn (s.process false false [])) else none
  -- the ui filter is called
  | .ui => if s.behind then some { s with metaChanged := false } else none
  | .tags m => if s.behind then some { s with tags := some m, hist := s.hist ++ [.tags m] } else none
  | .out k n =>
    if k < s.nTrk ∧ (s.trks k).woken ∧ (s.trks k).closed = false then s.outRun k n else none
  -- `tee_close()`
  | .close => some { (s.trkStop.brgUnref s.brg) with outTrk := none, brg := none, live := false }

/-- What the output track `k` was given. -/
def sent (s : TeeRun α M) (k : Nat) : List α := (s.brgs (s.trks k).udata).sent

def outputs (s : TeeRun α M) : List (List α) := (List.range s.nTrk).map s.sent

/-- Each output track was given one piece of the stream, in order, and writes it to its file; there is
none only as long as there is no metadata. -/
structure Recorded (s : TeeRun α M) (hasMeta : Bool) : Prop where
  outputs : s.state = .data → s.outputs = (Recording.of hasMeta s.hist).pieces
  whole : s.state = .data → s.outputs.flatten = streamData s.hist
  waiting : s.state ≠ .data → s.nTrk = 0 ∧
    (s.live = true → s.behind = false → s.tags = none ∨ streamData s.hist = [])
  files : ∀ k, k < s.nTrk → (s.trks k).file <+: s.sent k ∧
    ((s.trks k).woken = false ∨ (s.trks k).closed = true → (s.trks k).file = s.sent k)

/-- The bytes from the first metadata on. -/
def fromMeta : List (StreamEv α M) → List α
  | [] => []
  | .chunk _ none :: rest => fromMeta rest
  | .chunk data (some _) :: rest => data ++ streamData rest
  | .tags _ :: rest => streamData rest

/-- The ui filter was called since the metadata changed. -/
def Cleared (s : TeeRun α M) : Act α M → Prop
  | .fwd _ _ _ => s.metaChanged = false
  | .back => True
  | .ui => True
  | .tags _ => True
  | .out _ _ => True
  | .close => True

instance (s : TeeRun α M) : (a : Act α M) → Decidable (s.Cleared a)
  | .fwd _ _ _ => inferInstanceAs (Decidable (s.metaChanged = false))
  | .back => inferInstanceAs (Decidable True)
  | .ui => inferInstanceAs (Decidable True)
  | .tags _ => inferInstanceAs (Decidable True)
  | .out _ _ => inferInstanceAs (Decidable True)
  | .close => inferInstanceAs (Decidable True)

/-- The output track `k` and its bridge. -/
structure Fed (k : Nat) (t : TeeTrack α M) (b : TeeBrg α) : Prop where
  udata : t.udata = k
  held : t.hold ≤ b.ring.length
  fifo : t.file ++ b.ring.drop t.hold = b.sent
  asleep : t.woken = false → b.ring.drop t.hold = []
  closed : t.closed = true → t.stop = true ∧ b.ring.drop t.hold = []

namespace Fed

variable {k : Nat} {t : TeeTrack α M} {b : TeeBrg α}

theorem write (h : Fed k t b) (hstop : t.stop = false) (data : List α) :
    Fed k { t with woken := true } { b with ring := b.ring ++ data, sent := b.sent ++ data } := by
  have hd : (b.ring ++ data).drop t.hold = b.ring.drop t.hold ++ data :=
    List.drop_append_of_le_length h.held
  refine ⟨h.udata,?_,?_,fun hw => by (cases hw),fun hc => ?_⟩
  · simp only [List.length_append]
    exact Nat.le_add_right_of_le h.held
  · simp only [hd,← List.append_assoc,h.fifo]
  · rw [(h.closed hc).1] at hstop
    cases hstop

theorem stop (h : Fed k t b) : Fed k { t with woken := true, stop := true } b :=
  ⟨h.udata,h.held,h.fifo,fun hw => by (cases hw),fun hc => ⟨rfl,(h.closed hc).2⟩⟩

theorem users (h : Fed k t b) (n : Nat) : Fed k t { b with users := n } :=
  ⟨h.udata,h.held,h.fifo,h.asleep,h.closed⟩

theorem start (tags : Option M) (n : Nat) (data : List α) :
    Fed k ⟨tags,k,0,[],true,false,false⟩ ⟨n,data,data⟩ :=
  ⟨rfl,Nat.zero_le _,rfl,fun hw => by (cases hw),fun hc => by cases hc⟩

theorem file (h : Fed k t b) : t.file <+: b.sent ∧
    (t.woken = false ∨ t.closed = true → t.file = b.sent) := by
  refine ⟨⟨_,h.fifo⟩,fun hc => ?_⟩
  have hnil : b.ring.drop t.hold = [] := hc.elim h.asleep fun hc => (h.closed hc).2
  have hfifo := h.fifo
  rw [hnil,List.append_nil] at hfifo
  exact hfifo

end Fed

/-- The filter has not been called yet. -/
structure Unused (s : TeeRun α M) (r : Recording α) : Prop where
  outTrk : s.outTrk = none
  brg : s.brg = none
  nBrg : s.nBrg = 0
  nTrk : s.nTrk = 0
  done : r.done = []
  last : r.last = none

/-- It waits for metadata and keeps the stream in the ring of the first bridge. -/
structure Waiting (s : TeeRun α M) (r : Recording α) : Prop where
  outTrk : s.outTrk = none
  brg : s.brg = some 0
  nBrg : s.nBrg = 1
  nTrk : s.nTrk = 0
  ring : (s.brgs 0).ring = (s.brgs 0).sent
  done : r.done = []
  last : r.last = some (s.brgs 0).sent

/-- The output track `n` gets the stream. -/
structure Started (s : TeeRun α M) (r : Recording α) (n : Nat) : Prop where
  outTrk : s.outTrk = some n
  brg : s.brg = some n
  nBrg : s.nBrg = n + 1
  nTrk : s.nTrk = n + 1
  tags : s.tags.isSome = true
  stop : (s.trks n).stop = false
  done : r.done = (List.range n).map fun k => (s.brgs k).sent
  last : r.last = some (s.brgs n).sent

/-- What holds while the filter is in the chain. -/
def AtState (s : TeeRun α M) (r : Recording α) : Prop :=
  match s.state with
  | .init => s.Unused r
  | .waitMeta => s.Waiting r ∧ (s.behind = false → s.tags = none)
  | .data => ∃ n, s.Started r n

structure Inv (s : TeeRun α M) (r : Recording α) : Prop where
  state : s.live = true → s.AtState r
  hasMeta : r.hasMeta = s.tags.isSome
  fed : ∀ k, k < s.nTrk → Fed k (s.trks k) (s.brgs k)
  noTrk : s.state ≠ .data → s.nTrk = 0
  pieces : s.state = .data → (List.range s.nTrk).map (fun k => (s.brgs k).sent) = r.pieces
  unused : s.state = .init → s.hist = [] ∧ s.behind = false

theorem Started.pieces {s : TeeRun α M} {r : Recording α} {n : Nat} (h : s.Started r n) :
    (List.range s.nTrk).map (fun k => (s.brgs k).sent) = r.pieces := by
  rw [h.nTrk,List.range_succ,List.map_append,Recording.pieces,h.done,h.last]
  rfl

variable {s : TeeRun α M} {r r' : Recording α}

theorem AtState.inv (h : s.AtState r) (hm : r.hasMeta = s.tags.isSome) (hne : s.state ≠ .init)
    (hfed : ∀ k, k < s.nTrk → Fed k (s.trks k) (s.brgs k)) : Inv s r := by
  refine ⟨fun _ => h,hm,hfed,fun hd => ?_,fun he => ?_,fun he => absurd he hne⟩
  · unfold AtState at h
    split at h
    · exact h.nTrk
    · exact h.1.nTrk
    · next he => exact absurd he hd
  · simp only [AtState,he] at h
    obtain ⟨n,hn⟩ := h
    exact hn.pieces

theorem Unused.chunk (h : s.Unused r) (data : List α) (tags : Option M) :
    Waiting ({ s with state := .waitMeta }.pass data false false) (r.next (.chunk data tags)) := by
  simp only [pass,h.brg,Option.isNone_none,if_true,brgNew,setBrg,write,h.nBrg,Function.update_self]
  exact ⟨h.outTrk,rfl,rfl,h.nTrk,by simp,by simp [Recording.next,h.last,h.done],
    by simp [Recording.next,h.last]⟩

/-- The piece that grows gets a chunk. -/
structure Grows (r r' : Recording α) (data : List α) : Prop where
  done : r'.done = r.done
  last : r'.last = r.last.map (· ++ data)

theorem grows_chunk {d : List α} (hl : r.last = some d) {tags : Option M}
    (h : (r.hasMeta && tags.isSome) = false) (data : List α) : Grows r (r.next (.chunk data tags)) data := by
  constructor <;> simp [Recording.next,hl,h]

theorem grows_nil {d : List α} (hl : r.last = some d) : Grows r r [] :=
  ⟨rfl,by simp [hl]⟩

theorem Waiting.pass (h : s.Waiting r) {data : List α} (hr : Grows r r' data) :
    Waiting (s.pass data false false) r' := by
  simp only [TeeRun.pass,h.brg,Option.isNone_some,Bool.false_eq_true,if_false,write,setBrg]
  refine ⟨h.outTrk,rfl,h.nBrg,h.nTrk,?_,hr.done.trans h.done,?_⟩
  · simp [h.ring]
  · rw [hr.last,h.last]
    simp

theorem Waiting.start (h : s.Waiting r) {data : List α} (hr : Grows r r' data)
    (htags : s.tags.isSome = true) {s' : TeeRun α M}
    (hs : s' = { s.trkCreate with state := .data }.pass data true false) :
    Started s' r' 0 ∧ ∀ k, k < s'.nTrk → Fed k (s'.trks k) (s'.brgs k) := by
  simp only [TeeRun.pass,trkCreate,setTrk,h.brg,Option.isNone_some,Bool.false_eq_true,if_false,if_true,
    write,setBrg,trkStart,h.nTrk,Function.update_self,Function.update_idem] at hs
  subst hs
  refine ⟨⟨rfl,rfl,h.nBrg,rfl,htags,by simp,hr.done.trans h.done,?_⟩,fun k hk => ?_⟩
  · rw [hr.last,h.last]
    simp
  · cases Nat.lt_one_iff.mp hk
    simp only [Function.update_self,h.ring]
    exact .start _ _ _

theorem Started.pass {n : Nat} (h : s.Started r n) (hfed : ∀ k, k < s.nTrk → Fed k (s.trks k) (s.brgs k))
    {data : List α} (hr : Grows r r' data) {s' : TeeRun α M} (hs : s' = s.pass data false true) :
    Started s' r' n ∧ ∀ k, k < s'.nTrk → Fed k (s'.trks k) (s'.brgs k) := by
  simp only [TeeRun.pass,h.brg,Option.isNone_some,Bool.false_eq_true,if_false,if_true,write,setBrg,
    trkWake,h.outTrk,setTrk] at hs
  subst hs
  refine ⟨⟨rfl,rfl,h.nBrg,h.nTrk,h.tags,by simp [h.stop],?_,?_⟩,fun k hk => ?_⟩
  · rw [hr.done,h.done]
    refine List.map_congr_left fun k hk => ?_
    have hne : k ≠ n := (List.mem_range.mp hk).ne
    simp [hne]
  · rw [hr.last,h.last]
    simp
  · by_cases hkn : k = n
    · subst hkn
      simpa using (hfed k hk).write h.stop data
    · simpa [hkn] using hfed k hk

/-- The output track is told to stop and the next one starts with the chunk. -/
theorem Started.cut {n : Nat} (h : s.Started r n) (fwd first : Bool)
    (hfed : ∀ k, k < s.nTrk → Fed k (s.trks k) (s.brgs k))
    {data : List α} (hd : r'.done = r.done ++ r.last.toList) (hl : r'.last = some data)
    {s' : TeeRun α M} (hs : s' = (s.cut.waitMeta fwd first data).1) :
    s'.state = .data ∧ Started s' r' (n + 1) ∧
      ∀ k, k < s'.nTrk → Fed k (s'.trks k) (s'.brgs k) := by
  have htags : s.tags.isNone = false := by
    rw [← Option.not_isSome,h.tags]
    rfl
  simp only [waitMeta,TeeRun.cut,trkStop,h.outTrk,h.brg,brgUnref,setTrk,setBrg,htags,
    Bool.false_eq_true,if_false,TeeRun.pass,trkCreate,Option.isNone_none,if_true,brgNew,write,trkStart,
    h.nTrk,h.nBrg,Function.update_self,Function.update_idem,List.nil_append] at hs
  subst hs
  refine ⟨rfl,⟨rfl,rfl,rfl,rfl,h.tags,by simp,?_,by simp [hl]⟩,fun k hk => ?_⟩
  · rw [hd,h.done,h.last,List.range_succ,List.map_append]
    congr 1
    · refine List.map_congr_left fun k hk => ?_
      have hne := (List.mem_range.mp hk).ne
      have hne' := ((List.mem_range.mp hk).trans (Nat.lt_succ_self n)).ne
      simp [hne,hne']
    · simp
  · by_cases hk1 : k = n + 1
    · subst hk1
      simpa using Fed.start s.tags 2 data
    · have hkn : k < n + 1 := Nat.lt_of_le_of_ne (Nat.lt_succ_iff.mp hk) hk1
      by_cases hk0 : k = n
      · subst hk0
        simpa using ((hfed k (h.nTrk ▸ hkn)).stop).users _
      · simpa [hk0,hk1] using hfed k (h.nTrk ▸ hkn)

theorem hasMeta_next (r : Recording α) (data : List α) (tags : Option M) :
    (r.next (.chunk data tags)).hasMeta = (r.hasMeta || tags.isSome) := by
  cases hl : r.last with
  | none => simp [Recording.next,hl]
  | some d =>
    by_cases hm : (r.hasMeta && tags.isSome) = true
    · obtain ⟨h1,h2⟩ := Bool.and_eq_true_iff.mp hm
      simp [Recording.next,hl,h1,h2]
    · simp [Recording.next,hl,hm]

theorem passRet_ne (first : Bool) : (passRet first != .more) = true := by
  cases first <;> rfl

theorem pass_frame (data : List α) (start wake : Bool) : (s.pass data start wake).tags = s.tags ∧
    (s.pass data start wake).state = s.state ∧ (s.pass data start wake).hist = s.hist := by
  unfold pass
  cases hb : s.brg <;> cases ho : s.outTrk <;> cases start <;> cases wake <;>
    simp [brgNew,write,setBrg,trkStart,trkWake,setTrk,hb,ho]

theorem pass_tags {data : List α} {start wake : Bool} : (s.pass data start wake).tags = s.tags :=
  (pass_frame data start wake).1

theorem pass_state {data : List α} {start wake : Bool} : (s.pass data start wake).state = s.state :=
  (pass_frame data start wake).2.1

theorem pass_hist {data : List α} {start wake : Bool} : (s.pass data start wake).hist = s.hist :=
  (pass_frame data start wake).2.2

theorem waitMeta_hist {fwd first : Bool} {data : List α} :
    (s.waitMeta fwd first data).1.hist = s.hist := by
  unfold waitMeta
  split
  · split
    · exact pass_hist
    · rfl
  · exact pass_hist

theorem cut_hist : s.cut.hist = s.hist := by
  unfold TeeRun.cut
  cases hb : s.brg <;> cases ho : s.outTrk <;> simp [trkStop,brgUnref,setBrg,setTrk,ho]

theorem process_hist {fwd first : Bool} {data : List α} :
    (s.process fwd first data).1.hist = s.hist := by
  unfold process
  split
  · exact pass_hist
  · split
    · rfl
    · split
      · exact pass_hist
      · exact waitMeta_hist.trans cut_hist
  · exact waitMeta_hist

theorem Waiting.inv (h : s.Waiting r) (hs : s.state = .waitMeta) (ht : s.behind = false → s.tags = none)
    (hm : r.hasMeta = s.tags.isSome) : Inv s r := by
  refine AtState.inv ?_ hm (by simp [hs]) fun k hk => ?_
  · simp only [AtState,hs]
    exact ⟨h,ht⟩
  · rw [h.nTrk] at hk
    cases hk

theorem Started.inv {n : Nat} (h : s.Started r n) (hs : s.state = .data) (hm : r.hasMeta = s.tags.isSome)
    (hfed : ∀ k, k < s.nTrk → Fed k (s.trks k) (s.brgs k)) : Inv s r := by
  refine AtState.inv ?_ hm (by simp [hs]) hfed
  simp only [AtState,hs]
  exact ⟨n,h⟩

theorem goOn_tags (x : TeeRun α M × PhiR) : (goOn x).tags = x.1.tags := rfl

theorem goOn_behind (x : TeeRun α M) (ret : PhiR) : (goOn (x,ret)).behind = (ret != .more) := rfl

/-- The state in which the filter is called with a chunk. -/
def given (s : TeeRun α M) (data : List α) (tags : Option M) : TeeRun α M :=
  { s.icyMeta tags with hist := s.hist ++ [StreamEv.chunk data tags] }

theorem Inv.given (h : Inv s r) (data : List α) (tags : Option M) :
    (r.next (.chunk data tags)).hasMeta = (s.given data tags).tags.isSome := by
  rw [hasMeta_next,h.hasMeta]
  cases tags with
  | none => simp [TeeRun.given,icyMeta]
  | some m => simp [TeeRun.given,icyMeta]

theorem Waiting.chunk (h : Inv s r) (hw : s.Waiting r) (hs : s.state = .waitMeta) (ht : s.tags = none)
    (data : List α) (tags : Option M) (first : Bool) :
    Inv (goOn ((s.given data tags).process true first data)) (r.next (.chunk data tags)) := by
  have hm := h.given data tags
  have hmeta : r.hasMeta = false := by rw [h.hasMeta,ht]; rfl
  have hg : Grows r (r.next (.chunk data tags)) data := grows_chunk hw.last (by simp [hmeta]) data
  have hw1 : (s.given data tags).Waiting r :=
    ⟨hw.outTrk,hw.brg,hw.nBrg,hw.nTrk,hw.ring,hw.done,hw.last⟩
  have hs1 : (s.given data tags).state = .waitMeta := hs
  cases tags with
  | none =>
    have ht1 : (s.given data none).tags.isNone = true := by simp [TeeRun.given,icyMeta,ht]
    simp only [process,hs1,waitMeta,ht1,if_true]
    have hp := hw1.pass hg
    refine Waiting.inv (s := goOn _) ⟨hp.outTrk,hp.brg,hp.nBrg,hp.nTrk,hp.ring,hp.done,hp.last⟩ ?_ ?_ ?_
    · exact pass_state.trans hs1
    · intro hb
      rw [goOn_behind,passRet_ne] at hb
      cases hb
    · rw [goOn_tags,pass_tags]
      exact hm
  | some m =>
    simp only [process,hs1,waitMeta,show (s.given data (some m)).tags.isNone = false from rfl,
      Bool.false_eq_true,if_false]
    obtain ⟨hst,hfed⟩ := hw1.start hg rfl rfl
    refine Started.inv (s := goOn _) (n := 0)
      ⟨hst.outTrk,hst.brg,hst.nBrg,hst.nTrk,hst.tags,hst.stop,hst.done,hst.last⟩ ?_ ?_ hfed
    · exact pass_state
    · rw [goOn_tags,pass_tags]
      exact hm

theorem Started.chunk (h : Inv s r) {n : Nat} (hst : s.Started r n) (hs : s.state = .data)
    (hc : s.metaChanged = false) (data : List α) (tags : Option M) (first : Bool) :
    Inv (goOn ((s.given data tags).process true first data)) (r.next (.chunk data tags)) := by
  have hm := h.given data tags
  have hmeta : r.hasMeta = true := h.hasMeta.trans hst.tags
  have htags : (s.given data tags).tags.isSome = true := by
    rw [← hm,hasMeta_next,hmeta]
    rfl
  have hst1 : (s.given data tags).Started r n :=
    ⟨hst.outTrk,hst.brg,hst.nBrg,hst.nTrk,htags,hst.stop,hst.done,hst.last⟩
  have hs1 : (s.given data tags).state = .data := hs
  cases tags with
  | none =>
    have hg : Grows r (r.next (StreamEv.chunk (M := M) data none)) data :=
      grows_chunk hst.last (by simp) data
    have hc1 : (s.given data none).metaChanged = false := by simp [TeeRun.given,icyMeta,hc]
    simp only [process,hs1,hc1,Bool.not_true,Bool.not_false,Bool.false_eq_true,if_false,if_true]
    obtain ⟨hst',hfed⟩ := hst1.pass h.fed hg rfl
    refine Started.inv (s := goOn _) (n := n)
      ⟨hst'.outTrk,hst'.brg,hst'.nBrg,hst'.nTrk,hst'.tags,hst'.stop,hst'.done,hst'.last⟩ ?_ ?_ hfed
    · exact pass_state.trans hs1
    · rw [goOn_tags,pass_tags]
      exact hm
  | some m =>
    have hc1 : (s.given data (some m)).metaChanged = true := by simp [TeeRun.given,icyMeta]
    simp only [process,hs1,hc1,Bool.not_true,Bool.false_eq_true,if_false]
    have hd : (r.next (.chunk data (some m))).done = r.done ++ r.last.toList := by
      simp [Recording.next,hst.last,hmeta]
    have hl : (r.next (.chunk data (some m))).last = some data := by
      simp [Recording.next,hst.last,hmeta]
    obtain ⟨hs',hst',hfed⟩ := hst1.cut true first h.fed hd hl rfl
    exact Started.inv (s := goOn _) (n := n + 1)
      ⟨hst'.outTrk,hst'.brg,hst'.nBrg,hst'.nTrk,hst'.tags,hst'.stop,hst'.done,hst'.last⟩ hs'
      (by rw [hasMeta_next,hmeta]; exact hst'.tags.symm) hfed

theorem Inv.chunk (h : Inv s r) (hlive : s.live = true) (hb : s.behind = false)
    (hc : s.metaChanged = false) (data : List α) (tags : Option M) (first : Bool) :
    Inv (goOn ((s.given data tags).process true first data)) (r.next (.chunk data tags)) := by
  have hat := h.state hlive
  unfold AtState at hat
  split at hat
  · next hs =>
    have hm := h.given data tags
    have hs1 : (s.given data tags).state = .init := hs
    have hu : (s.given data tags).Unused r :=
      ⟨hat.outTrk,hat.brg,hat.nBrg,hat.nTrk,hat.done,hat.last⟩
    have hp := hu.chunk data tags
    simp only [process,hs1]
    refine Waiting.inv (s := goOn _) ⟨hp.outTrk,hp.brg,hp.nBrg,hp.nTrk,hp.ring,hp.done,hp.last⟩ ?_ ?_ ?_
    · exact pass_state
    · intro hb
      rw [goOn_behind,passRet_ne] at hb
      cases hb
    · rw [goOn_tags,pass_tags]
      exact hm
  · next hs => exact hat.1.chunk h hs (hat.2 hb) data tags first
  · next hs =>
    obtain ⟨n,hst⟩ := hat
    exact hst.chunk h hs hc data tags first

theorem Inv.back (h : Inv s r) (hlive : s.live = true) (hne : s.state ≠ .init) :
    Inv (goOn (s.process false false [])) r := by
  have hat := h.state hlive
  unfold AtState at hat
  split at hat
  · next hs => exact absurd hs hne
  · next hs =>
    have hw := hat.1
    cases ht : s.tags with
    | none =>
      simp only [process,hs,waitMeta,ht,Option.isNone_none,if_true,Bool.false_eq_true,if_false]
      exact Waiting.inv (s := goOn _) ⟨hw.outTrk,hw.brg,hw.nBrg,hw.nTrk,hw.ring,hw.done,hw.last⟩ hs
        (fun _ => ht) h.hasMeta
    | some m =>
      simp only [process,hs,waitMeta,ht,Option.isNone_some,Bool.false_eq_true,if_false]
      obtain ⟨hst,hfed⟩ := hw.start (grows_nil hw.last) (by rw [ht]; rfl) rfl
      refine Started.inv (s := goOn _) (n := 0)
        ⟨hst.outTrk,hst.brg,hst.nBrg,hst.nTrk,hst.tags,hst.stop,hst.done,hst.last⟩ ?_ ?_ hfed
      · exact pass_state
      · rw [goOn_tags,pass_tags]
        exact h.hasMeta
  · next hs =>
    obtain ⟨n,hst⟩ := hat
    simp only [process,hs,Bool.not_false,if_true]
    exact Started.inv (s := goOn _) (n := n)
      ⟨hst.outTrk,hst.brg,hst.nBrg,hst.nTrk,hst.tags,hst.stop,hst.done,hst.last⟩ hs h.hasMeta h.fed

/-- What the steps of the other filters and of the output tracks leave as it is. -/
structure Same (s s' : TeeRun α M) : Prop where
  state : s'.state = s.state
  outTrk : s'.outTrk = s.outTrk
  brg : s'.brg = s.brg
  nBrg : s'.nBrg = s.nBrg
  nTrk : s'.nTrk = s.nTrk
  behind : s'.behind = s.behind
  live : s'.live = s.live
  sent : ∀ k, (s'.brgs k).sent = (s.brgs k).sent
  stop : ∀ k, (s'.trks k).stop = (s.trks k).stop
  ring : s.nTrk = 0 → s'.brgs = s.brgs

theorem Inv.same (h : Inv s r) {s' : TeeRun α M} (hs : Same s s') (hd : r'.done = r.done)
    (hl : r'.last = r.last) (hm : r'.hasMeta = s'.tags.isSome)
    (hsome : s.tags.isSome = true → s'.tags.isSome = true)
    (hnone : s.behind = false → s.tags = none → s'.tags = none)
    (hhist : s.state = .init → s.behind = false → s'.hist = s.hist)
    (hfed : ∀ k, k < s'.nTrk → Fed k (s'.trks k) (s'.brgs k)) : Inv s' r' := by
  refine ⟨fun hlive => ?_,hm,hfed,fun hne => ?_,fun he => ?_,fun he => ?_⟩
  · have hat := h.state (hs.live ▸ hlive)
    unfold AtState at hat ⊢
    rw [hs.state]
    split at hat
    · exact ⟨hs.outTrk.trans hat.outTrk,hs.brg.trans hat.brg,hs.nBrg.trans hat.nBrg,
        hs.nTrk.trans hat.nTrk,hd.trans hat.done,hl.trans hat.last⟩
    · have hw := hat.1
      have hbr := hs.ring hw.nTrk
      refine ⟨⟨hs.outTrk.trans hw.outTrk,hs.brg.trans hw.brg,hs.nBrg.trans hw.nBrg,
        hs.nTrk.trans hw.nTrk,?_,hd.trans hw.done,?_⟩,fun hb => ?_⟩
      · rw [hbr]
        exact hw.ring
      · rw [hl,hbr]
        exact hw.last
      · rw [hs.behind] at hb
        exact hnone hb (hat.2 hb)
    · obtain ⟨n,hn⟩ := hat
      refine ⟨n,hs.outTrk.trans hn.outTrk,hs.brg.trans hn.brg,hs.nBrg.trans hn.nBrg,
        hs.nTrk.trans hn.nTrk,hsome hn.tags,(hs.stop n).trans hn.stop,?_,?_⟩
      · rw [hd,hn.done]
        exact List.map_congr_left fun k _ => (hs.sent k).symm
      · rw [hl,hn.last,hs.sent n]
  · rw [hs.nTrk]
    exact h.noTrk (hs.state ▸ hne)
  · rw [hs.nTrk,Recording.pieces,hd,hl,← Recording.pieces,← h.pieces (hs.state ▸ he)]
    exact List.map_congr_left fun k _ => hs.sent k
  · obtain ⟨h1,h2⟩ := h.unused (hs.state ▸ he)
    exact ⟨(hhist (hs.state ▸ he) h2).trans h1,hs.behind.trans h2⟩

/-- The output track `k` and its bridge change, the others do not. -/
theorem Inv.setOut (h : Inv s r) {k : Nat} (hk : k < s.nTrk) {t : TeeTrack α M} {b : TeeBrg α}
    (hf : Fed k t b) (hsent : b.sent = (s.brgs k).sent) (hstop : t.stop = (s.trks k).stop) :
    Inv ((s.setBrg k b).setTrk k t) r := by
  refine h.same ⟨rfl,rfl,rfl,rfl,rfl,rfl,rfl,fun j => ?_,fun j => ?_,fun h0 => ?_⟩ rfl rfl h.hasMeta id
    (fun _ ht => ht) (fun _ _ => rfl) fun j hj => ?_
  · by_cases hjk : j = k
    · subst hjk
      simpa [setBrg,setTrk] using hsent
    · simp [setBrg,setTrk,hjk]
  · by_cases hjk : j = k
    · subst hjk
      simpa [setBrg,setTrk] using hstop
    · simp [setBrg,setTrk,hjk]
  · rw [h0] at hk
    cases hk
  · by_cases hjk : j = k
    · subst hjk
      simpa [setBrg,setTrk] using hf
    · simpa [setBrg,setTrk,hjk] using h.fed j hj

theorem Inv.out (h : Inv s r) {k n : Nat} (hk : k < s.nTrk) {s' : TeeRun α M}
    (hs : s.outRun k n = some s') : Inv s' r := by
  have hf := h.fed k hk
  have hu := hf.udata
  unfold outRun at hs
  simp only [hu] at hs
  split at hs
  · next hnil =>
    have hsent : (s.trks k).file = (s.brgs k).sent := by
      have := hf.fifo
      rwa [hnil,List.append_nil] at this
    split at hs
    · next hstop =>
      cases hs
      simp only [brgUnref,setBrg,setTrk,Function.update_self,Function.update_idem]
      exact h.setOut hk ⟨rfl,Nat.zero_le _,by simpa using hsent,fun _ => rfl,fun _ => ⟨hstop,rfl⟩⟩ rfl rfl
    · cases hs
      refine h.setOut hk ⟨rfl,Nat.zero_le _,by simpa using hsent,fun _ => rfl,fun hc => ?_⟩ rfl rfl
      exact ⟨(hf.closed hc).1,rfl⟩
  · next hne =>
    obtain ⟨⟨hpos,hn⟩,⟨⟩⟩ := Option.ite_none_right_eq_some.mp hs
    refine h.setOut hk ⟨rfl,hn,?_,fun hw => absurd (hf.asleep hw) hne,fun hc =>
      absurd (hf.closed hc).2 hne⟩ rfl rfl
    -- what goes to the writer stays in the ring until the next call
    simp only [List.append_assoc,List.take_append_drop]
    exact hf.fifo

theorem Inv.close (h : Inv s r) :
    Inv { (s.trkStop.brgUnref s.brg) with outTrk := none, brg := none, live := false } r := by
  have htrk : ∀ k, Fed k (s.trks k) (s.brgs k) → Fed k (s.trkStop.trks k) (s.brgs k) := by
    intro k hf
    unfold trkStop
    cases s.outTrk with
    | none => exact hf
    | some o =>
      by_cases hk : k = o
      · subst hk
        simpa [setTrk] using hf.stop
      · simpa [setTrk,hk] using hf
  have hbrg : s.trkStop.brgs = s.brgs := by
    unfold trkStop
    cases s.outTrk <;> rfl
  have hstate : s.trkStop.state = s.state ∧ s.trkStop.nTrk = s.nTrk ∧ s.trkStop.tags = s.tags ∧
      s.trkStop.hist = s.hist ∧ s.trkStop.behind = s.behind := by
    unfold trkStop
    cases s.outTrk <;> exact ⟨rfl,rfl,rfl,rfl,rfl⟩
  obtain ⟨h1,h2,h3,h4,h5⟩ := hstate
  cases hb : s.brg with
  | none =>
    simp only [brgUnref]
    refine ⟨fun hl => by (cases hl),by rw [h3]; exact h.hasMeta,fun k hk => ?_,?_,?_,?_⟩
    · rw [hbrg]
      exact htrk k (h.fed k (h2 ▸ hk))
    · rw [h1,h2]
      exact h.noTrk
    · rw [h1,h2,hbrg]
      exact h.pieces
    · rw [h1,h4,h5]
      exact h.unused
  | some b =>
    simp only [brgUnref,setBrg]
    refine ⟨fun hl => by (cases hl),by rw [h3]; exact h.hasMeta,fun k hk => ?_,?_,?_,?_⟩
    · rw [hbrg]
      have hf := htrk k (h.fed k (h2 ▸ hk))
      by_cases hk : k = b
      · subst hk
        simpa using hf.users _
      · simpa [hk] using hf
    · rw [h1,h2]
      exact h.noTrk
    · rw [h1,h2,hbrg]
      intro he
      rw [← h.pieces he]
      refine List.map_congr_left fun k _ => ?_
      by_cases hk : k = b
      · subst hk
        simp
      · simp [hk]
    · rw [h1,h4,h5]
      exact h.unused

theorem outRun_hist {k n : Nat} {s' : TeeRun α M} (hs : s.outRun k n = some s') : s'.hist = s.hist := by
  unfold outRun at hs
  simp only at hs
  split at hs
  · split at hs <;> cases hs <;> rfl
  · obtain ⟨_,⟨⟩⟩ := Option.ite_none_right_eq_some.mp hs
    rfl

theorem close_hist : (s.trkStop.brgUnref s.brg).hist = s.hist := by
  cases hb : s.brg <;> cases ho : s.outTrk <;> simp [trkStop,brgUnref,setBrg,setTrk,ho]

theorem Inv.step {hasMeta : Bool} (h : Inv s (.of hasMeta s.hist)) {a : Act α M} (hc : s.Cleared a)
    {s' : TeeRun α M} (hs : s.step a = some s') : Inv s' (.of hasMeta s'.hist) := by
  cases a with
  | fwd data tags first =>
    obtain ⟨⟨hlive,hb⟩,⟨⟩⟩ := Option.ite_none_right_eq_some.mp hs
    have hhist : (goOn ((s.given data tags).process true first data)).hist =
        s.hist ++ [StreamEv.chunk data tags] := process_hist
    have hch := h.chunk hlive hb hc data tags first
    rw [← Recording.of_snoc,← hhist] at hch
    exact hch
  | back =>
    obtain ⟨⟨hlive,hne⟩,⟨⟩⟩ := Option.ite_none_right_eq_some.mp hs
    rw [show (goOn (s.process false false [])).hist = s.hist from process_hist]
    exact h.back hlive hne
  | ui =>
    obtain ⟨_,⟨⟩⟩ := Option.ite_none_right_eq_some.mp hs
    exact h.same ⟨rfl,rfl,rfl,rfl,rfl,rfl,rfl,fun _ => rfl,fun _ => rfl,fun _ => rfl⟩ rfl rfl h.hasMeta id
      (fun _ ht => ht) (fun _ _ => rfl) h.fed
  | tags m =>
    obtain ⟨hb,⟨⟩⟩ := Option.ite_none_right_eq_some.mp hs
    show Inv _ (Recording.of hasMeta (s.hist ++ [StreamEv.tags m]))
    rw [Recording.of_snoc]
    refine h.same ⟨rfl,rfl,rfl,rfl,rfl,rfl,rfl,fun _ => rfl,fun _ => rfl,fun _ => rfl⟩ rfl rfl rfl
      (fun _ => rfl) (fun hb' _ => ?_) (fun _ hb' => ?_) h.fed
    · rw [hb] at hb'
      cases hb'
    · rw [hb] at hb'
      cases hb'
  | out k n =>
    obtain ⟨⟨hk,_⟩,hs⟩ := Option.ite_none_right_eq_some.mp hs
    rw [outRun_hist hs]
    exact h.out hk hs
  | close =>
    cases hs
    rw [show TeeRun.hist _ = s.hist from close_hist]
    exact h.close

theorem inv_init (tags : Option M) : Inv (init tags) (.of tags.isSome (init (α := α) tags).hist) := by
  refine ⟨fun _ => ⟨rfl,rfl,rfl,rfl,rfl,rfl⟩,rfl,fun k hk => by (cases hk),fun _ => rfl,
    fun hs => by (cases hs),fun _ => ⟨rfl,rfl⟩⟩

theorem Inv.outputs (h : Inv s r) : s.outputs = (List.range s.nTrk).map fun k => (s.brgs k).sent :=
  List.map_congr_left fun k hk => by rw [TeeRun.sent,(h.fed k (List.mem_range.mp hk)).udata]

theorem Inv.recorded {hasMeta : Bool} (h : Inv s (.of hasMeta s.hist)) : Recorded s hasMeta := by
  have hout : s.state = .data → s.outputs = (Recording.of hasMeta s.hist).pieces :=
    fun hs => h.outputs.trans (h.pieces hs)
  refine ⟨hout,fun hs => ?_,fun hs => ⟨h.noTrk hs,fun hlive hb => ?_⟩,fun k hk => ?_⟩
  · rw [hout hs,Recording.flatten_pieces]
  · have hat := h.state hlive
    unfold AtState at hat
    split at hat
    · next hi =>
      rw [(h.unused hi).1]
      exact .inr rfl
    · exact .inl (hat.2 hb)
    · next hd => exact absurd hd hs
  · have hf := h.fed k hk
    rw [TeeRun.sent,hf.udata]
    exact hf.file

/-- In every run in which the ui filter is called between a change of the metadata and the next chunk.
The output tracks have the pieces of the whole stream, what came before the first metadata included. -/
theorem tee_records {tags : Option M} {as : List (Act α M)}
    (hclear : Machine.AllSteps step Cleared (init tags) as)
    (hrun : Machine.run step (init tags) as = some s) : Recorded s tags.isSome :=
  Inv.recorded (Machine.guarded_invariant
    (I := fun s : TeeRun α M => Inv s (.of tags.isSome s.hist))
    (fun _ _ _ h hc hs => h.step hc hs) hclear hrun (inv_init tags))

/-- The metadata comes with the second chunk and changes with the fourth one. -/
def fourChunks : List (Act Nat Nat) :=
  [.fwd [1] none false,.ui,.back,.fwd [2] (some 7) false,.ui,.back,.out 0 2,.fwd [3] none false,.back,
    .fwd [4] (some 8) false,.ui,.back,.out 0 1,.out 0 1,.out 1 1,.close,.out 1 1]

def afterFour : TeeRun Nat Nat := (Machine.run step (init none) fourChunks).getD (init none)

theorem tee_records_four : afterFour.outputs = [[1,2,3],[4]] ∧ Recorded afterFour false :=
  ⟨by decide +kernel,tee_records (show Machine.AllSteps step Cleared (init none) fourChunks by decide +kernel)
    (Machine.run_eq_getD (by decide +kernel))⟩

/-- The metadata comes with the second chunk. -/
def leadChunk : List (Act Nat Nat) := [.fwd [1] none false,.ui,.back,.fwd [2] (some 7) false]

/-- The metadata comes with the first chunk, which does not get as far as the ui filter. -/
def flagStays : List (Act Nat Nat) := [.fwd [1] (some 7) false,.back,.back,.fwd [2] none false]

def afterRun (as : List (Act Nat Nat)) : TeeRun Nat Nat :=
  (Machine.run step (init none) as).getD (init none)

theorem tee_output_differs :
    (Machine.run step (init none) leadChunk = some (afterRun leadChunk) ∧
      (afterRun leadChunk).outputs = [[1,2]] ∧
      (afterRun leadChunk).outputs.flatten ≠ fromMeta (afterRun leadChunk).hist) ∧
    Machine.run step (init none) flagStays = some (afterRun flagStays) ∧
      (afterRun flagStays).hist = [.chunk [1] (some 7),.chunk [2] none] ∧
      (afterRun flagStays).outputs = [[1],[2]] := by
  refine ⟨⟨Machine.run_eq_getD (by decide +kernel),by decide +kernel,by decide +kernel⟩,
    Machine.run_eq_getD (by decide +kernel),by decide +kernel,by decide +kernel⟩

end TeeRun

end Phiola
