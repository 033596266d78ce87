import Mathlib.Data.List.Basic
import Mathlib.Data.List.InsertIdx
import Mathlib.Logic.Function.Basic

/-!
# The store of the queue manager

Queues, entries and the tracks that play or expand an entry live in numbered cells; a pointer is
the number of its cell, and a cell whose memory was freed stays as it was left. An index is the
position of an entry, `-1` where the source has `~0U`; other negative values stand for the
unsigned values below it.
-/

namespace Phiola

/-- The tags of a track. -/
abbrev Meta := List (String × String)

/-- What expands an entry: `dir-read` or the reader of an m3u list. -/
inductive ListKind
  | dir
  | m3u
  deriving DecidableEq, Repr

/-- `struct q_entry`. `freed` is no field of the source. -/
structure QEntry where
  q : Nat
  trk : Option Nat
  index : Int
  used : Nat
  confMeta : Meta
  haveUserMeta : Bool
  expand : Bool
  playNextOnClose : Bool
  freed : Bool

instance : Inhabited QEntry := ⟨⟨0,none,0,0,[],false,false,false,false⟩⟩

/-- `struct phi_queue` with the flags of its `conf`. `freed` is no field of the source. -/
structure PhiQueue where
  conversion : Bool
  random : Bool
  repeatAll : Bool
  index : List Nat
  cursor : Option Nat
  cursorIndex : Int
  activeN : Int
  randomSplit : Bool
  freed : Bool

instance : Inhabited PhiQueue := ⟨⟨false,false,false,[],none,0,0,false,false⟩⟩

/-- A track that the queue started: its entry, whether `stop()` was called and whether its
queue-guard is closed. A track that expands its entry also has the reader's place in the list and
whether the reader has removed the entry. -/
structure QTrack where
  qent : Nat
  expands : Option ListKind
  quCur : Nat
  removed : Bool
  stopped : Bool
  closed : Bool

instance : Inhabited QTrack := ⟨⟨0,none,0,false,false,true⟩⟩

/-- `struct queue_mgr` and the memory. `refs` counts the calls of `ref()` that no `unref()` has
answered, and `started` lists the entries for which `qe_play()` has started a track. -/
structure QueueMgr where
  lists : List Nat
  selected : Nat
  queue : Nat → PhiQueue
  nq : Nat
  ent : Nat → QEntry
  ne : Nat
  trk : Nat → QTrack
  nt : Nat
  refs : Nat → Nat
  started : List Nat

namespace QueueMgr

/-- `qm_init()` -/
def init : QueueMgr where
  lists := []
  selected := 0
  queue := fun _ => default
  nq := 0
  ent := fun _ => default
  ne := 0
  trk := fun _ => default
  nt := 0
  refs := fun _ => 0
  started := []

def setQueue (s : QueueMgr) (q : Nat) (v : PhiQueue) : QueueMgr :=
  { s with queue := Function.update s.queue q v }

def setEnt (s : QueueMgr) (e : Nat) (x : QEntry) : QueueMgr :=
  { s with ent := Function.update s.ent e x }

def setTrk (s : QueueMgr) (t : Nat) (x : QTrack) : QueueMgr :=
  { s with trk := Function.update s.trk t x }

@[simp] theorem setQueue_lists (s : QueueMgr) (q : Nat) (v : PhiQueue) :
    (s.setQueue q v).lists = s.lists := rfl
@[simp] theorem setQueue_selected (s : QueueMgr) (q : Nat) (v : PhiQueue) :
    (s.setQueue q v).selected = s.selected := rfl
@[simp] theorem setQueue_nq (s : QueueMgr) (q : Nat) (v : PhiQueue) :
    (s.setQueue q v).nq = s.nq := rfl
@[simp] theorem setQueue_ent (s : QueueMgr) (q : Nat) (v : PhiQueue) :
    (s.setQueue q v).ent = s.ent := rfl
@[simp] theorem setQueue_ne (s : QueueMgr) (q : Nat) (v : PhiQueue) :
    (s.setQueue q v).ne = s.ne := rfl
@[simp] theorem setQueue_trk (s : QueueMgr) (q : Nat) (v : PhiQueue) :
    (s.setQueue q v).trk = s.trk := rfl
@[simp] theorem setQueue_nt (s : QueueMgr) (q : Nat) (v : PhiQueue) :
    (s.setQueue q v).nt = s.nt := rfl
@[simp] theorem setQueue_refs (s : QueueMgr) (q : Nat) (v : PhiQueue) :
    (s.setQueue q v).refs = s.refs := rfl
@[simp] theorem setQueue_started (s : QueueMgr) (q : Nat) (v : PhiQueue) :
    (s.setQueue q v).started = s.started := rfl
@[simp] theorem setQueue_self (s : QueueMgr) (q : Nat) (v : PhiQueue) :
    (s.setQueue q v).queue q = v := by simp [setQueue]
theorem setQueue_of_ne {s : QueueMgr} {q y : Nat} (v : PhiQueue) (h : y ≠ q) :
    (s.setQueue q v).queue y = s.queue y := by simp [setQueue,h]
@[simp] theorem setEnt_lists (s : QueueMgr) (e : Nat) (x : QEntry) :
    (s.setEnt e x).lists = s.lists := rfl
@[simp] theorem setEnt_selected (s : QueueMgr) (e : Nat) (x : QEntry) :
    (s.setEnt e x).selected = s.selected := rfl
@[simp] theorem setEnt_queue (s : QueueMgr) (e : Nat) (x : QEntry) :
    (s.setEnt e x).queue = s.queue := rfl
@[simp] theorem setEnt_nq (s : QueueMgr) (e : Nat) (x : QEntry) :
    (s.setEnt e x).nq = s.nq := rfl
@[simp] theorem setEnt_ne (s : QueueMgr) (e : Nat) (x : QEntry) :
    (s.setEnt e x).ne = s.ne := rfl
@[simp] theorem setEnt_trk (s : QueueMgr) (e : Nat) (x : QEntry) :
    (s.setEnt e x).trk = s.trk := rfl
@[simp] theorem setEnt_nt (s : QueueMgr) (e : Nat) (x : QEntry) :
    (s.setEnt e x).nt = s.nt := rfl
@[simp] theorem setEnt_refs (s : QueueMgr) (e : Nat) (x : QEntry) :
    (s.setEnt e x).refs = s.refs := rfl
@[simp] theorem setEnt_started (s : QueueMgr) (e : Nat) (x : QEntry) :
    (s.setEnt e x).started = s.started := rfl
@[simp] theorem setEnt_self (s : QueueMgr) (e : Nat) (x : QEntry) :
    (s.setEnt e x).ent e = x := by simp [setEnt]
theorem setEnt_of_ne {s : QueueMgr} {e y : Nat} (x : QEntry) (h : y ≠ e) :
    (s.setEnt e x).ent y = s.ent y := by simp [setEnt,h]
@[simp] theorem setTrk_lists (s : QueueMgr) (t : Nat) (x : QTrack) :
    (s.setTrk t x).lists = s.lists := rfl
@[simp] theorem setTrk_selected (s : QueueMgr) (t : Nat) (x : QTrack) :
    (s.setTrk t x).selected = s.selected := rfl
@[simp] theorem setTrk_queue (s : QueueMgr) (t : Nat) (x : QTrack) :
    (s.setTrk t x).queue = s.queue := rfl
@[simp] theorem setTrk_nq (s : QueueMgr) (t : Nat) (x : QTrack) :
    (s.setTrk t x).nq = s.nq := rfl
@[simp] theorem setTrk_ent (s : QueueMgr) (t : Nat) (x : QTrack) :
    (s.setTrk t x).ent = s.ent := rfl
@[simp] theorem setTrk_ne (s : QueueMgr) (t : Nat) (x : QTrack) :
    (s.setTrk t x).ne = s.ne := rfl
@[simp] theorem setTrk_nt (s : QueueMgr) (t : Nat) (x : QTrack) :
    (s.setTrk t x).nt = s.nt := rfl
@[simp] theorem setTrk_refs (s : QueueMgr) (t : Nat) (x : QTrack) :
    (s.setTrk t x).refs = s.refs := rfl
@[simp] theorem setTrk_started (s : QueueMgr) (t : Nat) (x : QTrack) :
    (s.setTrk t x).started = s.started := rfl
@[simp] theorem setTrk_self (s : QueueMgr) (t : Nat) (x : QTrack) :
    (s.setTrk t x).trk t = x := by simp [setTrk]
theorem setTrk_of_ne {s : QueueMgr} {t y : Nat} (x : QTrack) (h : y ≠ t) :
    (s.setTrk t x).trk y = s.trk y := by simp [setTrk,h]

/-- `qm_default()` -/
def qmDefault (s : QueueMgr) : Option Nat := s.lists[s.selected]?

/-- The queue that an interface function works on: `if (!q) q = qm_default()`. -/
def theQueue (s : QueueMgr) (q : Option Nat) : Option Nat :=
  match q with
  | some q => some q
  | none => s.qmDefault

/-- `qe_free()` -/
def qeFree (s : QueueMgr) (e : Nat) : QueueMgr :=
  let x := s.ent e
  let v := s.queue x.q
  let s := if v.cursor = some e then s.setQueue x.q { v with cursor := none } else s
  s.setEnt e { x with freed := true }

/-- `qe_ref()` -/
def qeRef (s : QueueMgr) (e : Nat) : QueueMgr :=
  s.setEnt e { s.ent e with used := (s.ent e).used + 1 }

/-- `qe_unref()` -/
def qeUnref (s : QueueMgr) (e : Nat) : QueueMgr :=
  let s := s.setEnt e { s.ent e with used := (s.ent e).used - 1 }
  if (s.ent e).used ≠ 0 then s else s.qeFree e

/-- `qe_unref()` as one record update of the entry and one of its queue. -/
theorem qeUnref_eq (s : QueueMgr) (e : Nat) : s.qeUnref e =
    (s.setQueue (s.ent e).q { s.queue (s.ent e).q with
      cursor := if (s.ent e).used - 1 = 0 ∧ (s.queue (s.ent e).q).cursor = some e then none
        else (s.queue (s.ent e).q).cursor }).setEnt e { s.ent e with
      used := (s.ent e).used - 1
      freed := (s.ent e).freed || (s.ent e).used - 1 == 0 } := by
  unfold qeUnref qeFree
  dsimp only
  simp only [setEnt_self,setEnt_queue]
  by_cases hu : (s.ent e).used - 1 = 0
  · by_cases hc : (s.queue (s.ent e).q).cursor = some e
    · simp [hu,hc,setEnt,setQueue]
    · simp [hu,hc,setEnt,setQueue,Function.update_eq_self]
  · have hb : ((s.ent e).used - 1 == 0) = false := by simpa using hu
    simp [hu,hb,setEnt,setQueue,Function.update_eq_self]

@[simp] theorem qeFree_lists (s : QueueMgr) (e : Nat) : (s.qeFree e).lists = s.lists := by
  unfold qeFree; dsimp only; split <;> rfl
@[simp] theorem qeFree_selected (s : QueueMgr) (e : Nat) : (s.qeFree e).selected = s.selected := by
  unfold qeFree; dsimp only; split <;> rfl
@[simp] theorem qeFree_nq (s : QueueMgr) (e : Nat) : (s.qeFree e).nq = s.nq := by
  unfold qeFree; dsimp only; split <;> rfl
@[simp] theorem qeFree_ne (s : QueueMgr) (e : Nat) : (s.qeFree e).ne = s.ne := by
  unfold qeFree; dsimp only; split <;> rfl
@[simp] theorem qeFree_trk (s : QueueMgr) (e : Nat) : (s.qeFree e).trk = s.trk := by
  unfold qeFree; dsimp only; split <;> rfl
@[simp] theorem qeFree_nt (s : QueueMgr) (e : Nat) : (s.qeFree e).nt = s.nt := by
  unfold qeFree; dsimp only; split <;> rfl
@[simp] theorem qeFree_refs (s : QueueMgr) (e : Nat) : (s.qeFree e).refs = s.refs := by
  unfold qeFree; dsimp only; split <;> rfl
@[simp] theorem qeFree_started (s : QueueMgr) (e : Nat) : (s.qeFree e).started = s.started := by
  unfold qeFree; dsimp only; split <;> rfl
@[simp] theorem qeUnref_lists (s : QueueMgr) (e : Nat) : (s.qeUnref e).lists = s.lists := by
  unfold qeUnref; dsimp only; split
  · rfl
  · simp
@[simp] theorem qeUnref_selected (s : QueueMgr) (e : Nat) : (s.qeUnref e).selected = s.selected := by
  unfold qeUnref; dsimp only; split
  · rfl
  · simp
@[simp] theorem qeUnref_nq (s : QueueMgr) (e : Nat) : (s.qeUnref e).nq = s.nq := by
  unfold qeUnref; dsimp only; split
  · rfl
  · simp
@[simp] theorem qeUnref_ne (s : QueueMgr) (e : Nat) : (s.qeUnref e).ne = s.ne := by
  unfold qeUnref; dsimp only; split
  · rfl
  · simp
@[simp] theorem qeUnref_trk (s : QueueMgr) (e : Nat) : (s.qeUnref e).trk = s.trk := by
  unfold qeUnref; dsimp only; split
  · rfl
  · simp
@[simp] theorem qeUnref_nt (s : QueueMgr) (e : Nat) : (s.qeUnref e).nt = s.nt := by
  unfold qeUnref; dsimp only; split
  · rfl
  · simp
@[simp] theorem qeUnref_refs (s : QueueMgr) (e : Nat) : (s.qeUnref e).refs = s.refs := by
  unfold qeUnref; dsimp only; split
  · rfl
  · simp
@[simp] theorem qeUnref_started (s : QueueMgr) (e : Nat) : (s.qeUnref e).started = s.started := by
  unfold qeUnref; dsimp only; split
  · rfl
  · simp

/-- `qe_stop()` -/
def qeStop (s : QueueMgr) (e : Nat) : QueueMgr :=
  match (s.ent e).trk with
  | none => s
  | some t => s.setTrk t { s.trk t with stopped := true }

/-- `q_get()` -/
def qGet (v : PhiQueue) (i : Int) : Option Nat := if 0 ≤ i then v.index[i.toNat]? else none

/-- `q_find()` -/
def qFind (v : PhiQueue) (e : Nat) : Int :=
  match v.index.idxOf? e with
  | some i => i
  | none => -1

/-- `qe_index()`: the stored index is used if it is right and replaced otherwise. -/
def qeIndex (s : QueueMgr) (e : Nat) : QueueMgr × Int :=
  let x := s.ent e
  let v := s.queue x.q
  if qGet v x.index = some e then (s, x.index)
  else (s.setEnt e { x with index := qFind v e }, qFind v e)

@[simp] theorem qeIndex_lists (s : QueueMgr) (e : Nat) : (s.qeIndex e).1.lists = s.lists := by
  unfold qeIndex; dsimp only; split <;> rfl
@[simp] theorem qeIndex_selected (s : QueueMgr) (e : Nat) : (s.qeIndex e).1.selected = s.selected := by
  unfold qeIndex; dsimp only; split <;> rfl
@[simp] theorem qeIndex_nq (s : QueueMgr) (e : Nat) : (s.qeIndex e).1.nq = s.nq := by
  unfold qeIndex; dsimp only; split <;> rfl
@[simp] theorem qeIndex_ne (s : QueueMgr) (e : Nat) : (s.qeIndex e).1.ne = s.ne := by
  unfold qeIndex; dsimp only; split <;> rfl
@[simp] theorem qeIndex_trk (s : QueueMgr) (e : Nat) : (s.qeIndex e).1.trk = s.trk := by
  unfold qeIndex; dsimp only; split <;> rfl
@[simp] theorem qeIndex_nt (s : QueueMgr) (e : Nat) : (s.qeIndex e).1.nt = s.nt := by
  unfold qeIndex; dsimp only; split <;> rfl
@[simp] theorem qeIndex_refs (s : QueueMgr) (e : Nat) : (s.qeIndex e).1.refs = s.refs := by
  unfold qeIndex; dsimp only; split <;> rfl
@[simp] theorem qeIndex_started (s : QueueMgr) (e : Nat) : (s.qeIndex e).1.started = s.started := by
  unfold qeIndex; dsimp only; split <;> rfl
@[simp] theorem qeIndex_queue (s : QueueMgr) (e : Nat) : (s.qeIndex e).1.queue = s.queue := by
  unfold qeIndex; dsimp only; split <;> rfl

/-- `qe_new()` and `q_insert()`: the store and the new entry. -/
def qInsert (s : QueueMgr) (q pos : Nat) (um : Bool) : QueueMgr × Nat :=
  let e := s.ne
  let v := s.queue q
  let s := s.setEnt e ⟨q,none,pos,1,[],um,false,false,false⟩
  let s := s.setQueue q { v with index := v.index.insertIdx pos e }
  ({ s with ne := e + 1 }, e)

/-- `qe_insert()`: behind entry `e`. -/
def qeInsert (s : QueueMgr) (e : Nat) (um : Bool) : QueueMgr × Nat :=
  let p := s.qeIndex e
  p.1.qInsert (s.ent e).q (p.2 + 1).toNat um

/-- How `q_remove_at()` moves `cursor_index`; the comparisons are unsigned. -/
def cursorIndexAfterRemove (v : PhiQueue) (pos : Nat) : Int :=
  let c := v.cursorIndex
  if c ≠ 0 ∧ (c < 0 ∨ pos < c ∨ (pos : Int) = c ∧ pos + 1 = v.index.length) then c - 1 else c

/-- `q_remove_at()`: the store and the returned code. -/
def qRemoveAt (s : QueueMgr) (q : Nat) (pos : Int) : QueueMgr × Int :=
  let v := s.queue q
  match qGet v pos with
  | none => (s, -1)
  | some e =>
    let s := s.setEnt e { s.ent e with index := -1 }
    let s := s.setQueue q { v with
      cursorIndex := cursorIndexAfterRemove v pos.toNat
      index := v.index.eraseIdx pos.toNat }
    (s.qeUnref e, 0)

@[simp] theorem qRemoveAt_lists (s : QueueMgr) (q : Nat) (pos : Int) :
    (s.qRemoveAt q pos).1.lists = s.lists := by
  unfold qRemoveAt; dsimp only; split
  · rfl
  · simp
@[simp] theorem qRemoveAt_selected (s : QueueMgr) (q : Nat) (pos : Int) :
    (s.qRemoveAt q pos).1.selected = s.selected := by
  unfold qRemoveAt; dsimp only; split
  · rfl
  · simp
@[simp] theorem qRemoveAt_nq (s : QueueMgr) (q : Nat) (pos : Int) :
    (s.qRemoveAt q pos).1.nq = s.nq := by
  unfold qRemoveAt; dsimp only; split
  · rfl
  · simp
@[simp] theorem qRemoveAt_ne (s : QueueMgr) (q : Nat) (pos : Int) :
    (s.qRemoveAt q pos).1.ne = s.ne := by
  unfold qRemoveAt; dsimp only; split
  · rfl
  · simp
@[simp] theorem qRemoveAt_trk (s : QueueMgr) (q : Nat) (pos : Int) :
    (s.qRemoveAt q pos).1.trk = s.trk := by
  unfold qRemoveAt; dsimp only; split
  · rfl
  · simp
@[simp] theorem qRemoveAt_nt (s : QueueMgr) (q : Nat) (pos : Int) :
    (s.qRemoveAt q pos).1.nt = s.nt := by
  unfold qRemoveAt; dsimp only; split
  · rfl
  · simp
@[simp] theorem qRemoveAt_refs (s : QueueMgr) (q : Nat) (pos : Int) :
    (s.qRemoveAt q pos).1.refs = s.refs := by
  unfold qRemoveAt; dsimp only; split
  · rfl
  · simp
@[simp] theorem qRemoveAt_started (s : QueueMgr) (q : Nat) (pos : Int) :
    (s.qRemoveAt q pos).1.started = s.started := by
  unfold qRemoveAt; dsimp only; split
  · rfl
  · simp

/-- `qe_remove()` -/
def qeRemove (s : QueueMgr) (e : Nat) : QueueMgr × Int :=
  let p := s.qeIndex e
  p.1.qRemoveAt (s.ent e).q p.2

/-- `q_create()` -/
def qCreate (s : QueueMgr) (conversion random repeatAll : Bool) : QueueMgr :=
  { s.setQueue s.nq ⟨conversion,random,repeatAll,[],none,0,0,false,false⟩ with
    nq := s.nq + 1
    lists := s.lists ++ [s.nq] }

/-- `q_free()` -/
def qFree (s : QueueMgr) (q : Nat) : QueueMgr :=
  let s := (s.queue q).index.foldl qeUnref s
  s.setQueue q { s.queue q with index := [], freed := true }

/-- `q_destroy()`: `selected` stays. -/
def qDestroy (s : QueueMgr) (q : Nat) : QueueMgr :=
  { s with lists := s.lists.erase q }.qFree q

/-- `q_clear()` -/
def qClear (s : QueueMgr) (q : Nat) : QueueMgr :=
  let v := s.queue q
  v.index.foldl (fun s e => (s.setEnt e { s.ent e with index := -1 }).qeUnref e)
    (s.setQueue q { v with index := [] })

/-- `q_filter()`: a new queue with the entries that match. -/
def qFilter (s : QueueMgr) (q : Nat) (keep : Nat → Bool) : QueueMgr :=
  let v := s.queue q
  let f := s.nq
  let l := v.index.filter keep
  let s := l.foldl qeRef s
  { s.setQueue f ⟨v.conversion,v.random,v.repeatAll,l,none,0,0,false,false⟩ with
    nq := f + 1
    lists := s.lists ++ [f] }

/-- `q_ref()` -/
def qRef (s : QueueMgr) (q : Nat) (pos : Nat) : QueueMgr :=
  match qGet (s.queue q) pos with
  | none => s
  | some e => { s.qeRef e with refs := Function.update s.refs e (s.refs e + 1) }

/-- `q_sort()`: by name or randomly, the index becomes another order of itself. -/
def qSort (s : QueueMgr) (q : Nat) (l : List Nat) : QueueMgr :=
  s.setQueue q { s.queue q with index := l }

end QueueMgr

end Phiola
