import Mathlib.Algebra.Group.Nat.Defs
import Phiola.Android.Filters

/-!
# The lists of the Android player

`Queue` holds the lists, the index of the one that is shown and the index of the one that is
played from, and hears of the tracks that `Track` opens and closes.
-/

namespace Phiola.Android

/-- How a call can end otherwise than by returning. -/
inductive Fault where
  -- `IndexOutOfBoundsException` of `queues`
  | index
  -- a native call with an entry that does not exist
  | native
deriving DecidableEq, Repr

variable {U : Type}

/-- An entry of the native list; `meta_queue_store()` sets its tags and its length. -/
structure Entry (U : Type) where
  url : U
  tags : List (String × String)
  length_msec : Nat
deriving DecidableEq, Repr

-- with the url alone
def Entry.new (url : U) : Entry U := ⟨url,[],0⟩

/-- `id` is the object itself. -/
structure PhiolaQueue (U : Type) where
  id : Nat
  entries : List (Entry U)
  modified : Bool
deriving DecidableEq, Repr

namespace PhiolaQueue

def add (q : PhiolaQueue U) (url : U) : PhiolaQueue U :=
  {q with entries := q.entries ++ [.new url], modified := true}

def add_many (q : PhiolaQueue U) (urls : List U) : PhiolaQueue U :=
  {q with entries := q.entries ++ urls.map .new, modified := true}

/-- `quEntry()` -/
def url (q : PhiolaQueue U) (i : Int) : Except Fault U :=
  match if 0 ≤ i then q.entries[i.toNat]? else none with
  | some e => .ok e.url
  | none => .error .native

def remove (q : PhiolaQueue U) (i : Int) : PhiolaQueue U :=
  { q with
    entries := if 0 ≤ i then q.entries.eraseIdx i.toNat else q.entries
    modified := true }

def clear (q : PhiolaQueue U) : PhiolaQueue U := {q with entries := [], modified := true}

def count (q : PhiolaQueue U) : Int := q.entries.length

/-- `order` is what the native code makes of the entries. -/
def sort (order : List (Entry U) → List (Entry U)) (q : PhiolaQueue U) : PhiolaQueue U :=
  {q with entries := order q.entries}

def load (file : List (Entry U)) (q : PhiolaQueue U) : PhiolaQueue U :=
  {q with entries := q.entries ++ file}

end PhiolaQueue

structure TrackHandle (U : Type) where
  state : State
  stopped : Bool
  error : Bool
  url : Option U
deriving DecidableEq, Repr

-- What the main loop is to run later.
inductive Post where
  | playcur
  | next
deriving DecidableEq, Repr

structure Setts where
  random : Bool
  repeat_ : Bool
  add_rm_on_next : Bool
  rm_on_next : Bool
  rm_on_err : Bool
  play_no_tags : Bool
deriving DecidableEq, Repr

structure Queue (U : Type) where
  queues : List (PhiolaQueue U)
  -- a filtered list is shown
  q_filtered : Bool
  q_active : Nat
  selected : Nat
  trk_idx : Int
  curpos : Int
  active : Bool
  random_split : Bool
  auto_stop_timer : Bool
  auto_stop_active : Bool
  setts : Setts
  posted : List Post
  -- the track of `Track`
  t : TrackHandle U
  next_id : Nat
  -- the list that the last track was started from
  started : Option Nat
  -- the tracks that were started to read the tags of an entry, each with its list and its url
  infos : List (Nat × U)
deriving DecidableEq, Repr

namespace Queue

def get (q : Queue U) (i : Nat) : Except Fault (PhiolaQueue U) :=
  match q.queues[i]? with
  | some l => .ok l
  | none => .error .index

/-- A call on the list of index `i`. -/
def on_list (q : Queue U) (i : Nat) (f : PhiolaQueue U → PhiolaQueue U) :
    Except Fault (Queue U) :=
  q.get i >>= fun l => pure {q with queues := q.queues.set i (f l)}

def filter_close (q : Queue U) : Queue U := {q with q_filtered := false}

/-- `queues.add(new PhiolaQueue(core.phiola))` -/
def add_list (q : Queue U) : Queue U :=
  {q with queues := q.queues ++ [⟨q.next_id,[],false⟩], next_id := q.next_id + 1}

def new_list (q : Queue U) : Queue U := q.filter_close.add_list

def clear (q : Queue U) : Except Fault (Queue U) :=
  q.filter_close.on_list q.selected PhiolaQueue.clear >>= fun q =>
    pure {q with curpos := -1, trk_idx := -1}

def close_current_list (q : Queue U) : Except Fault (Queue U) :=
  if q.queues.length = 1 then q.clear
  else
    q.filter_close.get q.selected >>= fun _ =>
      pure { q.filter_close with
        queues := q.queues.eraseIdx q.selected
        -- not below 0
        selected := q.selected - 1 }

def index_next (q : Queue U) (qi : Nat) : Nat :=
  if qi + 1 = q.queues.length then 0 else qi + 1

def next_list_select (q : Queue U) : Queue U :=
  {q.filter_close with selected := q.index_next q.selected}

def switch_list (q : Queue U) (i : Nat) : Queue U := {q with selected := i}

def remove (q : Queue U) (pos : Int) : Except Fault (Queue U) :=
  q.filter_close.on_list q.q_active (PhiolaQueue.remove · pos) >>= fun q =>
    pure { q with
      curpos := if pos < q.curpos then q.curpos - 1 else q.curpos
      trk_idx :=
        if pos = q.trk_idx then -1 else if pos < q.trk_idx then q.trk_idx - 1 else q.trk_idx }

def add (q : Queue U) (url : U) : Except Fault (Queue U) :=
  q.filter_close.on_list q.selected (PhiolaQueue.add · url)

def addmany (q : Queue U) (urls : List U) : Except Fault (Queue U) :=
  q.filter_close.on_list q.selected (PhiolaQueue.add_many · urls)

def sort (q : Queue U) (order : List (Entry U) → List (Entry U)) : Except Fault (Queue U) :=
  if q.q_filtered then pure q else q.on_list q.selected (PhiolaQueue.sort order)

/-- `none` is the empty url. -/
def cur_url (q : Queue U) : Option U := if q.t.state = .NONE then none else q.t.url

def next_list_add_cur (q : Queue U) : Except Fault (Queue U) :=
  if q.queues.length = 1 then pure q
  else
    match q.cur_url with
    | none => pure q
    | some url => q.filter_close.on_list (q.index_next q.q_active) (PhiolaQueue.add · url)

/-! ## Playing -/

def auto_stop (q : Queue U) : Queue U :=
  if q.auto_stop_timer then {q with auto_stop_active := false, auto_stop_timer := false}
  else {q with auto_stop_timer := true}

/-- The first part of `on_close()`. -/
def rm_failed [DecidableEq U] (q : Queue U) : Except Fault (Queue U) :=
  if q.trk_idx ≥ 0 ∧ q.t.error = true ∧ q.setts.rm_on_err = true then
    q.get q.q_active >>= fun l => l.url q.trk_idx >>= fun url =>
      if some url = q.t.url then q.remove q.trk_idx else pure q
  else pure q

/-- The rest of `on_close()`. -/
def play_on (q : Queue U) : Queue U :=
  let play_next := !q.t.stopped && !q.auto_stop_active
  let q := if q.auto_stop_active then q.auto_stop else q
  { q with
    posted :=
      if play_next then q.posted ++ [if q.trk_idx < 0 then .playcur else .next] else q.posted
    trk_idx := -1 }

def on_close [DecidableEq U] (q : Queue U) : Except Fault (Queue U) :=
  rm_failed {q with active := false} >>= fun q => pure q.play_on

def trk_close [DecidableEq U] (q : Queue U) : Except Fault (Queue U) :=
  on_close {q with t := {q.t with state := .NONE}} >>= fun q =>
    pure {q with t := {q.t with error := false}}

/-- `Track.stop()` -/
def stop [DecidableEq U] (q : Queue U) : Except Fault (Queue U) :=
  trk_close {q with t := {q.t with stopped := true}}

/-- `Track.start()` of an entry of the list `list`. -/
def start (q : Queue U) (list : Nat) (url : U) : Except Fault (Queue U) :=
  if q.t.state ≠ .NONE then pure q
  else if q.setts.play_no_tags then
    pure {q with t := {q.t with url := some url}, started := some list}
  else
    -- `phi.meta()`
    q.get q.q_active >>= fun _ =>
      pure { q with
        t := {q.t with url := some url}
        started := some list
        infos := q.infos ++ [(list,url)] }

def _play [DecidableEq U] (q : Queue U) (iq : Nat) (it : Int) : Except Fault (Queue U) :=
  (if q.active then q.stop else pure q) >>= fun q =>
  q.get iq >>= fun l =>
  if it < 0 ∨ it ≥ l.count then pure q
  else
    l.url it >>= fun url =>
      start {q with q_active := iq, trk_idx := it, curpos := it} l.id url

def play [DecidableEq U] (q : Queue U) (index : Int) : Except Fault (Queue U) :=
  q._play q.selected index

def playcur [DecidableEq U] (q : Queue U) : Except Fault (Queue U) :=
  q.get q.q_active >>= fun l =>
    q._play q.q_active (if q.curpos < 0 ∨ q.curpos ≥ l.count then 0 else q.curpos)

/-- `rnd` is what `nextInt()` returns, as an unsigned number. -/
def next_random (q : Queue U) (n rnd : Nat) : Nat × Queue U :=
  if n = 1 then (0,q)
  else
    let i := rnd % 2 ^ 31
    (if q.random_split then n / 2 + i % (n - n / 2) else i % (n / 2),
      {q with random_split := !q.random_split})

def play_delta [DecidableEq U] (q : Queue U) (rnd : Nat) (delta : Int) :
    Except Fault (Queue U) :=
  q.get q.q_active >>= fun l =>
    let n := l.entries.length
    if n = 0 then pure q
    else if q.setts.random then
      let (i,q) := q.next_random n rnd
      q._play q.q_active i
    else
      let i := q.curpos + delta
      let i := if q.setts.repeat_ then (if i > n then 0 else if i ≤ 0 then (n : Int) - 1 else i)
        else i
      q._play q.q_active i

def next [DecidableEq U] (q : Queue U) (rnd : Nat) : Except Fault (Queue U) := q.play_delta rnd 1

def order_next [DecidableEq U] (q : Queue U) (rnd : Nat) : Except Fault (Queue U) :=
  if q.active then
    if q.trk_idx < 0 then q.play_delta rnd 0
    else if q.setts.add_rm_on_next ∨ q.setts.rm_on_next then
      (if q.setts.add_rm_on_next then q.next_list_add_cur else pure q) >>= fun q =>
      q.remove q.trk_idx >>= fun q =>
      q.play_delta rnd 0
    else q.play_delta rnd 1
  else q.play_delta rnd 1

def order_prev [DecidableEq U] (q : Queue U) (rnd : Nat) : Except Fault (Queue U) :=
  q.play_delta rnd (-1)

def on_open (q : Queue U) : Except Fault (Queue U) :=
  let q := {q with active := true}
  if q.setts.play_no_tags then pure q
  else q.on_list q.q_active fun l => {l with modified := true}

/-! ## From the files -/

/-- The loop of `load()` from the list of index `i` on; `files` are the list files from there on,
`none` where there is none. -/
def load_lists (q : Queue U) : Nat → List (Option (List (Entry U))) → Except Fault (Queue U)
  | _, [] | _, none :: _ => pure q
  | i, some file :: files =>
    (if i ≠ 0 then q.add_list else q).on_list i (PhiolaQueue.load file) >>= fun q =>
      q.load_lists (i + 1) files

def load (q : Queue U) (files : List (Option (List (Entry U)))) : Except Fault (Queue U) :=
  q.load_lists 0 files >>= fun q =>
    pure { q with
      q_active := if q.q_active ≥ q.queues.length then 0 else q.q_active
      selected := if q.selected ≥ q.queues.length then 0 else q.selected }

/-- The queue of a new `Track` with `list_active` and `list_curpos` of the configuration. -/
def new (list_active list_curpos : Nat) (setts : Setts) : Queue U where
  queues := [⟨0,[],false⟩]
  q_filtered := false
  q_active := list_active
  selected := list_active
  trk_idx := -1
  curpos := list_curpos
  active := false
  random_split := false
  auto_stop_timer := false
  auto_stop_active := false
  setts := setts
  posted := []
  t := ⟨.NONE,false,false,none⟩
  next_id := 1
  started := none
  infos := []

/-! ## The events -/

inductive Act (U : Type) where
  | new_list
  | close_current_list
  | switch_list (i : Nat)
  | next_list_select
  | play (index : Int)
  | playcur
  | order_next (rnd : Nat)
  | order_prev (rnd : Nat)
  -- the main loop runs what was posted first
  | posted (rnd : Nat)
  -- `start_3()`: the filters are opened, and `MP` leaves `STATE_OPENING`
  | opened
  -- a filter refuses the track
  | refused
  -- `MediaPlayer` has an error, and what it has played is over
  | error
  | complete
  | stop
  | add (url : U)
  | addmany (urls : List U)
  | next_list_add_cur
  | remove (pos : Int)
  | clear
  | sort (order : List (Entry U) → List (Entry U))
  | filter (shown : Bool)
  | setts (s : Setts)
  | auto_stop
  | auto_stop_expired

variable [DecidableEq U]

def run_posted (q : Queue U) (rnd : Nat) : Except Fault (Queue U) :=
  match q.posted with
  | [] => pure q
  | .playcur :: rest => playcur {q with posted := rest}
  | .next :: rest => next {q with posted := rest} rnd

def step (q : Queue U) : Act U → Except Fault (Queue U)
  | .new_list => pure q.new_list
  | .close_current_list => q.close_current_list
  | .switch_list i => pure (q.switch_list i)
  | .next_list_select => pure q.next_list_select
  | .play index => q.play index
  | .playcur => q.playcur
  | .order_next rnd => q.order_next rnd
  | .order_prev rnd => q.order_prev rnd
  | .posted rnd => q.run_posted rnd
  | .opened => q.on_open >>= fun q => pure {q with t := {q.t with state := .OPENING}}
  | .refused => trk_close {q with t := {q.t with error := true}}
  | .error => pure {q with t := {q.t with error := true}}
  | .complete =>
    if q.t.state = .NONE then pure q else trk_close {q with t := {q.t with stopped := false}}
  | .stop => q.stop
  | .add url => q.add url
  | .addmany urls => q.addmany urls
  | .next_list_add_cur => q.next_list_add_cur
  | .remove pos => q.remove pos
  | .clear => q.clear
  | .sort order => q.sort order
  | .filter shown => q.get q.selected >>= fun _ => pure {q with q_filtered := shown}
  | .setts s => pure {q with setts := s}
  | .auto_stop => pure q.auto_stop
  | .auto_stop_expired =>
    pure (if q.auto_stop_timer then {q with auto_stop_active := true} else q)

/-- The state after an action that returns. -/
def after (q : Queue U) (a : Act U) : Option (Queue U) := (q.step a).toOption

theorem after_eq_some {q q' : Queue U} {a : Act U} :
    q.after a = some q' ↔ q.step a = .ok q' := by
  rw [after]
  cases q.step a with
  | ok s => exact ⟨fun h => congrArg Except.ok (Option.some.inj h),
      fun h => congrArg some (Except.ok.inj h)⟩
  | error e => exact ⟨fun h => (by cases h),fun h => (by cases h)⟩

end Queue

end Phiola.Android
