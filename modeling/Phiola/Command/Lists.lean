import Mathlib.Algebra.Ring.Nat
import Phiola.Framework.Machine
import Mathlib.Data.List.Sort
import Mathlib.Data.List.Lex
import Mathlib.Data.Char
import Mathlib.Logic.Function.Basic

/-!
# The commands that write playlists

`list create` collects its inputs in one queue and saves the queue. `list sort` reads each list
into a queue of its own and saves the sorted queue under the name of the list. Directories and
lists are read by tracks and a queue is saved by a track; all of them are tasks of one worker. A
track that waits for the network leaves the worker's queue, and is put behind the others when it
is woken. A finished track that waits for its `stop()` does nothing any more and is left out.
-/

namespace Phiola.ListCmd

abbrev Name := List Char

/-- An entry of a queue: which one it is and the name of its file. -/
structure Entry where
  id : Nat
  name : Name
deriving DecidableEq, Repr

/-- `ffsz_icmp()` isn't positive. -/
def icmp_le (a b : Name) : Prop := a.map Char.toLower ≤ b.map Char.toLower

instance (a b : Name) : Decidable (icmp_le a b) :=
  inferInstanceAs (Decidable (a.map Char.toLower ≤ b.map Char.toLower))

/-- The functions of the system library. -/
structure Lib where
  /-- The extension that `ffpath_splitname_str()` finds. -/
  splitname_ext : Name → Name
  /-- The extension that `ffpath_split3_str()` finds. -/
  split3_ext : Name → Name
  /-- `ffsort()` with `q_sort_cmp()`. -/
  sort : List Entry → List Entry
  sort_perm : ∀ l, (sort l).Perm l
  sort_sorted : ∀ l, (sort l).Pairwise fun a b => icmp_le a.name b.name

/-- How the track that reads an input ends. An error can come before the list's filter is
opened. -/
inductive End
  | complete
  | failed (opened : Bool)
deriving DecidableEq, Repr

def End.opened : End → Bool
  | .complete => true
  | .failed opened => opened

/-- An input and what its track finds there: the names before it first waits, and those after
each time that it was woken. -/
structure Input where
  name : Name
  isdir : Bool
  first : List Name
  later : List (List Name)
  fin : End
deriving DecidableEq, Repr

/-- How the track that saves a queue ends: a filter before the file fails or the file can't be
created, a write fails and `fw_close()` removes the file, `fffile_close()` or `fffile_rename()`
fails, or all is done. -/
inductive Written
  | unopened (error : Nat)
  | failed (removed : Bool)
  | unclosed
  | unrenamed
  | renamed
deriving DecidableEq, Repr

def PHI_E_OTHER : Nat := 255

/-- `t->error` -/
def Written.error : Written → Nat
  | .unopened error => if error = 0 then PHI_E_OTHER else error
  | .failed _ => PHI_E_OTHER
  | .unclosed | .unrenamed | .renamed => 0

/-- What became of an output file. -/
inductive File
  | kept
  | removed
  | replaced (names : List Name)
deriving DecidableEq, Repr

def Written.file (names : List Name) : Written → File
  | .failed true => .removed
  | .renamed => .replaced names
  | _ => .kept

inductive Cmd
  | create (output : Name)
  | sort
deriving DecidableEq, Repr

/-- A command with its inputs, the modules that are there and how each save ends. -/
structure Job where
  cmd : Cmd
  inputs : List Input
  mod : String → Bool
  written : Nat → Written

namespace Job

variable (j : Job)

def input (i : Nat) : Input := j.inputs.getD i ⟨[],false,[],[],.complete⟩

/-- The queue that an input is added to. -/
def queue_of (i : Nat) : Nat :=
  match j.cmd with
  | .create _ => 0
  | .sort => i

/-- The number of queues. -/
def queues : Nat :=
  match j.cmd with
  | .create _ => 1
  | .sort => j.inputs.length

/-- The name that a queue is saved under. -/
def output (q : Nat) : Name :=
  match j.cmd with
  | .create output => output
  | .sort => (j.input q).name

end Job

/-- Where the track that reads an input is. -/
inductive State
  | none
  | queued
  | waiting
  | ended
deriving DecidableEq, Repr

/-- The track that reads an input: what it has still to find, and the fields of `struct m3u`. -/
structure Track where
  state : State
  rest : List (List Name)
  qu_cur : Nat
  removed : Bool
deriving DecidableEq, Repr

inductive Task
  | expand (i : Nat)
  | ready (q : Nat)
  | save (q : Nat)
deriving DecidableEq, Repr

/-- The input `i` has the entry `i`; `next` is the next new entry. `done` are the queues whose
saves have ended and `stops` counts `PHI_CORE_STOP`. After a failed action `main()` doesn't enter
the loop. -/
structure World where
  queue : Nat → List Entry
  next : Nat
  trk : Nat → Track
  tasks : List Task
  counter : Nat
  done : List Nat
  file : Nat → File
  stops : Nat
  exit_code : Nat
  failed : Bool

/-! ## Queues -/

def qe_index (q : List Entry) (id : Nat) : Int :=
  match q.findIdx? (·.id = id) with
  | some i => i
  | none => -1

def qe_insert (q : List Entry) (id : Nat) (e : Entry) : List Entry :=
  q.insertIdx (qe_index q id + 1).toNat e

def qe_remove (q : List Entry) (id : Nat) : List Entry := q.eraseP (·.id = id)

/-- The part of the state that a track changes while it reads. -/
structure Reading where
  queue : List Entry
  next : Nat
  qu_cur : Nat
  removed : Bool

/-- A name that is found, in `m3u_add()` and in `qu_add_dir_r()`. `own` is the entry of the list
or the directory itself. -/
def add_name (own : Nat) (r : Reading) (name : Name) : Reading where
  queue :=
    let q := qe_insert r.queue r.qu_cur ⟨r.next,name⟩
    if r.removed then q else qe_remove q own
  next := r.next + 1
  qu_cur := r.next
  removed := true

def m3u_close (own : Nat) (r : Reading) : List Entry :=
  if r.removed then r.queue else qe_remove r.queue own

section

variable (L : Lib) (j : Job)

/-- Whether `qe_expand()` starts a track. -/
def qe_expand (x : Input) : Bool :=
  let ext := L.splitname_ext x.name
  if x.isdir then j.mod "core.dir-read"
  else if ext = ['m','3','u','8'] ∨ ext = ['m','3','u'] ∨ ext = ['m','3','u','z'] then
    j.mod "core.auto-input" && (ext ≠ ['m','3','u','z'] || j.mod "zstd.decompress") &&
      j.mod "format.m3u"
  else false

/-- Whether `q_save()` gets all its filters. -/
def can_save (q : Nat) : Bool :=
  j.mod "format.m3u-write" &&
    (L.split3_ext (j.output q) ≠ ['m','3','u','z'] || j.mod "zstd.compress") &&
      j.mod "core.file-write"

def q_save (w : World) (q : Nat) : Option World :=
  if can_save L j q then some {w with tasks := w.tasks ++ [.save q]} else none

def q_add (w : World) (i : Nat) : World :=
  let q := j.queue_of i
  let x := j.input i
  let w := {w with queue := Function.update w.queue q (w.queue q ++ [⟨i,x.name⟩])}
  if qe_expand L j x then
    {w with
      trk := Function.update w.trk i ⟨.queued,x.first :: x.later,i,false⟩
      tasks := w.tasks ++ [.expand i]}
  else w

/-! ## The actions -/

def Job.init : World where
  queue _ := []
  next := j.inputs.length
  trk _ := ⟨.none,[],0,false⟩
  tasks := []
  counter := 0
  done := []
  file _ := .kept
  stops := 0
  exit_code := 1
  failed := false

def lc_action : World :=
  let w := (List.range j.inputs.length).foldl (q_add L j) j.init
  match q_save L j w 0 with
  | some w => w
  | none => {w with failed := true}

def ls_add (w : World) (i : Nat) : World :=
  let w := q_add L j w i
  {w with tasks := w.tasks ++ [.ready i]}

def ls_action : World :=
  (List.range j.inputs.length).foldl (ls_add L j) {j.init with counter := j.inputs.length}

def start : World :=
  match j.cmd with
  | .create _ => lc_action L j
  | .sort => ls_action L j

/-! ## The tasks -/

def lc_done (w : World) (error : Nat) : World :=
  {w with exit_code := error % 256, stops := w.stops + 1}

def ls_save_complete (w : World) (error : Nat) : World :=
  let w := {w with counter := w.counter - 1}
  if w.counter ≠ 0 then w else {w with exit_code := error % 256, stops := w.stops + 1}

def ls_ready (w : World) (q : Nat) : World :=
  let w := {w with queue := Function.update w.queue q (L.sort (w.queue q))}
  (q_save L j w q).getD w

/-- The track that saves a queue: `m3uw_process()`, `fw_process()` and the closing. -/
def save_run (w : World) (q : Nat) : World :=
  let r := j.written q
  let w := {w with
    file := Function.update w.file q (r.file ((w.queue q).map Entry.name))
    done := w.done ++ [q]}
  match j.cmd with
  | .create _ => lc_done w r.error
  | .sort => ls_save_complete w r.error

/-- The track that reads an input, up to where it waits or ends. -/
def expand_run (w : World) (i : Nat) : World :=
  let q := j.queue_of i
  let t := w.trk i
  let r := (t.rest.headD []).foldl (add_name i) ⟨w.queue q,w.next,t.qu_cur,t.removed⟩
  if t.rest.tail = [] then
    let m3u := !(j.input i).isdir && (j.input i).fin.opened
    {w with
      queue := Function.update w.queue q (if m3u then m3u_close i r else r.queue)
      next := r.next
      trk := Function.update w.trk i ⟨.ended,[],r.qu_cur,r.removed⟩}
  else
    {w with
      queue := Function.update w.queue q r.queue
      next := r.next
      trk := Function.update w.trk i ⟨.waiting,t.rest.tail,r.qu_cur,r.removed⟩}

def exec (w : World) : Task → World
  | .expand i => expand_run j w i
  | .ready q => ls_ready L j w q
  | .save q => save_run j w q

/-- `track_wake()` of the track that reads the input `i` -/
def wake (w : World) (i : Nat) : World :=
  {w with
    trk := Function.update w.trk i {w.trk i with state := .queued}
    tasks := w.tasks ++ [.expand i]}

/-- The worker takes its first task, or the network wakes a track. -/
inductive Act
  | run
  | wake (i : Nat)
deriving DecidableEq, Repr

def step (w : World) : Act → Option World
  | .run =>
    match w.failed,w.tasks with
    | false,t :: ts => some (exec L j {w with tasks := ts} t)
    | _,_ => none
  | .wake i =>
    if w.failed = false ∧ (w.trk i).state = .waiting then some (wake w i) else none

/-! ## What the commands are for -/

/-- The names of a whole list. -/
def Input.names (x : Input) : List Name := x.first ++ x.later.flatten

/-- A directory or a list, which has other names in it. -/
def Input.expandable (x : Input) : Prop :=
  x.isdir = true ∨ L.splitname_ext x.name ∈ [['m','3','u','8'],['m','3','u'],['m','3','u','z']]

instance (x : Input) : Decidable (x.expandable L) :=
  inferInstanceAs (Decidable (x.isdir = true ∨ _))

/-- The input is a list that is read to its end. -/
def ReadWhole (x : Input) : Prop :=
  x.isdir = false ∧ qe_expand L j x = true ∧ x.fin = .complete

instance (x : Input) : Decidable (ReadWhole L j x) :=
  inferInstanceAs (Decidable (x.isdir = false ∧ qe_expand L j x = true ∧ x.fin = .complete))

/-- Nothing goes wrong with an input. -/
def InputOk (x : Input) : Prop :=
  x.expandable L → qe_expand L j x = true ∧ x.fin = .complete

instance (x : Input) : Decidable (InputOk L j x) :=
  inferInstanceAs (Decidable (x.expandable L → qe_expand L j x = true ∧ x.fin = .complete))

/-- Nothing goes wrong in the whole command. -/
def NoErrors : Prop :=
  (∀ i < j.inputs.length, InputOk L j (j.input i)) ∧
    ∀ q < j.queues, can_save L j q = true ∧ j.written q = .renamed

instance : Decidable (NoErrors L j) :=
  inferInstanceAs (Decidable ((∀ i < j.inputs.length, InputOk L j (j.input i)) ∧
    ∀ q < j.queues, can_save L j q = true ∧ j.written q = .renamed))

/-- The state of a command that works as it should. -/
structure Good (w : World) : Prop where
  /-- A file is written after all reading for its queue. -/
  expanded : ∀ q, w.file q ≠ .kept → ∀ i < j.inputs.length, j.queue_of i = q →
    (w.trk i).state = .none ∨ (w.trk i).state = .ended
  /-- A list that is replaced was read, and has the same entries sorted. -/
  sorted : j.cmd = .sort → ∀ q, w.file q ≠ .kept → ReadWhole L j (j.input q) ∧
    ∀ names, w.file q = .replaced names →
      names.Perm (j.input q).names ∧ names.Pairwise icmp_le
  /-- `PHI_CORE_STOP` comes once, after the last save. -/
  stopped : w.stops ≤ 1 ∧ (w.stops = 1 → ∀ q < j.queues, q ∈ w.done) ∧
    (w.tasks = [] ∨ w.failed = true → w.stops = 1)
  /-- The exit code reports the errors. -/
  reported : w.exit_code = 0 → NoErrors L j

/-- The result of a save changes the file that was there. -/
def Written.changes (r : Written) : Prop := r = .failed true ∨ r = .renamed

instance (r : Written) : Decidable r.changes :=
  inferInstanceAs (Decidable (r = .failed true ∨ r = .renamed))

/-- A command that does so: there is something to do, every save can be started, what is saved
doesn't come from the network, a list that `list sort` changes can be read, and if the last save
has no error then nothing has. -/
structure Job.Fit : Prop where
  some_queue : 0 < j.queues
  saves : ∀ q < j.queues, can_save L j q = true
  no_wait : ∀ i < j.inputs.length, (j.written (j.queue_of i)).changes →
    qe_expand L j (j.input i) = true → (j.input i).later = []
  read : j.cmd = .sort → ∀ q < j.inputs.length, (j.written q).changes → ReadWhole L j (j.input q)
  last : (j.written (j.queues - 1)).error % 256 = 0 → NoErrors L j

/-! ## One step -/

variable {L j} {w w' : World}

theorem step_some {a : Act} (h : step L j w a = some w') : w.failed = false ∧
    ((∃ t ts, a = .run ∧ w.tasks = t :: ts ∧ w' = exec L j {w with tasks := ts} t) ∨
      ∃ i, a = .wake i ∧ (w.trk i).state = .waiting ∧ w' = wake w i) := by
  cases a with
  | run =>
    simp only [step] at h
    split at h
    · rename_i t ts hf ht
      exact ⟨hf,.inl ⟨t,ts,rfl,ht,(Option.some.inj h).symm⟩⟩
    · cases h
  | wake i =>
    simp only [step] at h
    split at h
    · rename_i hw
      exact ⟨hw.1,.inr ⟨i,rfl,hw.2,(Option.some.inj h).symm⟩⟩
    · cases h

theorem expand_run_frame (i : Nat) : (expand_run j w i).tasks = w.tasks ∧
    (expand_run j w i).counter = w.counter ∧ (expand_run j w i).done = w.done ∧
    (expand_run j w i).file = w.file ∧ (expand_run j w i).stops = w.stops ∧
    (expand_run j w i).exit_code = w.exit_code ∧ (expand_run j w i).failed = w.failed := by
  unfold expand_run
  dsimp only
  split <;> exact ⟨rfl,rfl,rfl,rfl,rfl,rfl,rfl⟩

theorem expand_run_other {i k : Nat} (h : k ≠ i) : (expand_run j w i).trk k = w.trk k := by
  unfold expand_run
  dsimp only
  split <;> exact Function.update_of_ne h _ _

theorem expand_run_elsewhere {i q : Nat} (h : q ≠ j.queue_of i) :
    (expand_run j w i).queue q = w.queue q := by
  unfold expand_run
  dsimp only
  split <;> exact Function.update_of_ne h _ _

theorem expand_run_trk (i : Nat) :
    (((expand_run j w i).trk i).state = .ended ∧ (w.trk i).rest.tail = []) ∨
      (((expand_run j w i).trk i).state = .waiting ∧ (w.trk i).rest.tail ≠ [] ∧
        ((expand_run j w i).trk i).rest = (w.trk i).rest.tail) := by
  unfold expand_run
  dsimp only
  split
  · rename_i h
    exact .inl ⟨by simp,h⟩
  · rename_i h
    exact .inr ⟨by simp,h,by simp⟩

theorem wake_other {i k : Nat} (h : k ≠ i) : (wake w i).trk k = w.trk k :=
  Function.update_of_ne h _ _

theorem ls_ready_eq (q : Nat) : ls_ready L j w q =
    {w with
      queue := Function.update w.queue q (L.sort (w.queue q))
      tasks := w.tasks ++ if can_save L j q then [.save q] else []} := by
  unfold ls_ready q_save
  dsimp only
  split <;> simp

theorem save_run_frame (q : Nat) : (save_run j w q).queue = w.queue ∧
    (save_run j w q).next = w.next ∧ (save_run j w q).trk = w.trk ∧
    (save_run j w q).tasks = w.tasks ∧ (save_run j w q).failed = w.failed ∧
    (save_run j w q).done = w.done ++ [q] ∧ (save_run j w q).file = Function.update w.file q
      ((j.written q).file ((w.queue q).map Entry.name)) := by
  unfold save_run
  dsimp only
  split
  · exact ⟨rfl,rfl,rfl,rfl,rfl,rfl,rfl⟩
  · unfold ls_save_complete
    dsimp only
    split <;> exact ⟨rfl,rfl,rfl,rfl,rfl,rfl,rfl⟩

/-! ## The saves -/

def Task.saved : Task → Option Nat
  | .save q => some q
  | _ => none

def Task.readied : Task → Option Nat
  | .ready q => some q
  | _ => none

/-- The saves that have ended, those that are posted and those that will be, in their order. -/
def World.line (p : Nat → Bool) (w : World) : List Nat :=
  w.done ++ w.tasks.filterMap Task.saved ++ (w.tasks.filterMap Task.readied).filter p

variable (L j) in
/-- The saves come in the order of the queues, and the last one ends the command. -/
structure Accounts (w : World) : Prop where
  line : w.line (can_save L j) = (List.range j.queues).filter (can_save L j)
  counter : j.cmd = .sort → w.counter + w.done.length = j.queues
  stops : w.stops = if w.done.length = j.queues ∧ 0 < j.queues then 1 else 0
  exit_code : w.exit_code = if w.done.length = j.queues ∧ 0 < j.queues then
    (j.written (j.queues - 1)).error % 256 else 1
  kept : ∀ q, q ∉ w.done → w.file q = .kept
  ended : ∀ q ∈ w.done, ∃ names, w.file q = (j.written q).file names

theorem line_pop {p : Nat → Bool} {t : Task} {ts : List Task} (ht : w.tasks = t :: ts) :
    w.line p = w.done ++ (t.saved.toList ++ ts.filterMap Task.saved) ++
      (t.readied.toList ++ ts.filterMap Task.readied).filter p := by
  rw [World.line,ht]
  cases t <;> rfl

/-- When as many saves have ended as there are queues, the last one was of the last queue. -/
theorem last_saved {p : Nat → Bool} {N q : Nat} {d x : List Nat}
    (h : d ++ q :: x = (List.range N).filter p) :
    d.length < N ∧ (d.length + 1 = N → q = N - 1) := by
  have hle : (d ++ q :: x).length ≤ N := by
    rw [h]
    simpa using List.length_filter_le p (List.range N)
  simp only [List.length_append,List.length_cons] at hle
  refine ⟨by omega,fun hN => ?_⟩
  have hx : x = [] := List.length_eq_zero_iff.mp (by omega)
  have hall : (List.range N).filter p = List.range N := by
    refine List.filter_sublist.eq_of_length ?_
    rw [← h,hx]
    simp [hN]
  have hrange : d ++ [q] = List.range N := by rw [← hall,← h,hx]
  have hget : (d ++ [q])[d.length]? = (List.range N)[d.length]? := by rw [hrange]
  rw [List.getElem?_append_right (Nat.le_refl _)] at hget
  rw [List.getElem?_range (by omega)] at hget
  simp only [Nat.sub_self,List.getElem?_cons_zero,Option.some.injEq] at hget
  omega

/-- What changes neither the saves nor their line keeps the accounts. -/
theorem Accounts.same (h : Accounts L j w) (hl : w'.line (can_save L j) = w.line (can_save L j))
    (hc : w'.counter = w.counter) (hd : w'.done = w.done) (hf : w'.file = w.file)
    (hs : w'.stops = w.stops) (he : w'.exit_code = w.exit_code) : Accounts L j w' where
  line := hl.trans h.line
  counter := by rw [hc,hd]; exact h.counter
  stops := by rw [hs,hd]; exact h.stops
  exit_code := by rw [he,hd]; exact h.exit_code
  kept := by rw [hd,hf]; exact h.kept
  ended := by rw [hd,hf]; exact h.ended

theorem save_run_end {q : Nat} (hlt : w.done.length < j.queues)
    (hcounter : j.cmd = .sort → w.counter + w.done.length = j.queues) (hstops : w.stops = 0)
    (hcode : w.exit_code = 1) :
    (j.cmd = .sort → (save_run j w q).counter + (w.done.length + 1) = j.queues) ∧
    (save_run j w q).stops = (if w.done.length + 1 = j.queues then 1 else 0) ∧
    (save_run j w q).exit_code =
      (if w.done.length + 1 = j.queues then (j.written q).error % 256 else 1) := by
  unfold save_run
  dsimp only
  split
  · rename_i o hcmd
    have hone : j.queues = 1 := by simp [Job.queues,hcmd]
    have hd : w.done.length + 1 = j.queues := by omega
    rw [if_pos hd,if_pos hd]
    exact ⟨fun hsort => (nomatch hcmd.symm.trans hsort),by simp [lc_done,hstops],rfl⟩
  · rename_i hcmd
    have hc := hcounter hcmd
    unfold ls_save_complete
    dsimp only
    split
    · have hd : ¬ w.done.length + 1 = j.queues := by omega
      rw [if_neg hd,if_neg hd]
      exact ⟨fun _ => by dsimp only; omega,hstops,hcode⟩
    · have hd : w.done.length + 1 = j.queues := by omega
      rw [if_pos hd,if_pos hd]
      exact ⟨fun _ => by dsimp only; omega,by dsimp only; omega,rfl⟩

theorem Accounts.save {q : Nat} {ts : List Task} (h : Accounts L j w)
    (ht : w.tasks = .save q :: ts) : Accounts L j (save_run j {w with tasks := ts} q) := by
  obtain ⟨_,_,_,htasks,_,hdone,hfile⟩ := save_run_frame (j := j) (w := {w with tasks := ts}) q
  dsimp only at htasks hdone hfile
  have hline := h.line
  rw [line_pop ht] at hline
  simp only [Task.saved,Task.readied,Option.toList_some,Option.toList_none,List.nil_append,
    List.append_assoc,List.cons_append] at hline
  obtain ⟨hlt,hlast⟩ := last_saved hline
  have hlen : (save_run j {w with tasks := ts} q).done.length = w.done.length + 1 := by
    rw [hdone]
    simp
  have hpos : 0 < j.queues := by omega
  have hend := save_run_end (w := {w with tasks := ts}) (q := q) hlt h.counter
    (by rw [h.stops,if_neg (by omega)]) (by rw [h.exit_code,if_neg (by omega)])
  refine ⟨?_,fun hcmd => ?_,?_,?_,fun k hk => ?_,fun k hk => ?_⟩
  · rw [← hline,World.line,hdone,htasks]
    simp
  · rw [hlen]
    exact hend.1 hcmd
  · simp only [hend.2.1,hlen,hpos,and_true]
  · simp only [hend.2.2,hlen,hpos,and_true]
    split
    · rw [hlast ‹_›]
    · rfl
  · rw [hdone,List.mem_append,List.mem_singleton,not_or] at hk
    rw [hfile,Function.update_of_ne hk.2]
    exact h.kept k hk.1
  · rw [hdone,List.mem_append,List.mem_singleton] at hk
    rw [hfile]
    by_cases hkq : k = q
    · subst hkq
      exact ⟨_,Function.update_self _ _ _⟩
    · rw [Function.update_of_ne hkq]
      exact h.ended k (hk.resolve_right hkq)

theorem accounts_step {a : Act} (h : Accounts L j w) (hs : step L j w a = some w') :
    Accounts L j w' := by
  obtain ⟨_,⟨t,ts,rfl,ht,rfl⟩ | ⟨i,rfl,_,rfl⟩⟩ := step_some hs
  · cases t with
    | expand i =>
      obtain ⟨htasks,hc,hd,hf,hst,he,_⟩ :=
        expand_run_frame (j := j) (w := {w with tasks := ts}) i
      refine h.same ?_ hc hd hf hst he
      rw [line_pop ht]
      simp only [exec,World.line,hd,htasks]
      rfl
    | ready q =>
      rw [exec,ls_ready_eq]
      refine h.same ?_ rfl rfl rfl rfl rfl
      rw [line_pop ht]
      simp only [World.line,List.filterMap_append,List.append_assoc]
      cases hq : can_save L j q <;> simp [hq,Task.saved,Task.readied]
    | save q => exact h.save ht
  · refine h.same ?_ rfl rfl rfl rfl rfl
    simp [World.line,wake,List.filterMap_cons,Task.saved,Task.readied]

/-! ## The start -/

variable (L j) in
/-- The tasks that are posted when an input is added. -/
def posts (i : Nat) : List Task :=
  (if qe_expand L j (j.input i) then [.expand i] else []) ++
    if j.cmd = .sort then [.ready i] else []

variable (L j) in
def posted (k : Nat) : List Task := (List.range k).flatMap (posts L j)

variable (L j) in
/-- The track of an input is started. -/
def Started (k i : Nat) : Prop := i < k ∧ qe_expand L j (j.input i) = true

instance (k i : Nat) : Decidable (Started L j k i) :=
  inferInstanceAs (Decidable (i < k ∧ qe_expand L j (j.input i) = true))

/-- The track of an input before it reads. -/
def Input.unread (x : Input) (i : Nat) : Track := ⟨.queued,x.first :: x.later,i,false⟩

variable (L j) in
/-- The state after `k` inputs are added. -/
structure Added (k : Nat) (w : World) : Prop where
  queue : j.cmd = .sort → ∀ q, w.queue q = if q < k then [⟨q,(j.input q).name⟩] else []
  next : w.next = j.inputs.length
  trk : ∀ i, w.trk i = if Started L j k i then (j.input i).unread i else ⟨.none,[],0,false⟩
  tasks : w.tasks = posted L j k
  done : w.done = []
  file : ∀ q, w.file q = .kept
  stops : w.stops = 0
  exit_code : w.exit_code = 1
  failed : w.failed = false

theorem posted_succ (k : Nat) : posted L j (k + 1) = posted L j k ++ posts L j k := by
  simp [posted,List.range_succ]

theorem started_succ {k i : Nat} :
    Started L j (k + 1) i ↔ Started L j k i ∨ i = k ∧ qe_expand L j (j.input k) = true := by
  unfold Started
  constructor
  · rintro ⟨hi,he⟩
    by_cases hk : i = k
    · exact .inr ⟨hk,hk ▸ he⟩
    · exact .inl ⟨by omega,he⟩
  · rintro (⟨hi,he⟩ | ⟨rfl,he⟩)
    · exact ⟨by omega,he⟩
    · exact ⟨by omega,he⟩

theorem q_add_eq (k : Nat) : q_add L j w k =
    {w with
      queue := Function.update w.queue (j.queue_of k) (w.queue (j.queue_of k) ++
        [⟨k,(j.input k).name⟩])
      trk := if qe_expand L j (j.input k) then
        Function.update w.trk k ((j.input k).unread k) else w.trk
      tasks := w.tasks ++ if qe_expand L j (j.input k) then [.expand k] else []} := by
  unfold q_add
  dsimp only
  split <;> simp [Input.unread]

/-- One input is added, with the task behind it that `list sort` has. -/
theorem Added.succ {k : Nat} (h : Added L j k w) : Added L j (k + 1)
    {q_add L j w k with
      tasks := (q_add L j w k).tasks ++ if j.cmd = .sort then [.ready k] else []} where
  queue hcmd q := by
    have hq : j.queue_of k = k := by simp [Job.queue_of,hcmd]
    simp only [q_add_eq,hq,h.queue hcmd]
    by_cases hk : q = k
    · subst hk
      simp
    · simp [Function.update_of_ne hk,show q < k + 1 ↔ q < k by omega,h.queue hcmd]
  next := by simp [q_add_eq,h.next]
  trk i := by
    simp only [q_add_eq,started_succ]
    by_cases he : qe_expand L j (j.input k) = true
    · by_cases hi : i = k
      · subst hi
        simp [he]
      · simp [he,hi,h.trk]
    · simp [he,h.trk]
  tasks := by simp [q_add_eq,h.tasks,posted_succ,posts]
  done := by simp [q_add_eq,h.done]
  file q := by simp [q_add_eq,h.file]
  stops := by simp [q_add_eq,h.stops]
  exit_code := by simp [q_add_eq,h.exit_code]
  failed := by simp [q_add_eq,h.failed]

theorem added_init (n : Nat) : Added L j 0 {j.init with counter := n} where
  queue _ q := by simp [Job.init]
  next := rfl
  trk i := by simp [Started,Job.init]
  tasks := rfl
  done := rfl
  file _ := rfl
  stops := rfl
  exit_code := rfl
  failed := rfl

theorem added_create {o : Name} (hcmd : j.cmd = .create o) (k : Nat) :
    Added L j k ((List.range k).foldl (q_add L j) j.init) := by
  induction k with
  | zero => exact added_init 0
  | succ k ih =>
    rw [List.range_succ,List.foldl_append]
    simpa [hcmd] using ih.succ

theorem added_sort (hcmd : j.cmd = .sort) (k : Nat) :
    Added L j k ((List.range k).foldl (ls_add L j) {j.init with counter := j.inputs.length}) ∧
      ((List.range k).foldl (ls_add L j) {j.init with counter := j.inputs.length}).counter =
        j.inputs.length := by
  induction k with
  | zero => exact ⟨added_init _,rfl⟩
  | succ k ih =>
    rw [List.range_succ,List.foldl_append]
    refine ⟨by simpa [ls_add,hcmd] using ih.1.succ,?_⟩
    simpa [ls_add,q_add_eq] using ih.2

variable (L j) in
theorem start_added : ∃ w, Added L j j.inputs.length w ∧
    (j.cmd = .sort → w.counter = j.inputs.length) ∧
    start L j = {w with
      tasks := w.tasks ++ if j.cmd ≠ .sort ∧ can_save L j 0 = true then [.save 0] else []
      failed := j.cmd ≠ .sort ∧ can_save L j 0 = false} := by
  cases hcmd : j.cmd with
  | create o =>
    refine ⟨_,added_create hcmd _,fun h => (nomatch h),?_⟩
    have h := added_create (L := L) hcmd j.inputs.length
    cases hs : can_save L j 0 <;> simp [start,hcmd,lc_action,q_save,hs,h.failed]
  | sort =>
    obtain ⟨h,hc⟩ := added_sort (L := L) hcmd j.inputs.length
    refine ⟨_,h,fun _ => hc,?_⟩
    simp only [start,hcmd,ls_action]
    generalize (List.range j.inputs.length).foldl (ls_add L j) _ = w at h ⊢
    have hf : w.failed = false := h.failed
    simp [← hf]

theorem posts_saved (i : Nat) : (posts L j i).filterMap Task.saved = [] := by
  unfold posts
  split <;> split <;> rfl

theorem posts_readied (i : Nat) :
    (posts L j i).filterMap Task.readied = if j.cmd = .sort then [i] else [] := by
  unfold posts
  split <;> split <;> rfl

theorem posted_saved (k : Nat) : (posted L j k).filterMap Task.saved = [] := by
  simp [posted,List.filterMap_flatMap,posts_saved]

theorem posted_readied (k : Nat) :
    (posted L j k).filterMap Task.readied = if j.cmd = .sort then List.range k else [] := by
  simp only [posted,List.filterMap_flatMap,posts_readied]
  split
  · simp
  · simp

variable (L j) in
theorem accounts_start : Accounts L j (start L j) := by
  obtain ⟨w,h,hc,hs⟩ := start_added L j
  have hnone : ¬ (w.done.length = j.queues ∧ 0 < j.queues) := by
    simp only [h.done,List.length_nil]
    omega
  rw [hs]
  refine ⟨?_,fun hcmd => ?_,?_,?_,fun q _ => h.file q,fun q hq => ?_⟩
  · simp only [World.line,h.done,h.tasks,List.filterMap_append,posted_saved,posted_readied]
    cases hcmd : j.cmd with
    | create o =>
      cases hq : can_save L j 0 <;>
        simp [Job.queues,hcmd,hq,List.range_succ,List.filterMap_cons,Task.saved,Task.readied]
    | sort => simp [Job.queues,hcmd]
  · simp [h.done,hc hcmd,Job.queues,hcmd]
  · exact h.stops.trans (if_neg hnone).symm
  · exact h.exit_code.trans (if_neg hnone).symm
  · simp only [h.done] at hq
    cases hq

theorem accounts_run {as : List Act} (hrun : Machine.run (step L j) (start L j) as = some w) :
    Accounts L j w :=
  Machine.run_invariant (fun _ _ _ h hs => accounts_step h hs) hrun (accounts_start L j)

/-! ## The tracks that read -/

variable (L j) in
/-- A track is in the worker's queue while it isn't waiting, and has the rest of its input to
read. -/
structure Reads (w : World) : Prop where
  count : ∀ i, w.tasks.count (.expand i) = if (w.trk i).state = .queued then 1 else 0
  none : ∀ i, (w.trk i).state = .none ↔ ¬ Started L j j.inputs.length i
  waiting : ∀ i, (w.trk i).state = .waiting → (w.trk i).rest ≠ [] ∧
    (w.trk i).rest <:+ (j.input i).later
  queued : ∀ i, (w.trk i).state = .queued →
    (w.trk i).rest = (j.input i).first :: (j.input i).later ∨
      (w.trk i).rest ≠ [] ∧ (w.trk i).rest <:+ (j.input i).later

theorem Reads.at_once (h : Reads L j w) {i : Nat} (hl : (j.input i).later = []) :
    (w.trk i).state ≠ .waiting ∧
      ((w.trk i).state = .queued → (w.trk i).rest = [(j.input i).first]) := by
  refine ⟨fun hw => ?_,fun hq => ?_⟩
  · obtain ⟨hne,hsuf⟩ := h.waiting i hw
    rw [hl,List.suffix_nil] at hsuf
    exact hne hsuf
  · obtain hr | ⟨hne,hsuf⟩ := h.queued i hq
    · rw [hr,hl]
    · rw [hl,List.suffix_nil] at hsuf
      exact absurd hsuf hne

theorem Reads.head (h : Reads L j w) {i : Nat} {ts : List Task} (ht : w.tasks = .expand i :: ts) :
    (w.trk i).state = .queued ∧ .expand i ∉ ts := by
  have hcount := h.count i
  rw [ht,List.count_cons_self] at hcount
  split at hcount
  · exact ⟨‹_›,List.count_eq_zero.mp (by omega)⟩
  · omega

theorem Reads.tail_suffix (h : Reads L j w) {i : Nat} (hq : (w.trk i).state = .queued) :
    (w.trk i).rest.tail <:+ (j.input i).later := by
  obtain hr | ⟨_,hsuf⟩ := h.queued i hq
  · rw [hr]
    exact List.suffix_refl _
  · exact (List.tail_suffix _).trans hsuf

theorem Reads.same (h : Reads L j w) (hc : ∀ i, w'.tasks.count (.expand i) =
    w.tasks.count (.expand i)) (ht : w'.trk = w.trk) : Reads L j w' where
  count i := by rw [hc i,ht]; exact h.count i
  none := ht ▸ h.none
  waiting := ht ▸ h.waiting
  queued := ht ▸ h.queued

theorem Reads.expand {i : Nat} {ts : List Task} (h : Reads L j w)
    (ht : w.tasks = .expand i :: ts) : Reads L j (expand_run j {w with tasks := ts} i) := by
  obtain ⟨hq,hnot⟩ := h.head ht
  obtain ⟨htasks,_⟩ := expand_run_frame (j := j) (w := {w with tasks := ts}) i
  have htrk := expand_run_trk (j := j) (w := {w with tasks := ts}) i
  have hother := fun {k} => expand_run_other (j := j) (w := {w with tasks := ts}) (i := i) (k := k)
  dsimp only at htasks htrk hother
  refine ⟨fun k => ?_,fun k => ?_,fun k hk => ?_,fun k hk => ?_⟩
  all_goals by_cases hki : k = i
  · subst hki
    rw [htasks,List.count_eq_zero.mpr hnot,if_neg]
    obtain ⟨hs,_⟩ | ⟨hs,_⟩ := htrk <;> simp [hs]
  · have hcount := h.count k
    rw [ht,List.count_cons_of_ne (by simp [Ne.symm hki])] at hcount
    rw [htasks,hother hki]
    exact hcount
  · subst hki
    have hnone := h.none k
    simp only [hq,reduceCtorEq,false_iff] at hnone
    obtain ⟨hs,_⟩ | ⟨hs,_⟩ := htrk <;> simpa [hs] using hnone
  · rw [hother hki]
    exact h.none k
  · subst hki
    obtain ⟨hs,_⟩ | ⟨_,hne,hr⟩ := htrk
    · cases hs.symm.trans hk
    · rw [hr]
      exact ⟨hne,h.tail_suffix hq⟩
  · rw [hother hki] at hk ⊢
    exact h.waiting k hk
  · subst hki
    obtain ⟨hs,_⟩ | ⟨hs,_⟩ := htrk <;> cases hs.symm.trans hk
  · rw [hother hki] at hk ⊢
    exact h.queued k hk

theorem Reads.wake {i : Nat} (h : Reads L j w) (hw : (w.trk i).state = .waiting) :
    Reads L j (wake w i) := by
  have hself : (ListCmd.wake w i).trk i = {w.trk i with state := .queued} :=
    Function.update_self _ _ _
  refine ⟨fun k => ?_,fun k => ?_,fun k hk => ?_,fun k hk => ?_⟩
  all_goals by_cases hki : k = i
  · subst hki
    have hcount := h.count k
    rw [hw,if_neg (by simp)] at hcount
    rw [hself,if_pos rfl]
    simp [ListCmd.wake,hcount]
  · have hcount := h.count k
    rw [wake_other hki,← hcount]
    simp [ListCmd.wake,Ne.symm hki]
  · subst hki
    have hnone := h.none k
    simp only [hw,reduceCtorEq,false_iff] at hnone
    simpa [hself] using hnone
  · rw [wake_other hki]
    exact h.none k
  · subst hki
    rw [hself] at hk
    cases hk
  · rw [wake_other hki] at hk ⊢
    exact h.waiting k hk
  · subst hki
    rw [hself]
    exact .inr (h.waiting k hw)
  · rw [wake_other hki] at hk ⊢
    exact h.queued k hk

theorem reads_step {a : Act} (h : Reads L j w) (hs : step L j w a = some w') :
    Reads L j w' := by
  obtain ⟨_,⟨t,ts,rfl,ht,rfl⟩ | ⟨i,rfl,hw,rfl⟩⟩ := step_some hs
  · cases t with
    | expand i => exact h.expand ht
    | ready q =>
      rw [exec,ls_ready_eq]
      refine h.same (fun i => ?_) rfl
      rw [ht]
      dsimp only
      split <;> simp
    | save q =>
      obtain ⟨_,_,htrk,htasks,_⟩ := save_run_frame (j := j) (w := {w with tasks := ts}) q
      refine h.same (fun i => ?_) htrk
      rw [exec,htasks,ht]
      simp
  · exact h.wake hw

theorem count_posts (i k : Nat) : (posts L j k).count (.expand i) =
    if i = k ∧ qe_expand L j (j.input k) = true then 1 else 0 := by
  by_cases hik : i = k
  · subst hik
    unfold posts
    split <;> split <;> simp [*]
  · unfold posts
    split <;> split <;> simp [hik,Ne.symm hik]

theorem count_posted (i k : Nat) :
    (posted L j k).count (.expand i) = if Started L j k i then 1 else 0 := by
  induction k with
  | zero => simp [posted,Started]
  | succ k ih =>
    rw [posted_succ,List.count_append,ih,count_posts]
    simp only [started_succ]
    by_cases hk : i = k
    · subst hk
      simp [Started]
    · simp [hk]

variable (L j) in
theorem reads_start : Reads L j (start L j) := by
  obtain ⟨w,h,_,hs⟩ := start_added L j
  rw [hs]
  refine ⟨fun i => ?_,fun i => ?_,fun i hi => ?_,fun i hi => ?_⟩
  · have hcount : (w.tasks ++ if j.cmd ≠ .sort ∧ can_save L j 0 = true then [Task.save 0]
        else []).count (.expand i) = w.tasks.count (.expand i) := by
      split <;> simp
    dsimp only
    rw [hcount,h.tasks,count_posted,h.trk]
    split <;> simp [Input.unread]
  · dsimp only
    rw [h.trk]
    split <;> simp [*,Input.unread]
  · dsimp only at hi
    rw [h.trk] at hi
    split at hi <;> cases hi
  · dsimp only at hi ⊢
    rw [h.trk] at hi ⊢
    split at hi
    · rename_i hst
      rw [if_pos hst]
      exact .inl rfl
    · cases hi

theorem reads_run {as : List Act} (hrun : Machine.run (step L j) (start L j) as = some w) :
    Reads L j w :=
  Machine.run_invariant (fun _ _ _ h hs => reads_step h hs) hrun (reads_start L j)

/-! ## The order of the tasks -/

/-- The task ends the reading for a queue: it sorts the queue or saves it. -/
def Task.closes (t : Task) (q : Nat) : Prop := t = .ready q ∨ t = .save q

/-- The track of an input that doesn't come from the network is in the worker's queue. -/
def Pending (j : Job) (w : World) (i : Nat) : Prop :=
  (w.trk i).state = .queued ∧ (j.input i).later = []

/-- Such a track comes before what ends the reading for its queue. -/
structure Fifo (j : Job) (w : World) : Prop where
  ahead : ∀ i, Pending j w i → ∃ l r, w.tasks = l ++ .expand i :: r ∧
    ∀ t ∈ l, ¬ t.closes (j.queue_of i)
  past : ∀ q ∈ w.done, ∀ i, j.queue_of i = q → ¬ Pending j w i

/-- When the reading for a queue is ended, none of its tracks is pending. -/
theorem Fifo.closed (h : Fifo j w) {t : Task} {ts : List Task} (ht : w.tasks = t :: ts) {q : Nat}
    (hc : t.closes q) {i : Nat} (hi : j.queue_of i = q) : ¬ Pending j w i := by
  intro hp
  obtain ⟨l,r,hl,hbefore⟩ := h.ahead i hp
  rw [ht] at hl
  cases l with
  | nil =>
    obtain ⟨rfl,_⟩ := List.cons.inj hl
    obtain hc | hc := hc <;> cases hc
  | cons t' l =>
    obtain ⟨rfl,_⟩ := List.cons.inj hl
    exact hbefore _ List.mem_cons_self (hi ▸ hc)

theorem Fifo.pop (h : Fifo j w) {t : Task} {ts n : List Task} (ht : w.tasks = t :: ts)
    (hnew : w'.tasks = ts ++ n)
    (hp : ∀ i, Pending j w' i → Pending j w i ∧ t ≠ .expand i)
    (hd : ∀ q ∈ w'.done, q ∈ w.done ∨ t.closes q) : Fifo j w' where
  ahead i hi := by
    obtain ⟨hpend,hne⟩ := hp i hi
    obtain ⟨l,r,hl,hbefore⟩ := h.ahead i hpend
    rw [ht] at hl
    cases l with
    | nil => exact absurd (List.cons.inj hl).1 hne
    | cons t' l =>
      refine ⟨l,r ++ n,?_,fun x hx => hbefore x (List.mem_cons_of_mem _ hx)⟩
      rw [hnew,(List.cons.inj hl).2]
      simp
  past q hq i hi := by
    obtain hq | hc := hd q hq
    · exact fun hpend => h.past q hq i hi (hp i hpend).1
    · exact fun hpend => h.closed ht hc hi (hp i hpend).1

theorem fifo_step {a : Act} (h : Fifo j w) (hr : Reads L j w) (hs : step L j w a = some w') :
    Fifo j w' := by
  obtain ⟨_,⟨t,ts,rfl,ht,rfl⟩ | ⟨i,rfl,hw,rfl⟩⟩ := step_some hs
  · cases t with
    | expand i =>
      obtain ⟨htasks,_,hdone,_⟩ := expand_run_frame (j := j) (w := {w with tasks := ts}) i
      have htrk := expand_run_trk (j := j) (w := {w with tasks := ts}) i
      refine h.pop ht (n := []) (by rw [exec,htasks,List.append_nil]) (fun k hk => ?_)
        fun q hq => .inl (by rwa [exec,hdone] at hq)
      by_cases hki : k = i
      · subst hki
        obtain ⟨hs,_⟩ | ⟨hs,_⟩ := htrk <;> cases hs.symm.trans hk.1
      · refine ⟨⟨?_,hk.2⟩,by simp [Ne.symm hki]⟩
        rw [← hk.1,exec,expand_run_other hki]
    | ready q =>
      rw [exec,ls_ready_eq]
      exact h.pop ht rfl (fun k hk => ⟨hk,by simp⟩) fun q hq => .inl hq
    | save q =>
      obtain ⟨_,_,htrk,htasks,_,hdone,_⟩ := save_run_frame (j := j) (w := {w with tasks := ts}) q
      refine h.pop ht (n := []) (by rw [exec,htasks,List.append_nil]) (fun k hk => ?_)
        fun k hk => ?_
      · refine ⟨⟨?_,hk.2⟩,by simp⟩
        rw [← hk.1,exec,htrk]
      · rw [exec,hdone,List.mem_append,List.mem_singleton] at hk
        exact hk.imp id fun hkq => .inr (by rw [hkq])
  · -- only a track that reads from the network waits
    have hsame : ∀ k, Pending j (wake w i) k → Pending j w k := by
      intro k hk
      by_cases hki : k = i
      · subst hki
        exact absurd hw (hr.at_once hk.2).1
      · refine ⟨?_,hk.2⟩
        rw [← hk.1,wake_other hki]
    refine ⟨fun k hk => ?_,fun q hq k hk hp => h.past q hq k hk (hsame k hp)⟩
    obtain ⟨l,r,hl,hbefore⟩ := h.ahead k (hsame k hk)
    exact ⟨l,r ++ [.expand i],by simp [wake,hl],hbefore⟩

theorem posted_ahead {n i : Nat} (h : Started L j n i) : ∃ l r,
    posted L j n = l ++ .expand i :: r ∧ ∀ t ∈ l, ¬ t.closes (j.queue_of i) := by
  have hsplit : posted L j n = posted L j i ++ .expand i :: ((posts L j i).tail ++
      ((List.range (n - (i + 1))).map (i + 1 + ·)).flatMap (posts L j)) := by
    have hrange : List.range n = List.range (i + 1) ++
        (List.range (n - (i + 1))).map (i + 1 + ·) := by
      rw [← List.range_add]
      congr 1
      have := h.1
      omega
    have hposts : posts L j i = .expand i :: (posts L j i).tail := by
      unfold posts
      rw [if_pos h.2]
      rfl
    rw [posted,hrange,List.flatMap_append,← posted,posted_succ,hposts]
    simp
  refine ⟨_,_,hsplit,fun t ht hc => ?_⟩
  obtain ⟨k,hk,htk⟩ := List.mem_flatMap.mp ht
  have hlt := List.mem_range.mp hk
  have hready : t = .ready k ∧ j.cmd = .sort := by
    unfold posts at htk
    obtain rfl | rfl := hc <;> split at htk <;> split at htk <;> simp_all
  obtain ⟨rfl,hcmd⟩ := hready
  obtain hc | hc := hc
  · simp only [Job.queue_of,hcmd,Task.ready.injEq] at hc
    omega
  · cases hc

variable (L j) in
theorem fifo_start : Fifo j (start L j) := by
  obtain ⟨w,h,_,hs⟩ := start_added L j
  rw [hs]
  refine ⟨fun i hi => ?_,fun q hq => ?_⟩
  · have hst : Started L j j.inputs.length i := by
      by_contra hne
      have hq := hi.1
      dsimp only at hq
      rw [h.trk,if_neg hne] at hq
      cases hq
    obtain ⟨l,r,hl,hbefore⟩ := posted_ahead hst
    refine ⟨l,r ++ if j.cmd ≠ .sort ∧ can_save L j 0 = true then [.save 0] else [],?_,hbefore⟩
    dsimp only
    rw [h.tasks,hl]
    simp
  · dsimp only at hq
    rw [h.done] at hq
    cases hq

theorem fifo_run {as : List Act} (hrun : Machine.run (step L j) (start L j) as = some w) :
    Fifo j w :=
  (Machine.run_invariant (I := fun w => Reads L j w ∧ Fifo j w)
    (fun _ _ _ h hs => ⟨reads_step h.1 hs,fifo_step h.2 h.1 hs⟩) hrun
    ⟨reads_start L j,fifo_start L j⟩).2

/-! ## What a list is read as -/

/-- The names that were found stand in the queue instead of the list, and the next one goes
behind them. -/
structure Reading.Behind (r : Reading) (names : List Name) : Prop where
  removed : r.removed = true
  names : r.queue.map Entry.name = names
  last : ∃ l name, r.queue = l ++ [⟨r.qu_cur,name⟩]
  old : ∀ e ∈ r.queue, e.id < r.next
  nodup : (r.queue.map Entry.id).Nodup

theorem qe_index_last {l : List Entry} {e : Entry} (h : ((l ++ [e]).map Entry.id).Nodup) :
    qe_index (l ++ [e]) e.id = l.length := by
  have hl : ∀ x ∈ l, ¬ x.id = e.id := by
    intro x hx he
    rw [List.map_append,List.nodup_append] at h
    exact h.2.2 x.id (List.mem_map_of_mem hx) e.id (by simp) he
  have hnone : l.findIdx? (·.id = e.id) = none := by
    simpa using hl
  unfold qe_index
  rw [List.findIdx?_append,hnone]
  simp

theorem Reading.Behind.add {r : Reading} {names : List Name} (h : r.Behind names) (own : Nat)
    (name : Name) : (add_name own r name).Behind (names ++ [name]) := by
  obtain ⟨l,last,hq⟩ := h.last
  have hins : qe_insert r.queue r.qu_cur ⟨r.next,name⟩ = r.queue ++ [⟨r.next,name⟩] := by
    have hidx := qe_index_last (hq ▸ h.nodup)
    rw [qe_insert,hq,hidx]
    have : ((l.length : Int) + 1).toNat = (l ++ [(⟨r.qu_cur,last⟩ : Entry)]).length := by simp
    rw [this,List.insertIdx_length_self]
  have hqueue : (add_name own r name).queue = r.queue ++ [⟨r.next,name⟩] := by
    simp [add_name,h.removed,hins]
  refine ⟨rfl,?_,⟨r.queue,name,hqueue⟩,fun e he => ?_,?_⟩
  · rw [hqueue,List.map_append,h.names]
    rfl
  · rw [hqueue,List.mem_append,List.mem_singleton] at he
    change e.id < r.next + 1
    obtain he | rfl := he
    · exact Nat.lt_succ_of_lt (h.old e he)
    · exact Nat.lt_succ_self _
  · rw [hqueue,List.map_append,List.nodup_append]
    refine ⟨h.nodup,by simp,?_⟩
    rintro a ha b hb rfl
    obtain ⟨e,he,rfl⟩ := List.mem_map.mp ha
    have := h.old e he
    simp only [List.map_cons,List.map_nil,List.mem_singleton] at hb
    omega

theorem Reading.Behind.fold {r : Reading} {names : List Name} (h : r.Behind names) (own : Nat)
    (more : List Name) : (more.foldl (add_name own) r).Behind (names ++ more) := by
  induction more generalizing r names with
  | nil => simpa using h
  | cons name more ih =>
    rw [List.append_cons]
    exact ih (h.add own name)

theorem add_first (own next : Nat) (list name : Name) :
    (add_name own ⟨[⟨own,list⟩],next,own,false⟩ name).Behind [name] := by
  have hqueue : (add_name own ⟨[⟨own,list⟩],next,own,false⟩ name).queue = [⟨next,name⟩] := by
    simp [add_name,qe_insert,qe_index,qe_remove]
  refine ⟨rfl,by rw [hqueue]; rfl,⟨[],name,by rw [hqueue]; rfl⟩,?_,by rw [hqueue]; simp⟩
  intro e he
  rw [hqueue,List.mem_singleton] at he
  subst he
  exact Nat.lt_succ_self _

theorem read_all (own next : Nat) (list : Name) (names : List Name) :
    (m3u_close own (names.foldl (add_name own) ⟨[⟨own,list⟩],next,own,false⟩)).map Entry.name =
      names := by
  cases names with
  | nil => simp [m3u_close,qe_remove]
  | cons name names =>
    have hread := (add_first own next list name).fold own names
    rw [List.foldl_cons,m3u_close,if_pos hread.removed]
    exact hread.names

theorem expand_run_whole {q : Nat} (hcmd : j.cmd = .sort) (hw : ReadWhole L j (j.input q))
    (hq : w.queue q = [⟨q,(j.input q).name⟩])
    (ht : w.trk q = ⟨.queued,[(j.input q).first],q,false⟩) :
    ((expand_run j w q).trk q).state = .ended ∧
      ((expand_run j w q).queue q).map Entry.name = (j.input q).first := by
  have hof : j.queue_of q = q := by simp [Job.queue_of,hcmd]
  unfold expand_run
  simp only [ht,hof,hq,List.tail_cons,if_true,List.headD_cons,Function.update_self,hw.1,hw.2.2,
    End.opened,Bool.not_false,Bool.and_self,true_and]
  exact read_all _ _ _ _

/-- The way of one list through `list sort`, if it is read at once. -/
structure Content (j : Job) (q : Nat) (w : World) : Prop where
  unread : (w.trk q).state = .queued → w.queue q = [⟨q,(j.input q).name⟩] ∧
    w.trk q = ⟨.queued,[(j.input q).first],q,false⟩
  read : (w.trk q).state = .ended → ((w.queue q).map Entry.name).Perm (j.input q).first
  posted : .save q ∈ w.tasks → (w.trk q).state = .ended ∧
    (w.queue q).Pairwise fun a b => icmp_le a.name b.name
  saved : ∀ names, w.file q = .replaced names →
    names.Perm (j.input q).first ∧ names.Pairwise icmp_le

theorem Content.same {q : Nat} (h : Content j q w) (hq : w'.queue q = w.queue q)
    (ht : w'.trk q = w.trk q) (hp : .save q ∈ w'.tasks → .save q ∈ w.tasks)
    (hf : w'.file q = w.file q) : Content j q w' where
  unread := by rw [hq,ht]; exact h.unread
  read := by rw [hq,ht]; exact h.read
  posted hs := by rw [hq,ht]; exact h.posted (hp hs)
  saved := by rw [hf]; exact h.saved

variable {q : Nat}

theorem Content.ready (ts : List Task) (h : Content j q w) (hend : (w.trk q).state = .ended) :
    Content j q (ls_ready L j {w with tasks := ts} q) := by
  rw [ls_ready_eq]
  refine ⟨fun hs => ?_,fun _ => ?_,fun _ => ⟨hend,?_⟩,h.saved⟩
  · cases hend.symm.trans hs
  · simp only [Function.update_self]
    exact ((L.sort_perm _).map _).trans (h.read hend)
  · simp only [Function.update_self]
    exact L.sort_sorted _

theorem Content.save {ts : List Task} (h : Content j q w) (ht : w.tasks = .save q :: ts) :
    Content j q (save_run j {w with tasks := ts} q) := by
  obtain ⟨hqueue,_,htrk,htasks,_,_,hfile⟩ := save_run_frame (j := j) (w := {w with tasks := ts}) q
  have hpost := h.posted (ht ▸ List.mem_cons_self)
  refine ⟨?_,?_,fun hs => ?_,fun names hn => ?_⟩
  · rw [hqueue,htrk]
    exact h.unread
  · rw [hqueue,htrk]
    exact h.read
  · rw [hqueue,htrk]
    exact hpost
  · rw [hfile,Function.update_self] at hn
    obtain rfl : (w.queue q).map Entry.name = names := by
      unfold Written.file at hn
      split at hn
      · cases hn
      · exact File.replaced.inj hn
      · cases hn
    exact ⟨h.read hpost.1,List.pairwise_map.mpr hpost.2⟩

theorem Content.expand {ts : List Task} (h : Content j q w) (hr : Reads L j w)
    (hcmd : j.cmd = .sort) (hwhole : ReadWhole L j (j.input q)) (ht : w.tasks = .expand q :: ts) :
    Content j q (expand_run j {w with tasks := ts} q) := by
  obtain ⟨hq,hnot⟩ := hr.head ht
  obtain ⟨hqueue,htrk⟩ := h.unread hq
  obtain ⟨hend,hread⟩ := expand_run_whole (w := {w with tasks := ts}) hcmd hwhole hqueue htrk
  obtain ⟨htasks,_,_,hfile,_⟩ := expand_run_frame (j := j) (w := {w with tasks := ts}) q
  refine ⟨fun hs => ?_,fun _ => .of_eq hread,fun hs => ?_,?_⟩
  · cases hend.symm.trans hs
  · rw [htasks] at hs
    have := (h.posted (ht ▸ List.mem_cons_of_mem _ hs)).1
    cases hq.symm.trans this
  · rw [hfile]
    exact h.saved

theorem content_step {a : Act} (h : Content j q w) (hr : Reads L j w) (hf : Fifo j w)
    (hcmd : j.cmd = .sort) (hst : Started L j j.inputs.length q)
    (hwhole : ReadWhole L j (j.input q)) (hl : (j.input q).later = [])
    (hs : step L j w a = some w') : Content j q w' := by
  have hof : ∀ i, j.queue_of i = i := fun i => by simp [Job.queue_of,hcmd]
  obtain ⟨_,⟨t,ts,rfl,ht,rfl⟩ | ⟨i,rfl,hw,rfl⟩⟩ := step_some hs
  · have hmem : ∀ {x}, x ∈ ts → x ∈ w.tasks := fun hx => ht ▸ List.mem_cons_of_mem _ hx
    cases t with
    | expand i =>
      by_cases hi : q = i
      · subst hi
        exact h.expand hr hcmd hwhole ht
      · obtain ⟨htasks,_,_,hfile,_⟩ := expand_run_frame (j := j) (w := {w with tasks := ts}) i
        refine h.same (expand_run_elsewhere ?_) (expand_run_other hi) (fun hx => ?_) ?_
        · rwa [hof]
        · rw [exec,htasks] at hx
          exact hmem hx
        · rw [exec,hfile]
    | ready k =>
      by_cases hk : q = k
      · subst hk
        refine h.ready ts ?_
        have hnone := fun hs => (hr.none q).mp hs hst
        have hwait := (hr.at_once hl).1
        have hpend : (w.trk q).state ≠ .queued := fun hs => hf.closed ht (.inl rfl) (hof q) ⟨hs,hl⟩
        cases hs : (w.trk q).state
        · exact absurd hs hnone
        · exact absurd hs hpend
        · exact absurd hs hwait
        · rfl
      · rw [exec,ls_ready_eq]
        refine h.same (Function.update_of_ne hk _ _) rfl (fun hx => ?_) rfl
        rw [List.mem_append] at hx
        obtain hx | hx := hx
        · exact hmem hx
        · split at hx
          · simp only [List.mem_singleton,Task.save.injEq] at hx
            exact absurd hx hk
          · cases hx
    | save k =>
      by_cases hk : q = k
      · subst hk
        exact h.save ht
      · obtain ⟨hqueue,_,htrk,htasks,_,_,hfile⟩ :=
          save_run_frame (j := j) (w := {w with tasks := ts}) k
        refine h.same (by rw [exec,hqueue]) (by rw [exec,htrk]) (fun hx => ?_) ?_
        · rw [exec,htasks] at hx
          exact hmem hx
        · rw [exec,hfile,Function.update_of_ne hk]
  · have hi : q ≠ i := by
      rintro rfl
      exact (hr.at_once hl).1 hw
    refine h.same rfl (wake_other hi) (fun hx => ?_) rfl
    simpa [wake] using hx

theorem content_start (hcmd : j.cmd = .sort) (hst : Started L j j.inputs.length q)
    (hl : (j.input q).later = []) : Content j q (start L j) := by
  obtain ⟨w,h,_,hs⟩ := start_added L j
  have htrk : w.trk q = ⟨.queued,[(j.input q).first],q,false⟩ := by
    rw [h.trk,if_pos hst,Input.unread,hl]
  rw [hs]
  refine ⟨fun _ => ⟨?_,htrk⟩,fun he => ?_,fun hp => ?_,fun names hn => ?_⟩
  · simp only [h.queue hcmd,if_pos hst.1]
  · simp only [htrk] at he
    cases he
  · have hsaved : q ∈ (posted L j j.inputs.length).filterMap Task.saved := by
      simp only [hcmd,ne_eq,not_true_eq_false,false_and,if_false,List.append_nil,h.tasks] at hp
      exact List.mem_filterMap.mpr ⟨_,hp,rfl⟩
    rw [posted_saved] at hsaved
    cases hsaved
  · simp only [h.file] at hn
    cases hn

theorem content_run {as : List Act} (hcmd : j.cmd = .sort)
    (hst : Started L j j.inputs.length q) (hwhole : ReadWhole L j (j.input q))
    (hl : (j.input q).later = []) (hrun : Machine.run (step L j) (start L j) as = some w) :
    Content j q w :=
  (Machine.run_invariant (I := fun w => Reads L j w ∧ Fifo j w ∧ Content j q w)
    (fun _ _ _ h hs => ⟨reads_step h.1 hs,fifo_step h.2.1 h.1 hs,
      content_step h.2.2 h.1 h.2.1 hcmd hst hwhole hl hs⟩) hrun
    ⟨reads_start L j,fifo_start L j,content_start hcmd hst hl⟩).2.2

/-! ## Commands that work -/

theorem exec_failed (t : Task) : (exec L j w t).failed = w.failed := by
  cases t with
  | expand i => exact (expand_run_frame i).2.2.2.2.2.2
  | ready q => rw [exec,ls_ready_eq]
  | save q => exact (save_run_frame q).2.2.2.2.1

theorem failed_run {as : List Act} (hrun : Machine.run (step L j) (start L j) as = some w) :
    w.failed = (start L j).failed := by
  refine Machine.run_invariant (I := fun w => w.failed = (start L j).failed) ?_ hrun rfl
  intro w a w' h hs
  obtain ⟨_,⟨t,ts,_,_,rfl⟩ | ⟨i,_,_,rfl⟩⟩ := step_some hs
  · rw [exec_failed]
    exact h
  · exact h

variable (L j) in
theorem start_failed : (start L j).failed = decide (j.cmd ≠ .sort ∧ can_save L j 0 = false) := by
  obtain ⟨w,_,_,hs⟩ := start_added L j
  rw [hs]

theorem Accounts.done_lt (h : Accounts L j w) {q : Nat} (hq : q ∈ w.done) :
    q < j.queues ∧ can_save L j q = true := by
  have hmem : q ∈ (List.range j.queues).filter (can_save L j) := by
    rw [← h.line]
    simp [World.line,hq]
  simpa using hmem

theorem Accounts.done_all (h : Accounts L j w) (hlen : w.done.length = j.queues) {q : Nat}
    (hq : q < j.queues) : q ∈ w.done := by
  have hsub : w.done.Sublist (List.range j.queues) := by
    refine List.Sublist.trans ?_ (List.filter_sublist (p := can_save L j))
    rw [← h.line,World.line,List.append_assoc]
    exact List.sublist_append_left _ _
  rw [hsub.eq_of_length (by simpa using hlen)]
  exact List.mem_range.mpr hq

theorem Accounts.done_eq (h : Accounts L j w) (ht : w.tasks = []) :
    w.done = (List.range j.queues).filter (can_save L j) := by
  rw [← h.line]
  simp [World.line,ht]

theorem Accounts.stopped (h : Accounts L j w) (hs : w.stops = 1) :
    w.done.length = j.queues ∧ 0 < j.queues := by
  rw [h.stops] at hs
  split at hs
  · assumption
  · cases hs

theorem changes_of_file {r : Written} {names : List Name} (h : r.file names ≠ .kept) :
    r.changes := by
  unfold Written.file at h
  split at h
  · exact .inl rfl
  · exact .inr rfl
  · exact absurd rfl h

theorem Accounts.changed (h : Accounts L j w) {q : Nat} (hf : w.file q ≠ .kept) :
    q ∈ w.done ∧ (j.written q).changes := by
  have hdone : q ∈ w.done := by
    by_contra hn
    exact hf (h.kept q hn)
  obtain ⟨names,hnames⟩ := h.ended q hdone
  exact ⟨hdone,changes_of_file (hnames ▸ hf)⟩

/-- The tracks of inputs that are read at once have ended before the save. -/
theorem Job.Fit.expanded (hfit : j.Fit L) (ha : Accounts L j w) (hr : Reads L j w) (hq : Fifo j w)
    {q i : Nat} (hf : w.file q ≠ .kept) (hi : i < j.inputs.length) (hof : j.queue_of i = q) :
    (w.trk i).state = .none ∨ (w.trk i).state = .ended := by
  obtain ⟨hdone,hch⟩ := ha.changed hf
  by_cases hst : Started L j j.inputs.length i
  · have hl := hfit.no_wait i hi (hof ▸ hch) hst.2
    have hwait := (hr.at_once hl).1
    have hpend : (w.trk i).state ≠ .queued := fun hs => hq.past q hdone i hof ⟨hs,hl⟩
    cases hs : (w.trk i).state
    · exact .inl rfl
    · exact absurd hs hpend
    · exact absurd hs hwait
    · exact .inr rfl
  · exact .inl ((hr.none i).mpr hst)

theorem Job.Fit.stopped (hfit : j.Fit L) (ha : Accounts L j w) (ht : w.tasks = []) :
    w.stops = 1 := by
  have hall : (List.range j.queues).filter (can_save L j) = List.range j.queues :=
    List.filter_eq_self.mpr fun q hq => hfit.saves q (List.mem_range.mp hq)
  rw [ha.stops,ha.done_eq ht,hall,List.length_range]
  exact if_pos ⟨rfl,hfit.some_queue⟩

theorem good_of_fit (hfit : j.Fit L) {as : List Act}
    (hrun : Machine.run (step L j) (start L j) as = some w) : Good L j w where
  expanded _ hf _ hi hof :=
    hfit.expanded (accounts_run hrun) (reads_run hrun) (fifo_run hrun) hf hi hof
  sorted hcmd q hf := by
    obtain ⟨hdone,hch⟩ := (accounts_run hrun).changed hf
    have hlt : q < j.inputs.length := by
      simpa [Job.queues,hcmd] using ((accounts_run hrun).done_lt hdone).1
    have hwhole := hfit.read hcmd q hlt hch
    have hl := hfit.no_wait q hlt (by simpa [Job.queue_of,hcmd] using hch) hwhole.2.1
    refine ⟨hwhole,?_⟩
    rw [Input.names,hl,List.flatten_nil,List.append_nil]
    exact (content_run hcmd ⟨hlt,hwhole.2.1⟩ hwhole hl hrun).saved
  stopped := by
    have ha := accounts_run hrun
    have hfailed : w.failed = false := by
      rw [failed_run hrun,start_failed]
      simp [hfit.saves 0 hfit.some_queue]
    refine ⟨?_,fun hs q hlt => ha.done_all (ha.stopped hs).1 hlt,fun ht => ?_⟩
    · rw [ha.stops]
      split <;> omega
    · exact hfit.stopped ha (ht.resolve_right (by simp [hfailed]))
  reported hc := by
    rw [(accounts_run hrun).exit_code] at hc
    split at hc
    · exact hfit.last hc
    · cases hc

/-! ## Commands that don't -/

/-- The tracks after a run in which the network woke none of them. -/
structure Unwoken (j : Job) (w : World) : Prop where
  queued : ∀ i, (w.trk i).state = .queued →
    (w.trk i).rest = (j.input i).first :: (j.input i).later
  ended : ∀ i, (w.trk i).state = .ended → (j.input i).later = []

theorem unwoken_exec {t : Task} {ts : List Task} (h : Unwoken j w) (hr : Reads L j w)
    (ht : w.tasks = t :: ts) : Unwoken j (exec L j {w with tasks := ts} t) := by
  cases t with
  | expand i =>
    have hrest := h.queued i (hr.head ht).1
    have htrk := expand_run_trk (j := j) (w := {w with tasks := ts}) i
    simp only [hrest,List.tail_cons] at htrk
    refine ⟨fun k hk => ?_,fun k hk => ?_⟩
    all_goals by_cases hki : k = i
    · subst hki
      obtain ⟨hs,_⟩ | ⟨hs,_⟩ := htrk <;> cases hs.symm.trans hk
    · rw [exec,expand_run_other hki] at hk ⊢
      exact h.queued k hk
    · subst hki
      obtain ⟨_,hl⟩ | ⟨hs,_⟩ := htrk
      · exact hl
      · cases hs.symm.trans hk
    · rw [exec,expand_run_other hki] at hk
      exact h.ended k hk
  | ready q =>
    rw [exec,ls_ready_eq]
    exact ⟨h.queued,h.ended⟩
  | save q =>
    obtain ⟨_,_,htrk,_⟩ := save_run_frame (j := j) (w := {w with tasks := ts}) q
    rw [exec]
    exact ⟨by rw [htrk]; exact h.queued,by rw [htrk]; exact h.ended⟩

/-- How many tasks a task comes to. -/
def Task.weight : Task → Nat
  | .ready _ => 2
  | .expand _ | .save _ => 1

theorem exec_weight (t : Task) (ts : List Task) :
    ((exec L j {w with tasks := ts} t).tasks.map Task.weight).sum <
      ((t :: ts).map Task.weight).sum := by
  cases t with
  | expand i =>
    rw [exec,(expand_run_frame i).1]
    simp [Task.weight]
  | ready q =>
    rw [exec,ls_ready_eq]
    dsimp only
    split
    · simp [Task.weight]
      omega
    · simp [Task.weight]
  | save q =>
    rw [exec,(save_run_frame q).2.2.2.1]
    simp [Task.weight]

theorem drain (hr : Reads L j w) (hu : Unwoken j w) (hf : w.failed = false) : ∃ as w',
    Machine.run (step L j) w as = some w' ∧ w'.tasks = [] ∧ Unwoken j w' := by
  induction hn : (w.tasks.map Task.weight).sum using Nat.strong_induction_on generalizing w with
  | _ n ih =>
  cases ht : w.tasks with
  | nil => exact ⟨[],w,rfl,ht,hu⟩
  | cons t ts =>
    have hs : step L j w .run = some (exec L j {w with tasks := ts} t) := by
      simp [step,hf,ht]
    obtain ⟨as,w',hrun,hend⟩ := ih _ (by rw [← hn,ht]; exact exec_weight t ts)
      (reads_step hr hs) (unwoken_exec hu hr ht) (by rw [exec_failed]; exact hf) rfl
    exact ⟨.run :: as,w',Machine.run_cons_eq_some.mpr ⟨_,hs,hrun⟩,hend⟩

variable (L j) in
theorem unwoken_start : Unwoken j (start L j) := by
  obtain ⟨w,h,_,hs⟩ := start_added L j
  rw [hs]
  refine ⟨fun i hi => ?_,fun i hi => ?_⟩
  · dsimp only at hi ⊢
    rw [h.trk] at hi ⊢
    split at hi
    · rename_i hst
      rw [if_pos hst]
      rfl
    · cases hi
  · dsimp only at hi
    rw [h.trk] at hi
    split at hi <;> cases hi

theorem file_changed {r : Written} (h : r.changes) (names : List Name) : r.file names ≠ .kept := by
  obtain rfl | rfl := h <;> simp [Written.file]

/-- When the action fails the command ends without `PHI_CORE_STOP`. -/
theorem Good.entered (h : Good L j (start L j)) : (start L j).failed = false := by
  by_contra hne
  obtain ⟨hlen,hpos⟩ :=
    (accounts_start L j).stopped (h.stopped.2.2 (.inr (by simpa using hne)))
  obtain ⟨w,hw,_,hst⟩ := start_added L j
  rw [hst,hw.done,List.length_nil] at hlen
  omega

theorem fit_of_good (hgood : ∀ as w, Machine.run (step L j) (start L j) as = some w →
    Good L j w) : j.Fit L := by
  obtain ⟨as,w,hrun,ht,hu⟩ := drain (reads_start L j) (unwoken_start L j) (hgood [] _ rfl).entered
  have hg := hgood as w hrun
  have ha := accounts_run hrun
  have hr := reads_run hrun
  obtain ⟨hlen,hpos⟩ := ha.stopped (hg.stopped.2.2 (.inl ht))
  have hdone : ∀ q < j.queues, q ∈ w.done := fun q hq => ha.done_all hlen hq
  have hfile : ∀ q < j.queues, (j.written q).changes → w.file q ≠ .kept := by
    intro q hq hch
    obtain ⟨names,hn⟩ := ha.ended q (hdone q hq)
    rw [hn]
    exact file_changed hch names
  refine ⟨hpos,fun q hq => (ha.done_lt (hdone q hq)).2,fun i hi hch he => ?_,
    fun hcmd q hq hch => ?_,fun herr => ?_⟩
  · have hq : j.queue_of i < j.queues := by
      cases hcmd : j.cmd <;> simp only [Job.queue_of,Job.queues,hcmd] <;> omega
    obtain hs | hs := hg.expanded _ (hfile _ hq hch) i hi rfl
    · exact absurd ⟨hi,he⟩ ((hr.none i).mp hs)
    · exact hu.ended i hs
  · exact (hg.sorted hcmd q (hfile q (by simpa [Job.queues,hcmd] using hq) hch)).1
  · refine hg.reported ?_
    rw [ha.exit_code,if_pos ⟨hlen,hpos⟩,herr]

/-- The commands work with every timing of the network exactly when they are fit. -/
theorem lists_written_iff (L : Lib) (j : Job) :
    (∀ as w, Machine.run (step L j) (start L j) as = some w → Good L j w) ↔ j.Fit L :=
  ⟨fit_of_good,fun h _ _ hrun => good_of_fit h hrun⟩

/-! ## Examples -/

theorem icmp_le_trans (a b c : Entry) (h : icmp_le a.name b.name) (h' : icmp_le b.name c.name) :
    icmp_le a.name c.name :=
  le_trans h h'

theorem icmp_le_total (a b : Entry) : icmp_le a.name b.name ∨ icmp_le b.name a.name :=
  le_total _ _

/-- The characters behind the last point. -/
def last_ext (n : Name) : Name :=
  if '.' ∈ n then (n.reverse.takeWhile (· ≠ '.')).reverse else []

def unix_lib : Lib where
  splitname_ext := last_ext
  split3_ext := last_ext
  sort := List.insertionSort fun a b => icmp_le a.name b.name
  sort_perm := List.perm_insertionSort _
  sort_sorted l :=
    have : IsTrans Entry fun a b => icmp_le a.name b.name := ⟨icmp_le_trans⟩
    have : Std.Total fun a b : Entry => icmp_le a.name b.name := ⟨icmp_le_total⟩
    List.pairwise_insertionSort _ l

def list_name : Name := ['l','.','m','3','u']

/-- `phiola list sort l.m3u` -/
def sort_list (x : Input) : Job := ⟨.sort,[x],fun _ => true,fun _ => .renamed⟩

/-- `phiola list create l.m3u -o o.m3u` -/
def create_list (x : Input) : Job :=
  ⟨.create ['o','.','m','3','u'],[x],fun _ => true,fun _ => .renamed⟩

/-- A list with two entries. -/
def two_songs : Input := ⟨list_name,false,[['b'],['A']],[],.complete⟩

/-- A list that doesn't exist. -/
def no_list : Input := ⟨list_name,false,[],[],.failed false⟩

/-- A list that a server sends after some time. -/
def slow_list : Input := ⟨list_name,false,[],[[['b'],['A']]],.complete⟩

/-- The state after the worker's first `n` tasks. -/
def after (j : Job) (n : Nat) : World :=
  (Machine.run (step unix_lib j) (start unix_lib j) (List.replicate n .run)).getD
    (start unix_lib j)

theorem two_songs_fit : (sort_list two_songs).Fit unix_lib :=
  ⟨by decide +kernel,by decide +kernel,by decide +kernel,fun _ => by decide +kernel,
    by decide +kernel⟩

theorem two_songs_sorted :
    (after (sort_list two_songs) 3).file 0 = .replaced [['A'],['b']] ∧
      Good unix_lib (sort_list two_songs) (after (sort_list two_songs) 3) :=
  have hrun : Machine.run (step unix_lib (sort_list two_songs))
      (start unix_lib (sort_list two_songs)) (List.replicate 3 .run) =
        some (after (sort_list two_songs) 3) := Machine.run_eq_getD (by decide +kernel)
  ⟨by decide +kernel,(lists_written_iff _ _).mpr two_songs_fit _ _ hrun⟩

/-- A list that doesn't exist is written with its own name in it, with the exit code 0; a list that
comes from a server is saved before it is there. -/
theorem unread_lists_saved :
    ((after (sort_list no_list) 3).file 0 = .replaced [list_name] ∧
      (after (sort_list no_list) 3).exit_code = 0) ∧
    ((after (create_list slow_list) 2).file 0 = .replaced [list_name] ∧
      ((after (create_list slow_list) 2).trk 0).state = .waiting) ∧
    ¬ ∀ (L : Lib) (j : Job) as w, Machine.run (step L j) (start L j) as = some w → Good L j w := by
  refine ⟨by decide +kernel,by decide +kernel,fun h => ?_⟩
  have hrun : Machine.run (step unix_lib (sort_list no_list)) (start unix_lib (sort_list no_list))
      (List.replicate 3 .run) = some (after (sort_list no_list) 3) :=
    Machine.run_eq_getD (by decide +kernel)
  have hwhole := ((h _ _ _ _ hrun).sorted rfl 0 (by decide +kernel)).1
  exact absurd hwhole.2.2 (by decide +kernel)

end

end Phiola.ListCmd
