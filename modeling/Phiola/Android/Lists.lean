import Phiola.Android.Active

/-!
# The list files

`saveconf()` writes the lists that are marked as modified to files that are named by the lists'
positions, and deletes the file behind the last one. `load()` reads the files up to the first one
that does not exist.
-/

namespace Phiola.Android

open Outcome

variable {U : Type}

/-! ## Files under numbers -/

/-- What is at `list_file_name(i)`, from 0 on. -/
abbrev Files (U : Type) := List (Option (List (Entry U)))

namespace Files

def file (files : Files U) (i : Nat) : Option (List (Entry U)) := files[i]?.join

/-- `none` deletes the file. -/
def put : Files U → Nat → Option (List (Entry U)) → Files U
  | [], 0, x => [x]
  | _ :: files, 0, x => x :: files
  | [], i + 1, x => none :: put [] i x
  | f :: files, i + 1, x => f :: put files i x

theorem file_put (files : Files U) (i j : Nat) (x : Option (List (Entry U))) :
    (files.put i x).file j = if j = i then x else files.file j := by
  induction i generalizing files j with
  | zero => cases files <;> cases j <;> simp [put,file]
  | succ i ih =>
    cases files with
    | nil =>
      cases j with
      | zero => simp [put,file]
      | succ j =>
        have := ih [] j
        simpa [put,file] using this
    | cons f files =>
      cases j with
      | zero => simp [put,file]
      | succ j =>
        have := ih files j
        simpa [put,file] using this

end Files

/-! ## `saveconf()` -/

/-- `kept` tells for each list the number of the file that it was last loaded from or saved to,
unless its entries were changed since by a function that does not mark the list. -/
structure Store (U : Type) where
  queue : Queue U
  files : Files U
  kept : Nat → Option Nat

namespace Store

inductive Act (U : Type) where
  | queue (a : Queue.Act U)
  -- the tags of entry `i` of list `j` were read
  | meta_queue_store (j i : Nat) (tags : List (String × String)) (length_msec : Nat)
  | saveconf

def set_kept (kept : Nat → Option Nat) (id : Nat) (x : Option Nat) : Nat → Option Nat :=
  fun k => if k = id then x else kept k

/-- The loop of `saveconf()` from the list of index `i` on. -/
def save_lists : List (PhiolaQueue U) → Nat → Files U → (Nat → Option Nat) →
    List (PhiolaQueue U) × Files U × (Nat → Option Nat)
  | [], _, files, kept => ([],files,kept)
  | q :: queues, i, files, kept =>
    if q.modified then
      let (queues,files,kept) :=
        save_lists queues (i + 1) (files.put i (some q.entries)) (set_kept kept q.id (some i))
      ({q with modified := false} :: queues,files,kept)
    else
      let (queues,files,kept) := save_lists queues (i + 1) files kept
      (q :: queues,files,kept)

def saveconf (s : Store U) : Store U :=
  let (queues,files,kept) := save_lists s.queue.queues 0 s.files s.kept
  ⟨{s.queue with queues := queues},files.put queues.length none,kept⟩

section Model

variable [DecidableEq U]

/-- What becomes of `kept` with an action. -/
def sorted (s : Store U) : Queue.Act U → Nat → Option Nat
  | .sort order =>
    match s.queue.queues[s.queue.selected]? with
    | some l =>
      if s.queue.q_filtered = false ∧ order l.entries ≠ l.entries then set_kept s.kept l.id none
      else s.kept
    | none => s.kept
  | _ => s.kept

/-- The track has a reference to its entry, which may have moved in its list since, but has the same url. -/
def meta_queue_store (s : Store U) (j i : Nat) (tags : List (String × String)) (length_msec : Nat) :
    Option (Store U) :=
  match s.queue.queues[j]? with
  | none => none
  | some l =>
    match l.entries[i]? with
    | none => none
    | some e =>
      let new := l.entries.set i {e with tags := tags, length_msec := length_msec}
      if (l.id,e.url) ∈ s.queue.infos then
        some ⟨{s.queue with
            queues := s.queue.queues.set j {l with entries := new}
            infos := s.queue.infos.erase (l.id,e.url)},s.files,
          if new ≠ l.entries then set_kept s.kept l.id none else s.kept⟩
      else none

def step (s : Store U) : Act U → Option (Store U)
  | .meta_queue_store j i tags length_msec => s.meta_queue_store j i tags length_msec
  | .queue a => (s.queue.after a).map fun q => ⟨q,s.files,s.sorted a⟩
  | .saveconf => some s.saveconf

end Model

/-- The files that `load()` reads. -/
def readable : Files U → List (List (Entry U))
  | some f :: files => f :: readable files
  | [] | none :: _ => []

/-- The lists are loaded from their files. -/
def loaded (q : Queue U) (files : Files U) : Store U :=
  ⟨q,files,fun id => if id < (readable files).length then some id else none⟩

/-- A process that starts with these files has the same lists. -/
def Restored (s : Store U) : Prop :=
  ∀ list_active list_curpos setts, ∃ q : Queue U,
    (Queue.new list_active list_curpos setts).load s.files = .ok q ∧
      q.queues.map PhiolaQueue.entries = s.queue.queues.map PhiolaQueue.entries

/-- Each list is marked as modified, or its file is the one of its position, or it is the only
list, is empty and has no file. -/
def Current (s : Store U) : Prop :=
  ∀ i < s.queue.queues.length, ∀ q ∈ s.queue.queues[i]?, q.modified = true ∨ s.kept q.id = some i ∨
    s.queue.queues.length = 1 ∧ q.entries = [] ∧ s.files.file 0 = none

instance [DecidableEq U] (s : Store U) : Decidable s.Current :=
  inferInstanceAs (Decidable (∀ i < s.queue.queues.length, ∀ q ∈ s.queue.queues[i]?,
    q.modified = true ∨ s.kept q.id = some i ∨
      s.queue.queues.length = 1 ∧ q.entries = [] ∧ s.files.file 0 = none))

end Store

namespace Queue

/-! ## Changes mark their list -/

/-- The lists are the same objects, and one that is not marked is what it was. -/
structure Marked (q q' : Queue U) : Prop where
  ids : q'.ids = q.ids
  next_id : q'.next_id = q.next_id
  same : ∀ (i : Nat) (l : PhiolaQueue U), q'.queues[i]? = some l → l.modified = false → q.queues[i]? = some l

theorem Marked.rfl {q : Queue U} : Marked q q := ⟨by rfl,by rfl,fun _ _ h _ => h⟩

theorem Marked.trans {a b c : Queue U} (h : Marked a b) (k : Marked b c) : Marked a c :=
  ⟨k.ids.trans h.ids,k.next_id.trans h.next_id,
    fun i l hl hm => h.same i l (k.same i l hl hm) hm⟩

theorem Marked.of_eq {q q' : Queue U} (hq : q'.queues = q.queues) (hn : q'.next_id = q.next_id) :
    Marked q q' :=
  ⟨congrArg (List.map PhiolaQueue.id) hq,hn,fun _ _ hl _ => hq ▸ hl⟩

theorem Marked.past {q q₁ q' : Queue U} (h : Marked q₁ q') (hq : q₁.queues = q.queues)
    (hn : q₁.next_id = q.next_id) : Marked q q' := (Marked.of_eq hq hn).trans h

/-- What a call that returns leaves. -/
abbrev Returns {α : Type} (P : α → Prop) (x : Except Fault α) : Prop :=
  Meets (fun _ => True) P x

theorem returns_any {α : Type} (x : Except Fault α) : Returns (fun _ => True) x := by
  cases x <;> trivial

theorem get_returns (q : Queue U) (i : Nat) :
    Returns (fun l => q.queues[i]? = some l) (q.get i) := by
  rw [get]
  split
  · next l hl => exact hl
  · exact trivial

theorem on_list_returns (q : Queue U) (i : Nat) (f : PhiolaQueue U → PhiolaQueue U) :
    Returns (fun q' => ∃ l, q.queues[i]? = some l ∧ q' = {q with queues := q.queues.set i (f l)})
      (q.on_list i f) :=
  (get_returns q i).bind_pure fun l hl => ⟨l,hl,rfl⟩

theorem ids_set {q : Queue U} {i : Nat} {l l' : PhiolaQueue U} (hl : q.queues[i]? = some l)
    (hid : l'.id = l.id) : (q.queues.set i l').map PhiolaQueue.id = q.ids := by
  obtain ⟨hlt,rfl⟩ := List.getElem?_eq_some_iff.mp hl
  rw [List.map_set,hid]
  refine List.ext_getElem? fun j => ?_
  rw [List.getElem?_set]
  split
  · next hij => subst hij; simp [ids,hlt]
  · rfl

theorem on_list_marked (q : Queue U) (i : Nat) {f : PhiolaQueue U → PhiolaQueue U}
    (hid : ∀ l, (f l).id = l.id) (hm : ∀ l, (f l).modified = true) :
    Returns (Marked q) (q.on_list i f) := by
  refine (on_list_returns q i f).mono fun q' ⟨l,hl,hq'⟩ => ?_
  subst hq'
  refine ⟨ids_set hl (hid l),rfl,fun j l' hl' hmod => ?_⟩
  change (q.queues.set i (f l))[j]? = some l' at hl'
  rw [List.getElem?_set] at hl'
  split at hl'
  · split at hl'
    · cases Option.some.inj hl'
      cases (hm l).symm.trans hmod
    · cases hl'
  · exact hl'

theorem filter_close_on_list_marked (q : Queue U) (i : Nat) {f : PhiolaQueue U → PhiolaQueue U}
    (hid : ∀ l, (f l).id = l.id) (hm : ∀ l, (f l).modified = true) :
    Returns (Marked q) (q.filter_close.on_list i f) :=
  (on_list_marked q.filter_close i hid hm).mono fun _ h => h.past rfl rfl

theorem clear_marked (q : Queue U) : Returns (Marked q) q.clear := by
  refine (filter_close_on_list_marked q q.selected (f := PhiolaQueue.clear) (fun _ => rfl)
    fun _ => rfl).bind_pure fun q' h => h.trans (.of_eq rfl rfl)

theorem remove_marked (q : Queue U) (pos : Int) : Returns (Marked q) (q.remove pos) := by
  refine (filter_close_on_list_marked q q.q_active (f := (PhiolaQueue.remove · pos))
    (fun _ => rfl) fun _ => rfl).bind_pure fun q' h => h.trans (.of_eq rfl rfl)

theorem next_list_add_cur_marked (q : Queue U) : Returns (Marked q) q.next_list_add_cur := by
  rw [next_list_add_cur]
  split
  · exact Marked.rfl
  · split
    · exact Marked.rfl
    · exact filter_close_on_list_marked q _ (fun _ => rfl) fun _ => rfl

theorem on_open_marked (q : Queue U) : Returns (Marked q) q.on_open := by
  rw [on_open]
  split
  · exact Marked.of_eq rfl rfl
  · exact (on_list_marked {q with active := true} q.q_active
      (f := fun l => {l with modified := true}) (fun _ => rfl) fun _ => rfl).mono
      fun q' h => h.past rfl rfl

theorem marked_play_on (q : Queue U) : Marked q q.play_on := by
  rw [play_on]
  split
  · rw [auto_stop]
    split <;> exact .of_eq rfl rfl
  · exact .of_eq rfl rfl

theorem start_marked (q : Queue U) (list : Nat) (url : U) :
    Returns (Marked q) (q.start list url) := by
  rw [start]
  split
  · exact Marked.rfl
  · split
    · exact Marked.of_eq rfl rfl
    · exact (get_returns q q.q_active).bind_pure fun _ _ => .of_eq rfl rfl

section Playing

variable [DecidableEq U]

theorem rm_failed_marked (q : Queue U) : Returns (Marked q) q.rm_failed := by
  rw [rm_failed]
  split
  · refine (get_returns q q.q_active).bind fun l _ => (returns_any (l.url _)).bind fun url _ => ?_
    split
    · exact remove_marked q _
    · exact Marked.rfl
  · exact Marked.rfl

theorem trk_close_marked (q : Queue U) : Returns (Marked q) q.trk_close := by
  have hclose : Returns (Marked q) (on_close {q with t := {q.t with state := .NONE}}) := by
    refine (rm_failed_marked
      {q with t := {q.t with state := .NONE}, active := false}).bind_pure fun q' h => ?_
    exact (h.trans (marked_play_on q')).past rfl rfl
  exact hclose.bind_pure fun q' h => h.trans (.of_eq rfl rfl)

theorem stop_marked (q : Queue U) : Returns (Marked q) q.stop :=
  (trk_close_marked {q with t := {q.t with stopped := true}}).mono
    fun _ h => h.past rfl rfl

theorem _play_marked (q : Queue U) (iq : Nat) (it : Int) : Returns (Marked q) (q._play iq it) := by
  have hstop : Returns (Marked q) (if q.active then q.stop else pure q) := by
    split
    · exact stop_marked q
    · exact Marked.rfl
  refine hstop.bind fun q' h => (get_returns q' iq).bind fun l _ => ?_
  split
  · exact h
  · refine (returns_any (l.url it)).bind fun url _ => ?_
    exact (start_marked _ _ _).mono fun _ h' => h.trans (h'.past rfl rfl)

theorem playcur_marked (q : Queue U) : Returns (Marked q) q.playcur :=
  (get_returns q q.q_active).bind fun _ _ => _play_marked q _ _

theorem play_delta_marked (q : Queue U) (rnd : Nat) (delta : Int) :
    Returns (Marked q) (q.play_delta rnd delta) := by
  refine (get_returns q q.q_active).bind fun l _ => ?_
  dsimp only
  split
  · exact Marked.rfl
  · split
    · have hr : Marked q (q.next_random l.entries.length rnd).2 := by
        rw [next_random]
        split <;> exact .of_eq rfl rfl
      exact (_play_marked _ _ _).mono fun _ h => hr.trans h
    · exact _play_marked q _ _

theorem order_next_marked (q : Queue U) (rnd : Nat) : Returns (Marked q) (q.order_next rnd) := by
  rw [order_next]
  split
  · split
    · exact play_delta_marked q rnd 0
    · split
      · have hadd : Returns (Marked q)
            (if q.setts.add_rm_on_next = true then q.next_list_add_cur else pure q) := by
          split
          · exact next_list_add_cur_marked q
          · exact Marked.rfl
        refine hadd.bind fun q' h => (remove_marked q' _).bind fun q'' h' => ?_
        exact (play_delta_marked q'' rnd 0).mono fun _ h'' => (h.trans h').trans h''
      · exact play_delta_marked q rnd 1
  · exact play_delta_marked q rnd 1

theorem run_posted_marked (q : Queue U) (rnd : Nat) : Returns (Marked q) (q.run_posted rnd) := by
  rw [run_posted]
  split
  · exact Marked.rfl
  · exact (playcur_marked _).mono fun _ h => h.past rfl rfl
  · exact (play_delta_marked _ rnd 1).mono fun _ h => h.past rfl rfl

end Playing

end Queue

namespace Store

open Queue

/-! ## The file of a list that is not marked -/

/-- A list can move down only, and as long as it is where its file says and is not marked, the
file has its entries. -/
structure Filed (s : Store U) : Prop where
  nodup : s.queue.ids.Nodup
  fresh : ∀ id ∈ s.queue.ids, id < s.queue.next_id
  unborn : ∀ id, s.queue.next_id ≤ id → s.kept id = none
  down : ∀ i id k, s.queue.ids[i]? = some id → s.kept id = some k → i ≤ k
  file : ∀ i q, s.queue.queues[i]? = some q → q.modified = false → s.kept q.id = some i →
    s.files.file i = some q.entries
  nonempty : s.queue.ids ≠ []

theorem ids_get {q : Queue U} {i : Nat} {l : PhiolaQueue U} (h : q.queues[i]? = some l) :
    q.ids[i]? = some l.id := by
  rw [ids,List.getElem?_map,h]
  rfl

theorem Filed.marked {s : Store U} {q : Queue U} (h : Filed s) (hq : Marked s.queue q) :
    Filed ⟨q,s.files,s.kept⟩ where
  nodup := by rw [hq.ids]; exact h.nodup
  fresh := by rw [hq.ids,hq.next_id]; exact h.fresh
  unborn := by rw [hq.next_id]; exact h.unborn
  down := by rw [hq.ids]; exact h.down
  file i l hl hm hk := h.file i l (hq.same i l hl hm) hm hk
  nonempty := by rw [hq.ids]; exact h.nonempty

theorem Filed.add_list {s : Store U} (h : Filed s) : Filed ⟨s.queue.add_list,s.files,s.kept⟩ where
  nodup := nodup_add_list h.nodup h.fresh
  fresh := fresh_add_list h.fresh
  unborn id hid := h.unborn id (Nat.le_of_succ_le hid)
  down i id k hi hk := by
    rw [ids_add_list] at hi
    rcases Nat.lt_or_ge i s.queue.ids.length with hlt | hge
    · exact h.down i id k ((List.getElem?_append_left hlt).symm.trans hi) hk
    · rw [List.getElem?_append_right hge] at hi
      obtain rfl := List.mem_singleton.mp (List.mem_of_getElem? hi)
      cases (h.unborn _ le_rfl).symm.trans hk
  file i l hl hm hk := by
    change (s.queue.queues ++ [_])[i]? = some l at hl
    rcases Nat.lt_or_ge i s.queue.queues.length with hlt | hge
    · exact h.file i l ((List.getElem?_append_left hlt).symm.trans hl) hm hk
    · rw [List.getElem?_append_right hge] at hl
      obtain rfl := List.mem_singleton.mp (List.mem_of_getElem? hl)
      cases (h.unborn _ le_rfl).symm.trans hk
  nonempty := by
    rw [ids_add_list]
    exact List.append_ne_nil_of_left_ne_nil h.nonempty _

theorem Filed.close {s : Store U} (h : Filed s) (j : Nat) {q : Queue U}
    (hlen : s.queue.queues.length ≠ 1) (hq : q.queues = s.queue.queues.eraseIdx j)
    (hn : q.next_id = s.queue.next_id) :
    Filed ⟨q,s.files,s.kept⟩ := by
  have hids : q.ids = s.queue.ids.eraseIdx j := by
    rw [ids,hq]
    exact (List.eraseIdx_map _ _ _).symm
  refine ⟨?_,?_,?_,?_,?_,?_⟩
  · change q.ids.Nodup
    rw [hids]
    exact (List.eraseIdx_sublist _ j).nodup h.nodup
  · change ∀ id ∈ q.ids, id < q.next_id
    rw [hids,hn]
    exact fun id hid => h.fresh id (List.mem_of_mem_eraseIdx hid)
  · change ∀ id, q.next_id ≤ id → s.kept id = none
    rw [hn]
    exact h.unborn
  · intro i id k hi hk
    change q.ids[i]? = some id at hi
    rw [hids,List.getElem?_eraseIdx] at hi
    split at hi
    · exact h.down i id k hi hk
    · exact Nat.le_of_succ_le (h.down (i + 1) id k hi hk)
  · intro i l hl hm hk
    change q.queues[i]? = some l at hl
    change s.kept l.id = some i at hk
    rw [hq,List.getElem?_eraseIdx] at hl
    split at hl
    · exact h.file i l hl hm hk
    · exact absurd (h.down (i + 1) l.id i (ids_get hl) hk) (Nat.not_succ_le_self i)
  · have hpos := List.length_pos_iff.mpr h.nonempty
    have hle := List.le_length_eraseIdx s.queue.ids j
    change q.ids ≠ []
    rw [hids]
    rw [ids_length] at hpos hle
    exact List.length_pos_iff.mp (by omega)

/-- A list that is changed without a mark is not told to be in its file any more. -/
theorem Filed.changed {s : Store U} (h : Filed s) {l : PhiolaQueue U} {j : Nat}
    (hl : s.queue.queues[j]? = some l) (new : List (Entry U)) {q : Queue U}
    (hq : q.queues = s.queue.queues.set j {l with entries := new}) (hn : q.next_id = s.queue.next_id)
    {kept : Nat → Option Nat} (hsub : ∀ id k, kept id = some k → s.kept id = some k)
    (hnew : new ≠ l.entries → kept l.id = none) :
    Filed ⟨q,s.files,kept⟩ := by
  have hids : q.ids = s.queue.ids := by
    rw [ids,hq]
    exact ids_set hl rfl
  refine ⟨?_,?_,?_,?_,?_,?_⟩
  · change q.ids.Nodup
    rw [hids]
    exact h.nodup
  · change ∀ id ∈ q.ids, id < q.next_id
    rw [hids,hn]
    exact h.fresh
  · change ∀ id, q.next_id ≤ id → kept id = none
    rw [hn]
    intro id hid
    by_contra hne
    obtain ⟨k,hk⟩ := Option.ne_none_iff_exists'.mp hne
    cases (h.unborn id hid).symm.trans (hsub id k hk)
  · intro i id k hi hk
    change q.ids[i]? = some id at hi
    rw [hids] at hi
    exact h.down i id k hi (hsub id k hk)
  · intro i l' hl' hm hk
    change q.queues[i]? = some l' at hl'
    rw [hq,List.getElem?_set] at hl'
    split at hl'
    · next hij =>
      split at hl'
      · obtain rfl := Option.some.inj hl'
        have hsame : new = l.entries := by
          by_contra hne
          cases (hnew hne).symm.trans hk
        subst hsame
        exact h.file i l (hij ▸ hl) hm (hsub _ _ hk)
      · cases hl'
    · exact h.file i l' hl' hm (hsub _ _ hk)
  · change q.ids ≠ []
    rw [hids]
    exact h.nonempty

/-! ## Saving -/

theorem save_lists_queues (queues : List (PhiolaQueue U)) (i : Nat) (files : Files U)
    (kept : Nat → Option Nat) :
    (save_lists queues i files kept).1 = queues.map fun q => {q with modified := false} := by
  induction queues generalizing i files kept with
  | nil => rfl
  | cons q queues ih =>
    rw [save_lists]
    split
    · simp only [ih,List.map_cons]
    · next hm =>
      obtain ⟨id,entries,modified⟩ := q
      obtain rfl : modified = false := by simpa using hm
      simp only [ih,List.map_cons]

theorem save_lists_below (queues : List (PhiolaQueue U)) (i : Nat) (files : Files U)
    (kept : Nat → Option Nat) {j : Nat} (hj : j < i) :
    (save_lists queues i files kept).2.1.file j = files.file j := by
  induction queues generalizing i files kept with
  | nil => rfl
  | cons q queues ih =>
    rw [save_lists]
    split
    · exact (ih (i + 1) _ _ (Nat.lt_succ_of_lt hj)).trans
        ((Files.file_put files i j _).trans (if_neg hj.ne))
    · exact ih (i + 1) _ _ (Nat.lt_succ_of_lt hj)

theorem save_lists_file {queues : List (PhiolaQueue U)} (i : Nat) (files : Files U)
    (kept : Nat → Option Nat) {j : Nat} {q : PhiolaQueue U} (hq : queues[j]? = some q) :
    (save_lists queues i files kept).2.1.file (i + j) =
      if q.modified then some q.entries else files.file (i + j) := by
  induction queues generalizing i j files kept with
  | nil => cases hq
  | cons p queues ih =>
    cases j with
    | zero =>
      obtain rfl := Option.some.inj hq
      rw [save_lists]
      split
      · exact (save_lists_below queues (i + 1) _ _ (Nat.lt_succ_self i)).trans
          ((Files.file_put files i i _).trans (if_pos rfl))
      · exact save_lists_below queues (i + 1) _ _ (Nat.lt_succ_self i)
    | succ j =>
      have hsucc : i + (j + 1) = i + 1 + j := by omega
      rw [save_lists,hsucc]
      split
      · refine (ih (i + 1) _ _ hq).trans ?_
        rw [Files.file_put,if_neg (show i + 1 + j ≠ i by omega)]
      · exact ih (i + 1) _ _ hq

theorem save_lists_kept_other {queues : List (PhiolaQueue U)} (i : Nat) (files : Files U)
    (kept : Nat → Option Nat) {id : Nat} (hid : id ∉ queues.map PhiolaQueue.id) :
    (save_lists queues i files kept).2.2 id = kept id := by
  induction queues generalizing i files kept with
  | nil => rfl
  | cons p queues ih =>
    rw [List.map_cons,List.mem_cons,not_or] at hid
    rw [save_lists]
    split
    · exact (ih (i + 1) _ _ hid.2).trans (if_neg hid.1)
    · exact ih (i + 1) _ _ hid.2

theorem save_lists_kept {queues : List (PhiolaQueue U)} (i : Nat) (files : Files U)
    (kept : Nat → Option Nat) {j : Nat} {q : PhiolaQueue U} (hq : queues[j]? = some q)
    (hn : (queues.map PhiolaQueue.id).Nodup) :
    (save_lists queues i files kept).2.2 q.id =
      if q.modified then some (i + j) else kept q.id := by
  induction queues generalizing i j files kept with
  | nil => cases hq
  | cons p queues ih =>
    rw [List.map_cons,List.nodup_cons] at hn
    cases j with
    | zero =>
      obtain rfl := Option.some.inj hq
      rw [save_lists]
      split
      · exact (save_lists_kept_other (i + 1) _ _ hn.1).trans (if_pos rfl)
      · exact save_lists_kept_other (i + 1) _ _ hn.1
    | succ j =>
      have hsucc : i + (j + 1) = i + 1 + j := by omega
      have hne : q.id ≠ p.id := fun he =>
        hn.1 (he ▸ List.mem_map_of_mem (List.mem_of_getElem? hq))
      rw [save_lists,hsucc]
      split
      · refine (ih (i + 1) _ _ hq hn.2).trans ?_
        rw [set_kept,if_neg hne]
      · exact ih (i + 1) _ _ hq hn.2

theorem saveconf_queues (s : Store U) :
    s.saveconf.queue.queues = s.queue.queues.map fun q => {q with modified := false} :=
  save_lists_queues s.queue.queues 0 s.files s.kept

theorem saveconf_ids (s : Store U) : s.saveconf.queue.ids = s.queue.ids := by
  rw [ids,saveconf_queues,List.map_map]
  rfl

theorem saveconf_file {s : Store U} {i : Nat} {q : PhiolaQueue U}
    (hq : s.queue.queues[i]? = some q) :
    s.saveconf.files.file i = if q.modified then some q.entries else s.files.file i := by
  have hlt := (List.getElem?_eq_some_iff.mp hq).1
  have hlen := congrArg List.length (save_lists_queues s.queue.queues 0 s.files s.kept)
  rw [List.length_map] at hlen
  have hsaved := save_lists_file 0 s.files s.kept hq
  rw [Nat.zero_add] at hsaved
  refine (Files.file_put _ _ _ _).trans ?_
  rw [if_neg (by omega),hsaved]

theorem saveconf_file_end (s : Store U) : s.saveconf.files.file s.queue.queues.length = none := by
  have hlen := congrArg List.length (save_lists_queues s.queue.queues 0 s.files s.kept)
  rw [List.length_map] at hlen
  exact (Files.file_put _ _ _ _).trans (if_pos hlen.symm)

theorem saveconf_kept {s : Store U} (hn : s.queue.ids.Nodup) {i : Nat} {q : PhiolaQueue U}
    (hq : s.queue.queues[i]? = some q) :
    s.saveconf.kept q.id = if q.modified then some i else s.kept q.id := by
  have hsaved := save_lists_kept 0 s.files s.kept hq hn
  rw [Nat.zero_add] at hsaved
  exact hsaved

theorem Filed.saveconf {s : Store U} (h : Filed s) : Filed s.saveconf where
  nodup := by rw [saveconf_ids]; exact h.nodup
  fresh := by rw [saveconf_ids]; exact h.fresh
  unborn id hid := by
    have hother : id ∉ s.queue.ids := fun hmem => absurd (h.fresh id hmem) (Nat.not_lt.mpr hid)
    exact (save_lists_kept_other 0 s.files s.kept hother).trans (h.unborn id hid)
  down i id k hi hk := by
    rw [saveconf_ids,ids,List.getElem?_map,Option.map_eq_some_iff] at hi
    obtain ⟨q,hq,rfl⟩ := hi
    rw [saveconf_kept h.nodup hq] at hk
    split at hk
    · exact (Option.some.inj hk).le
    · exact h.down i q.id k (ids_get hq) hk
  file i l hl _ hk := by
    rw [saveconf_queues,List.getElem?_map,Option.map_eq_some_iff] at hl
    obtain ⟨q,hq,rfl⟩ := hl
    rw [saveconf_file hq]
    split
    · rfl
    · next hm =>
      have hk' := saveconf_kept h.nodup hq
      rw [if_neg hm] at hk'
      exact h.file i q hq (by simpa using hm) (hk'.symm.trans hk)
  nonempty := by rw [saveconf_ids]; exact h.nonempty

/-! ## Loading -/

theorem readable_of_files {files : Files U} {lists : List (List (Entry U))}
    (hfile : ∀ i e, lists[i]? = some e → files.file i = some e)
    (hend : files.file lists.length = none) : readable files = lists := by
  induction lists generalizing files with
  | nil =>
    cases files with
    | nil => rfl
    | cons f files =>
      cases f with
      | none => rfl
      | some f => cases hend
  | cons e lists ih =>
    have hfirst := hfile 0 e rfl
    cases files with
    | nil => cases hfirst
    | cons f files =>
      obtain rfl : f = some e := hfirst
      rw [readable,ih (fun i e' he' => hfile (i + 1) e' he') hend]

theorem file_of_readable {files : Files U} {i : Nat} {e : List (Entry U)}
    (h : (readable files)[i]? = some e) : files.file i = some e := by
  induction files generalizing i with
  | nil => cases h
  | cons f files ih =>
    cases f with
    | none => cases h
    | some f =>
      cases i with
      | zero => exact h
      | succ i => exact ih h

/-- The lists after the files up to the one of index `i` were read. -/
structure Read (q : Queue U) (i : Nat) (lists : List (List (Entry U))) : Prop where
  ids : q.ids = List.range i
  next_id : q.next_id = i
  entries : q.queues.map PhiolaQueue.entries = lists

theorem Read.next {q : Queue U} {i : Nat} {lists : List (List (Entry U))} (h : Read q i lists)
    (file : List (Entry U)) :
    ∃ q', q.add_list.on_list i (PhiolaQueue.load file) = .ok q' ∧
      Read q' (i + 1) (lists ++ [file]) := by
  have hlen : q.queues.length = i := by rw [← ids_length,h.ids,List.length_range]
  have hget : q.add_list.queues[i]? = some ⟨q.next_id,[],false⟩ := by
    change (q.queues ++ [_])[i]? = _
    rw [← hlen,List.getElem?_concat_length]
  refine ⟨{q.add_list with queues := q.queues ++ [⟨q.next_id,file,false⟩]},?_,?_,?_,?_⟩
  · rw [Queue.on_list,Queue.get,hget]
    refine congrArg (fun l => Except.ok {q.add_list with queues := l}) ?_
    change (q.queues ++ [_]).set i _ = _
    rw [← hlen,List.set_append_right _ _ le_rfl,Nat.sub_self]
    rfl
  · change List.map _ (q.queues ++ _) = _
    rw [List.map_append,List.range_succ,← h.ids,h.next_id]
    rfl
  · exact congrArg (· + 1) h.next_id
  · change List.map _ (q.queues ++ _) = _
    rw [List.map_append,h.entries]
    rfl

theorem Read.load_lists {q : Queue U} {i : Nat} {lists : List (List (Entry U))} (h : Read q i lists)
    (hi : i ≠ 0) (files : Files U) :
    ∃ q', q.load_lists i files = .ok q' ∧
      Read q' (i + (readable files).length) (lists ++ readable files) := by
  induction files generalizing q i lists with
  | nil => exact ⟨q,rfl,by simpa [readable] using h⟩
  | cons f files ih =>
    cases f with
    | none => exact ⟨q,rfl,by simpa [readable] using h⟩
    | some file =>
      obtain ⟨q₁,hq₁,h₁⟩ := h.next file
      obtain ⟨q₂,hq₂,h₂⟩ := ih h₁ (Nat.succ_ne_zero i)
      refine ⟨q₂,?_,?_⟩
      · rw [Queue.load_lists,if_pos hi,hq₁]
        exact hq₂
      · have hlen : i + (readable files).length.succ = i + 1 + (readable files).length := by omega
        rw [readable,List.length_cons,hlen]
        simpa using h₂

theorem Read.indexes {q : Queue U} {i : Nat} {lists : List (List (Entry U))} (h : Read q i lists)
    (a b : Nat) : Read {q with q_active := a, selected := b} i lists := ⟨h.ids,h.next_id,h.entries⟩

theorem load_new (list_active list_curpos : Nat) (setts : Setts) (files : Files U) :
    ∃ q, (Queue.new list_active list_curpos setts).load files = .ok q ∧
      Read q (max (readable files).length 1)
        (if readable files = [] then [[]] else readable files) := by
  have hnew : Read (Queue.new list_active list_curpos setts : Queue U) 1 [[]] := ⟨rfl,rfl,rfl⟩
  cases files with
  | nil => exact ⟨_,rfl,hnew.indexes _ _⟩
  | cons f files =>
    cases f with
    | none => exact ⟨_,rfl,hnew.indexes _ _⟩
    | some file =>
      have hone : Read {(Queue.new list_active list_curpos setts : Queue U) with
          queues := [⟨0,file,false⟩]} 1 [file] := ⟨rfl,rfl,rfl⟩
      obtain ⟨q,hq,h⟩ := hone.load_lists Nat.one_ne_zero files
      refine ⟨{ q with
          q_active := if q.q_active ≥ q.queues.length then 0 else q.q_active
          selected := if q.selected ≥ q.queues.length then 0 else q.selected },?_,?_⟩
      · rw [Queue.load,Queue.load_lists]
        exact congrArg (· >>= _) hq
      · rw [readable,if_neg (List.cons_ne_nil _ _),List.length_cons,Nat.max_eq_left (by omega),
          Nat.add_comm]
        exact h.indexes _ _

theorem filed_loaded {list_active list_curpos : Nat} {setts : Setts} {files : Files U}
    {q : Queue U} (h : (Queue.new list_active list_curpos setts).load files = .ok q) :
    Filed (loaded q files) := by
  obtain ⟨q',hq',hread⟩ := load_new list_active list_curpos setts files
  obtain rfl := Except.ok.inj (hq'.symm.trans h)
  have hlen : q'.ids.length = max (readable files).length 1 := by
    rw [hread.ids,List.length_range]
  refine ⟨?_,?_,?_,?_,?_,?_⟩
  · change q'.ids.Nodup
    rw [hread.ids]
    exact List.nodup_range
  · change ∀ id ∈ q'.ids, id < q'.next_id
    rw [hread.ids,hread.next_id]
    exact fun id hid => List.mem_range.mp hid
  · intro id hid
    change q'.next_id ≤ id at hid
    rw [hread.next_id] at hid
    exact if_neg (by omega)
  · intro i id k hi hk
    change q'.ids[i]? = some id at hi
    rw [hread.ids] at hi
    obtain ⟨_,rfl⟩ := List.getElem?_eq_some_iff.mp hi
    dsimp only [loaded] at hk
    split at hk
    · exact (List.getElem_range _).symm.le.trans (Option.some.inj hk).le
    · cases hk
  · intro i l hl _ hk
    change q'.queues[i]? = some l at hl
    have hid := ids_get hl
    dsimp only [loaded] at hk ⊢
    split at hk
    · next hlt =>
      have hne : readable files ≠ [] := List.ne_nil_of_length_pos (Nat.zero_lt_of_lt hlt)
      have he := congrArg (·[i]?) hread.entries
      rw [if_neg hne] at he
      simp only [List.getElem?_map,hl,Option.map_some] at he
      exact file_of_readable he.symm
    · cases hk
  · change q'.ids ≠ []
    exact List.ne_nil_of_length_pos (by omega)

/-! ## Every action, every run -/

section Runs

variable [DecidableEq U]

theorem sorted_sub (s : Store U) (a : Queue.Act U) :
    ∀ id k, s.sorted a id = some k → s.kept id = some k := by
  intro id k h
  cases a with
  | sort order =>
    cases hq : s.queue.queues[s.queue.selected]? with
    | none => simpa only [sorted,hq] using h
    | some l =>
      simp only [sorted,hq] at h
      split at h
      · simp only [set_kept] at h
        split at h
        · cases h
        · exact h
      · exact h
  | _ => exact h

theorem filed_after {s : Store U} {q : Queue U} {a : Queue.Act U} (h : Filed s)
    (ha : s.queue.step a = .ok q) : Filed ⟨q,s.files,s.sorted a⟩ := by
  have hmarked : Returns (Marked s.queue) (s.queue.step a) → s.sorted a = s.kept →
      Filed ⟨q,s.files,s.sorted a⟩ := by
    intro hr hk
    rw [hk]
    exact h.marked (hr.of_ok ha)
  cases a with
  | new_list =>
    obtain rfl := Except.ok.inj ha
    exact (h.marked (q := s.queue.filter_close) (.of_eq rfl rfl)).add_list
  | close_current_list =>
    dsimp only [Queue.step,close_current_list] at ha
    split at ha
    · exact h.marked ((clear_marked s.queue).of_ok ha)
    · next hlen =>
      have hclosed := (get_returns s.queue.filter_close s.queue.selected).bind_pure
        (R := fun q => q.queues = s.queue.queues.eraseIdx s.queue.selected ∧
          q.next_id = s.queue.next_id)
        (f := fun _ => { s.queue.filter_close with
          queues := s.queue.queues.eraseIdx s.queue.selected
          selected := s.queue.selected - 1 }) fun _ _ => ⟨rfl,rfl⟩
      obtain ⟨hq,hn⟩ := hclosed.of_ok ha
      exact h.close s.queue.selected hlen hq hn
  | sort order =>
    have hsub := sorted_sub s (.sort order)
    dsimp only [Queue.step,Queue.sort] at ha
    split at ha
    · next hf =>
      obtain rfl := Except.ok.inj ha
      have hk : s.sorted (.sort order) = s.kept := by
        cases hq : s.queue.queues[s.queue.selected]? <;> simp [sorted,hq,hf]
      rw [hk]
      exact h
    · next hf =>
      obtain ⟨l,hl,rfl⟩ := (on_list_returns _ _ _).of_ok ha
      refine h.changed hl (order l.entries) (q := {s.queue with
        queues := s.queue.queues.set s.queue.selected (l.sort order)}) rfl rfl hsub fun hne => ?_
      simp [sorted,hl,hne,set_kept,Bool.eq_false_iff.mpr hf]
  | switch_list i => exact hmarked (.pure (.of_eq rfl rfl)) rfl
  | next_list_select => exact hmarked (.pure (.of_eq rfl rfl)) rfl
  | play index => exact hmarked (_play_marked _ _ index) rfl
  | playcur => exact hmarked (playcur_marked _) rfl
  | order_next rnd => exact hmarked (order_next_marked _ rnd) rfl
  | order_prev rnd => exact hmarked (play_delta_marked _ rnd (-1)) rfl
  | posted rnd => exact hmarked (run_posted_marked _ rnd) rfl
  | opened =>
    exact hmarked ((on_open_marked _).bind_pure fun _ hm => hm.trans (.of_eq rfl rfl)) rfl
  | refused => exact hmarked ((trk_close_marked _).mono fun _ hm => hm.past rfl rfl) rfl
  | error => exact hmarked (.pure (.of_eq rfl rfl)) rfl
  | complete =>
    refine hmarked ?_ rfl
    dsimp only [Queue.step]
    split
    · exact Marked.rfl
    · exact (trk_close_marked _).mono fun _ hm => hm.past rfl rfl
  | stop => exact hmarked (stop_marked _) rfl
  | add url => exact hmarked (filter_close_on_list_marked _ _ (fun _ => rfl) fun _ => rfl) rfl
  | addmany urls =>
    exact hmarked (filter_close_on_list_marked _ _ (fun _ => rfl) fun _ => rfl) rfl
  | next_list_add_cur => exact hmarked (next_list_add_cur_marked _) rfl
  | remove pos => exact hmarked (remove_marked _ pos) rfl
  | clear => exact hmarked (clear_marked _) rfl
  | filter shown => exact hmarked ((get_returns _ _).bind_pure fun _ _ => .of_eq rfl rfl) rfl
  | setts t => exact hmarked (.pure (.of_eq rfl rfl)) rfl
  | auto_stop =>
    refine hmarked (.pure ?_) rfl
    rw [auto_stop]
    split <;> exact .of_eq rfl rfl
  | auto_stop_expired =>
    refine hmarked (.pure ?_) rfl
    split <;> exact .of_eq rfl rfl

theorem filed_stored {s s' : Store U} {j i : Nat} {tags : List (String × String)} {length_msec : Nat}
    (h : Filed s) (ha : s.meta_queue_store j i tags length_msec = some s') : Filed s' := by
  unfold meta_queue_store at ha
  split at ha
  · cases ha
  next l hl =>
    split at ha
    · cases ha
    next e _ =>
      dsimp only at ha
      split at ha
      swap
      · cases ha
      obtain rfl := Option.some.inj ha
      refine h.changed hl (l.entries.set i {e with tags := tags, length_msec := length_msec})
        (q := {s.queue with
          queues := s.queue.queues.set j
            {l with entries := l.entries.set i {e with tags := tags, length_msec := length_msec}}
          infos := s.queue.infos.erase (l.id,e.url)}) rfl rfl (fun id k hk => ?_) fun hne => ?_
      · split at hk
        · simp only [set_kept] at hk
          split at hk
          · cases hk
          · exact hk
        · exact hk
      · rw [if_pos hne]
        exact if_pos rfl

theorem filed_step {s s' : Store U} {a : Act U} (h : Filed s) (ha : step s a = some s') :
    Filed s' := by
  cases a with
  | queue a =>
    obtain ⟨q,hq,rfl⟩ := Option.map_eq_some_iff.mp ha
    exact filed_after h (after_eq_some.mp hq)
  | meta_queue_store j i tags length_msec => exact filed_stored h ha
  | saveconf =>
    obtain rfl := Option.some.inj ha
    exact h.saveconf

omit [DecidableEq U] in
theorem Filed.restored {s : Store U} (h : Filed s) (hc : Current s) : Restored s.saveconf := by
  intro list_active list_curpos setts
  obtain ⟨q,hq,hread⟩ := load_new list_active list_curpos setts s.saveconf.files
  refine ⟨q,hq,hread.entries.trans ?_⟩
  have hentries : s.saveconf.queue.queues.map PhiolaQueue.entries =
      s.queue.queues.map PhiolaQueue.entries := by
    rw [saveconf_queues,List.map_map]
    rfl
  rw [hentries]
  by_cases hone : s.queue.queues.length = 1 ∧ s.saveconf.files.file 0 = none
  · -- the only list is empty and has no file
    obtain ⟨l,hl⟩ := List.length_eq_one_iff.mp hone.1
    have hl0 : s.queue.queues[0]? = some l := by rw [hl]; rfl
    have hfile := saveconf_file hl0
    rw [hone.2] at hfile
    have hm : l.modified = false := by
      by_contra hm
      rw [if_pos (by simpa using hm)] at hfile
      cases hfile
    rw [if_neg (by simp [hm])] at hfile
    have hempty : l.entries = [] := by
      rcases hc 0 (by omega) l hl0 with hm' | hk | ⟨-,he,-⟩
      · cases hm.symm.trans hm'
      · cases hfile.trans (h.file 0 l hl0 hm hk)
      · exact he
    have hr : readable s.saveconf.files = [] := readable_of_files (fun i e he => nomatch he) hone.2
    rw [if_pos hr,hl,List.map_singleton,hempty]
  · have hfiles : ∀ i e, (s.queue.queues.map PhiolaQueue.entries)[i]? = some e →
        s.saveconf.files.file i = some e := by
      intro i e he
      rw [List.getElem?_map,Option.map_eq_some_iff] at he
      obtain ⟨l,hl,rfl⟩ := he
      have hlt := (List.getElem?_eq_some_iff.mp hl).1
      have hfile := saveconf_file hl
      by_cases hm : l.modified = true
      · rw [hfile,if_pos hm]
      · rw [if_neg hm] at hfile
        rcases hc i hlt l hl with hm' | hk | ⟨hlen,-,hnone⟩
        · exact absurd hm' hm
        · exact hfile.trans (h.file i l hl (by simpa using hm) hk)
        · obtain rfl : i = 0 := by omega
          exact absurd ⟨hlen,hfile.trans hnone⟩ hone
    have hend := saveconf_file_end s
    have hr := readable_of_files hfiles (by rw [List.length_map]; exact hend)
    have hne : s.queue.queues.map PhiolaQueue.entries ≠ [] := fun he =>
      h.nonempty (by rw [ids,List.map_eq_nil_iff.mp he,List.map_nil])
    rw [hr,if_neg hne]

/-- After every run from a `load()`, a `saveconf()` with all lists marked or in their files leaves
files that the next process has the same lists from. -/
theorem lists_restored {list_active list_curpos : Nat} {setts : Setts} {files : Files U}
    {q : Queue U} (hload : (Queue.new list_active list_curpos setts).load files = .ok q)
    {as : List (Act U)} {s : Store U} (hrun : Machine.run step (loaded q files) as = some s)
    (hc : Current s) : Restored s.saveconf :=
  (Machine.run_invariant (fun _ _ _ h ha => filed_step h ha) hrun (filed_loaded hload)).restored hc

end Runs

/-! ## Lists of numbers -/

def one_three : Store Nat :=
  loaded three three_files

/-- A list behind the closed one is marked, and so are a new list, a sorted one, and one with new tags. -/
def marked_again : List (Act Nat) :=
  [.queue (.add 11),.queue (.sort List.reverse),.queue (.switch_list 2),.queue (.add 31),
    .queue (.switch_list 1),.queue .close_current_list,.saveconf,.queue .new_list,
    .queue (.switch_list 2),.queue (.addmany [40,41]),.queue (.play 1),
    .meta_queue_store 2 1 [("artist","a"),("title","b")] 1000,.queue .opened,.queue (.order_next 0)]

theorem lists_restored_marked :
    (Machine.run step one_three marked_again).isSome ∧
      Restored ((Machine.run step one_three marked_again).getD one_three).saveconf := by
  have hload : (Queue.new 0 0 no_setts).load three_files = .ok three := by
    decide +kernel
  have hsome : (Machine.run step one_three marked_again).isSome = true := by decide +kernel
  exact ⟨hsome,lists_restored hload (Machine.run_eq_getD hsome) (by decide +kernel)⟩

theorem not_restored {s : Store Nat}
    (h : ((Queue.new 0 0 no_setts).load s.files).toOption.map
      (fun q => q.queues.map PhiolaQueue.entries) ≠
        some (s.queue.queues.map PhiolaQueue.entries)) : ¬Restored s := by
  intro hr
  obtain ⟨q,hq,he⟩ := hr 0 0 no_setts
  rw [hq] at h
  exact h (congrArg some he)

/-- The tags of an entry come after a track of another list was started. -/
def late_tags : List (Act Nat) :=
  [.queue (.play 0),.queue (.switch_list 1),.queue (.play 0),.meta_queue_store 0 0 [("title","b")] 1000,
    .queue .opened]

/-- A list is sorted, the first list is closed, there is a new list, or the tags come late. -/
theorem lists_not_restored :
    three_new.load three_files = .ok three ∧
      (∃ s, Machine.run step one_three [.queue (.add 5),.saveconf,.queue (.sort List.reverse)] =
        some s ∧ ¬Restored s.saveconf) ∧
      (∃ s, Machine.run step one_three [.queue .close_current_list] = some s ∧
        ¬Restored s.saveconf) ∧
      (∃ s, Machine.run step one_three [.queue .new_list] = some s ∧ ¬Restored s.saveconf) ∧
      ∃ s, Machine.run step one_three late_tags = some s ∧ ¬Restored s.saveconf :=
  ⟨by decide +kernel,
    ⟨_,Machine.run_eq_getD (d := one_three) (by decide +kernel),not_restored (by decide +kernel)⟩,
    ⟨_,Machine.run_eq_getD (d := one_three) (by decide +kernel),not_restored (by decide +kernel)⟩,
    ⟨_,Machine.run_eq_getD (d := one_three) (by decide +kernel),not_restored (by decide +kernel)⟩,
    _,Machine.run_eq_getD (d := one_three) (by decide +kernel),not_restored (by decide +kernel)⟩

end Store

end Phiola.Android
