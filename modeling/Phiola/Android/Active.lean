import Phiola.Android.Queue
import Phiola.Framework.Machine
import Phiola.Framework.Outcome
import Mathlib.Data.List.InsertIdx

/-!
# The list that is played from

`q_active` is an index into the same array that `close_current_list()` deletes from at
`selected`. It stays with its list as long as no list before it is closed.
-/

namespace Phiola.Android.Queue

open Outcome

variable {U : Type}

def ids (q : Queue U) : List Nat := q.queues.map PhiolaQueue.id

/-- `q_active` denotes the list that the last track was started from, unless it was closed. -/
def Denotes (q : Queue U) : Prop :=
  ∀ list, q.started = some list → list ∈ q.ids → q.ids[q.q_active]? = some list

instance (q : Queue U) : Decidable q.Denotes :=
  match h : q.started with
  | none => .isTrue fun list hl => by simp [h] at hl
  | some list =>
    decidable_of_iff (list ∈ q.ids → q.ids[q.q_active]? = some list)
      ⟨fun hd l hl => by
        obtain rfl := Option.some.inj (h.symm.trans hl)
        exact hd,fun hd => hd list h⟩

/-- `switch_list()` is given an existing index. -/
def Existing (q : Queue U) : Act U → Prop
  | .switch_list i => i < q.queues.length
  | _ => True

instance (q : Queue U) : ∀ a, Decidable (Existing q a)
  | .switch_list i => inferInstanceAs (Decidable (i < q.queues.length))
  | .new_list | .close_current_list | .next_list_select | .play _ | .playcur | .order_next _
  | .order_prev _ | .posted _ | .opened | .refused | .error | .complete | .stop | .add _
  | .addmany _ | .next_list_add_cur | .remove _ | .clear | .sort _ | .filter _ | .setts _
  | .auto_stop | .auto_stop_expired => inferInstanceAs (Decidable True)

/-- No list before the one of `q_active` is closed while the list of the last track is open, and
`q_active` is not the last index when a list is closed. -/
def ClosedBehind (q : Queue U) : Act U → Prop
  | .close_current_list =>
    q.queues.length = 1 ∨
      q.q_active + 1 < q.queues.length ∧
        ((∃ list ∈ q.ids, q.started = some list) → q.q_active ≤ q.selected)
  | _ => True

instance (q : Queue U) : ∀ a, Decidable (ClosedBehind q a)
  | .close_current_list =>
    inferInstanceAs (Decidable (q.queues.length = 1 ∨
      q.q_active + 1 < q.queues.length ∧
        ((∃ list ∈ q.ids, q.started = some list) → q.q_active ≤ q.selected)))
  | .new_list | .switch_list _ | .next_list_select | .play _ | .playcur | .order_next _
  | .order_prev _ | .posted _ | .opened | .refused | .error | .complete | .stop | .add _
  | .addmany _ | .next_list_add_cur | .remove _ | .clear | .sort _ | .filter _ | .setts _
  | .auto_stop | .auto_stop_expired => inferInstanceAs (Decidable True)

/-! ## The invariant -/

structure Placed (q : Queue U) : Prop where
  selected : q.selected < q.ids.length
  q_active : q.q_active < q.ids.length
  nodup : q.ids.Nodup
  fresh : ∀ list ∈ q.ids, list < q.next_id
  started : ∀ list, q.started = some list → list < q.next_id
  denotes : q.Denotes

/-- A track that is open is known to be. -/
def Idle (q : Queue U) : Prop := q.t.state ≠ .NONE → q.active = true

/-- Lists are the same objects in the same places. -/
structure Same (q q' : Queue U) : Prop where
  ids : q'.ids = q.ids
  selected : q'.selected = q.selected
  q_active : q'.q_active = q.q_active
  next_id : q'.next_id = q.next_id
  started : q'.started = q.started

theorem Same.rfl {q : Queue U} : Same q q := ⟨by rfl,by rfl,by rfl,by rfl,by rfl⟩

theorem Same.trans {a b c : Queue U} (h : Same a b) (k : Same b c) : Same a c :=
  ⟨k.ids.trans h.ids,k.selected.trans h.selected,k.q_active.trans h.q_active,
    k.next_id.trans h.next_id,k.started.trans h.started⟩

theorem Placed.same {q q' : Queue U} (h : Placed q) (hs : Same q q') : Placed q' where
  selected := by rw [hs.selected,hs.ids]; exact h.selected
  q_active := by rw [hs.q_active,hs.ids]; exact h.q_active
  nodup := by rw [hs.ids]; exact h.nodup
  fresh := by rw [hs.ids,hs.next_id]; exact h.fresh
  started := by rw [hs.started,hs.next_id]; exact h.started
  denotes := by
    rw [Denotes,hs.started,hs.ids,hs.q_active]
    exact h.denotes

/-- A change of the entries. -/
structure Edit (q q' : Queue U) : Prop where
  same : Same q q'
  t : q'.t = q.t
  active : q'.active = q.active

theorem Edit.rfl {q : Queue U} : Edit q q := ⟨.rfl,by rfl,by rfl⟩

theorem Edit.trans {a b c : Queue U} (h : Edit a b) (k : Edit b c) : Edit a c :=
  ⟨h.same.trans k.same,k.t.trans h.t,k.active.trans h.active⟩

def Inv (q : Queue U) : Prop := Placed q ∧ Idle q

theorem Inv.edit {q q' : Queue U} (h : Inv q) (he : Edit q q') : Inv q' := by
  refine ⟨h.1.same he.same,?_⟩
  rw [Idle,he.t,he.active]
  exact h.2

/-- The outcome of a call that does not go out of the bounds of `queues`. -/
abbrev Within {α : Type} (P : α → Prop) (x : Except Fault α) : Prop :=
  Meets (fun e => e ≠ Fault.index) P x

/-! ## The functions of the entries -/

theorem ids_length (q : Queue U) : q.ids.length = q.queues.length := List.length_map _

theorem get_within {q : Queue U} {i : Nat} (hi : i < q.ids.length) :
    Within (fun l => q.queues[i]? = some l) (q.get i) := by
  rw [ids_length] at hi
  rw [get,List.getElem?_eq_getElem hi]
  rfl

theorem url_within (l : PhiolaQueue U) (i : Int) : Within (fun _ => True) (l.url i) := by
  rw [PhiolaQueue.url]
  split
  · exact trivial
  · exact Fault.noConfusion

theorem on_list_within {q : Queue U} {i : Nat} {f : PhiolaQueue U → PhiolaQueue U}
    (hi : i < q.ids.length) (hf : ∀ l, (f l).id = l.id) :
    Within (Edit q) (q.on_list i f) := by
  refine (get_within hi).bind fun l hl => ?_
  refine ⟨⟨?_,rfl,rfl,rfl,rfl⟩,rfl,rfl⟩
  obtain ⟨hlt,rfl⟩ := List.getElem?_eq_some_iff.mp hl
  dsimp only [ids]
  rw [List.map_set,hf]
  refine List.ext_getElem? fun j => ?_
  rw [List.getElem?_set]
  split
  · next hij => subst hij; simp [hlt]
  · rfl

theorem filter_close_on_list_within {q : Queue U} {i : Nat}
    {f : PhiolaQueue U → PhiolaQueue U} (hi : i < q.ids.length) (hf : ∀ l, (f l).id = l.id) :
    Within (Edit q) (q.filter_close.on_list i f) :=
  (on_list_within (q := q.filter_close) hi hf).mono fun _ h =>
    ⟨⟨h.same.ids,h.same.selected,h.same.q_active,h.same.next_id,h.same.started⟩,h.t,h.active⟩

theorem clear_within {q : Queue U} (hi : q.selected < q.ids.length) :
    Within (Edit q) q.clear := by
  refine (filter_close_on_list_within (f := PhiolaQueue.clear) hi fun _ => rfl).bind_pure
    fun q' h => ?_
  exact h.trans ⟨⟨rfl,rfl,rfl,rfl,rfl⟩,rfl,rfl⟩

theorem remove_within {q : Queue U} (hi : q.q_active < q.ids.length) (pos : Int) :
    Within (Edit q) (q.remove pos) := by
  refine (filter_close_on_list_within (f := (PhiolaQueue.remove · pos)) hi fun _ => rfl).bind_pure
    fun q' h => ?_
  exact h.trans ⟨⟨rfl,rfl,rfl,rfl,rfl⟩,rfl,rfl⟩

theorem sort_within {q : Queue U} (hi : q.selected < q.ids.length)
    (order : List (Entry U) → List (Entry U)) : Within (Edit q) (q.sort order) := by
  rw [sort]
  split
  · exact Edit.rfl
  · exact on_list_within hi fun _ => rfl

theorem index_next_lt {q : Queue U} {i : Nat} (hi : i < q.ids.length) :
    q.index_next i < q.ids.length := by
  rw [ids_length] at hi ⊢
  rw [index_next]
  split <;> omega

theorem next_list_add_cur_within {q : Queue U} (hi : q.q_active < q.ids.length) :
    Within (Edit q) q.next_list_add_cur := by
  rw [next_list_add_cur]
  split
  · exact Edit.rfl
  · split
    · exact Edit.rfl
    · exact filter_close_on_list_within (index_next_lt hi) fun _ => rfl

/-! ## The functions of the track -/

theorem edit_play_on (q : Queue U) : Edit q q.play_on := by
  by_cases hs : q.auto_stop_active = true
  · by_cases ht : q.auto_stop_timer = true
    · simp only [play_on,auto_stop,hs,ht,if_true]
      exact ⟨⟨rfl,rfl,rfl,rfl,rfl⟩,rfl,rfl⟩
    · simp only [play_on,auto_stop,hs,ht,if_true]
      exact ⟨⟨rfl,rfl,rfl,rfl,rfl⟩,rfl,rfl⟩
  · simp only [play_on,hs]
    exact ⟨⟨rfl,rfl,rfl,rfl,rfl⟩,rfl,rfl⟩

/-- What a closing leaves. -/
structure Closed (q q' : Queue U) : Prop where
  same : Same q q'
  state : q'.t.state = .NONE

theorem Closed.of_handle {q q' : Queue U} {t : TrackHandle U}
    (h : Closed {q with t := t} q') : Closed q q' :=
  ⟨⟨h.same.ids,h.same.selected,h.same.q_active,h.same.next_id,h.same.started⟩,h.state⟩

theorem Inv.closed {q q' : Queue U} (h : Inv q) (hc : Closed q q') : Inv q' :=
  ⟨h.1.same hc.same,fun hne => absurd hc.state hne⟩

/-- The list that is played from is the one that the track is started from. -/
theorem start_within {q : Queue U} (h : Placed q) (hn : q.t.state = .NONE) {iq : Nat} {it : Int}
    {l : PhiolaQueue U} (hl : q.queues[iq]? = some l) (url : U) :
    Within Inv (start {q with q_active := iq, trk_idx := it, curpos := it} l.id url) := by
  have hlt : iq < q.ids.length := by
    rw [ids_length]
    exact (List.getElem?_eq_some_iff.mp hl).1
  have hid : q.ids[iq]? = some l.id := by
    rw [ids,List.getElem?_map,hl]
    rfl
  have hinv (infos : List (Nat × U)) : Inv { q with
      q_active := iq, trk_idx := it, curpos := it
      t := {q.t with url := some url}, started := some l.id, infos := infos } := by
    refine ⟨⟨h.selected,hlt,h.nodup,h.fresh,?_,?_⟩,fun hne => absurd hn hne⟩
    · rintro list ⟨⟩
      exact h.fresh l.id (List.mem_of_getElem? hid)
    · rintro list ⟨⟩ -
      exact hid
  rw [start,if_neg (not_not.mpr hn)]
  split
  · exact hinv _
  · exact (get_within (q := {q with q_active := iq, trk_idx := it, curpos := it}) hlt).bind
      fun _ _ => hinv _

section Playing

variable [DecidableEq U]

theorem rm_failed_within {q : Queue U} (hi : q.q_active < q.ids.length) :
    Within (Edit q) q.rm_failed := by
  rw [rm_failed]
  split
  · refine (get_within hi).bind fun l _ => (url_within l _).bind fun url _ => ?_
    split
    · exact remove_within hi _
    · exact Edit.rfl
  · exact Edit.rfl

theorem trk_close_within {q : Queue U} (hi : q.q_active < q.ids.length) :
    Within (Closed q) q.trk_close := by
  have hclose : Within (Edit {q with t := {q.t with state := .NONE}, active := false})
      (on_close {q with t := {q.t with state := .NONE}}) :=
    (rm_failed_within (q := {q with t := {q.t with state := .NONE}, active := false}) hi).bind_pure
      fun q' h => h.trans (edit_play_on q')
  refine hclose.bind_pure fun q' h => ?_
  have hs := h.same
  exact ⟨⟨hs.ids,hs.selected,hs.q_active,hs.next_id,hs.started⟩,congrArg TrackHandle.state h.t⟩

theorem stop_within {q : Queue U} (hi : q.q_active < q.ids.length) :
    Within (Closed q) q.stop :=
  (trk_close_within (q := {q with t := {q.t with stopped := true}}) hi).mono
    fun _ h => h.of_handle

theorem _play_within {q : Queue U} (h : Inv q) {iq : Nat} (hiq : iq < q.ids.length) (it : Int) :
    Within Inv (q._play iq it) := by
  have hstop : Within (fun q' => Inv q' ∧ q'.t.state = .NONE ∧ iq < q'.ids.length)
      (if q.active then q.stop else pure q) := by
    split
    · refine (stop_within h.1.q_active).mono fun q' hc => ⟨h.closed hc,hc.state,?_⟩
      rw [hc.same.ids]
      exact hiq
    · next ha => exact ⟨h,by_contra fun hne => ha (h.2 hne),hiq⟩
  refine hstop.bind fun q' ⟨hinv,hnone,hlt⟩ => ?_
  refine (get_within hlt).bind fun l hl => ?_
  split
  · exact hinv
  · exact (url_within l it).bind fun url _ => start_within hinv.1 hnone hl url

theorem playcur_within {q : Queue U} (h : Inv q) : Within Inv q.playcur :=
  (get_within h.1.q_active).bind fun _ _ => _play_within h h.1.q_active _

theorem play_delta_within {q : Queue U} (h : Inv q) (rnd : Nat) (delta : Int) :
    Within Inv (q.play_delta rnd delta) := by
  refine (get_within h.1.q_active).bind fun l _ => ?_
  dsimp only
  split
  · exact h
  · split
    · have hr : Inv (q.next_random l.entries.length rnd).2 := by
        rw [next_random]
        split
        · exact h
        · exact h.edit ⟨⟨rfl,rfl,rfl,rfl,rfl⟩,rfl,rfl⟩
      exact _play_within hr hr.1.q_active _
    · exact _play_within h h.1.q_active _

theorem order_next_within {q : Queue U} (h : Inv q) (rnd : Nat) :
    Within Inv (q.order_next rnd) := by
  rw [order_next]
  split
  · split
    · exact play_delta_within h rnd 0
    · split
      · have hadd : Within (Edit q)
            (if q.setts.add_rm_on_next = true then q.next_list_add_cur else pure q) := by
          split
          · exact next_list_add_cur_within h.1.q_active
          · exact Edit.rfl
        refine hadd.bind fun q' he => ?_
        have hq' := h.edit he
        refine (remove_within hq'.1.q_active _).bind fun q'' he' => ?_
        exact play_delta_within (hq'.edit he') rnd 0
      · exact play_delta_within h rnd 1
  · exact play_delta_within h rnd 1

theorem run_posted_within {q : Queue U} (h : Inv q) (rnd : Nat) :
    Within Inv (q.run_posted rnd) := by
  rw [run_posted]
  split
  · exact h
  · next rest _ =>
    exact playcur_within (q := {q with posted := rest})
      (h.edit ⟨⟨rfl,rfl,rfl,rfl,rfl⟩,rfl,rfl⟩)
  · next rest _ =>
    exact play_delta_within (q := {q with posted := rest})
      (h.edit ⟨⟨rfl,rfl,rfl,rfl,rfl⟩,rfl,rfl⟩) rnd 1

end Playing

/-! ## Every action -/

section Lists

theorem ids_add_list (q : Queue U) : q.add_list.ids = q.ids ++ [q.next_id] := List.map_append

theorem length_add_list (q : Queue U) : q.add_list.ids.length = q.ids.length + 1 := by
  rw [ids_add_list,List.length_append,List.length_singleton]

theorem nodup_add_list {q : Queue U} (hn : q.ids.Nodup) (hf : ∀ list ∈ q.ids, list < q.next_id) :
    q.add_list.ids.Nodup := by
  rw [ids_add_list]
  refine List.nodup_append.mpr ⟨hn,List.nodup_singleton _,fun a ha b hb => ?_⟩
  rw [List.mem_singleton.mp hb]
  exact (hf a ha).ne

theorem fresh_add_list {q : Queue U} (hf : ∀ list ∈ q.ids, list < q.next_id) :
    ∀ list ∈ q.add_list.ids, list < q.add_list.next_id := by
  intro list hl
  rw [ids_add_list] at hl
  rcases List.mem_append.mp hl with hl | hl
  · exact Nat.lt_succ_of_lt (hf list hl)
  · exact List.mem_singleton.mp hl ▸ Nat.lt_succ_self q.next_id

theorem inv_add_list {q : Queue U} (h : Inv q) : Inv q.add_list := by
  have hlen := length_add_list q
  refine ⟨⟨?_,?_,nodup_add_list h.1.nodup h.1.fresh,fresh_add_list h.1.fresh,?_,?_⟩,h.2⟩
  · exact hlen ▸ Nat.lt_succ_of_lt h.1.selected
  · exact hlen ▸ Nat.lt_succ_of_lt h.1.q_active
  · intro list hl
    exact Nat.lt_succ_of_lt (h.1.started list hl)
  · intro list hs hl
    rw [ids_add_list] at hl ⊢
    rcases List.mem_append.mp hl with hl | hl
    · exact (List.getElem?_append_left h.1.q_active).trans (h.1.denotes list hs hl)
    · exact absurd (List.mem_singleton.mp hl) (h.1.started list hs).ne

/-- The list at `selected` is closed behind the one that is played from. -/
theorem denotes_erase {l : List Nat} {i j list : Nat} (hn : l.Nodup) (hj : l[j]? = some list)
    (hji : j ≤ i) (hl : list ∈ l.eraseIdx i) : (l.eraseIdx i)[j]? = some list := by
  rcases Nat.lt_or_eq_of_le hji with hlt | rfl
  · rw [List.getElem?_eraseIdx_of_lt hlt,hj]
  · obtain ⟨k,hne,hk⟩ := List.mem_eraseIdx_iff_getElem?.mp hl
    have hlt := (List.getElem?_eq_some_iff.mp hk).1
    exact absurd ((List.getElem?_inj hlt hn).mp (hk.trans hj.symm)) hne

theorem close_within {q : Queue U} (h : Inv q) :
    Within (fun q' => ClosedBehind q .close_current_list → Inv q') q.close_current_list := by
  rw [close_current_list]
  split
  · exact (clear_within h.1.selected).mono fun q' hq' _ => h.edit hq'
  · next hlen =>
    refine (get_within (q := q.filter_close) h.1.selected).bind_pure fun _ _ hc => ?_
    obtain ⟨hlast,hbehind⟩ : q.q_active + 1 < q.queues.length ∧
        ((∃ list ∈ q.ids, q.started = some list) → q.q_active ≤ q.selected) :=
      hc.resolve_left hlen
    have hsel := h.1.selected
    rw [ids_length] at hsel
    have hids : (q.queues.eraseIdx q.selected).map PhiolaQueue.id = q.ids.eraseIdx q.selected :=
      (List.eraseIdx_map _ _ _).symm
    have hlength : (q.ids.eraseIdx q.selected).length = q.queues.length - 1 := by
      rw [List.length_eraseIdx_of_lt h.1.selected,ids_length]
    refine ⟨⟨?_,?_,?_,?_,h.1.started,?_⟩,h.2⟩
    · change q.selected - 1 < List.length (List.map _ (q.queues.eraseIdx q.selected))
      rw [hids,hlength]
      omega
    · change q.q_active < List.length (List.map _ (q.queues.eraseIdx q.selected))
      rw [hids,hlength]
      omega
    · change (List.map _ (q.queues.eraseIdx q.selected)).Nodup
      rw [hids]
      exact (List.eraseIdx_sublist q.ids q.selected).nodup h.1.nodup
    · change ∀ list ∈ List.map _ (q.queues.eraseIdx q.selected), _
      rw [hids]
      exact fun list hl => h.1.fresh list (List.mem_of_mem_eraseIdx hl)
    · intro list hs hl
      change list ∈ List.map _ (q.queues.eraseIdx q.selected) at hl
      change (List.map _ (q.queues.eraseIdx q.selected))[q.q_active]? = some list
      rw [hids] at hl ⊢
      have hmem := List.mem_of_mem_eraseIdx hl
      exact denotes_erase h.1.nodup (h.1.denotes list hs hmem) (hbehind ⟨list,hmem,hs⟩) hl

end Lists

section Runs

variable [DecidableEq U]

theorem step_within {q : Queue U} {a : Act U} (h : Inv q) (he : Existing q a) :
    Within (fun q' => ClosedBehind q a → Inv q') (q.step a) := by
  have hedit : ∀ {x : Except Fault (Queue U)}, Within (Edit q) x →
      Within (fun q' => ClosedBehind q a → Inv q') x :=
    fun hx => hx.mono fun q' hq' _ => h.edit hq'
  have hinv : ∀ {x : Except Fault (Queue U)}, Within Inv x →
      Within (fun q' => ClosedBehind q a → Inv q') x := fun hx => hx.mono fun q' hq' _ => hq'
  cases a with
  | new_list =>
    exact hinv (.pure (inv_add_list (q := q.filter_close)
      (h.edit ⟨⟨rfl,rfl,rfl,rfl,rfl⟩,rfl,rfl⟩)))
  | close_current_list => exact close_within h
  | switch_list i =>
    have hi : i < q.ids.length := (ids_length q).symm ▸ he
    exact hinv (.pure ⟨⟨hi,h.1.q_active,h.1.nodup,h.1.fresh,h.1.started,h.1.denotes⟩,h.2⟩)
  | next_list_select =>
    have hi := index_next_lt h.1.selected
    exact hinv (.pure ⟨⟨hi,h.1.q_active,h.1.nodup,h.1.fresh,h.1.started,h.1.denotes⟩,h.2⟩)
  | play index => exact hinv (_play_within h h.1.selected index)
  | playcur => exact hinv (playcur_within h)
  | order_next rnd => exact hinv (order_next_within h rnd)
  | order_prev rnd => exact hinv (play_delta_within h rnd (-1))
  | posted rnd => exact hinv (run_posted_within h rnd)
  | opened =>
    have hopen : Within (fun q' => Same q q' ∧ q'.active = true) q.on_open := by
      rw [on_open]
      split
      · exact ⟨⟨rfl,rfl,rfl,rfl,rfl⟩,rfl⟩
      · refine (on_list_within (q := {q with active := true})
          (f := fun l => {l with modified := true}) h.1.q_active fun _ => rfl).mono
          fun q' hq' => ⟨?_,hq'.active⟩
        exact ⟨hq'.same.ids,hq'.same.selected,hq'.same.q_active,hq'.same.next_id,hq'.same.started⟩
    refine hinv (hopen.bind_pure fun q' hq' => ?_)
    exact ⟨(h.1.same hq'.1).same ⟨rfl,rfl,rfl,rfl,rfl⟩,fun _ => hq'.2⟩
  | refused =>
    exact hinv ((trk_close_within (q := {q with t := {q.t with error := true}}) h.1.q_active).mono
      fun q' hq' => h.closed hq'.of_handle)
  | error => exact hinv (.pure ⟨h.1.same ⟨rfl,rfl,rfl,rfl,rfl⟩,h.2⟩)
  | complete =>
    dsimp only [step]
    split
    · exact hinv (.pure h)
    · exact hinv ((trk_close_within (q := {q with t := {q.t with stopped := false}})
        h.1.q_active).mono fun q' hq' => h.closed hq'.of_handle)
  | stop => exact hinv ((stop_within h.1.q_active).mono fun q' hq' => h.closed hq')
  | add url => exact hedit (filter_close_on_list_within h.1.selected fun _ => rfl)
  | addmany urls => exact hedit (filter_close_on_list_within h.1.selected fun _ => rfl)
  | next_list_add_cur => exact hedit (next_list_add_cur_within h.1.q_active)
  | remove pos => exact hedit (remove_within h.1.q_active pos)
  | clear => exact hedit (clear_within h.1.selected)
  | sort order => exact hedit (sort_within h.1.selected order)
  | filter shown =>
    exact hedit ((get_within h.1.selected).bind_pure fun _ _ => ⟨⟨rfl,rfl,rfl,rfl,rfl⟩,rfl,rfl⟩)
  | setts s => exact hedit (.pure ⟨⟨rfl,rfl,rfl,rfl,rfl⟩,rfl,rfl⟩)
  | auto_stop =>
    refine hedit (.pure ?_)
    rw [auto_stop]
    split <;> exact ⟨⟨rfl,rfl,rfl,rfl,rfl⟩,rfl,rfl⟩
  | auto_stop_expired =>
    refine hedit (.pure ?_)
    split <;> exact ⟨⟨rfl,rfl,rfl,rfl,rfl⟩,rfl,rfl⟩

/-! ## Every run -/

/-- The lists before the file of index `i` is loaded. -/
structure Loading (q : Queue U) (i : Nat) : Prop where
  started : q.started = none
  state : q.t.state = .NONE
  nodup : q.ids.Nodup
  fresh : ∀ list ∈ q.ids, list < q.next_id
  length : q.ids.length = max i 1

omit [DecidableEq U] in
theorem Loading.inv {q : Queue U} {i : Nat} (h : Loading q i) :
    Inv { q with
      q_active := if q.q_active ≥ q.queues.length then 0 else q.q_active
      selected := if q.selected ≥ q.queues.length then 0 else q.selected } := by
  have hlt : ∀ k, (if k ≥ q.queues.length then 0 else k) < q.ids.length := by
    intro k
    have hlen := h.length
    rw [ids_length] at hlen ⊢
    split <;> omega
  refine ⟨⟨hlt _,hlt _,h.nodup,h.fresh,?_,?_⟩,fun hne => absurd h.state hne⟩
  · intro list hl
    cases h.started.symm.trans hl
  · intro list hl
    cases h.started.symm.trans hl

omit [DecidableEq U] in
theorem Loading.add_list {q : Queue U} {i : Nat} (h : Loading q i) :
    Loading (if i ≠ 0 then q.add_list else q) (i + 1) := by
  have hlen := h.length
  split
  · next hi =>
    refine ⟨h.started,h.state,nodup_add_list h.nodup h.fresh,fresh_add_list h.fresh,?_⟩
    rw [length_add_list]
    omega
  · next hi => exact ⟨h.started,h.state,h.nodup,h.fresh,by omega⟩

omit [DecidableEq U] in
theorem load_lists_within {q : Queue U} {i : Nat} (h : Loading q i)
    (files : List (Option (List (Entry U)))) :
    Within (fun q' => ∃ j, Loading q' j) (q.load_lists i files) := by
  induction files generalizing q i with
  | nil => exact ⟨i,h⟩
  | cons f files ih =>
    cases f with
    | none => exact ⟨i,h⟩
    | some file =>
      have hadd := h.add_list
      have hi : i < (if i ≠ 0 then q.add_list else q).ids.length := by
        have := hadd.length
        omega
      refine (on_list_within (f := PhiolaQueue.load file) hi fun _ => rfl).bind fun q' he => ?_
      refine ih ⟨?_,?_,?_,?_,?_⟩
      · exact he.same.started.trans hadd.started
      · exact (congrArg TrackHandle.state he.t).trans hadd.state
      · rw [he.same.ids]; exact hadd.nodup
      · rw [he.same.ids,he.same.next_id]; exact hadd.fresh
      · rw [he.same.ids]; exact hadd.length

omit [DecidableEq U] in
theorem load_within (list_active list_curpos : Nat) (setts : Setts)
    (files : List (Option (List (Entry U)))) :
    Within Inv ((new list_active list_curpos setts : Queue U).load files) := by
  have h : Loading (new list_active list_curpos setts : Queue U) 0 :=
    ⟨rfl,rfl,List.nodup_singleton 0,fun _ hl => List.mem_singleton.mp hl ▸ Nat.zero_lt_one,rfl⟩
  exact (load_lists_within h files).bind_pure fun q' ⟨j,hj⟩ => hj.inv

/-- In every run in which lists are closed behind the one that is played from, `q_active` denotes
the list that the last track was started from, and no action goes out of the bounds of `queues`. -/
theorem active_list_kept {list_active list_curpos : Nat} {setts : Setts}
    {files : List (Option (List (Entry U)))} {q₀ q : Queue U} {as : List (Act U)}
    (hload : (new list_active list_curpos setts).load files = .ok q₀)
    (has : Machine.AllSteps after (fun q a => Existing q a ∧ ClosedBehind q a) q₀ as)
    (hrun : Machine.run after q₀ as = some q) :
    q.Denotes ∧ ∀ a, Existing q a → q.step a ≠ .error .index := by
  have h₀ : Inv q₀ := (load_within list_active list_curpos setts files).of_ok hload
  have hinv : Inv q := Machine.guarded_invariant
    (fun s a s' hs hc ha => (step_within hs hc.1).of_ok (after_eq_some.mp ha) hc.2) has hrun h₀
  refine ⟨hinv.1.denotes,fun a he hfault => ?_⟩
  exact (step_within hinv he).of_error hfault rfl

end Runs

/-! ## Three lists of one entry -/

def no_setts : Setts := ⟨false,false,false,false,false,false⟩

def three_new : Queue Nat := new 0 0 no_setts

/-- The list files -/
def three_files : List (Option (List (Entry Nat))) := [some [.new 10],some [.new 20],some [.new 30]]

def three : Queue Nat :=
  (three_new.load three_files).toOption.getD three_new

/-- The third list is closed while a track of the second one plays, and a new list is played. -/
def behind : List (Act Nat) :=
  [.switch_list 1,.play 0,.opened,.switch_list 2,.close_current_list,.order_next 0,.new_list,
    .switch_list 2,.add 40,.play 0,.opened,.complete,.posted 0,.switch_list 0]

theorem active_list_kept_behind :
    let q := (Machine.run after three behind).getD three
    q.Denotes ∧ ∀ a, Existing q a → q.step a ≠ .error .index := by
  have hload : (new 0 0 no_setts).load three_files = .ok three := by
    decide +kernel
  have hclear : Machine.AllSteps after (fun q a => Existing q a ∧ ClosedBehind q a) three behind :=
    by decide +kernel
  exact active_list_kept hload hclear (Machine.run_eq_getD (by decide +kernel))

/-- The first list is closed while a track of the second one plays. -/
def before : List (Act Nat) :=
  [.switch_list 1,.play 0,.opened,.switch_list 0,.close_current_list]

/-- The first list is closed while a track of the last one plays. -/
def before_last : List (Act Nat) :=
  [.switch_list 2,.play 0,.opened,.switch_list 0,.close_current_list]

theorem active_list_lost :
    three_new.load three_files = .ok three ∧
      (Machine.AllSteps after Existing three before ∧
        ∃ q, Machine.run after three before = some q ∧ ¬q.Denotes) ∧
      Machine.AllSteps after Existing three before_last ∧
        ∃ q, Machine.run after three before_last = some q ∧
          q.step (.order_next 0) = .error .index :=
  ⟨by decide +kernel,⟨by decide +kernel,_,Machine.run_eq_getD (d := three) (by decide +kernel),
    by decide +kernel⟩,by decide +kernel,_,
    Machine.run_eq_getD (d := three) (by decide +kernel),by decide +kernel⟩

end Phiola.Android.Queue
