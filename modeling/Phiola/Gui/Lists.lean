import Phiola.Framework.Machine
import Phiola.Gui.Filter
import Mathlib.Data.List.InsertIdx
import Mathlib.Data.List.Nodup

/-!
# The lists and tabs of the desktop window

The actions of the window run one after another in the core thread. Creating and destroying a
queue calls the window back, so a part of the bookkeeping runs in the middle of an action. The
rows and the scroll position of the view are left out: nothing below reads them.
-/

namespace Phiola.GuiLists

open ListFilter (Entry utf8_len)
open MetaStore (Name)

structure Queue where
  id : Nat
  name : Name
  -- no field of the source: the list that the entries of a filtered queue were taken from
  filtered_from : Option Nat
deriving DecidableEq, Repr

structure World where
  qm_lists : List Queue
  selected : Nat
  -- the number of queues created so far: a queue is named by its number
  created : Nat
  index : Nat → List Entry
  lists : List Nat
  playlist_counter : Nat
  q_selected : Nat
  q_convert : Option Nat
  q_filtered : Option Nat
  filter_len : Nat
  tab_conversion : Bool
  filtering : Bool
  user_conf_dir : Name
  -- the main window
  tabs : List Name
  tab : Nat

def find_queue (w : World) (q : Nat) : Option Queue := w.qm_lists.find? fun x => x.id == q

/-- The list that the entries of a queue belong to. -/
def owner (w : World) (q : Nat) : Nat := ((find_queue w q).bind Queue.filtered_from).getD q

def unfiltered (w : World) : List Queue := w.qm_lists.filter fun q => q.filtered_from.isNone

def list_id_visible (w : World) : Nat := w.q_filtered.getD w.q_selected

/-! ## Creating and destroying a queue -/

def qm_add (w : World) (q : Queue) : World := {w with qm_lists := w.qm_lists ++ [q]}

def qm_rm (w : World) (q : Nat) : World :=
  {w with qm_lists := w.qm_lists.eraseP fun x => x.id == q}

def qm_default (w : World) : Option Nat := w.qm_lists[w.selected]?.map Queue.id

-- the queue is destroyed while `q_filtered` still names it, so its `q_on_change` does nothing
def list_filter_close (w : World) : World :=
  match w.q_filtered with
  | none => w
  | some q => {qm_rm w q with q_filtered := none}

def list_select (w : World) (i : Nat) : Option World :=
  let w := list_filter_close w
  match w.lists[i]? with
  | none => none
  | some li => some {w with tab_conversion := w.q_convert == some li, q_selected := li}

def wmain_list_add (w : World) (name : Name) (i : Nat) : World :=
  {w with tabs := w.tabs ++ [name], tab := i}

def wmain_list_delete (w : World) (i : Nat) : Option World :=
  let new_index := if i = 0 then 0 else i - 1
  match list_select w new_index with
  | none => none
  | some w => some {w with tabs := w.tabs.eraseIdx i, tab := new_index}

def list_created (w : World) (q : Nat) : Option World :=
  let w := {w with lists := w.lists ++ [q], q_selected := q}
  match find_queue w q with
  | none => none
  | some conf => some (wmain_list_add w conf.name (w.lists.length - 1))

def list_deleted (w : World) (q : Nat) : Option World :=
  match w.lists.findIdx? fun x => x == q with
  | none => none
  | some i => wmain_list_delete {w with lists := w.lists.eraseIdx i} i

/-- The low byte of the flags of `q_on_change`. -/
inductive Change where
  | a | r | c | n | d
deriving DecidableEq, Repr

def q_on_change (w : World) (q : Nat) (flags : Change) : Option World :=
  if w.q_filtered = some q then some w
  else match flags with
    | .a | .r | .c => some w
    | .n => if w.filtering then some w else list_created w q
    | .d => list_deleted w q

def q_create (w : World) (name : Name) : Option World :=
  let q := w.created
  q_on_change (qm_add {w with created := w.created + 1} ⟨q,name,none⟩) q .n

def q_destroy (w : World) (q : Nat) : Option World := q_on_change (qm_rm w q) q .d

/-! ## The entries -/

def q_insert (w : World) (q pos : Nat) (e : Entry) : Option World :=
  q_on_change {w with index := Function.update w.index q ((w.index q).insertIdx pos e)} q .a

def q_add (w : World) (q : Option Nat) (e : Entry) : Option World :=
  match (match q with | some q => some q | none => qm_default w) with
  | none => none
  | some q => q_insert w q (w.index q).length e

def q_remove_at (w : World) (q pos : Nat) : Option World :=
  q_on_change {w with index := Function.update w.index q ((w.index q).eraseIdx pos)} q .r

def q_clear (w : World) (q : Nat) : Option World :=
  q_on_change {w with index := Function.update w.index q []} q .c

/-! ## The actions -/

-- "Playlist %u"
def playlist_name (n : Nat) : Name := "Playlist ".toList ++ (Nat.repr n).toList

def list_new (w : World) : Option World :=
  let w := list_filter_close w
  let w := {w with playlist_counter := w.playlist_counter + 1, tab_conversion := false}
  q_create w (playlist_name w.playlist_counter)

def list_close (w : World) : Option World :=
  let w := list_filter_close w
  let play_lists_n := w.lists.length - w.q_convert.toList.length
  if w.q_convert = some w.q_selected then
    match q_destroy w w.q_selected with
    | none => none
    | some w => some {w with q_convert := none}
  else if play_lists_n > 1 then q_destroy w w.q_selected
  else q_clear w w.q_selected

def list_add (w : World) (fn : Name) : Option World :=
  if w.q_filtered.isSome then some w else q_add w (some w.q_selected) ⟨fn,[]⟩

def list_clear (w : World) : Option World :=
  if w.q_filtered.isSome then some w else q_clear w w.q_selected

def list_remove (w : World) (indexes : List Nat) : Option World :=
  if w.q_filtered.isSome then some w
  else indexes.reverse.foldlM (fun w i =>
    if i < (w.index w.q_selected).length then q_remove_at w w.q_selected i else none) w

def list_next_playback (w : World) : Option Nat :=
  let i := w.lists.findIdx (fun x => x == w.q_selected) + 1
  match w.lists[i]? with
  | none => none
  | some li => if w.q_convert = some li then w.lists[i + 1]? else some li

def list_add_to_next (w : World) (indexes : List Nat) : Option World :=
  match list_next_playback w with
  | none => some w
  | some q_target =>
    let q_src := list_id_visible w
    indexes.foldlM (fun w i =>
      match (w.index q_src)[i]? with
      | none => none
      | some qe => q_add w (some q_target) ⟨qe.name,[]⟩) w

-- AUTO_LIST_FN: "list%u.m3uz"
def auto_list_fn (dir : Name) (i : Nat) : Name :=
  dir ++ "list".toList ++ (Nat.repr i).toList ++ ".m3uz".toList

/-- The files 1 to `n` exist, file `n + 1` does not. -/
def lists_load (w : World) (n : Nat) : Option World :=
  (List.range' 1 n).foldlM (fun w i =>
    let fn := auto_list_fn w.user_conf_dir i
    if i > 1 then
      match list_new w with
      | none => none
      | some w' => q_add w' (some w.created) ⟨fn,[]⟩
    else q_add w none ⟨fn,[]⟩) w

def convert_add_each (q : Nat) (w : World) (indexes : List Nat) : Option World :=
  indexes.foldlM (fun w i =>
    match (w.index q)[i]? with
    | none => none
    | some iqe => q_add w w.q_convert ⟨iqe.name,iqe.tags⟩) w

def convert_add (w : World) (indexes : List Nat) : Option World :=
  let q := list_id_visible w
  match w.q_convert with
  | some _ => convert_add_each q w indexes
  | none =>
    match q_create {w with tab_conversion := true} "Conversion".toList with
    | none => none
    | some w' => convert_add_each q {w' with q_convert := some w.created} indexes

section Text

-- `find s search` is `ffstr_ifindstr(s, search) >= 0`
variable (find : Name → Name → Bool)

def q_filter (w : World) (q : Nat) (filter : Name) (flags : Nat) : World :=
  let qf := w.created
  let entries := ListFilter.q_filter find (w.index q) filter flags
  qm_add {w with created := w.created + 1, index := Function.update w.index qf entries}
    ⟨qf,"Filter".toList,some (owner w q)⟩

def list_filter (w : World) (filter : Name) : Option World :=
  if w.tab_conversion then some w
  else
    let len := utf8_len filter
    if filter ≠ [] then
      let q :=
        match w.q_filtered with
        | some f => if len > w.filter_len then f else w.q_selected
        | none => w.q_selected
      let qf := w.created
      let w := {w with filtering := true}
      let w := q_filter find w q filter 0
      let w := {w with filtering := false}
      match (match w.q_filtered with | some f => q_destroy w f | none => some w) with
      | none => none
      | some w => some {w with q_filtered := some qf, filter_len := len}
    else some {list_filter_close w with filter_len := len}

inductive Action where
  | list_new
  | list_close
  /-- The user switches to another tab. -/
  | list_select (i : Nat)
  | list_filter (filter : Name)
  | convert_add (indexes : List Nat)
  | list_add (fn : Name)
  | list_add_to_next (indexes : List Nat)
  | list_remove (indexes : List Nat)
  | list_clear
  | lists_load (n : Nat)
  /-- An expansion track adds and removes entries of a queue. -/
  | qe_insert (q pos : Nat) (e : Entry)
  | qe_remove (q pos : Nat)
deriving DecidableEq, Repr

def step (w : World) : Action → Option World
  | .list_new => list_new w
  | .list_close => list_close w
  | .list_select i => list_select {w with tab := i} i
  | .list_filter filter => list_filter find w filter
  | .convert_add indexes => convert_add w indexes
  | .list_add fn => list_add w fn
  | .list_add_to_next indexes => list_add_to_next w indexes
  | .list_remove indexes => list_remove w indexes
  | .list_clear => list_clear w
  | .lists_load n => lists_load w n
  | .qe_insert q pos e => if (find_queue w q).isSome then q_insert w q pos e else none
  | .qe_remove q pos => if (find_queue w q).isSome then q_remove_at w q pos else none

end Text

-- `gui_start`
def init (user_conf_dir : Name) (entries : List Entry) : World where
  qm_lists := [⟨0,playlist_name 1,none⟩]
  selected := 0
  created := 1
  index := fun _ => entries
  lists := [0]
  playlist_counter := 1
  q_selected := 0
  q_convert := none
  q_filtered := none
  filter_len := 0
  tab_conversion := false
  filtering := false
  user_conf_dir := user_conf_dir
  tabs := [playlist_name 1]
  tab := 0

/-! ## The bookkeeping -/

/-- The fields of `gd` describe the selected list. -/
structure Kept (w : World) : Prop where
  lists : w.lists = (unfiltered w).map Queue.id
  created : w.lists.Pairwise (· < ·)
  selected : w.q_selected ∈ w.lists
  conversion : w.tab_conversion = true ↔ w.q_convert = some w.q_selected
  filtered : ∀ f, w.q_filtered = some f →
    ∃ q ∈ w.qm_lists, q.id = f ∧ q.filtered_from = some w.q_selected
  unconverted : w.tab_conversion = true → w.q_filtered = none
  shown : w.lists[w.tab]? = some (owner w (list_id_visible w))

/-- The first `convert_add` is made while no filter is open. -/
def Clear (w : World) : Action → Prop
  | .convert_add _ => w.q_convert = none → w.q_filtered = none
  | _ => True

instance (w : World) : ∀ a, Decidable (Clear w a)
  | .convert_add _ => inferInstanceAs (Decidable (_ → _))
  | .list_new | .list_close | .list_select _ | .list_filter _ | .list_add _ | .list_add_to_next _
  | .list_remove _ | .list_clear | .lists_load _ | .qe_insert _ _ _ | .qe_remove _ _ =>
    inferInstanceAs (Decidable True)

structure Inv (w : World) : Prop where
  lists : w.lists = (unfiltered w).map Queue.id
  tabs : w.tabs = (unfiltered w).map Queue.name
  ids : (w.qm_lists.map Queue.id).Pairwise (· < ·)
  fresh : ∀ q ∈ w.qm_lists, q.id < w.created
  tab : w.lists[w.tab]? = some w.q_selected
  conversion : w.tab_conversion = (w.q_convert == some w.q_selected)
  convert : ∀ q, w.q_convert = some q → q ∈ w.lists
  playable : w.q_convert.toList.length < w.lists.length
  filtered : ∀ f, w.q_filtered = some f →
    ∃ q ∈ w.qm_lists, q.id = f ∧ q.filtered_from = some w.q_selected
  unconverted : w.tab_conversion = true → w.q_filtered = none
  only : ∀ q ∈ w.qm_lists, q.filtered_from ≠ none → w.q_filtered = some q.id
  idle : w.filtering = false

/-- No filter is open. -/
structure Closed (w : World) : Prop where
  lists : w.lists = w.qm_lists.map Queue.id
  tabs : w.tabs = w.qm_lists.map Queue.name
  plain : ∀ q ∈ w.qm_lists, q.filtered_from = none
  ids : w.lists.Pairwise (· < ·)
  fresh : ∀ q ∈ w.lists, q < w.created
  tab : w.lists[w.tab]? = some w.q_selected
  conversion : w.tab_conversion = (w.q_convert == some w.q_selected)
  convert : ∀ q, w.q_convert = some q → q ∈ w.lists
  playable : w.q_convert.toList.length < w.lists.length
  unfiltered : w.q_filtered = none
  idle : w.filtering = false

theorem mem_find {w : World} (hids : (w.qm_lists.map Queue.id).Pairwise (· < ·)) {q : Queue}
    (hq : q ∈ w.qm_lists) : find_queue w q.id = some q := by
  unfold find_queue
  induction h : w.qm_lists generalizing w with
  | nil => simp [h] at hq
  | cons x xs ih =>
    rw [h] at hq hids
    obtain ⟨hx,hxs⟩ := List.pairwise_cons.mp hids
    rcases List.mem_cons.mp hq with rfl | hq
    · simp
    · have hne : x.id ≠ q.id := Nat.ne_of_lt (hx q.id (List.mem_map_of_mem hq))
      rw [List.find?_cons_of_neg (by simpa using hne)]
      exact ih (w := {w with qm_lists := xs}) hxs hq rfl

theorem unfiltered_eq {w : World} (h : ∀ q ∈ w.qm_lists, q.filtered_from = none) :
    unfiltered w = w.qm_lists :=
  List.filter_eq_self.mpr fun q hq => by simp [h q hq]

theorem Closed.inv {w : World} (h : Closed w) : Inv w where
  lists := by rw [unfiltered_eq h.plain]; exact h.lists
  tabs := by rw [unfiltered_eq h.plain]; exact h.tabs
  ids := h.lists ▸ h.ids
  fresh q hq := h.fresh q.id (h.lists ▸ List.mem_map_of_mem hq)
  tab := h.tab
  conversion := h.conversion
  convert := h.convert
  playable := h.playable
  filtered f hf := by rw [h.unfiltered] at hf; cases hf
  unconverted _ := h.unfiltered
  only q hq hne := absurd (h.plain q hq) hne
  idle := h.idle

theorem Inv.selected_mem {w : World} (h : Inv w) : w.q_selected ∈ w.lists :=
  List.mem_of_getElem? h.tab

theorem owner_of_mem {w : World} (h : Inv w) {q : Queue} (hq : q ∈ w.qm_lists) :
    owner w q.id = q.filtered_from.getD q.id := by
  rw [owner,mem_find h.ids hq]
  rfl

theorem owner_listed {w : World} (h : Inv w) {q : Nat} (hq : q ∈ w.lists) : owner w q = q := by
  rw [h.lists] at hq
  obtain ⟨x,hx,rfl⟩ := List.mem_map.mp hq
  obtain ⟨hmem,hnone⟩ := List.mem_filter.mp hx
  rw [owner_of_mem h hmem,Option.isNone_iff_eq_none.mp hnone]
  rfl

theorem Inv.kept {w : World} (h : Inv w) : Kept w where
  lists := h.lists
  created := by
    rw [h.lists]
    exact h.ids.sublist (List.Sublist.map Queue.id List.filter_sublist)
  selected := h.selected_mem
  conversion := by rw [h.conversion,beq_iff_eq]
  filtered := h.filtered
  unconverted := h.unconverted
  shown := by
    rw [h.tab,Option.some.injEq,list_id_visible]
    cases hf : w.q_filtered with
    | none => exact (owner_listed h h.selected_mem).symm
    | some f =>
      obtain ⟨q,hq,rfl,hfrom⟩ := h.filtered f hf
      rw [Option.getD_some,owner_of_mem h hq,hfrom]
      rfl

/-! ## Closing the filter -/

theorem eraseP_filtered {l : List Queue} {f : Nat} (hids : (l.map Queue.id).Pairwise (· < ·))
    (honly : ∀ q ∈ l, q.filtered_from ≠ none → q.id = f)
    (hf : ∃ q ∈ l, q.id = f ∧ q.filtered_from ≠ none) :
    l.eraseP (fun x => x.id == f) = l.filter fun q => q.filtered_from.isNone := by
  induction l with
  | nil => rfl
  | cons x xs ih =>
    obtain ⟨hx,hxs⟩ := List.pairwise_cons.mp hids
    have hrest : ∀ q ∈ xs, x.id ≠ q.id := fun q hq => Nat.ne_of_lt (hx q.id (List.mem_map_of_mem hq))
    obtain ⟨q,hq,rfl,hfrom⟩ := hf
    rcases List.mem_cons.mp hq with rfl | hq
    · have hplain : ∀ p ∈ xs, p.filtered_from = none := by
        intro p hp
        by_contra hne
        exact hrest p hp (honly p (List.mem_cons_of_mem q hp) hne).symm
      rw [List.eraseP_cons_of_pos (by simp),List.filter_cons_of_neg (by simpa using hfrom)]
      exact (List.filter_eq_self.mpr fun p hp => by simp [hplain p hp]).symm
    · have hnone : x.filtered_from = none := by
        by_contra hne
        exact hrest q hq (honly x List.mem_cons_self hne)
      rw [List.eraseP_cons_of_neg (by simpa using hrest q hq),
        List.filter_cons_of_pos (by simp [hnone])]
      exact congrArg _ (ih hxs (fun p hp => honly p (List.mem_cons_of_mem x hp)) ⟨q,hq,rfl,hfrom⟩)

theorem list_filter_close_eq {w : World} (h : Inv w) :
    list_filter_close w = {w with qm_lists := unfiltered w, q_filtered := none} := by
  unfold list_filter_close
  cases hf : w.q_filtered with
  | none =>
    have hplain : ∀ q ∈ w.qm_lists, q.filtered_from = none := by
      intro q hq
      by_contra hne
      exact absurd (h.only q hq hne) (by simp [hf])
    change w = {w with qm_lists := unfiltered w, q_filtered := none}
    rw [unfiltered_eq hplain,← hf]
  | some f =>
    obtain ⟨q,hq,hid,hfrom⟩ := h.filtered f hf
    have hrm := eraseP_filtered h.ids (fun p hp hne => by simpa [hf,eq_comm] using h.only p hp hne)
      ⟨q,hq,hid,by simp [hfrom]⟩
    simp only [qm_rm,hrm,unfiltered]

theorem Inv.closed {w : World} (h : Inv w) : Closed (list_filter_close w) := by
  rw [list_filter_close_eq h]
  exact {
    lists := h.lists
    tabs := h.tabs
    plain := fun q hq => Option.isNone_iff_eq_none.mp (List.mem_filter.mp hq).2
    ids := h.kept.created
    fresh := by
      intro q hq
      rw [h.lists] at hq
      obtain ⟨x,hx,rfl⟩ := List.mem_map.mp hq
      exact h.fresh x (List.mem_filter.mp hx).1
    tab := h.tab
    conversion := h.conversion
    convert := h.convert
    playable := h.playable
    unfiltered := rfl
    idle := h.idle}

theorem Closed.close {w : World} (h : Closed w) : list_filter_close w = w := by
  rw [list_filter_close,h.unfiltered]

/-! ## Switching, creating and destroying -/

theorem list_select_eq {w : World} (h : w.q_filtered = none) {i li : Nat}
    (hi : w.lists[i]? = some li) : list_select w i =
      some {w with tab_conversion := w.q_convert == some li, q_selected := li} := by
  simp [list_select,list_filter_close,h,hi]

theorem Closed.list_select {w : World} (h : Closed w) {i li : Nat}
    (hi : w.lists[i]? = some li) : Closed {w with
      tab := i, tab_conversion := w.q_convert == some li, q_selected := li} :=
  {h with tab := hi, conversion := rfl}

theorem q_create_eq {w : World} (hf : w.q_filtered = none) (hi : w.filtering = false)
    (hfresh : ∀ q ∈ w.qm_lists, q.id < w.created) (name : Name) :
    q_create w name = some {w with
      qm_lists := w.qm_lists ++ [⟨w.created,name,none⟩], created := w.created + 1,
      lists := w.lists ++ [w.created], q_selected := w.created,
      tabs := w.tabs ++ [name], tab := w.lists.length} := by
  have hnew : w.qm_lists.find? (fun x => x.id == w.created) = none :=
    List.find?_eq_none.mpr fun q hq => by simpa using Nat.ne_of_lt (hfresh q hq)
  simp [q_create,q_on_change,list_created,find_queue,wmain_list_add,qm_add,hf,hi,hnew]

/-- The new queue is selected in a tab of its own. It may be about to become `q_convert`. -/
theorem Closed.created {w : World} (h : Closed w) {name : Name} {conv : Option Nat} {t : Bool}
    (hconv : conv = some w.created ∨ conv = w.q_convert)
    (hnone : conv = some w.created → w.q_convert = none)
    (ht : t = (conv == some w.created)) : Closed {w with
      qm_lists := w.qm_lists ++ [⟨w.created,name,none⟩], created := w.created + 1,
      lists := w.lists ++ [w.created], q_selected := w.created, q_convert := conv,
      tab_conversion := t, tabs := w.tabs ++ [name], tab := w.lists.length} where
  lists := by simp [h.lists]
  tabs := by simp [h.tabs]
  plain q hq := by
    rcases List.mem_append.mp hq with hq | hq
    · exact h.plain q hq
    · rw [List.mem_singleton.mp hq]
  ids := List.pairwise_append.mpr ⟨h.ids,List.pairwise_singleton _ _,fun a ha b hb => by
    rw [List.mem_singleton.mp hb]
    exact h.fresh a ha⟩
  fresh q hq := by
    rcases List.mem_append.mp hq with hq | hq
    · exact Nat.lt_succ_of_lt (h.fresh q hq)
    · rw [List.mem_singleton.mp hq]
      exact Nat.lt_succ_self w.created
  tab := by simp
  conversion := ht
  convert q hq := by
    rcases hconv with hc | hc
    · rw [hc,Option.some.injEq] at hq
      simp [hq]
    · exact List.mem_append_left _ (h.convert q (hc ▸ hq))
  playable := by
    have hlen := h.playable
    rcases hconv with hc | hc
    · have hzero : w.q_convert.toList.length = 0 := by rw [hnone hc]; rfl
      simp only [hc,Option.toList_some,List.length_singleton,List.length_append]
      omega
    · simp only [hc,List.length_append,List.length_singleton]
      omega
  unfiltered := h.unfiltered
  idle := h.idle

theorem Closed.convert_old {w : World} (h : Closed w) : w.q_convert ≠ some w.created :=
  fun hc => Nat.lt_irrefl w.created (h.fresh w.created (h.convert w.created hc))

theorem list_new_eq {w : World} (h : Inv w) : ∃ w', list_new w = some w' ∧ Closed w' := by
  have hc := h.closed
  generalize hcw : list_filter_close w = c at hc
  have hcreate := q_create_eq
    (w := {c with playlist_counter := c.playlist_counter + 1, tab_conversion := false})
    hc.unfiltered hc.idle hc.inv.fresh (playlist_name (c.playlist_counter + 1))
  have hnext : Closed {c with playlist_counter := c.playlist_counter + 1} := {hc with}
  refine ⟨_,by simp only [list_new,hcw]; exact hcreate,
    hnext.created (Or.inr rfl) (fun h => absurd h hc.convert_old) ?_⟩
  exact (beq_eq_false_iff_ne.mpr hc.convert_old).symm

theorem Closed.nodup {w : World} (h : Closed w) : w.lists.Nodup := h.ids.imp Nat.ne_of_lt

/-- The tab before the removed one is selected, or the one after it. -/
theorem Closed.neighbour {w : World} (h : Closed w) {i q : Nat} (hq : w.lists[i]? = some q)
    (hlen : 1 < w.lists.length) : ∃ li, (w.lists.eraseIdx i)[i - 1]? = some li ∧ li ≠ q := by
  obtain ⟨hi,hget⟩ := List.getElem?_eq_some_iff.mp hq
  have hlt : i - 1 < (w.lists.eraseIdx i).length := by
    rw [List.length_eraseIdx_of_lt hi]
    omega
  refine ⟨_,List.getElem?_eq_getElem hlt,fun heq => ?_⟩
  rw [← hget,List.getElem_eraseIdx] at heq
  split at heq
  case isTrue hbefore => exact absurd (h.nodup.getElem_inj_iff.mp heq) (by omega)
  case isFalse hafter => exact absurd (h.nodup.getElem_inj_iff.mp heq) (by omega)

theorem Closed.position {w : World} (h : Closed w) {q : Nat} (hq : q ∈ w.lists) :
    ∃ i, w.lists.findIdx? (fun x => x == q) = some i ∧ w.lists[i]? = some q ∧
      w.qm_lists.eraseP (fun x => x.id == q) = w.qm_lists.eraseIdx i := by
  obtain ⟨i,hi⟩ : ∃ i, w.lists.findIdx? (fun x => x == q) = some i :=
    Option.isSome_iff_exists.mp (by rw [List.findIdx?_isSome]; simpa using hq)
  obtain ⟨hlt,heq,-⟩ := List.findIdx?_eq_some_iff_getElem.mp hi
  refine ⟨i,hi,List.getElem?_eq_some_iff.mpr ⟨hlt,by simpa using heq⟩,?_⟩
  rw [h.lists,List.findIdx?_map] at hi
  rw [List.eraseP_eq_eraseIdx]
  have hi' : w.qm_lists.findIdx? (fun x => x.id == q) = some i := hi
  rw [hi']

theorem q_destroy_eq {w : World} (h : Closed w) {q : Nat} (hq : q ∈ w.lists)
    (hlen : 1 < w.lists.length) : ∃ i li, w.lists[i]? = some q ∧
      (w.lists.eraseIdx i)[i - 1]? = some li ∧ li ≠ q ∧
      q_destroy w q = some {w with
        qm_lists := w.qm_lists.eraseIdx i, lists := w.lists.eraseIdx i,
        tab_conversion := w.q_convert == some li, q_selected := li,
        tabs := w.tabs.eraseIdx i, tab := i - 1} := by
  obtain ⟨i,hi,hget,herase⟩ := h.position hq
  obtain ⟨li,hli,hne⟩ := h.neighbour hget hlen
  have hnew : (if i = 0 then 0 else i - 1) = i - 1 := by split <;> omega
  refine ⟨i,li,hget,hli,hne,?_⟩
  simp only [q_destroy,q_on_change,qm_rm,h.unfiltered,herase,list_deleted,hi,wmain_list_delete,hnew]
  rw [if_neg (by simp),list_select_eq rfl hli]

/-- One tab fewer. The queue may be `q_convert`, which is reset after its tab is gone. -/
theorem Closed.destroyed {w : World} (h : Closed w) {i q li : Nat} {conv : Option Nat}
    (hq : w.lists[i]? = some q) (hli : (w.lists.eraseIdx i)[i - 1]? = some li) (hne : li ≠ q)
    (hconv : conv = none ∧ w.q_convert = some q ∨ conv = w.q_convert ∧ w.q_convert ≠ some q)
    (hlen : conv.toList.length + 1 < w.lists.length) : Closed {w with
      qm_lists := w.qm_lists.eraseIdx i, lists := w.lists.eraseIdx i, q_convert := conv,
      tab_conversion := w.q_convert == some li, q_selected := li, tabs := w.tabs.eraseIdx i,
      tab := i - 1} where
  lists := by rw [h.lists,List.eraseIdx_map]
  tabs := by rw [h.tabs,List.eraseIdx_map]
  plain p hp := h.plain p (List.mem_of_mem_eraseIdx hp)
  ids := h.ids.eraseIdx i
  fresh p hp := h.fresh p (List.mem_of_mem_eraseIdx hp)
  tab := hli
  conversion := by
    rcases hconv with ⟨rfl,hc⟩ | ⟨rfl,-⟩
    · simpa [hc] using hne.symm
    · rfl
  convert p hp := by
    rcases hconv with ⟨rfl,-⟩ | ⟨rfl,hc⟩
    · cases hp
    · obtain ⟨k,hk,hget⟩ := List.getElem_of_mem (h.convert p hp)
      rw [List.mem_eraseIdx_iff_getElem]
      refine ⟨k,hk,?_,hget⟩
      rintro rfl
      obtain ⟨hi,hq⟩ := List.getElem?_eq_some_iff.mp hq
      exact hc (by rw [hp,← hget,hq])
  playable := by
    have hi := (List.getElem?_eq_some_iff.mp hq).1
    change conv.toList.length < (w.lists.eraseIdx i).length
    rw [List.length_eraseIdx_of_lt hi]
    omega
  unfiltered := h.unfiltered
  idle := h.idle

theorem Closed.index {w : World} (h : Closed w) (f : Nat → List Entry) :
    Closed {w with index := f} := {h with}

theorem Inv.index {w : World} (h : Inv w) (f : Nat → List Entry) : Inv {w with index := f} :=
  {h with}

theorem q_clear_eq {w : World} {q : Nat} (h : w.q_filtered = none) :
    q_clear w q = some {w with index := Function.update w.index q []} := by
  simp [q_clear,q_on_change,h]

theorem list_close_eq {w : World} (h : Inv w) : ∃ w', list_close w = some w' ∧ Closed w' := by
  have hc := h.closed
  simp only [list_close]
  generalize list_filter_close w = c at hc
  have hmem := hc.inv.selected_mem
  by_cases hconv : c.q_convert = some c.q_selected
  · have hlen := hc.playable
    rw [hconv] at hlen
    obtain ⟨i,li,hq,hli,hne,heq⟩ := q_destroy_eq hc hmem hlen
    refine ⟨_,by rw [if_pos hconv,heq],?_⟩
    exact hc.destroyed hq hli hne (Or.inl ⟨rfl,hconv⟩) hlen
  · rw [if_neg hconv]
    by_cases hmany : c.lists.length - c.q_convert.toList.length > 1
    · obtain ⟨i,li,hq,hli,hne,heq⟩ := q_destroy_eq hc hmem (by omega)
      refine ⟨_,by rw [if_pos hmany,heq],?_⟩
      exact hc.destroyed hq hli hne (Or.inr ⟨rfl,hconv⟩) (by omega)
    · exact ⟨_,by rw [if_neg hmany,q_clear_eq hc.unfiltered],hc.index _⟩

theorem list_select_kept {w : World} (h : Inv w) {i : Nat} (hi : i < w.lists.length) :
    ∃ w', list_select {w with tab := i} i = some w' ∧ Closed w' := by
  have hclose : list_filter_close {w with tab := i} = {list_filter_close w with tab := i} := by
    cases hf : w.q_filtered with
    | none => simp [list_filter_close,hf]
    | some f => simp [list_filter_close,hf,qm_rm]
  have hlists : (list_filter_close w).lists = w.lists := by rw [list_filter_close_eq h]
  have hc := h.closed
  rw [list_select,hclose]
  generalize list_filter_close w = c at hc hlists
  have hget : c.lists[i]? = some (w.lists[i]) := by rw [hlists,List.getElem?_eq_getElem hi]
  refine ⟨_,?_,hc.list_select hget⟩
  simp only [hget]

/-! ## Filtering -/

section Text

variable {find : Name → Name → Bool}

/-- The list that is open for a text is the selected one, filtered before or not. -/
theorem owner_visible {w : World} (h : Inv w) : owner w (list_id_visible w) = w.q_selected :=
  (Option.some.inj (h.tab.symm.trans h.kept.shown)).symm

theorem owner_filter_source {w : World} (h : Inv w) (len : Nat) :
    owner w (match w.q_filtered with
      | some f => if len > w.filter_len then f else w.q_selected
      | none => w.q_selected) = w.q_selected := by
  have hv := owner_visible h
  cases hf : w.q_filtered with
  | none => exact owner_listed h h.selected_mem
  | some f =>
    rw [list_id_visible,hf] at hv
    dsimp only
    split
    · exact hv
    · exact owner_listed h h.selected_mem

theorem list_filter_eq {w : World} (h : Inv w) (htab : w.tab_conversion = false) {text : Name}
    (htext : text ≠ []) : list_filter find w text = some {list_filter_close w with
      qm_lists := (list_filter_close w).qm_lists ++
        [⟨w.created,"Filter".toList,some w.q_selected⟩]
      created := w.created + 1
      index := Function.update w.index w.created (ListFilter.q_filter find
        (w.index (match w.q_filtered with
          | some f => if utf8_len text > w.filter_len then f else w.q_selected
          | none => w.q_selected)) text 0)
      q_filtered := some w.created
      filter_len := utf8_len text} := by
  have howner := owner_filter_source h (utf8_len text)
  have hsame (q : Nat) : owner {w with filtering := true} q = owner w q := rfl
  rw [list_filter,if_neg (by simp [htab])]
  dsimp only [q_filter,qm_add]
  rw [if_pos htext,hsame,howner]
  have hidle := h.idle
  cases hf : w.q_filtered with
  | none => simp [list_filter_close,hf,← hidle]
  | some f =>
    obtain ⟨q,hq,hid,-⟩ := h.filtered f hf
    have herase := List.eraseP_append_left (p := fun x : Queue => x.id == f) (a := q)
      (by simpa using hid) [⟨w.created,"Filter".toList,some w.q_selected⟩] hq
    simp only [list_filter_close,hf,q_destroy,q_on_change,qm_rm,herase]
    simp [← hidle]

theorem Closed.opened {w : World} (h : Closed w) (htab : w.tab_conversion = false) {name : Name}
    {index : Nat → List Entry} {len : Nat} : Inv {w with
      qm_lists := w.qm_lists ++ [⟨w.created,name,some w.q_selected⟩]
      created := w.created + 1
      index := index
      q_filtered := some w.created
      filter_len := len} where
  lists := by simpa [GuiLists.unfiltered,List.filter_append] using h.inv.lists
  tabs := by simpa [GuiLists.unfiltered,List.filter_append] using h.inv.tabs
  ids := by
    rw [List.map_append]
    refine List.pairwise_append.mpr ⟨h.inv.ids,List.pairwise_singleton _ _,fun a ha b hb => ?_⟩
    rw [List.mem_singleton.mp hb]
    exact h.fresh a (h.lists ▸ ha)
  fresh q hq := by
    rcases List.mem_append.mp hq with hq | hq
    · exact Nat.lt_succ_of_lt (h.inv.fresh q hq)
    · rw [List.mem_singleton.mp hq]
      exact Nat.lt_succ_self w.created
  tab := h.tab
  conversion := h.conversion
  convert := h.convert
  playable := h.playable
  filtered f hf := ⟨_,List.mem_append_right _ List.mem_cons_self,Option.some.inj hf,rfl⟩
  unconverted ht := absurd ht (by simp [htab])
  only q hq hne := by
    rcases List.mem_append.mp hq with hq | hq
    · exact absurd (h.plain q hq) hne
    · rw [List.mem_singleton.mp hq]
  idle := h.idle

theorem list_filter_kept {w : World} (h : Inv w) (text : Name) :
    ∃ w', list_filter find w text = some w' ∧ Inv w' := by
  by_cases htab : w.tab_conversion = true
  · exact ⟨w,if_pos htab,h⟩
  by_cases htext : text = []
  · refine ⟨{list_filter_close w with filter_len := utf8_len text},?_,?_⟩
    · simp [list_filter,htab,htext]
    · exact (show Closed {list_filter_close w with filter_len := utf8_len text} from
        {h.closed with}).inv
  · have htab := Bool.eq_false_iff.mpr htab
    refine ⟨_,list_filter_eq h htab htext,?_⟩
    have hc := h.closed
    have hsame : (list_filter_close w).created = w.created ∧
        (list_filter_close w).q_selected = w.q_selected ∧
        (list_filter_close w).tab_conversion = w.tab_conversion := by
      rw [list_filter_close_eq h]
      exact ⟨rfl,rfl,rfl⟩
    rw [← hsame.1,← hsame.2.1]
    exact hc.opened (hsame.2.2.trans htab)

end Text

/-! ## The entries of a queue -/

theorem q_insert_eq (w : World) (q pos : Nat) (e : Entry) : q_insert w q pos e =
    some {w with index := Function.update w.index q ((w.index q).insertIdx pos e)} := by
  simp [q_insert,q_on_change]

theorem q_remove_at_eq (w : World) (q pos : Nat) : q_remove_at w q pos =
    some {w with index := Function.update w.index q ((w.index q).eraseIdx pos)} := by
  simp [q_remove_at,q_on_change]

theorem q_add_kept {w w' : World} {q : Option Nat} {e : Entry} (h : Inv w)
    (hs : q_add w q e = some w') : Inv w' := by
  unfold q_add at hs
  split at hs
  · cases hs
  · rw [q_insert_eq] at hs
    obtain rfl := Option.some.inj hs
    exact h.index _

theorem foldlM_kept {α : Type*} {f : World → α → Option World}
    (hf : ∀ w a w', Inv w → f w a = some w' → Inv w') {w w' : World} {as : List α}
    (h : Inv w) (hs : as.foldlM f w = some w') : Inv w' :=
  Machine.run_invariant hf hs h

theorem convert_add_each_kept {w w' : World} {q : Nat} {indexes : List Nat} (h : Inv w)
    (hs : convert_add_each q w indexes = some w') : Inv w' := by
  refine foldlM_kept (fun w i w' h hs => ?_) h hs
  split at hs
  · cases hs
  · exact q_add_kept h hs

theorem convert_add_kept {w w' : World} {indexes : List Nat} (h : Inv w)
    (hclear : w.q_convert = none → w.q_filtered = none)
    (hs : convert_add w indexes = some w') : Inv w' := by
  dsimp only [convert_add] at hs
  split at hs
  case h_1 => exact convert_add_each_kept h hs
  case h_2 hconv =>
    have hf := hclear hconv
    have hc : Closed w := by
      have hclosed := h.closed
      rwa [list_filter_close,hf] at hclosed
    have hcreate := q_create_eq (w := {w with tab_conversion := true})
      hf h.idle h.fresh "Conversion".toList
    rw [hcreate] at hs
    refine convert_add_each_kept (Closed.inv ?_) hs
    exact hc.created (Or.inl rfl) (fun _ => hconv) (by simp)

theorem lists_load_kept {w w' : World} {n : Nat} (h : Inv w) (hs : lists_load w n = some w') :
    Inv w' := by
  refine foldlM_kept (fun w i w' h hs => ?_) h hs
  dsimp only at hs
  split at hs
  · obtain ⟨m,hm,hmc⟩ := list_new_eq h
    rw [hm] at hs
    exact q_add_kept hmc.inv hs
  · exact q_add_kept h hs

theorem list_add_to_next_kept {w w' : World} {indexes : List Nat} (h : Inv w)
    (hs : list_add_to_next w indexes = some w') : Inv w' := by
  dsimp only [list_add_to_next] at hs
  split at hs
  · exact Option.some.inj hs ▸ h
  · refine foldlM_kept (fun w i w' h hs => ?_) h hs
    split at hs
    · cases hs
    · exact q_add_kept h hs

theorem list_remove_kept {w w' : World} {indexes : List Nat} (h : Inv w)
    (hs : list_remove w indexes = some w') : Inv w' := by
  rw [list_remove] at hs
  split at hs
  · exact Option.some.inj hs ▸ h
  · refine foldlM_kept (fun w i w' h hs => ?_) h hs
    split at hs
    · rw [q_remove_at_eq] at hs
      exact Option.some.inj hs ▸ h.index _
    · cases hs

section Text

variable {find : Name → Name → Bool}

theorem step_kept {w w' : World} {a : Action} (h : Inv w) (hclear : Clear w a)
    (hs : step find w a = some w') : Inv w' := by
  cases a with
  | list_new =>
    obtain ⟨m,hm,hmc⟩ := list_new_eq h
    exact Option.some.inj (hm.symm.trans hs) ▸ hmc.inv
  | list_close =>
    obtain ⟨m,hm,hmc⟩ := list_close_eq h
    exact Option.some.inj (hm.symm.trans hs) ▸ hmc.inv
  | list_select i =>
    have hlists : (list_filter_close {w with tab := i}).lists = w.lists := by
      rw [list_filter_close]
      split <;> rfl
    have hi : i < w.lists.length := by
      by_contra hlen
      dsimp only [step,list_select] at hs
      rw [hlists,List.getElem?_eq_none (by omega)] at hs
      cases hs
    obtain ⟨m,hm,hmc⟩ := list_select_kept h hi
    exact Option.some.inj (hm.symm.trans hs) ▸ hmc.inv
  | list_filter text =>
    obtain ⟨m,hm,hmi⟩ := list_filter_kept h text
    exact Option.some.inj (hm.symm.trans hs) ▸ hmi
  | convert_add indexes => exact convert_add_kept h hclear hs
  | list_add fn =>
    rw [step,list_add] at hs
    split at hs
    · exact Option.some.inj hs ▸ h
    · exact q_add_kept h hs
  | list_add_to_next indexes => exact list_add_to_next_kept h hs
  | list_remove indexes => exact list_remove_kept h hs
  | list_clear =>
    rw [step,list_clear] at hs
    split at hs
    · exact Option.some.inj hs ▸ h
    · next hnone =>
      rw [q_clear_eq (by simpa using hnone)] at hs
      exact Option.some.inj hs ▸ h.index _
  | lists_load n => exact lists_load_kept h hs
  | qe_insert q pos e =>
    rw [step,q_insert_eq] at hs
    split at hs
    · exact Option.some.inj hs ▸ h.index _
    · cases hs
  | qe_remove q pos =>
    rw [step,q_remove_at_eq] at hs
    split at hs
    · exact Option.some.inj hs ▸ h.index _
    · cases hs

theorem init_closed (user_conf_dir : Name) (entries : List Entry) :
    Closed (init user_conf_dir entries) where
  lists := rfl
  tabs := rfl
  plain q hq := by rw [List.mem_singleton.mp hq]
  ids := List.pairwise_singleton _ _
  fresh q hq := by rw [List.mem_singleton.mp hq]; exact Nat.one_pos
  tab := rfl
  conversion := rfl
  convert q hq := by cases hq
  playable := Nat.one_pos
  unfiltered := rfl
  idle := rfl

theorem q_create_frame {w w' : World} {name : Name} (hs : q_create w name = some w') :
    w'.tab_conversion = w.tab_conversion ∧ w'.q_filtered = w.q_filtered := by
  simp only [q_create,q_on_change,list_created] at hs
  split at hs
  · exact Option.some.inj hs ▸ ⟨rfl,rfl⟩
  split at hs
  · exact Option.some.inj hs ▸ ⟨rfl,rfl⟩
  split at hs
  · cases hs
  · exact Option.some.inj hs ▸ ⟨rfl,rfl⟩

theorem convert_add_each_frame {w w' : World} {q : Nat} {indexes : List Nat}
    (hs : convert_add_each q w indexes = some w') :
    w'.tab_conversion = w.tab_conversion ∧ w'.q_filtered = w.q_filtered := by
  refine Machine.run_invariant (I := fun m => m.tab_conversion = w.tab_conversion ∧
    m.q_filtered = w.q_filtered) (fun m i m' hm hs => ?_) hs ⟨rfl,rfl⟩
  split at hs
  · cases hs
  unfold q_add at hs
  split at hs
  · cases hs
  · rw [q_insert_eq] at hs
    exact Option.some.inj hs ▸ hm

/-- The conversion tab is entered without closing the filter of the tab before it. -/
theorem convert_add_unclear {w w' : World} {indexes : List Nat}
    (hs : convert_add w indexes = some w') (h : Kept w') (hconv : w.q_convert = none) :
    w.q_filtered = none := by
  dsimp only [convert_add] at hs
  rw [hconv] at hs
  dsimp only at hs
  split at hs
  · cases hs
  · next m hm =>
    have hcreate := q_create_frame hm
    have heach := convert_add_each_frame hs
    rw [← hcreate.2]
    exact heach.2.symm.trans (h.unconverted (heach.1.trans hcreate.1))

/-- The bookkeeping is right after every action of a run exactly when the conversion queue is
never created with a filter open. -/
theorem lists_kept_iff {user_conf_dir : Name} {entries : List Entry} {as : List Action}
    {w : World} (hrun : Machine.run (step find) (init user_conf_dir entries) as = some w) :
    (∀ bs, bs <+: as → ∀ m,
      Machine.run (step find) (init user_conf_dir entries) bs = some m → Kept m) ↔
    Machine.AllSteps (step find) Clear (init user_conf_dir entries) as := by
  constructor
  · intro h
    refine Machine.AllSteps.of_prefixes (fun w a w' _ hk hs => ?_) hrun h
    cases a with
    | convert_add indexes => exact convert_add_unclear hs hk
    | _ => trivial
  · rintro h bs ⟨cs,rfl⟩ m hm
    refine (Machine.guarded_invariant (fun w a w' hi hc hs => step_kept hi hc hs) h.of_append hm
      (init_closed user_conf_dir entries).inv).kept

end Text

/-- A second list, a filter that is closed by switching back, and a conversion of a filtered
list whose filter is closed first. -/
def session : List Action :=
  [.list_new,.list_add "b.ogg".toList,.list_filter "b".toList,.list_select 0,
    .list_filter "a".toList,.list_filter [],.convert_add [0],.list_close,.list_close]

theorem lists_kept_session :
    (Machine.run (step fun s t => t.isPrefixOf s) (init [] [⟨"a.ogg".toList,[]⟩]) session).isSome = true ∧
      ∀ bs, bs <+: session → ∀ m, Machine.run (step fun s t => t.isPrefixOf s)
        (init [] [⟨"a.ogg".toList,[]⟩]) bs = some m → Kept m := by
  have hrun : (Machine.run (step fun s t => t.isPrefixOf s)
    (init [] [⟨"a.ogg".toList,[]⟩]) session).isSome = true := by decide +kernel
  obtain ⟨w,hw⟩ := Option.isSome_iff_exists.mp hrun
  exact ⟨hrun,(lists_kept_iff hw).mpr (by decide +kernel)⟩

/-- The filter of the first tab stays open in the conversion tab. -/
def left_open : World :=
  (Machine.run (step fun s t => t.isPrefixOf s) (init [] [⟨"a.ogg".toList,[]⟩])
    [.list_filter "a".toList,.convert_add [0]]).getD (init [] [])

theorem lists_not_kept :
    Machine.run (step fun s t => t.isPrefixOf s) (init [] [⟨"a.ogg".toList,[]⟩])
        [.list_filter "a".toList,.convert_add [0]] = some left_open ∧
      left_open.tab_conversion = true ∧ left_open.q_filtered = some 1 ∧
      left_open.q_selected = 2 ∧ owner left_open (list_id_visible left_open) = 0 ∧
      ¬Kept left_open := by
  have htab : left_open.tab_conversion = true := by decide +kernel
  have hfiltered : left_open.q_filtered = some 1 := by decide +kernel
  refine ⟨Machine.run_eq_getD (by decide +kernel),htab,hfiltered,by decide +kernel,
    by decide +kernel,fun h => ?_⟩
  rw [h.unconverted htab] at hfiltered
  cases hfiltered

end Phiola.GuiLists
