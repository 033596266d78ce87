import Mathlib.Algebra.Ring.Nat
import Phiola.Format.Meta

/-!
# Filtering a list while the text is typed

The desktop list and the Android queue show the entries that match a text. When the text gets
longer, the next filter is built from the filtered list, not from the whole one.
-/

namespace Phiola.ListFilter

open MetaStore (Name Pairs listed)

structure Entry where
  name : Name
  tags : Pairs
deriving DecidableEq, Repr

section Model

-- `find s search` is `ffstr_ifindstr(s, search) >= 0`
variable (find : Name → Name → Bool)

/-- Flag 1 stands for the name of the file, 2 for the tags. -/
def qe_filter (e : Entry) (filter : Name) (flags : Nat) : Bool :=
  (flags % 2 = 1 && find e.name filter) ||
    (flags / 2 % 2 = 1 && (listed ⟨false,false⟩ e.tags).any fun p => find p.2 filter)

def q_filter (q : List Entry) (filter : Name) (flags : Nat) : List Entry :=
  let flags := if flags = 0 then 3 else flags
  q.filter fun e => qe_filter find e filter flags

/-! ## The desktop -/

def utf8_len (s : Name) : Nat := (s.map Char.utf8Size).sum

/-- The fields of `gd` of one list. -/
structure Gui where
  tab_conversion : Bool
  q_selected : List Entry
  q_filtered : Option (List Entry)
  filter_len : Nat

def list_id_visible (gd : Gui) : List Entry :=
  match gd.q_filtered with
  | some q => q
  | none => gd.q_selected

def list_filter_close (gd : Gui) : Gui := {gd with q_filtered := none}

def list_filter (gd : Gui) (filter : Name) : Gui :=
  if gd.tab_conversion then gd
  else
    let len := utf8_len filter
    let gd :=
      if filter ≠ [] then
        let q :=
          match gd.q_filtered with
          | some q => if len > gd.filter_len then q else gd.q_selected
          | none => gd.q_selected
        {gd with q_filtered := some (q_filter find q filter 0)}
      else list_filter_close gd
    {gd with filter_len := len}

/-! ## Android -/

/-- `String.length()` -/
def utf16_len (s : Name) : Nat := (s.map fun c => if c.toNat < 2 ^ 16 then 1 else 2).sum

/-- The fields of `Queue` for one list. -/
structure Queue where
  selected : List Entry
  q_filtered : Option (List Entry)
  filter_len : Nat

def Queue.q_visible (q : Queue) : List Entry :=
  match q.q_filtered with
  | some qf => qf
  | none => q.selected

def QUFILTER_URL : Nat := 1
def QUFILTER_META : Nat := 2

def Queue.filter (q : Queue) (filter : Name) : Queue :=
  let newqf :=
    if filter ≠ [] then
      let qcur :=
        match q.q_filtered with
        | some qf => if utf16_len filter > q.filter_len then qf else q.selected
        | none => q.selected
      some (q_filter find qcur filter (QUFILTER_URL + QUFILTER_META))
    else none
  {q with q_filtered := newqf, filter_len := utf16_len filter}

/-! ## Filtering from scratch -/

/-- The entries that match a text. -/
def matching (l : List Entry) (text : Name) : List Entry :=
  if text = [] then l else l.filter fun e => qe_filter find e text 3

/-- The texts, from the last one back, whose results the last result is built from. -/
def reused (len : Name → Nat) : List Name → List Name
  | [] => []
  | [t] => if t = [] then [] else [t]
  | t :: t' :: hist =>
    if t = [] then []
    else if t' ≠ [] ∧ len t' < len t then t :: reused len (t' :: hist)
    else [t]

/-- Each entry that matches the last text matches all texts whose results are reused for it. -/
def Narrows (len : Name → Nat) (l : List Entry) (texts : List Name) : Prop :=
  ∀ e ∈ l, qe_filter find e (texts.getLastD []) 3 = true →
    ∀ t ∈ reused len texts.reverse, qe_filter find e t 3 = true

/-! ## What is shown -/

variable {find}

/-- What both filters do with the filtered list and the length of its text. -/
def narrow (find : Name → Name → Bool) (len : Name → Nat) (l : List Entry)
    (v : Option (List Entry) × Nat) (text : Name) : Option (List Entry) × Nat :=
  (if text ≠ [] then
      some (q_filter find (match v.1 with
        | some q => if len text > v.2 then q else l
        | none => l) text 3)
    else none,len text)

theorem list_filter_eq (gd : Gui) (h : gd.tab_conversion = false) (text : Name) :
    list_filter find gd text = {gd with
      q_filtered := (narrow find utf8_len gd.q_selected (gd.q_filtered,gd.filter_len) text).1
      filter_len := utf8_len text} := by
  unfold list_filter narrow
  rw [if_neg (by simp [h])]
  dsimp only
  split
  · rfl
  · rfl

theorem queue_filter_eq (q : Queue) (text : Name) :
    q.filter find text = {q with
      q_filtered := (narrow find utf16_len q.selected (q.q_filtered,q.filter_len) text).1
      filter_len := utf16_len text} := rfl

theorem list_filter_foldl (l : List Entry) (v : Option (List Entry) × Nat) (texts : List Name) :
    texts.foldl (list_filter find) ⟨false,l,v.1,v.2⟩ =
      ⟨false,l,(texts.foldl (narrow find utf8_len l) v).1,
        (texts.foldl (narrow find utf8_len l) v).2⟩ := by
  induction texts generalizing v with
  | nil => rfl
  | cons t texts ih =>
    rw [List.foldl_cons,List.foldl_cons,list_filter_eq _ rfl]
    exact ih (narrow find utf8_len l v t)

theorem queue_filter_foldl (l : List Entry) (v : Option (List Entry) × Nat) (texts : List Name) :
    texts.foldl (Queue.filter find) ⟨l,v.1,v.2⟩ =
      ⟨l,(texts.foldl (narrow find utf16_len l) v).1,
        (texts.foldl (narrow find utf16_len l) v).2⟩ := by
  induction texts generalizing v with
  | nil => rfl
  | cons t texts ih =>
    rw [List.foldl_cons,List.foldl_cons,queue_filter_eq]
    exact ih (narrow find utf16_len l v t)

variable {len : Name → Nat} {l : List Entry}

/-- The filtered list is what matches all texts whose results are reused. -/
theorem narrow_reused (texts : List Name) :
    texts.foldl (narrow find len l) (none,0) =
      match texts.reverse with
      | [] => (none,0)
      | t :: _ => (if t = [] then none
          else some (l.filter fun e => (reused len texts.reverse).all fun t => qe_filter find e t 3),
        len t) := by
  induction hr : texts.reverse generalizing texts with
  | nil =>
    obtain rfl := List.reverse_eq_nil_iff.mp hr
    rfl
  | cons t hist ih =>
    have htexts : texts = hist.reverse ++ [t] := by
      rw [← List.reverse_reverse texts,hr,List.reverse_cons]
    rw [htexts,List.foldl_append,List.foldl_cons,List.foldl_nil,
      ih hist.reverse (List.reverse_reverse hist)]
    by_cases ht : t = []
    · simp [narrow,ht]
    cases hist with
    | nil => simp [narrow,ht,q_filter,reused]
    | cons t' hist =>
      by_cases ht' : t' = []
      · simp [narrow,ht,ht',q_filter,reused]
      by_cases hlen : len t' < len t
      · simp only [narrow,ht,ht',hlen,q_filter,reused,ne_eq,not_false_eq_true,if_true,if_false,
          and_self,List.filter_filter,List.all_cons]
        rfl
      · simp [narrow,ht,ht',hlen,q_filter,reused]

theorem filter_eq_filter_iff {p q : Entry → Bool} (hpq : ∀ e, q e = true → p e = true) :
    l.filter q = l.filter p ↔ ∀ e ∈ l, p e = true → q e = true := by
  constructor
  · intro h e he hp
    have hmem : e ∈ l.filter q := by
      rw [h]
      exact List.mem_filter.mpr ⟨he,hp⟩
    exact (List.mem_filter.mp hmem).2
  · intro h
    refine List.filter_congr fun e he => ?_
    rw [Bool.eq_iff_iff]
    exact ⟨hpq e,h e he⟩

theorem head_mem_reused {t : Name} {hist : List Name} (ht : t ≠ []) :
    t ∈ reused len (t :: hist) := by
  cases hist with
  | nil => simp [reused,ht]
  | cons t' hist =>
    rw [reused,if_neg ht]
    split <;> simp

theorem shown_iff (texts : List Name) :
    ((texts.foldl (narrow find len l) (none,0)).1.getD l = matching find l (texts.getLastD [])) ↔
      Narrows find len l texts := by
  rw [narrow_reused]
  cases hr : texts.reverse with
  | nil =>
    obtain rfl := List.reverse_eq_nil_iff.mp hr
    simp [matching,Narrows,reused]
  | cons t hist =>
    have hlast : texts.getLastD [] = t := by
      rw [← List.reverse_reverse texts,hr,List.reverse_cons]
      simp
    unfold Narrows
    rw [hlast,hr]
    by_cases ht : t = []
    · have hnone : reused len (t :: hist) = [] := by
        cases hist <;> simp [reused,ht]
      rw [hnone,matching,if_pos ht]
      simp [ht]
    · simp only [ht,if_false,Option.getD_some,matching]
      rw [filter_eq_filter_iff fun e hall => List.all_eq_true.mp hall t (head_mem_reused ht)]
      simp only [List.all_eq_true]

theorem list_id_visible_eq (gd : Gui) : list_id_visible gd = gd.q_filtered.getD gd.q_selected := by
  unfold list_id_visible
  cases gd.q_filtered <;> rfl

theorem q_visible_eq (q : Queue) : q.q_visible = q.q_filtered.getD q.selected := by
  unfold Queue.q_visible
  cases q.q_filtered <;> rfl

/-- For every list and every sequence of texts, each front end shows what matches the last text if
and only if every entry that matches it matches the texts whose results are reused. -/
theorem filter_exact (find : Name → Name → Bool) (l : List Entry) (texts : List Name) :
    (list_id_visible (texts.foldl (list_filter find) ⟨false,l,none,0⟩) =
        matching find l (texts.getLastD []) ↔ Narrows find utf8_len l texts) ∧
      ((texts.foldl (Queue.filter find) ⟨l,none,0⟩).q_visible =
        matching find l (texts.getLastD []) ↔ Narrows find utf16_len l texts) := by
  constructor
  · rw [list_id_visible_eq,list_filter_foldl l (none,0) texts]
    exact shown_iff texts
  · rw [q_visible_eq,queue_filter_foldl l (none,0) texts]
    exact shown_iff texts

end Model

/-- A search that minds the case. -/
def contains (s search : Name) : Bool := s.tails.any search.isPrefixOf

/-- The one entry does not match the first text; the second one is longer, and matches it. -/
theorem filter_stale :
    list_id_visible (["b".toList,"xyz".toList].foldl (list_filter contains)
        ⟨false,[⟨"xyz".toList,[]⟩],none,0⟩) ≠ matching contains [⟨"xyz".toList,[]⟩] "xyz".toList ∧
      (["b".toList,"xyz".toList].foldl (Queue.filter contains) ⟨[⟨"xyz".toList,[]⟩],none,0⟩).q_visible ≠
        matching contains [⟨"xyz".toList,[]⟩] "xyz".toList := by
  decide +kernel

end Phiola.ListFilter
