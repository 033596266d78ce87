import Mathlib.Data.List.SplitBy
import Phiola.List.Reader

/-!
# The reader of pls lists

Each value of a pls list carries the number of its track, and the entry of a track is inserted
when the number changes. The number is a local variable of the call that reads a chunk, the fields
of the entry are kept in the filter.
-/

namespace Phiola.Playlist

namespace Pls

inductive Field
  | url (val : Name)
  | title (val : Name)
  | duration (sec : Int)
deriving DecidableEq, Repr

/-- What the parser returns, but for its warnings and its requests for more data. -/
structure Value where
  idx : UInt32
  field : Field
deriving DecidableEq, Repr

/-- `(ffuint)-1`: no value of this call was read. It is a number that a track may have, too. -/
def NO_IDX : UInt32 := 0xFFFFFFFF

/-- Where `pls_process()` is: not called, in a chunk (`first` is `PHI_FFIRST`), or behind the line
break that it adds, which can end one line. -/
inductive Phase
  | waiting
  | body (first : Bool)
  | fin (ended : Bool)
  | finished
  | closed
deriving DecidableEq, Repr

/-- `struct pls_r` with the local `trk_idx`. The entry and the memory are as in the reader of m3u
lists; values lie in the chunk. -/
structure PlsR where
  m : M3u
  trk_idx : UInt32
  removed : Bool
  phase : Phase
  read : List Value
deriving DecidableEq, Repr

/-- `pls_open()` -/
def PlsR.init : PlsR := ⟨.init,NO_IDX,false,.waiting,[]⟩

/-- The entry that `pls_add()` inserts. -/
def pls_entry (L : PathLib) (c : Conf) (url title : Option Name) (duration : Int) : Entry where
  name := url.map (plist_fullname L c.ifile)
  length_msec := if duration = -1 then 0 else (duration * 1000 % 4294967296).toNat
  tags :=
    if c.tags = [] then (if title = some [] then [] else [("title",title)])
    else c.tags.map fun x => (x.1,some x.2)
  transient := c.tags = [] ∧ title ≠ some []

def pls_add (L : PathLib) (c : Conf) (p : PlsR) : PlsR :=
  { p with
    m := pls_entry_free {p.m with inserted := p.m.inserted ++
      [pls_entry L c (p.m.fetch p.m.url) (p.m.fetch p.m.title) p.m.duration]}
    removed := true }

/-- `commit`: the entry is complete. -/
def commit (L : PathLib) (c : Conf) (p : PlsR) : PlsR :=
  if p.m.url.str ≠ some [] then pls_add L c p else p

def set_field (m : M3u) : Field → M3u
  | .url val => {m with url := m.set2 m.url false val}
  | .title val => {m with title := m.set2 m.title false val}
  | .duration sec => {m with duration := sec}

/-- The value is of another track than the one before it in this call. -/
def PlsR.changed (p : PlsR) (idx : UInt32) : Bool :=
  p.trk_idx ≠ NO_IDX ∧ idx ≠ p.trk_idx

def on_value (L : PathLib) (c : Conf) (p : PlsR) (v : Value) (next : Phase) (fin : Bool) : PlsR :=
  let changed := p.changed v.idx
  let p := {p with trk_idx := v.idx, read := p.read ++ [v]}
  let p := if changed then commit L c p else p
  if changed && fin then {p with phase := .finished}
  else {p with m := set_field p.m v.field, phase := next}

/-- `PLSREAD_MORE` while the filters before have more data. -/
def copy_fields (m : M3u) : M3u :=
  let u := copyself m m.next m.url
  let t := copyself m (m.next + u.2) m.title
  {m with url := u.1, title := t.1, next := m.next + u.2 + t.2, chunk := m.chunk + 1}

inductive Act
  | chunk (first : Bool)
  | value (v : Value)
  | warn
  | more
  | close
deriving DecidableEq, Repr

def step (L : PathLib) (c : Conf) (p : PlsR) : Act → Option PlsR
  | .chunk first =>
    if p.phase = .waiting then some {p with trk_idx := NO_IDX, phase := .body first} else none
  | .value v =>
    match p.phase with
    | .body first => some (on_value L c p v (.body first) false)
    | .fin false => some (on_value L c p v (.fin true) true)
    | _ => none
  | .warn =>
    match p.phase with
    | .body _ => some p
    | .fin false => some {p with phase := .fin true}
    | _ => none
  | .more =>
    match p.phase with
    | .body false => some {p with m := copy_fields p.m, phase := .waiting}
    | .body true => some {p with phase := .fin false}
    | .fin _ => some {commit L c p with phase := .finished}
    | _ => none
  | .close =>
    if p.phase = .waiting ∨ p.phase = .finished then
      some {p with m := pls_entry_free p.m, phase := .closed}
    else none

/-! ## What a list says -/

/-- The maximal runs of values of one track. -/
def runs (vs : List Value) : List (List Value) := vs.splitBy fun a b => decide (a.idx = b.idx)

/-- The fields of one run. -/
structure Fields where
  url : Name
  title : Name
  duration : Int

def Fields.set (x : Fields) : Field → Fields
  | .url val => {x with url := val}
  | .title val => {x with title := val}
  | .duration sec => {x with duration := sec}

def fields (run : List Value) : Fields := run.foldl (fun x v => x.set v.field) ⟨[],[],-1⟩

/-- The entry of a run that has a `FileN` value. -/
def run_entry (L : PathLib) (c : Conf) (run : List Value) : Option Entry :=
  let x := fields run
  if x.url = [] then none else some (pls_entry L c (some x.url) (some x.title) x.duration)

def listed (L : PathLib) (c : Conf) (vs : List Value) : List Entry :=
  (runs vs).filterMap (run_entry L c)

/-- The run that a list ends with. -/
def last_run (vs : List Value) : List Value := (runs vs).getLastD []

/-- A field is not set again after it was copied. -/
def NotCopied (m : M3u) : Field → Prop
  | .url _ => m.url.cap = 0
  | .title _ => m.title.cap = 0
  | .duration _ => True

instance (m : M3u) : ∀ x, Decidable (NotCopied m x)
  | .url _ => inferInstanceAs (Decidable (m.url.cap = 0))
  | .title _ => inferInstanceAs (Decidable (m.title.cap = 0))
  | .duration _ => inferInstanceAs (Decidable True)

/-- The value is not the name of a file. -/
def Field.NoFile : Field → Prop
  | .url val => val = []
  | .title _ | .duration _ => True

instance : ∀ x : Field, Decidable x.NoFile
  | .url val => inferInstanceAs (Decidable (val = []))
  | .title _ | .duration _ => inferInstanceAs (Decidable True)

/-- No chunk begins with a new track and none follows the track `4294967295`, no track but the last one lacks
its `FileN`, the last line does not begin a track with a `FileN` if no line break ends it, and no field of a
track is set again after a cut. -/
def InTrack (p : PlsR) : Act → Prop
  | .value v =>
    if p.changed v.idx then
      (fields (last_run p.read)).url ≠ [] ∧ (p.phase = .fin false → v.field.NoFile)
    else (p.trk_idx = NO_IDX → ∀ u ∈ p.read.getLast?, u.idx = v.idx) ∧ NotCopied p.m v.field
  | _ => True

instance (p : PlsR) : ∀ a, Decidable (InTrack p a)
  | .value v =>
    inferInstanceAs (Decidable (if p.changed v.idx then
        (fields (last_run p.read)).url ≠ [] ∧ (p.phase = .fin false → v.field.NoFile)
      else (p.trk_idx = NO_IDX → ∀ u ∈ p.read.getLast?, u.idx = v.idx) ∧ NotCopied p.m v.field))
  | .chunk _ | .warn | .more | .close => inferInstanceAs (Decidable True)

/-! ## The runs of a longer list -/

theorem splitBy_snoc_same {α : Type} {r : α → α → Bool} {l : List α} {a u : α}
    (hu : l.getLast? = some u) (hr : r u a = true) :
    (l ++ [a]).splitBy r = (l.splitBy r).dropLast ++ [(l.splitBy r).getLastD [] ++ [a]] := by
  have hl : l ≠ [] := fun h => by rw [h] at hu; cases hu
  obtain ⟨init,last,hsplit⟩ : ∃ init last, l.splitBy r = init ++ [last] :=
    ⟨_,_,(List.dropLast_append_getLast (List.splitBy_ne_nil.mpr hl)).symm⟩
  obtain ⟨hflat,hnil,hchain,hbounds⟩ := List.splitBy_eq_iff.mp hsplit
  have hlast : last ≠ [] := fun h => hnil (by simp [h])
  have hend : last.getLast? = some u := by
    rw [hflat,List.flatten_append,List.flatten_singleton,
      List.getLast?_append_of_ne_nil _ hlast] at hu
    exact hu
  rw [hsplit,List.dropLast_concat,List.getLastD_concat]
  refine List.splitBy_eq_iff.mpr ⟨?_,?_,?_,?_⟩
  · rw [hflat]
    simp
  · simp only [List.mem_append,List.mem_singleton,not_or] at hnil ⊢
    exact ⟨hnil.1,fun h => by simp at h⟩
  · intro m hm
    rcases List.mem_append.mp hm with hm | hm
    · exact hchain m (List.mem_append_left _ hm)
    · rw [List.mem_singleton.mp hm]
      refine List.isChain_append.mpr ⟨hchain last (by simp),List.isChain_singleton a,?_⟩
      rintro x hx y hy
      obtain rfl := Option.some.inj (hend.symm.trans hx)
      obtain rfl : a = y := Option.some.inj hy
      exact hr
  · obtain ⟨hinit,-,hjoin⟩ := List.isChain_append.mp hbounds
    refine List.isChain_append.mpr ⟨hinit,List.isChain_singleton _,fun x hx y hy => ?_⟩
    obtain ⟨hx',hy',hfalse⟩ := hjoin x hx last rfl
    obtain rfl : last ++ [a] = y := Option.some.inj hy
    refine ⟨hx',by simp,?_⟩
    rw [List.head_append_of_ne_nil hlast]
    exact hfalse

section Listed

variable {L : PathLib} {c : Conf} {vs : List Value} {u v : Value}

/-- The entries of the runs before the last one. -/
def before (L : PathLib) (c : Conf) (vs : List Value) : List Entry :=
  (runs vs).dropLast.filterMap (run_entry L c)

theorem listed_eq (L : PathLib) (c : Conf) (vs : List Value) :
    listed L c vs = before L c vs ++ (run_entry L c (last_run vs)).toList := by
  rcases List.eq_nil_or_concat (runs vs) with hr | ⟨init,last,hr⟩
  · rw [listed,before,last_run,hr]
    rfl
  · rw [List.concat_eq_append] at hr
    rw [listed,before,last_run,hr,List.dropLast_concat,List.getLastD_concat,List.filterMap_append]
    cases h : run_entry L c last <;> simp [h]

theorem runs_snoc_same (hu : vs.getLast? = some u) (hi : u.idx = v.idx) :
    runs (vs ++ [v]) = (runs vs).dropLast ++ [last_run vs ++ [v]] :=
  splitBy_snoc_same hu (decide_eq_true hi)

theorem runs_snoc_new (h : ∀ u ∈ vs.getLast?, u.idx ≠ v.idx) :
    runs (vs ++ [v]) = runs vs ++ [[v]] :=
  List.splitBy_append_cons [] fun u hu => decide_eq_false (h u hu)

theorem before_snoc_same (hu : vs.getLast? = some u) (hi : u.idx = v.idx) :
    before L c (vs ++ [v]) = before L c vs := by
  rw [before,runs_snoc_same hu hi,List.dropLast_concat]
  rfl

theorem last_run_snoc_same (hu : vs.getLast? = some u) (hi : u.idx = v.idx) :
    last_run (vs ++ [v]) = last_run vs ++ [v] := by
  rw [last_run,runs_snoc_same hu hi,List.getLastD_concat]

theorem before_snoc_new (h : ∀ u ∈ vs.getLast?, u.idx ≠ v.idx) :
    before L c (vs ++ [v]) = listed L c vs := by
  rw [before,runs_snoc_new h,List.dropLast_concat]
  rfl

theorem last_run_snoc_new (h : ∀ u ∈ vs.getLast?, u.idx ≠ v.idx) :
    last_run (vs ++ [v]) = [v] := by
  rw [last_run,runs_snoc_new h,List.getLastD_concat]

theorem last_run_snoc (h : ∀ u ∈ vs.getLast?, u.idx = v.idx) :
    last_run (vs ++ [v]) = last_run vs ++ [v] := by
  cases hu : vs.getLast? with
  | some u => exact last_run_snoc_same hu (h u hu)
  | none =>
    obtain rfl := List.getLast?_eq_none_iff.mp hu
    exact last_run_snoc_new fun u hu => nomatch hu

theorem before_snoc (h : ∀ u ∈ vs.getLast?, u.idx = v.idx) :
    before L c (vs ++ [v]) = before L c vs := by
  cases hu : vs.getLast? with
  | some u => exact before_snoc_same hu (h u hu)
  | none =>
    obtain rfl := List.getLast?_eq_none_iff.mp hu
    exact before_snoc_new fun u hu => nomatch hu

theorem fields_snoc (run : List Value) (v : Value) :
    fields (run ++ [v]) = (fields run).set v.field := by
  rw [fields,List.foldl_append]
  rfl

end Listed

/-! ## The invariant -/

section Invariant

variable {L : PathLib} {c : Conf} {m : M3u} {vs : List Value}

/-- The fields are those of the last run, and the entries of the runs before it are inserted. -/
structure Inv (L : PathLib) (c : Conf) (m : M3u) (vs : List Value) : Prop where
  owns : Owns m
  artist : m.artist = .zero
  url : m.url.str = some (fields (last_run vs)).url
  title : m.title.str = some (fields (last_run vs)).title
  duration : m.duration = (fields (last_run vs)).duration ∨
    m.duration = 0 ∧ (fields (last_run vs)).duration = -1
  inserted : m.inserted = before L c vs

theorem pls_init_inv (L : PathLib) (c : Conf) : Inv L c .init [] :=
  ⟨owns_init,rfl,rfl,rfl,.inr ⟨rfl,rfl⟩,rfl⟩

theorem Inv.set_field (h : Inv L c m vs) {v : Value} (hc : NotCopied m v.field)
    (hlast : last_run (vs ++ [v]) = last_run vs ++ [v])
    (hbefore : before L c (vs ++ [v]) = before L c vs) :
    Inv L c (set_field m v.field) (vs ++ [v]) := by
  obtain ⟨idx,field⟩ := v
  have hfields := fields_snoc (last_run vs) ⟨idx,field⟩
  rw [← hlast] at hfields
  cases field with
  | url val =>
    refine ⟨h.owns.set_url false val hc,h.artist,?_,?_,?_,h.inserted.trans hbefore.symm⟩
    · rw [hfields]; rfl
    · rw [hfields]; exact h.title
    · rw [hfields]; exact h.duration
  | title val =>
    refine ⟨h.owns.set_title false hc,h.artist,?_,?_,?_,h.inserted.trans hbefore.symm⟩
    · rw [hfields]; exact h.url
    · rw [hfields]; rfl
    · rw [hfields]; exact h.duration
  | duration sec =>
    refine ⟨h.owns.frame rfl rfl rfl rfl rfl fun _ _ _ => id,h.artist,?_,?_,?_,
      h.inserted.trans hbefore.symm⟩
    · rw [hfields]; exact h.url
    · rw [hfields]; exact h.title
    · rw [hfields]; exact .inl rfl

theorem pls_entry_duration {L : PathLib} {c : Conf} {url title : Option Name} {d e : Int}
    (h : d = e ∨ d = 0 ∧ e = -1) : pls_entry L c url title d = pls_entry L c url title e := by
  rcases h with rfl | ⟨rfl,rfl⟩
  · rfl
  · simp [pls_entry]

/-- What the entry that is inserted leaves. -/
structure Added (L : PathLib) (c : Conf) (m : M3u) (vs : List Value) : Prop where
  owns : Owns m
  inserted : m.inserted = listed L c vs
  fresh : m.artist = .zero ∧ m.url = .zero ∧ m.title = .zero ∧ m.duration = -1

theorem Inv.pls_add {p : PlsR} (h : Inv L c p.m vs) (hurl : (fields (last_run vs)).url ≠ []) :
    Added L c (pls_add L c p).m vs := by
  have hu := h.owns.fetch (mem_fields.mpr (.inl rfl)) h.url
  have ht := h.owns.fetch (mem_fields.mpr (.inr (.inr rfl))) h.title
  have hsame : Owns {p.m with inserted := p.m.inserted ++
      [pls_entry L c (p.m.fetch p.m.url) (p.m.fetch p.m.title) p.m.duration]} :=
    h.owns.frame rfl rfl rfl rfl rfl fun _ _ _ => id
  refine ⟨hsame.free,?_,rfl,rfl,rfl,rfl⟩
  rw [listed_eq,run_entry,if_neg hurl]
  change p.m.inserted ++ [_] = before L c vs ++ [_]
  rw [hu,ht,pls_entry_duration h.duration,h.inserted]

theorem Inv.commit_of_ne {p : PlsR} (h : Inv L c p.m vs)
    (hurl : (fields (last_run vs)).url ≠ []) : commit L c p = Pls.pls_add L c p := by
  rw [commit,if_pos]
  rw [h.url]
  exact fun he => hurl (Option.some.inj he)

theorem Inv.commit {p : PlsR} (h : Inv L c p.m vs) :
    Owns (commit L c p).m ∧ (commit L c p).m.inserted = listed L c vs := by
  by_cases hurl : (fields (last_run vs)).url = []
  · have hnone : run_entry L c (last_run vs) = none := by rw [run_entry,if_pos hurl]
    rw [Pls.commit,if_neg (by rw [h.url,hurl]; simp),listed_eq,hnone]
    exact ⟨h.owns,by simp [h.inserted]⟩
  · rw [h.commit_of_ne hurl]
    exact ⟨(h.pls_add hurl).owns,(h.pls_add hurl).inserted⟩

theorem Added.inv (h : Added L c m vs) {v : Value} (hnew : ∀ u ∈ vs.getLast?, u.idx ≠ v.idx) :
    Inv L c (Pls.set_field m v.field) (vs ++ [v]) := by
  obtain ⟨ha,hu,ht,hd⟩ := h.fresh
  have hlast : last_run (vs ++ [v]) = [v] := last_run_snoc_new hnew
  have hfields : fields [v] = Fields.set ⟨[],[],-1⟩ v.field := rfl
  have hins : m.inserted = before L c (vs ++ [v]) := h.inserted.trans (before_snoc_new hnew).symm
  obtain ⟨idx,field⟩ := v
  cases field with
  | url val =>
    refine ⟨h.owns.set_url false val (by rw [hu]; rfl),ha,?_,?_,?_,hins⟩
    · rw [hlast,hfields]; rfl
    · rw [hlast,hfields]; exact congrArg Vec.str ht
    · rw [hlast,hfields]; exact .inl hd
  | title val =>
    refine ⟨h.owns.set_title false (by rw [ht]; rfl),ha,?_,?_,?_,hins⟩
    · rw [hlast,hfields]; exact congrArg Vec.str hu
    · rw [hlast,hfields]; rfl
    · rw [hlast,hfields]; exact .inl hd
  | duration sec =>
    refine ⟨h.owns.frame rfl rfl rfl rfl rfl fun _ _ _ => id,ha,?_,?_,?_,hins⟩
    · rw [hlast,hfields]; exact congrArg Vec.str hu
    · rw [hlast,hfields]; exact congrArg Vec.str ht
    · rw [hlast,hfields]; exact .inl rfl

theorem Inv.copy (h : Inv L c m vs) : Inv L c (copy_fields m) vs := by
  refine ⟨⟨fun v hv => ?_,fun b => ?_,h.owns.heap⟩,h.artist,?_,?_,h.duration,h.inserted⟩
  · rcases mem_fields.mp hv with rfl | rfl | rfl
    · exact fieldSound_copyself _ (h.owns.field m.url (mem_fields.mpr (.inl rfl)))
    · have hzero : (copy_fields m).artist = .zero := h.artist
      simp [M3u.FieldSound,hzero,Vec.zero]
    · exact fieldSound_copyself _ (h.owns.field m.title (mem_fields.mpr (.inr (.inr rfl))))
  · have honce := h.owns.once b
    change _ = if b < m.next + (copyself m m.next m.url).2 +
      (copyself m (m.next + (copyself m m.next m.url).2) m.title).2 then 1 else 0
    simp only [copy_fields,M3u.fields,List.flatMap_cons,List.flatMap_nil,List.append_nil,
      List.count_append,count_copyself] at honce ⊢
    split at honce <;> repeat' split
    all_goals omega
  · exact copyself_str h.owns _ (mem_fields.mpr (.inl rfl)) h.url
  · exact copyself_str h.owns _ (mem_fields.mpr (.inr (.inr rfl))) h.title

end Invariant

/-! ## Runs of the reader -/

section Steps

variable {L : PathLib} {c : Conf} {p p' : PlsR} {a : Act}

/-- The list is being read. -/
structure Going (L : PathLib) (c : Conf) (p : PlsR) : Prop where
  inv : Inv L c p.m p.read
  idx : p.trk_idx ≠ NO_IDX → ∃ u, p.read.getLast? = some u ∧ u.idx = p.trk_idx

/-- The list was read. -/
structure Done (L : PathLib) (c : Conf) (p : PlsR) : Prop where
  owns : Owns p.m
  inserted : p.m.inserted = listed L c p.read

def Sound (L : PathLib) (c : Conf) (p : PlsR) : Prop :=
  match p.phase with
  | .waiting | .body _ | .fin _ => Going L c p
  | .finished => Done L c p
  | .closed => True

/-- A run whose only value is no `FileN`. -/
theorem run_entry_single {v : Value} (h : v.field.NoFile) : run_entry L c [v] = none := by
  obtain ⟨idx,field⟩ := v
  cases field with
  | url val =>
    obtain rfl : val = [] := h
    rfl
  | title val => rfl
  | duration sec => rfl

theorem on_value_same {v : Value} {next : Phase} {fin : Bool} (hc : p.changed v.idx = false) :
    on_value L c p v next fin =
      { p with
        trk_idx := v.idx, read := p.read ++ [v], m := set_field p.m v.field, phase := next } := by
  simp [on_value,hc]

theorem on_value_new {v : Value} {next : Phase} (hc : p.changed v.idx = true)
    (hurl : p.m.url.str ≠ some []) :
    on_value L c p v next false =
      { pls_add L c p with
        trk_idx := v.idx, read := p.read ++ [v]
        m := set_field (pls_add L c p).m v.field, phase := next } := by
  simp [on_value,hc,commit,hurl,pls_add]

theorem on_value_last {v : Value} {next : Phase} (hc : p.changed v.idx = true)
    (hurl : p.m.url.str ≠ some []) :
    on_value L c p v next true =
      {pls_add L c p with trk_idx := v.idx, read := p.read ++ [v], phase := .finished} := by
  simp [on_value,hc,commit,hurl,pls_add]

theorem Going.changed (h : Going L c p) {v : Value} (hc : p.changed v.idx = true) :
    ∀ u ∈ p.read.getLast?, u.idx ≠ v.idx := by
  intro u hu he
  obtain ⟨hsome,hne⟩ := of_decide_eq_true hc
  obtain ⟨w,hw,hidx⟩ := h.idx hsome
  obtain rfl := Option.some.inj (hu.symm.trans hw)
  exact hne (he.symm.trans hidx)

theorem Going.same (h : Going L c p) {v : Value} (hc : p.changed v.idx = false)
    (hfirst : p.trk_idx = NO_IDX → ∀ u ∈ p.read.getLast?, u.idx = v.idx) :
    ∀ u ∈ p.read.getLast?, u.idx = v.idx := by
  by_cases hi : p.trk_idx = NO_IDX
  · exact hfirst hi
  · intro u hu
    obtain ⟨w,hw,hidx⟩ := h.idx hi
    obtain rfl := Option.some.inj (hu.symm.trans hw)
    have hsame : v.idx = p.trk_idx := by
      by_contra hne
      exact of_decide_eq_false hc ⟨hi,hne⟩
    exact hidx.trans hsame.symm

theorem idx_snoc (vs : List Value) (v : Value) :
    v.idx ≠ NO_IDX → ∃ u, (vs ++ [v]).getLast? = some u ∧ u.idx = v.idx :=
  fun _ => ⟨v,List.getLast?_concat,rfl⟩

theorem Going.value (h : Going L c p) {v : Value} (ho : InTrack p (.value v)) (next : Phase) :
    Going L c (on_value L c p v next false) := by
  rw [InTrack] at ho
  cases hc : p.changed v.idx with
  | false =>
    rw [if_neg (by simp [hc])] at ho
    have hsame := h.same hc ho.1
    rw [on_value_same hc]
    exact ⟨h.inv.set_field ho.2 (last_run_snoc hsame) (before_snoc hsame),idx_snoc _ _⟩
  | true =>
    rw [if_pos hc] at ho
    have hurl : p.m.url.str ≠ some [] := by
      rw [h.inv.url]
      exact fun he => ho.1 (Option.some.inj he)
    rw [on_value_new hc hurl]
    exact ⟨(h.inv.pls_add ho.1).inv (h.changed hc),idx_snoc _ _⟩

theorem Going.last_value (h : Going L c p) {v : Value} (ho : InTrack p (.value v))
    (hp : p.phase = .fin false) : Sound L c (on_value L c p v (.fin true) true) := by
  have hgoing := h.value ho (.fin true)
  rw [InTrack] at ho
  cases hc : p.changed v.idx with
  | false =>
    rw [on_value_same hc] at hgoing ⊢
    exact hgoing
  | true =>
    rw [if_pos hc] at ho
    have hurl : p.m.url.str ≠ some [] := by
      rw [h.inv.url]
      exact fun he => ho.1 (Option.some.inj he)
    have hadd := h.inv.pls_add ho.1
    have hnew := h.changed hc
    rw [on_value_last hc hurl]
    refine ⟨hadd.owns,?_⟩
    rw [listed_eq,before_snoc_new hnew,last_run_snoc_new hnew,run_entry_single (ho.2 hp)]
    exact hadd.inserted.trans (List.append_nil _).symm

theorem sound_step (h : Sound L c p) (ho : InTrack p a) (hs : step L c p a = some p') :
    Sound L c p' := by
  cases a with
  | chunk first =>
    dsimp only [step] at hs
    split at hs
    · next hp =>
      obtain rfl := Option.some.inj hs
      rw [Sound,hp] at h
      exact ⟨h.inv,fun hi => absurd rfl hi⟩
    · cases hs
  | value v =>
    dsimp only [step] at hs
    split at hs
    · next first hp =>
      obtain rfl := Option.some.inj hs
      rw [Sound,hp] at h
      have hgoing := h.value ho (.body first)
      cases hc : p.changed v.idx with
      | false => rw [on_value_same hc] at hgoing ⊢; exact hgoing
      | true =>
        have hphase : (on_value L c p v (.body first) false).phase = .body first := by
          simp [on_value]
        rw [Sound,hphase]
        exact hgoing
    · next hp =>
      obtain rfl := Option.some.inj hs
      rw [Sound,hp] at h
      exact h.last_value ho hp
    · cases hs
  | warn =>
    dsimp only [step] at hs
    split at hs
    · obtain rfl := Option.some.inj hs
      exact h
    · next hp =>
      obtain rfl := Option.some.inj hs
      rw [Sound,hp] at h
      exact ⟨h.inv,h.idx⟩
    · cases hs
  | more =>
    dsimp only [step] at hs
    split at hs
    · next hp =>
      obtain rfl := Option.some.inj hs
      rw [Sound,hp] at h
      exact ⟨h.inv.copy,h.idx⟩
    · next hp =>
      obtain rfl := Option.some.inj hs
      rw [Sound,hp] at h
      exact ⟨h.inv,h.idx⟩
    · next hp =>
      obtain rfl := Option.some.inj hs
      rw [Sound,hp] at h
      have hcommit := h.inv.commit
      have hread : (commit L c p).read = p.read := by
        rw [commit]
        split <;> rfl
      exact ⟨hcommit.1,hread ▸ hcommit.2⟩
    · cases hs
  | close =>
    dsimp only [step] at hs
    split at hs
    · obtain rfl := Option.some.inj hs
      trivial
    · cases hs

/-- A list that was read to its end inserts the entries of its runs, whatever the chunks. -/
theorem pls_listed (L : PathLib) (c : Conf) {as : List Act} {p : PlsR}
    (has : Machine.AllSteps (step L c) InTrack .init as)
    (hrun : Machine.run (step L c) .init as = some p) (hp : p.phase = .finished) :
    Owns p.m ∧ p.m.inserted = listed L c p.read := by
  have h : Sound L c p := Machine.guarded_invariant
    (fun _ _ _ h ho hs => sound_step h ho hs) has hrun
    (show Sound L c .init from ⟨pls_init_inv L c,fun hi => absurd rfl hi⟩)
  rw [Sound,hp] at h
  exact ⟨h.owns,h.inserted⟩

end Steps

def file (idx : UInt32) (ch : Char) : Act := .value ⟨idx,.url [ch]⟩
def title (idx : UInt32) (ch : Char) : Act := .value ⟨idx,.title [ch]⟩
def length (idx : UInt32) (sec : Int) : Act := .value ⟨idx,.duration sec⟩

/-- Both cuts are between the lines of a track, the second one within the last line. -/
def two_tracks : List Act :=
  [.chunk false,file 1 'a',.more,.chunk false,title 1 'A',.warn,length 1 2,length 2 3,file 2 'b',
    .more,.chunk true,.more,title 2 'B',.more]

def read_all (as : List Act) : PlsR := (Machine.run (step unix ⟨[],[]⟩) .init as).getD .init

theorem pls_listed_two :
    Owns (read_all two_tracks).m ∧
      (read_all two_tracks).m.inserted = listed unix ⟨[],[]⟩ (read_all two_tracks).read :=
  have hclear : Machine.AllSteps (step unix ⟨[],[]⟩) InTrack .init two_tracks := by decide +kernel
  pls_listed unix ⟨[],[]⟩ hclear (Machine.run_eq_getD (by decide +kernel)) (by decide +kernel)

def cut_between : List Act :=
  [.chunk false,file 1 'a',.more,.chunk true,file 2 'b',.more,.more]

def no_line_break : List Act := [.chunk true,file 1 'a',.more,file 2 'b']

/-- The number of the first track is the one that stands for no track. -/
def track_of_none : List Act := [.chunk true,file 4294967295 'a',file 1 'b',.more,.more]

def no_file : List Act := [.chunk true,title 1 'A',file 2 'b',.more,.more]

theorem run_read_all {as : List Act}
    (h : (Machine.run (step unix ⟨[],[]⟩) .init as).isSome = true) :
    Machine.run (step unix ⟨[],[]⟩) .init as = some (read_all as) := Machine.run_eq_getD h

/-- A cut between two tracks loses the first one, as does its number 4294967295, the last line without a line
break loses its track, and a track without a file gives its title to the next one. -/
theorem pls_tracks_lost :
    (Machine.run (step unix ⟨[],[]⟩) .init cut_between = some (read_all cut_between) ∧
      (read_all cut_between).phase = .finished ∧
      (read_all cut_between).m.inserted.map Entry.name = [some ['b']] ∧
      (listed unix ⟨[],[]⟩ (read_all cut_between).read).map Entry.name = [some ['a'],some ['b']]) ∧
    (Machine.run (step unix ⟨[],[]⟩) .init no_line_break = some (read_all no_line_break) ∧
      (read_all no_line_break).phase = .finished ∧
      (read_all no_line_break).m.inserted.map Entry.name = [some ['a']] ∧
      (listed unix ⟨[],[]⟩ (read_all no_line_break).read).map Entry.name =
        [some ['a'],some ['b']]) ∧
    (Machine.run (step unix ⟨[],[]⟩) .init track_of_none = some (read_all track_of_none) ∧
      (read_all track_of_none).phase = .finished ∧
      (read_all track_of_none).m.inserted.map Entry.name = [some ['b']] ∧
      (listed unix ⟨[],[]⟩ (read_all track_of_none).read).map Entry.name =
        [some ['a'],some ['b']]) ∧
    Machine.run (step unix ⟨[],[]⟩) .init no_file = some (read_all no_file) ∧
      (read_all no_file).phase = .finished ∧
      (read_all no_file).m.inserted.map Entry.tags = [[("title",some ['A'])]] ∧
      (listed unix ⟨[],[]⟩ (read_all no_file).read).map Entry.tags = [[]] :=
  ⟨⟨run_read_all (by decide +kernel),by decide +kernel,by decide +kernel,by decide +kernel⟩,
    ⟨run_read_all (by decide +kernel),by decide +kernel,by decide +kernel,by decide +kernel⟩,
    ⟨run_read_all (by decide +kernel),by decide +kernel,by decide +kernel,by decide +kernel⟩,
    run_read_all (by decide +kernel),by decide +kernel,by decide +kernel,by decide +kernel⟩

end Pls

end Phiola.Playlist
