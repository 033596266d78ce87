import Phiola.Framework.Machine
import Phiola.List.Entry

/-!
# The reader of m3u lists

The filter gets the list in chunks and passes each to the parser, which returns one value a
call: it lies in the chunk or in the parser's own buffer, which the next call overwrites. The
fields of the entry that is being read either point to such a value or own a copy.
-/

namespace Phiola.Playlist

/-- A place in memory: of the `k`-th chunk, of the parser's buffer as its `n`-th call leaves it,
or a block of the heap. -/
inductive Ptr
  | null
  | chunk (k : Nat)
  | own (n : Nat)
  | heap (b : Nat)
deriving DecidableEq, Repr

/-- `ffvec` of characters. `str` is what was at `ptr` when it was set, `none` if undefined. -/
structure Vec where
  ptr : Ptr
  str : Option Name
  cap : Nat
deriving DecidableEq, Repr

def Vec.zero : Vec := ⟨.null,some [],0⟩

/-- What the parser returns, but for its request for more data. -/
inductive Tag
  | artist (val : Name)
  | title (val : Name)
  | duration (sec : Int)
  | url (val : Name)
  | warn
deriving DecidableEq, Repr

/-- A value of the parser and whether it lies in its own buffer. -/
structure Ev where
  tag : Tag
  own : Bool
deriving DecidableEq, Repr

/-- `struct phi_queue_entry` as the reader fills it in. -/
structure Entry where
  name : Option Name
  length_msec : Nat
  tags : List (String × Option Name)
  transient : Bool
deriving DecidableEq, Repr

/-- `t->conf` of the track that reads the list. -/
structure Conf where
  ifile : Name
  tags : List (String × Name)
deriving DecidableEq, Repr

/-- Where `m3u_process()` is: not called, about to call the parser, or with its answer. `first`
is `PHI_FFIRST`; `fin` says that the last line break was added. -/
inductive Phase
  | waiting
  | ready (first fin : Bool)
  | returned (first fin : Bool)
  | finished
  | closed
deriving DecidableEq, Repr

/-- `struct m3u` and the memory; `chunk` and `calls` number the input and the calls of the
parser, `read` are the values it has returned. -/
structure M3u where
  url : Vec
  artist : Vec
  title : Vec
  duration : Int
  phase : Phase
  chunk : Nat
  calls : Nat
  next : Nat
  freed : List Ptr
  inserted : List Entry
  read : List Tag
deriving DecidableEq, Repr

/-- `m3u_open()`: the memory is zeroed. -/
def M3u.init : M3u := ⟨.zero,.zero,.zero,0,.waiting,0,0,0,[],[],[]⟩

/-- Whether memory holds what was there when a pointer to it was set. -/
def M3u.valid (m : M3u) : Ptr → Bool
  | .null => false
  | .chunk k => k = m.chunk
  | .own n => n = m.calls
  | .heap b => .heap b ∉ m.freed

/-- What a reader of the field gets. -/
def M3u.fetch (m : M3u) (v : Vec) : Option Name :=
  if v.str = some [] then some [] else if m.valid v.ptr then v.str else none

/-- `ffstr_set2()`: pointer and length; the capacity stays. -/
def M3u.set2 (m : M3u) (v : Vec) (own : Bool) (val : Name) : Vec :=
  ⟨if own then .own m.calls else .chunk m.chunk,some val,v.cap⟩

/-- What `ffvec_free()` passes to the heap. -/
def Vec.release (v : Vec) : List Ptr := if v.cap = 0 then [] else [v.ptr]

def pls_entry_free (m : M3u) : M3u :=
  {m with
    url := .zero, artist := .zero, title := .zero, duration := -1
    freed := m.freed ++ (m.url.release ++ m.artist.release ++ m.title.release)}

/-- The entry that `m3u_add()` inserts. -/
def m3u_entry (L : PathLib) (c : Conf) (url artist title : Option Name) (duration : Int) : Entry where
  name := url.map (plist_fullname L c.ifile)
  length_msec := if duration = -1 then 0 else (duration * 1000 % 4294967296).toNat
  tags :=
    if c.tags = [] then
      (if artist = some [] then [] else [("artist",artist)]) ++
        (if title = some [] then [] else [("title",title)])
    else c.tags.map fun x => (x.1,some x.2)
  transient := c.tags = []

def m3u_add (L : PathLib) (c : Conf) (m : M3u) : M3u :=
  pls_entry_free {m with inserted := m.inserted ++
    [m3u_entry L c (m.fetch m.url) (m.fetch m.artist) (m.fetch m.title) m.duration]}

/-- The cases of `m3u_process()` for a value. -/
def on_value (L : PathLib) (c : Conf) (m : M3u) (e : Ev) : M3u :=
  match e.tag with
  | .artist val => {m with artist := m.set2 m.artist e.own val}
  | .title val => {m with title := m.set2 m.title e.own val}
  | .duration sec => {m with duration := sec}
  | .url val => m3u_add L c {m with url := m.set2 m.url e.own val}
  | .warn => m

/-- `_ffvec_copyself()`: the field and how many blocks it allocated. -/
def copyself (m : M3u) (b : Nat) (v : Vec) : Vec × Nat :=
  if v.cap = 0 ∧ v.str ≠ some [] then
    (⟨.heap b,m.fetch v,(v.str.getD []).length.max 1⟩,1)
  else (v,0)

/-- `M3UREAD_MORE` while the filters before have more data. -/
def copy_tags (m : M3u) : M3u :=
  let a := copyself m m.next m.artist
  let t := copyself m (m.next + a.2) m.title
  {m with artist := a.1, title := t.1, next := m.next + a.2 + t.2}

/-- `call` is a call of the parser, `value` and `more` are what it returned. -/
inductive Act
  | chunk (first : Bool)
  | call
  | value (e : Ev)
  | more
  | close
deriving DecidableEq, Repr

def step (L : PathLib) (c : Conf) (m : M3u) : Act → Option M3u
  | .chunk first => if m.phase = .waiting then some {m with phase := .ready first false} else none
  | .call =>
    match m.phase with
    | .ready first fin => some {m with phase := .returned first fin, calls := m.calls + 1}
    | _ => none
  | .value e =>
    match m.phase with
    | .returned first fin =>
      some {on_value L c m e with phase := .ready first fin, read := m.read ++ [e.tag]}
    | _ => none
  | .more =>
    match m.phase with
    | .returned false _ => some {copy_tags m with phase := .waiting, chunk := m.chunk + 1}
    | .returned true false => some {m with phase := .ready true true}
    | .returned true true => some {m with phase := .finished}
    | _ => none
  | .close =>
    if m.phase = .waiting ∨ m.phase = .finished then some {pls_entry_free m with phase := .closed}
    else none

/-! ## Who owns the fields -/

def M3u.fields (m : M3u) : List Vec := [m.url,m.artist,m.title]

/-- A field with a capacity is a block of its own, another one refers to data that is still
there. -/
def M3u.FieldSound (m : M3u) (v : Vec) : Prop :=
  if v.cap = 0 then v.str = some [] ∨ m.valid v.ptr = true ∧ ∀ b, v.ptr ≠ .heap b
  else ∃ b, v.ptr = .heap b

/-- Each block that was allocated is freed once or is what one field will free. -/
structure Owns (m : M3u) : Prop where
  field : ∀ v ∈ m.fields, m.FieldSound v
  once : ∀ b, m.freed.count (.heap b) + (m.fields.flatMap Vec.release).count (.heap b) =
    if b < m.next then 1 else 0
  heap : ∀ p ∈ m.freed, ∃ b, p = .heap b

/-- The field lies in the parser's buffer. -/
def Vec.inOwn (v : Vec) : Bool :=
  match v.ptr with
  | .own _ => v.str ≠ some []
  | _ => false

/-- The parser is not called while a tag lies in its buffer, and no tag comes again after it was
copied. -/
def InOrder (m : M3u) : Act → Prop
  | .call => m.artist.inOwn = false ∧ m.title.inOwn = false
  | .value e =>
    match e.tag with
    | .artist _ => m.artist.cap = 0
    | .title _ => m.title.cap = 0
    | _ => True
  | _ => True

instance (m : M3u) : ∀ a, Decidable (InOrder m a)
  | .chunk _ => inferInstanceAs (Decidable True)
  | .call => inferInstanceAs (Decidable (m.artist.inOwn = false ∧ m.title.inOwn = false))
  | .value ⟨.artist _,_⟩ => inferInstanceAs (Decidable (m.artist.cap = 0))
  | .value ⟨.title _,_⟩ => inferInstanceAs (Decidable (m.title.cap = 0))
  | .value ⟨.duration _,_⟩ => inferInstanceAs (Decidable True)
  | .value ⟨.url _,_⟩ => inferInstanceAs (Decidable True)
  | .value ⟨.warn,_⟩ => inferInstanceAs (Decidable True)
  | .more => inferInstanceAs (Decidable True)
  | .close => inferInstanceAs (Decidable True)

/-! ## What a list says -/

/-- The tags since the last entry. -/
structure Pending where
  artist : Name
  title : Name
  duration : Int

def list_tag (L : PathLib) (c : Conf) (x : Pending × List Entry) : Tag → Pending × List Entry
  | .artist val => ({x.1 with artist := val},x.2)
  | .title val => ({x.1 with title := val},x.2)
  | .duration sec => ({x.1 with duration := sec},x.2)
  | .url val => (⟨[],[],-1⟩,
      x.2 ++ [m3u_entry L c (some val) (some x.1.artist) (some x.1.title) x.1.duration])
  | .warn => x

/-- The entries of a list, by its values. -/
def listed (L : PathLib) (c : Conf) (tags : List Tag) : Pending × List Entry :=
  tags.foldl (list_tag L c) (⟨[],[],0⟩,[])

/-- The fields hold the tags since the last entry, and the entries before are inserted. -/
structure Inv (L : PathLib) (c : Conf) (m : M3u) : Prop where
  owns : Owns m
  url : m.url = .zero
  artist : m.artist.str = some (listed L c m.read).1.artist
  title : m.title.str = some (listed L c m.read).1.title
  duration : m.duration = (listed L c m.read).1.duration
  inserted : m.inserted = (listed L c m.read).2

section Fields

variable {L : PathLib} {c : Conf} {m m' : M3u} {v : Vec} {val : Name}

theorem mem_fields : v ∈ m.fields ↔ v = m.url ∨ v = m.artist ∨ v = m.title := by
  simp [M3u.fields]

theorem owns_init : Owns .init where
  field v hv := by
    rcases mem_fields.mp hv with rfl | rfl | rfl <;> exact .inl rfl
  once b := by simp [M3u.init,M3u.fields,Vec.release,Vec.zero]
  heap p hp := by cases hp

theorem inv_init (L : PathLib) (c : Conf) : Inv L c .init :=
  ⟨owns_init,rfl,rfl,rfl,rfl,rfl⟩

theorem Owns.alive (h : Owns m) {b : Nat} (hv : v ∈ m.fields) (hc : v.cap ≠ 0)
    (hp : v.ptr = .heap b) : m.valid (.heap b) = true := by
  have hmem : .heap b ∈ m.fields.flatMap Vec.release :=
    List.mem_flatMap.mpr ⟨v,hv,by simp [Vec.release,hc,hp]⟩
  have hpos := List.count_pos_iff.mpr hmem
  have honce := h.once b
  have hzero : m.freed.count (.heap b) = 0 := by
    split at honce <;> omega
  simpa [M3u.valid] using List.count_eq_zero.mp hzero

theorem Owns.fetch (h : Owns m) (hv : v ∈ m.fields) (hs : v.str = some val) :
    m.fetch v = some val := by
  unfold M3u.fetch
  split
  · rw [← hs,‹v.str = some []›]
  · rename_i hne
    have hvalid : m.valid v.ptr = true := by
      have hf := h.field v hv
      unfold M3u.FieldSound at hf
      split at hf
      · exact (hf.resolve_left hne).1
      · rename_i hc
        obtain ⟨b,hb⟩ := hf
        rw [hb]
        exact h.alive hv hc hb
    rw [if_pos hvalid,hs]

theorem Owns.frame (h : Owns m) (hu : m'.url = m.url) (ha : m'.artist = m.artist)
    (ht : m'.title = m.title) (hf : m'.freed = m.freed) (hn : m'.next = m.next)
    (hvalid : ∀ v ∈ m.fields, v.str ≠ some [] → m.valid v.ptr = true → m'.valid v.ptr = true) :
    Owns m' := by
  have hfields : m'.fields = m.fields := by simp only [M3u.fields,hu,ha,ht]
  refine ⟨fun v hv => ?_,fun b => ?_,fun p hp => ?_⟩
  · rw [hfields] at hv
    have hold := h.field v hv
    unfold M3u.FieldSound at hold ⊢
    split
    · rw [if_pos (by assumption)] at hold
      by_cases hs : v.str = some []
      · exact .inl hs
      · have hold := hold.resolve_left hs
        exact .inr ⟨hvalid v hv hs hold.1,hold.2⟩
    · rwa [if_neg (by assumption)] at hold
  · rw [hfields,hf,hn]
    exact h.once b
  · exact h.heap p (hf ▸ hp)

theorem fieldSound_set2 (own : Bool) (hc : v.cap = 0) : m.FieldSound (m.set2 v own val) := by
  cases own <;> simp [M3u.FieldSound,M3u.set2,hc,M3u.valid]

theorem not_fieldSound_set2 (own : Bool) (hc : v.cap ≠ 0) : ¬m'.FieldSound (m.set2 v own val) := by
  rintro hf
  unfold M3u.FieldSound at hf
  rw [if_neg (show (m.set2 v own val).cap ≠ 0 from hc)] at hf
  cases own <;> simp [M3u.set2] at hf

theorem release_set2 (own : Bool) (hc : v.cap = 0) : (m.set2 v own val).release = [] := by
  simp [Vec.release,M3u.set2,hc]

theorem release_of_cap (hc : v.cap = 0) : v.release = [] := if_pos hc

theorem Owns.set_artist (h : Owns m) (own : Bool) (hc : m.artist.cap = 0) :
    Owns {m with artist := m.set2 m.artist own val} := by
  refine ⟨fun v hv => ?_,fun b => ?_,h.heap⟩
  · rcases mem_fields.mp hv with rfl | rfl | rfl
    · exact h.field m.url (mem_fields.mpr (.inl rfl))
    · exact fieldSound_set2 own hc
    · exact h.field m.title (mem_fields.mpr (.inr (.inr rfl)))
  · have honce := h.once b
    simp only [M3u.fields,List.flatMap_cons,release_of_cap hc,release_set2 own hc] at honce ⊢
    exact honce

theorem Owns.set_title (h : Owns m) (own : Bool) (hc : m.title.cap = 0) :
    Owns {m with title := m.set2 m.title own val} := by
  refine ⟨fun v hv => ?_,fun b => ?_,h.heap⟩
  · rcases mem_fields.mp hv with rfl | rfl | rfl
    · exact h.field m.url (mem_fields.mpr (.inl rfl))
    · exact h.field m.artist (mem_fields.mpr (.inr (.inl rfl)))
    · exact fieldSound_set2 own hc
  · have honce := h.once b
    simp only [M3u.fields,List.flatMap_cons,release_of_cap hc,release_set2 own hc] at honce ⊢
    exact honce

theorem Owns.set_url (h : Owns m) (own : Bool) (val : Name) (hc : m.url.cap = 0) :
    Owns {m with url := m.set2 m.url own val} := by
  refine ⟨fun v hv => ?_,fun b => ?_,h.heap⟩
  · rcases mem_fields.mp hv with rfl | rfl | rfl
    · exact fieldSound_set2 own hc
    · exact h.field m.artist (mem_fields.mpr (.inr (.inl rfl)))
    · exact h.field m.title (mem_fields.mpr (.inr (.inr rfl)))
  · have honce := h.once b
    simp only [M3u.fields,List.flatMap_cons,release_of_cap hc,release_set2 own hc] at honce ⊢
    exact honce

theorem Owns.free (h : Owns m) : Owns (pls_entry_free m) := by
  refine ⟨fun v hv => ?_,fun b => ?_,fun p hp => ?_⟩
  · rcases mem_fields.mp hv with rfl | rfl | rfl <;> exact .inl rfl
  · have honce := h.once b
    change _ = if b < m.next then 1 else 0
    simp only [pls_entry_free,M3u.fields,List.flatMap_cons,List.flatMap_nil,List.append_nil,
      Vec.release,Vec.zero,if_true,List.count_nil,List.count_append] at honce ⊢
    omega
  · rcases List.mem_append.mp hp with hp | hp
    · exact h.heap p hp
    · have hmem : p ∈ m.fields.flatMap Vec.release := by simpa [M3u.fields] using hp
      obtain ⟨v,hv,hp⟩ := List.mem_flatMap.mp hmem
      have hf := h.field v hv
      unfold M3u.FieldSound at hf
      unfold Vec.release at hp
      split at hf
      · rw [if_pos (by assumption)] at hp
        cases hp
      · rw [if_neg (by assumption),List.mem_singleton] at hp
        obtain ⟨b,hb⟩ := hf
        exact ⟨b,hp.trans hb⟩

theorem count_copyself (m : M3u) (n b : Nat) (v : Vec) :
    (copyself m n v).1.release.count (.heap b) =
      v.release.count (.heap b) + if n ≤ b ∧ b < n + (copyself m n v).2 then 1 else 0 := by
  unfold copyself
  split
  · rename_i h
    rw [release_of_cap h.1]
    by_cases hb : b = n
    · subst hb
      simp [Vec.release]
    · have hnot : ¬(n ≤ b ∧ b < n + 1) := by omega
      rw [if_neg hnot]
      simp [Vec.release,Ne.symm hb]
  · have hnot : ¬(n ≤ b ∧ b < n + 0) := by omega
    rw [if_neg hnot,Nat.add_zero]

theorem fieldSound_copyself (n : Nat) (h : m.FieldSound v) :
    m'.FieldSound (copyself m n v).1 := by
  unfold copyself
  split
  · simp [M3u.FieldSound]
  · rename_i hnot
    unfold M3u.FieldSound at h ⊢
    by_cases hc : v.cap = 0
    · rw [if_pos hc]
      exact .inl (not_not.mp fun hs => hnot ⟨hc,hs⟩)
    · rwa [if_neg hc] at h ⊢

theorem Owns.copy (h : Owns m) (hu : m.url = .zero) :
    Owns {copy_tags m with phase := .waiting, chunk := m.chunk + 1} := by
  refine ⟨fun v hv => ?_,fun b => ?_,h.heap⟩
  · rcases mem_fields.mp hv with rfl | rfl | rfl
    · have hzero : (copy_tags m).url = .zero := hu
      simp [M3u.FieldSound,hzero,Vec.zero]
    · exact fieldSound_copyself _ (h.field m.artist (mem_fields.mpr (.inr (.inl rfl))))
    · exact fieldSound_copyself _ (h.field m.title (mem_fields.mpr (.inr (.inr rfl))))
  · have honce := h.once b
    change _ = if b < m.next + (copyself m m.next m.artist).2 +
      (copyself m (m.next + (copyself m m.next m.artist).2) m.title).2 then 1 else 0
    simp only [copy_tags,M3u.fields,List.flatMap_cons,List.flatMap_nil,List.append_nil,
      List.count_append,count_copyself] at honce ⊢
    split at honce <;> repeat' split
    all_goals omega

end Fields

/-! ## Runs -/

section Runs

variable {L : PathLib} {c : Conf} {m m' : M3u} {a : Act}

theorem listed_snoc (tags : List Tag) (x : Tag) :
    listed L c (tags ++ [x]) = list_tag L c (listed L c tags) x := by
  simp [listed,List.foldl_append]

theorem inOwn_eq_false {v : Vec} (h : v.inOwn = false) (hs : v.str ≠ some []) (n : Nat) :
    v.ptr ≠ .own n := by
  intro hp
  simp [Vec.inOwn,hp,hs] at h

/-- The next call of the parser leaves the fields that are not in its buffer. -/
theorem Owns.call (h : Owns m) (hu : m.url = .zero) (ha : m.artist.inOwn = false)
    (ht : m.title.inOwn = false) (p : Phase) :
    Owns {m with phase := p, calls := m.calls + 1} := by
  refine h.frame rfl rfl rfl rfl rfl fun v hv hs hvalid => ?_
  have hown : v.inOwn = false := by
    rcases mem_fields.mp hv with rfl | rfl | rfl
    · exact absurd (congrArg Vec.str hu) hs
    · exact ha
    · exact ht
  cases hp : v.ptr with
  | own n => exact absurd hp (inOwn_eq_false hown hs n)
  | null => simp [M3u.valid,hp] at hvalid
  | chunk k => simpa [M3u.valid,hp] using hvalid
  | heap b => simpa [M3u.valid,hp] using hvalid

theorem copyself_str (h : Owns m) (n : Nat) {v : Vec} (hv : v ∈ m.fields) {val : Name}
    (hs : v.str = some val) : (copyself m n v).1.str = some val := by
  unfold copyself
  split
  · exact h.fetch hv hs
  · exact hs

theorem Inv.add (h : Inv L c m) (own : Bool) (val : Name) (p : Phase) :
    Inv L c {m3u_add L c {m with url := m.set2 m.url own val} with
      phase := p, read := m.read ++ [.url val]} := by
  have hset := h.owns.set_url own val (congrArg Vec.cap h.url)
  have hurl := hset.fetch (mem_fields.mpr (.inl rfl)) rfl
  have hartist := hset.fetch (mem_fields.mpr (.inr (.inl rfl))) h.artist
  have htitle := hset.fetch (mem_fields.mpr (.inr (.inr rfl))) h.title
  refine ⟨hset.free.frame rfl rfl rfl rfl rfl fun _ _ _ => id,rfl,?_,?_,?_,?_⟩
  · simp [listed_snoc,list_tag,m3u_add,pls_entry_free,Vec.zero]
  · simp [listed_snoc,list_tag,m3u_add,pls_entry_free,Vec.zero]
  · simp [listed_snoc,list_tag,m3u_add,pls_entry_free]
  · simp only [listed_snoc,list_tag,m3u_add,pls_entry_free,← h.inserted,← h.duration]
    rw [← hurl,← hartist,← htitle]

theorem Inv.value (h : Inv L c m) (e : Ev) (ho : InOrder m (.value e)) (p : Phase) :
    Inv L c {on_value L c m e with phase := p, read := m.read ++ [e.tag]} := by
  obtain ⟨tag,own⟩ := e
  cases tag with
  | artist val =>
    refine ⟨(h.owns.set_artist own ho).frame rfl rfl rfl rfl rfl fun _ _ _ => id,h.url,?_,?_,?_,?_⟩
    · simp [listed_snoc,list_tag,on_value,M3u.set2]
    · simpa [listed_snoc,list_tag,on_value] using h.title
    · simpa [listed_snoc,list_tag,on_value] using h.duration
    · simpa [listed_snoc,list_tag,on_value] using h.inserted
  | title val =>
    refine ⟨(h.owns.set_title own ho).frame rfl rfl rfl rfl rfl fun _ _ _ => id,h.url,?_,?_,?_,?_⟩
    · simpa [listed_snoc,list_tag,on_value] using h.artist
    · simp [listed_snoc,list_tag,on_value,M3u.set2]
    · simpa [listed_snoc,list_tag,on_value] using h.duration
    · simpa [listed_snoc,list_tag,on_value] using h.inserted
  | duration sec =>
    refine ⟨h.owns.frame rfl rfl rfl rfl rfl fun _ _ _ => id,h.url,?_,?_,?_,?_⟩
    · simpa [listed_snoc,list_tag,on_value] using h.artist
    · simpa [listed_snoc,list_tag,on_value] using h.title
    · simp [listed_snoc,list_tag,on_value]
    · simpa [listed_snoc,list_tag,on_value] using h.inserted
  | url val => exact h.add own val p
  | warn =>
    refine ⟨h.owns.frame rfl rfl rfl rfl rfl fun _ _ _ => id,h.url,?_,?_,?_,?_⟩
    · simpa [listed_snoc,list_tag,on_value] using h.artist
    · simpa [listed_snoc,list_tag,on_value] using h.title
    · simpa [listed_snoc,list_tag,on_value] using h.duration
    · simpa [listed_snoc,list_tag,on_value] using h.inserted

theorem Inv.phase (h : Inv L c m) (p : Phase) : Inv L c {m with phase := p} :=
  ⟨h.owns.frame rfl rfl rfl rfl rfl fun _ _ _ => id,h.url,h.artist,h.title,h.duration,h.inserted⟩

theorem Inv.more (h : Inv L c m) :
    Inv L c {copy_tags m with phase := .waiting, chunk := m.chunk + 1} :=
  ⟨h.owns.copy h.url,h.url,
    copyself_str h.owns _ (mem_fields.mpr (.inr (.inl rfl))) h.artist,
    copyself_str h.owns _ (mem_fields.mpr (.inr (.inr rfl))) h.title,h.duration,h.inserted⟩

/-- What holds of the memory when the filter is closed: the tags are gone, so it is not the
invariant of a run. -/
def Closed (L : PathLib) (c : Conf) (m : M3u) : Prop :=
  m.phase = .closed ∧ Owns m ∧ m.inserted = (listed L c m.read).2

theorem inv_step (h : Inv L c m ∨ Closed L c m) (ho : InOrder m a) (hs : step L c m a = some m') :
    Inv L c m' ∨ Closed L c m' := by
  rcases h with h | h
  · cases a with
    | chunk first =>
      simp only [step] at hs
      split at hs
      · obtain rfl := Option.some.inj hs
        exact .inl (h.phase _)
      · cases hs
    | call =>
      simp only [step] at hs
      split at hs
      · obtain rfl := Option.some.inj hs
        exact .inl ⟨h.owns.call h.url ho.1 ho.2 _,h.url,h.artist,h.title,h.duration,h.inserted⟩
      · cases hs
    | value e =>
      simp only [step] at hs
      split at hs
      · obtain rfl := Option.some.inj hs
        exact .inl (h.value e ho _)
      · cases hs
    | more =>
      simp only [step] at hs
      split at hs
      · obtain rfl := Option.some.inj hs
        exact .inl h.more
      · obtain rfl := Option.some.inj hs
        exact .inl (h.phase _)
      · obtain rfl := Option.some.inj hs
        exact .inl (h.phase _)
      · cases hs
    | close =>
      simp only [step] at hs
      split at hs
      · obtain rfl := Option.some.inj hs
        exact .inr ⟨rfl,h.owns.free.frame rfl rfl rfl rfl rfl fun _ _ _ => id,h.inserted⟩
      · cases hs
  · cases a <;> simp [step,h.1] at hs

theorem inOrder_of_owns (h : Owns m) (h' : Owns m') (hs : step L c m a = some m') : InOrder m a := by
  cases a with
  | call =>
    simp only [step] at hs
    split at hs
    · obtain rfl := Option.some.inj hs
      have hkept (v : Vec) (hv : v ∈ m.fields) : v.inOwn = false := by
        by_contra hown
        have hfield := h.field v hv
        have hfield' := h'.field v hv
        unfold Vec.inOwn at hown
        split at hown
        · rename_i n hp
          have hstr : v.str ≠ some [] := by simpa using hown
          by_cases hc : v.cap = 0
          · simp [M3u.FieldSound,hc,hp,hstr,M3u.valid] at hfield hfield'
            omega
          · simp [M3u.FieldSound,hc,hp] at hfield
        · exact hown rfl
      exact ⟨hkept _ (mem_fields.mpr (.inr (.inl rfl))),hkept _ (mem_fields.mpr (.inr (.inr rfl)))⟩
    · cases hs
  | value e =>
    simp only [step] at hs
    split at hs
    · obtain rfl := Option.some.inj hs
      obtain ⟨tag,own⟩ := e
      cases tag with
      | artist val =>
        have hfield := h'.field (m.set2 m.artist own val) (mem_fields.mpr (.inr (.inl rfl)))
        by_contra hc
        exact not_fieldSound_set2 own hc hfield
      | title val =>
        have hfield := h'.field (m.set2 m.title own val) (mem_fields.mpr (.inr (.inr rfl)))
        by_contra hc
        exact not_fieldSound_set2 own hc hfield
      | _ => trivial
    · cases hs
  | _ => trivial

/-- A list in one chunk, all of whose values lie in it: `xs` are returned before the filter adds
the last line break and `ys` after it. -/
def one_chunk (xs ys : List Tag) : List Act :=
  .chunk true :: (xs.flatMap fun x => [.call,.value ⟨x,false⟩]) ++ [Act.call,Act.more] ++
    (ys.flatMap fun x => [.call,.value ⟨x,false⟩]) ++ [Act.call,Act.more]

/-- The tags neither own memory nor lie in the parser's buffer. -/
def Loose (m : M3u) : Prop :=
  (m.artist.cap = 0 ∧ m.artist.inOwn = false) ∧ m.title.cap = 0 ∧ m.title.inOwn = false

theorem loose_value (x : Tag) (h : Loose m) : Loose (on_value L c m ⟨x,false⟩) := by
  cases x with
  | artist val => exact ⟨⟨h.1.1,by simp [on_value,M3u.set2,Vec.inOwn]⟩,h.2⟩
  | title val => exact ⟨h.1,h.2.1,by simp [on_value,M3u.set2,Vec.inOwn]⟩
  | url val => exact ⟨⟨rfl,rfl⟩,rfl,rfl⟩
  | duration sec => exact h
  | warn => exact h

theorem inOrder_value (x : Tag) (own : Bool) (h : Loose m) : InOrder m (.value ⟨x,own⟩) := by
  cases x with
  | artist val => exact h.1.1
  | title val => exact h.2.1
  | _ => trivial

/-- Values that lie in the only chunk are taken one after the other. -/
theorem run_values {first fin : Bool} (xs : List Tag) (hp : m.phase = .ready first fin)
    (hl : Loose m) (h : Inv L c m) :
    ∃ m', Machine.run (step L c) m (xs.flatMap fun x => [.call,.value ⟨x,false⟩]) = some m' ∧
      m'.phase = .ready first fin ∧ m'.read = m.read ++ xs ∧ Loose m' ∧ Inv L c m' := by
  induction xs generalizing m with
  | nil => exact ⟨m,rfl,hp,(List.append_nil _).symm,hl,h⟩
  | cons x xs ih =>
    have hcall : step L c m .call =
        some {m with phase := .returned first fin, calls := m.calls + 1} := by simp only [step,hp]
    have hc : Inv L c {m with phase := .returned first fin, calls := m.calls + 1} :=
      ⟨h.owns.call h.url hl.1.2 hl.2.2 _,h.url,h.artist,h.title,h.duration,h.inserted⟩
    have hlc : Loose {m with phase := .returned first fin, calls := m.calls + 1} := hl
    obtain ⟨m',hrun,hp',hread,hl',hi⟩ := ih (m := {on_value L c
        {m with phase := .returned first fin, calls := m.calls + 1} ⟨x,false⟩ with
      phase := .ready first fin, read := m.read ++ [x]}) rfl (loose_value x hlc)
      (hc.value ⟨x,false⟩ (inOrder_value x false hlc) _)
    refine ⟨m',?_,hp',?_,hl',hi⟩
    · rw [List.flatMap_cons]
      exact Machine.run_append_eq_some.mpr
        ⟨_,Machine.run_cons_eq_some.mpr ⟨_,hcall,Machine.run_cons_eq_some.mpr ⟨_,rfl,rfl⟩⟩,hrun⟩
    · rw [hread]
      simp

theorem run_one_chunk (L : PathLib) (c : Conf) (xs ys : List Tag) :
    ∃ m, Machine.run (step L c) .init (one_chunk xs ys) = some m ∧
      m.inserted = (listed L c (xs ++ ys)).2 := by
  have hstart : Inv L c {M3u.init with phase := .ready true false} := (inv_init L c).phase _
  obtain ⟨m,hm,hp,hread,hl,hi⟩ := run_values xs rfl (⟨⟨rfl,rfl⟩,rfl,rfl⟩ : Loose _) hstart
  have hi' : Inv L c {m with phase := .ready true true, calls := m.calls + 1} :=
    ⟨(hi.owns.call hi.url hl.1.2 hl.2.2 _),hi.url,hi.artist,hi.title,hi.duration,hi.inserted⟩
  obtain ⟨m',hm',hp',hread',hl',hlast⟩ :=
    run_values ys rfl (show Loose {m with phase := .ready true true, calls := m.calls + 1} from hl) hi'
  refine ⟨{m' with phase := .finished, calls := m'.calls + 1},?_,?_⟩
  · have hbreak : Machine.run (step L c) m [.call,.more] =
        some {m with phase := .ready true true, calls := m.calls + 1} := by
      simp [Machine.run,step,hp]
    have hend : Machine.run (step L c) m' [.call,.more] =
        some {m' with phase := .finished, calls := m'.calls + 1} := by
      simp [Machine.run,step,hp']
    exact Machine.run_append_eq_some.mpr ⟨m',Machine.run_append_eq_some.mpr
      ⟨_,Machine.run_append_eq_some.mpr ⟨m,Machine.run_cons_eq_some.mpr ⟨_,rfl,hm⟩,hbreak⟩,hm'⟩,hend⟩
  · have hreads : m'.read = xs ++ ys := by
      rw [hread',hread]
      rfl
    rw [← hreads]
    exact hlast.inserted

/-- The list is read as from one chunk, and each field that has a capacity in any state of the
run owns its memory while the others refer to data that is there, exactly when no tag lies in the
parser's buffer at its next call and no tag comes again after it was copied. -/
theorem chunks_agree (L : PathLib) (c : Conf) (as : List Act) (m : M3u)
    (hrun : Machine.run (step L c) .init as = some m) :
    ((∀ bs, bs <+: as → ∀ n, Machine.run (step L c) .init bs = some n → Owns n) ∧
      ∀ xs ys, xs ++ ys = m.read →
        ∃ n, Machine.run (step L c) .init (one_chunk xs ys) = some n ∧ m.inserted = n.inserted) ↔
    Machine.AllSteps (step L c) InOrder .init as := by
  have hinv {bs : List Act} {n : M3u} (ho : Machine.AllSteps (step L c) InOrder .init bs)
      (hn : Machine.run (step L c) .init bs = some n) : Inv L c n ∨ Closed L c n :=
    Machine.guarded_invariant (fun _ _ _ h ho hs => inv_step h ho hs) ho hn (.inl (inv_init L c))
  constructor
  · rintro ⟨howns,-⟩
    exact Machine.AllSteps.of_prefixes (P := Owns) (fun _ _ _ h h' hs => inOrder_of_owns h h' hs) hrun howns
  · intro ho
    refine ⟨fun bs ⟨cs,hcs⟩ n hn => ?_,fun xs ys hxy => ?_⟩
    · rw [← hcs] at ho
      exact (hinv ho.of_append hn).elim Inv.owns fun h => h.2.1
    · obtain ⟨n,hn,hins⟩ := run_one_chunk L c xs ys
      refine ⟨n,hn,?_⟩
      rw [hins,hxy]
      exact (hinv ho hrun).elim Inv.inserted fun h => h.2.2

end Runs

/-- A list in two chunks, with the end of the first between the tags and the name. -/
def split_list : List Act :=
  [.chunk false,.call,.value ⟨.duration 1,false⟩,.call,.value ⟨.artist ['A'],false⟩,
    .call,.value ⟨.title ['B'],false⟩,.call,.more,
    .chunk true,.call,.value ⟨.url ['u'],true⟩,.call,.more,.call,.more,.close]

theorem chunks_agree_split :
    ((∀ bs, bs <+: split_list → ∀ n, Machine.run (step unix ⟨[],[]⟩) .init bs = some n → Owns n) ∧
      ∀ xs ys, xs ++ ys = [.duration 1,.artist ['A'],.title ['B'],.url ['u']] →
        ∃ n, Machine.run (step unix ⟨[],[]⟩) .init (one_chunk xs ys) = some n ∧
          [⟨some ['u'],1000,[("artist",some ['A']),("title",some ['B'])],true⟩] = n.inserted) ↔
    Machine.AllSteps (step unix ⟨[],[]⟩) InOrder .init split_list :=
  chunks_agree unix ⟨[],[]⟩ split_list
    ((Machine.run (step unix ⟨[],[]⟩) .init split_list).getD .init)
    (Machine.run_eq_getD (by decide +kernel))

/-- The artist comes again after the first was copied: the entry frees a place in the chunk and
the copy is never freed. -/
theorem artist_again :
    (∀ m, Machine.run (step unix ⟨[],[]⟩) .init
        [.chunk false,.call,.value ⟨.artist ['A'],false⟩,.call,.more,
          .chunk true,.call,.value ⟨.artist ['B'],false⟩,.call,.value ⟨.url ['u'],false⟩] = some m →
      m.freed = [.chunk 1] ∧ m.next = 1 ∧ ¬Owns m) ∧
    (Machine.run (step unix ⟨[],[]⟩) .init
        [.chunk false,.call,.value ⟨.artist ['A'],false⟩,.call,.more,
          .chunk true,.call,.value ⟨.artist ['B'],false⟩,.call,.value ⟨.url ['u'],false⟩]).isSome := by
  refine ⟨fun m hm => ?_,by decide +kernel⟩
  have hfreed : (Machine.run (step unix ⟨[],[]⟩) .init
      [.chunk false,.call,.value ⟨.artist ['A'],false⟩,.call,.more,
        .chunk true,.call,.value ⟨.artist ['B'],false⟩,.call,.value ⟨.url ['u'],false⟩]).map
          (fun m => (m.freed,m.next)) = some ([.chunk 1],1) := by decide +kernel
  rw [hm,Option.map_some,Option.some.injEq,Prod.mk.injEq] at hfreed
  refine ⟨hfreed.1,hfreed.2,fun ho => ?_⟩
  obtain ⟨b,hb⟩ := ho.heap (.chunk 1) (by rw [hfreed.1]; exact List.mem_cons_self)
  cases hb

end Phiola.Playlist
