import Phiola.List.Reader
import Phiola.Queue.Order
import Phiola.Queue.Play

/-!
# Saved playlists

`q_save()` writes the names of a queue's entries as they are. Loading the file puts the entry of
the list into a queue, and the reader replaces it with the entries that it finds.
-/

namespace Phiola.Playlist

/-- `struct phi_queue_entry`, as far as it is saved. -/
structure Item where
  name : Name
  length_msec : UInt32
  tags : List (String × Name)

/-- `m3uwrite_entry` -/
structure M3e where
  url : Name
  duration_sec : Int
  artist : Name
  title : Name

/-- The conversion of an unsigned number to `int`. -/
def to_int (n : UInt32) : Int := if n.toNat < 2147483648 then n.toNat else n.toNat - 4294967296

/-- `meta_find()` of a tag that is set. -/
def meta_find (tags : List (String × Name)) (name : String) : Name :=
  ((tags.find? fun x => x.1 = name).map Prod.snd).getD []

/-- The body of the loop of `m3uw_process()`. -/
def m3uw_entry (e : Item) : M3e where
  url := e.name
  duration_sec := if e.length_msec.toNat ≠ 0 then (to_int e.length_msec).tdiv 1000 else -1
  artist := meta_find e.tags "artist"
  title := meta_find e.tags "title"

def line_break (ch : Char) : Bool := ch = '\n' || ch = '\r'

/-- What one entry of a list may say. -/
structure M3e.OneLine (e : M3e) : Prop where
  named : e.url ≠ []
  url : ∀ ch ∈ e.url, line_break ch = false
  artist : ∀ ch ∈ e.artist, line_break ch = false
  title : ∀ ch ∈ e.title, line_break ch = false

/-- The values that the parser returns for an entry. -/
def M3e.values (e : M3e) : List Tag :=
  .duration e.duration_sec :: (if e.artist = [] then [] else [.artist e.artist]) ++
    (if e.title = [] then [] else [.title e.title]) ++ [.url e.url]

/-- The m3u writer and parser, which are inverse. -/
structure M3uFormat where
  Text : Type
  write : List M3e → Text
  read : Text → List Tag
  inverse : ∀ es, (∀ e ∈ es, e.OneLine) → read (write es) = es.flatMap M3e.values

/-- A text is the entries themselves. -/
def plain : M3uFormat := ⟨List M3e,id,fun es => es.flatMap M3e.values,fun _ _ => rfl⟩

/-- The text that `q_save()` writes. -/
def q_save (F : M3uFormat) (items : List Item) : F.Text := F.write (items.map m3uw_entry)

/-- The queues and the entries' `pub`. -/
structure Shelf where
  mgr : QueueMgr
  conf : Nat → Option Entry

/-- `queue->insert()` and, for the first entry, `queue->remove()` in `m3u_add()`. -/
def shelve (t : Nat) (um : Bool) (x : Shelf) (e : Entry) : Shelf :=
  ⟨x.mgr.readerInsert t um,Function.update x.conf x.mgr.ne (some e)⟩

/-- The list is added to queue `q` and its reader `m` inserts its entries and is closed. -/
def load (s : QueueMgr) (q : Nat) (um : Bool) (conf : Nat → Option Entry) (m : M3u) : Shelf :=
  let x := m.inserted.foldl (shelve s.nt um) ⟨s.qAdd q um (some .m3u) true,conf⟩
  ⟨x.mgr.readerClose s.nt,x.conf⟩

/-- The entries of a queue. -/
def Shelf.list (x : Shelf) (q : Nat) : List (Option Entry) := (x.mgr.queue q).index.map x.conf

/-! ## The entries in the queue -/

section Queue

open QueueMgr

variable {s : QueueMgr} {q t c p : Nat} {l : List Nat}

theorem qeInsert_last (um : Bool) (hl : (s.queue q).index = l ++ [c]) (hn : (l ++ [c]).Nodup)
    (hq : (s.ent c).q = q) :
    (s.qeInsert c um).2 = s.ne ∧ (s.qeInsert c um).1.ne = s.ne + 1 ∧
      ((s.qeInsert c um).1.queue q).index = l ++ [c,s.ne] ∧
      (s.qeInsert c um).1.trk = s.trk ∧ ((s.qeInsert c um).1.ent s.ne).q = q ∧
      ∀ e, e ≠ s.ne → ((s.qeInsert c um).1.ent e).q = (s.ent e).q := by
  have hat : (s.qeIndex c).2 = l.length := qeIndex_listed hq (hl ▸ hn) (by simp [hl])
  have hpos : ((s.qeIndex c).2 + 1).toNat = (l ++ [c]).length := by
    rw [hat]
    simp
  unfold qeInsert qInsert
  dsimp only
  refine ⟨by simp,by simp,?_,by simp,?_,fun e he => ?_⟩
  · rw [hpos]
    simp only [setQueue_self,qeIndex_queue,qeIndex_ne,hq,hl]
    rw [List.insertIdx_length_self,List.append_assoc]
    rfl
  · simp [hq]
  · simp only [qeIndex_ne,setQueue_ent]
    rw [setEnt_of_ne _ he]
    exact (qeIndex_ent s c e).1

theorem qeRemove_at (hp : (s.queue q).index[p]? = some c) (hn : (s.queue q).index.Nodup)
    (hq : (s.ent c).q = q) :
    ((s.qeRemove c).1.queue q).index = (s.queue q).index.eraseIdx p ∧
      ∀ e, ((s.qeRemove c).1.ent e).q = (s.ent e).q := by
  have hat : (s.qeIndex c).2 = p := qeIndex_listed hq hn hp
  have hget : qGet ((s.qeIndex c).1.queue q) p = some c := by
    rw [qeIndex_queue]
    exact qGet_eq_some.mpr ⟨p,rfl,hp⟩
  have hent (e : Nat) : ((s.qeIndex c).1.ent e).q = (s.ent e).q := (qeIndex_ent s c e).1
  unfold qeRemove qRemoveAt
  dsimp only
  rw [hq,hat,hget]
  dsimp only
  refine ⟨?_,fun e => ?_⟩
  · rw [(sameOrder_unref _ c).index,setQueue_self]
    simp
  · rw [((sameOrder_unref _ c).ent e).1,setQueue_ent]
    by_cases he : e = c
    · subst he
      rw [setEnt_self]
      exact hent e
    · rw [setEnt_of_ne _ he]
      exact hent e

/-- What the reader of track `t`, which reads the list of entry `p`, has inserted: `n` entries. -/
structure Inserted (s : QueueMgr) (q t p n : Nat) : Prop where
  ne : s.ne = p + 1 + n
  qent : (s.trk t).qent = p
  expands : (s.trk t).expands = some .m3u
  removed : (s.trk t).removed = decide (n ≠ 0)
  cur : (s.trk t).quCur = p + n
  index : (s.queue q).index = if n = 0 then [p] else List.range' (p + 1) n
  ent : ∀ e, p ≤ e → e < s.ne → (s.ent e).q = q

theorem qeRemove_rest (s : QueueMgr) (e : Nat) :
    (s.qeRemove e).1.ne = s.ne ∧ (s.qeRemove e).1.trk = s.trk := by
  simp [qeRemove]

theorem Inserted.first (h : Inserted s q t p 0) (um : Bool) :
    Inserted (s.readerInsert t um) q t p 1 := by
  have hidx : (s.queue q).index = [] ++ [p] := h.index
  have hne : s.ne = p + 1 := h.ne
  have hp : (s.ent p).q = q := h.ent p (Nat.le_refl p) (by omega)
  obtain ⟨hid,hnext,hins,htrk,hnew,hent⟩ := qeInsert_last um hidx (by simp) hp
  have hown : ((s.qeInsert p um).1.ent p).q = q := (hent p (by omega)).trans hp
  have hcur : (s.trk t).quCur = p := h.cur
  have hrem : (s.trk t).removed = false := h.removed
  have hread : s.readerInsert t um = (((s.qeInsert p um).1.setTrk t
      {s.trk t with quCur := s.ne, removed := true}).qeRemove p).1 := by
    unfold QueueMgr.readerInsert
    dsimp only
    rw [hcur,hrem,hid,htrk,if_neg Bool.false_ne_true,h.qent]
  have hat : (((s.qeInsert p um).1.setTrk t {s.trk t with quCur := s.ne, removed := true}).queue
      q).index[0]? = some p := by simp [hins]
  have hnodup : ((s.qeInsert p um).1.setTrk t {s.trk t with quCur := s.ne, removed := true}).queue
      q |>.index.Nodup := by
    simp [hins]
    omega
  obtain ⟨hlist,hq⟩ := qeRemove_at hat hnodup (by simpa using hown)
  obtain ⟨hne',htrk'⟩ := qeRemove_rest
    ((s.qeInsert p um).1.setTrk t {s.trk t with quCur := s.ne, removed := true}) p
  rw [hread]
  refine ⟨?_,?_,?_,?_,?_,?_,fun e he hlt => ?_⟩
  · rw [hne',setTrk_ne,hnext,hne]
  · rw [htrk',setTrk_self]
    exact h.qent
  · rw [htrk',setTrk_self]
    exact h.expands
  · rw [htrk',setTrk_self]
    rfl
  · rw [htrk',setTrk_self]
    exact hne
  · rw [hlist,setTrk_queue,hins,hne]
    rfl
  · rw [hne',setTrk_ne,hnext] at hlt
    rw [hq,setTrk_ent]
    by_cases hlast : e = s.ne
    · rw [hlast]
      exact hnew
    · rw [hent e hlast]
      exact h.ent e he (by omega)

theorem Inserted.next {n : Nat} (h : Inserted s q t p (n + 1)) (um : Bool) :
    Inserted (s.readerInsert t um) q t p (n + 2) := by
  have hidx : (s.queue q).index = List.range' (p + 1) n ++ [p + 1 + n] := by
    rw [h.index,if_neg (Nat.succ_ne_zero n),List.range'_1_concat]
  have hne : s.ne = p + 1 + (n + 1) := h.ne
  have hlast : (s.ent (p + 1 + n)).q = q := h.ent _ (by omega) (by omega)
  have hnodup : (List.range' (p + 1) n ++ [p + 1 + n]).Nodup := by
    rw [← List.range'_1_concat]
    exact List.nodup_range'
  obtain ⟨hid,hnext,hins,htrk,hnew,hent⟩ := qeInsert_last um hidx hnodup hlast
  have hcur : (s.trk t).quCur = p + 1 + n := by
    rw [h.cur]
    omega
  have hrem : (s.trk t).removed = true := h.removed
  have hread : s.readerInsert t um = (s.qeInsert (p + 1 + n) um).1.setTrk t
      {s.trk t with quCur := s.ne, removed := true} := by
    unfold QueueMgr.readerInsert
    dsimp only
    rw [hcur,hrem,hid,htrk,if_pos rfl]
  rw [hread]
  refine ⟨?_,?_,?_,?_,?_,?_,fun e he hlt => ?_⟩
  · rw [setTrk_ne,hnext,hne]
    omega
  · rw [setTrk_self]
    exact h.qent
  · rw [setTrk_self]
    exact h.expands
  · rw [setTrk_self]
    rfl
  · rw [setTrk_self]
    change s.ne = _
    omega
  · rw [setTrk_queue,hins,if_neg (Nat.succ_ne_zero _),List.range'_1_concat,List.range'_1_concat,hne,
      List.append_assoc]
    rfl
  · rw [setTrk_ne,hnext] at hlt
    rw [setTrk_ent]
    by_cases hl : e = s.ne
    · rw [hl]
      exact hnew
    · rw [hent e hl]
      exact h.ent e he (by omega)

theorem Inserted.succ {n : Nat} (h : Inserted s q t p n) (um : Bool) :
    Inserted (s.readerInsert t um) q t p (n + 1) := by
  cases n with
  | zero => exact h.first um
  | succ n => exact h.next um

theorem inserted_add (hq : (s.queue q).index = []) (um : Bool) :
    Inserted (s.qAdd q um (some .m3u) true) q s.nt s.ne 0 := by
  unfold qAdd qInsert qeExpand startTrack
  dsimp only
  refine ⟨rfl,?_,?_,?_,?_,?_,fun e he hlt => ?_⟩
  · simp
  · simp
  · simp
  · simp
  · simp [hq]
  · have hee : e = s.ne := by
      simp at hlt
      omega
    subst hee
    simp

theorem list_shelve {x : Shelf} {n : Nat} (um : Bool) (es : List Entry)
    (h : Inserted x.mgr q t p n) :
    Inserted (es.foldl (shelve t um) x).mgr q t p (n + es.length) ∧
      (List.range' (p + 1) (n + es.length)).map (es.foldl (shelve t um) x).conf =
        (List.range' (p + 1) n).map x.conf ++ es.map some := by
  induction es generalizing x n with
  | nil => exact ⟨h,by simp⟩
  | cons e es ih =>
    obtain ⟨hi,hlist⟩ := ih (x := shelve t um x e) (h.succ um)
    have hlen : n + (e :: es).length = n + 1 + es.length := by
      rw [List.length_cons]
      omega
    rw [hlen,List.foldl_cons]
    refine ⟨hi,hlist.trans ?_⟩
    have hold : (List.range' (p + 1) n).map (shelve t um x e).conf =
        (List.range' (p + 1) n).map x.conf := by
      apply List.map_congr_left
      intro k hk
      have hne : k ≠ x.mgr.ne := by
        have hlt := (List.mem_range'_1.mp hk).2
        rw [h.ne]
        omega
      exact Function.update_of_ne hne _ _
    have hnew : (shelve t um x e).conf (p + 1 + n) = some e := by
      rw [← h.ne]
      exact Function.update_self _ _ _
    rw [List.range'_1_concat,List.map_append,hold,List.map_cons,List.map_nil,hnew,
      List.append_assoc]
    rfl

/-- Loading a list into an empty queue leaves the entries that its reader inserted. -/
theorem list_load (hq : (s.queue q).index = []) (um : Bool) (conf : Nat → Option Entry) (m : M3u) :
    (load s q um conf m).list q = m.inserted.map some := by
  obtain ⟨hi,hlist⟩ := list_shelve (x := ⟨s.qAdd q um (some .m3u) true,conf⟩) um m.inserted
    (inserted_add hq um)
  rw [Nat.zero_add] at hi hlist
  unfold load Shelf.list readerClose
  dsimp only
  rw [hi.expands,hi.removed,hi.qent]
  by_cases hn : m.inserted.length = 0
  · have hnil : m.inserted = [] := List.eq_nil_of_length_eq_zero hn
    rw [hnil] at hi ⊢
    have hidx : ((s.qAdd q um (some .m3u) true).queue q).index = [s.ne] := hi.index
    have hown := hi.ent s.ne (Nat.le_refl _) (by rw [hi.ne]; simp)
    have hrem := (qeRemove_at (s := s.qAdd q um (some .m3u) true) (p := 0) (c := s.ne) (q := q)
      (by simp [hidx]) (by simp [hidx]) hown).1
    simp [hrem,hidx]
  · rw [if_neg (by simp [hn])]
    have hidx := hi.index
    rw [if_neg hn] at hidx
    rw [hidx]
    simpa using hlist

end Queue

/-! ## The names and durations that are read -/

section Read

variable {L : PathLib} {c : Conf} {m m' : M3u} {a : Act}

/-- The part of an entry that no tag has a say in. -/
def Entry.place (e : Entry) : Option Name × Nat := (e.name,e.length_msec)

/-- The names and durations are those of the list, whatever becomes of the tags. -/
structure Placed (L : PathLib) (c : Conf) (m : M3u) : Prop where
  url : m.url = .zero
  duration : m.phase ≠ .closed → m.duration = (listed L c m.read).1.duration
  inserted : m.inserted.map Entry.place = (listed L c m.read).2.map Entry.place

theorem fetch_set2 (own : Bool) (val : Name) (v : Vec) :
    m.fetch (m.set2 v own val) = some val := by
  unfold M3u.fetch
  split
  · symm
    assumption
  · cases own <;> simp [M3u.set2,M3u.valid]

theorem Placed.value (h : Placed L c m) (e : Ev) {p : Phase} (hp : m.phase ≠ .closed) :
    Placed L c {on_value L c m e with phase := p, read := m.read ++ [e.tag]} := by
  obtain ⟨tag,own⟩ := e
  have hd := h.duration hp
  cases tag with
  | artist val =>
    exact ⟨h.url,fun _ => by rw [listed_snoc]; exact hd,by rw [listed_snoc]; exact h.inserted⟩
  | title val =>
    exact ⟨h.url,fun _ => by rw [listed_snoc]; exact hd,by rw [listed_snoc]; exact h.inserted⟩
  | duration sec =>
    exact ⟨h.url,fun _ => by rw [listed_snoc]; rfl,by rw [listed_snoc]; exact h.inserted⟩
  | warn => exact ⟨h.url,fun _ => by rw [listed_snoc]; exact hd,by rw [listed_snoc]; exact h.inserted⟩
  | url val =>
    refine ⟨rfl,fun _ => by rw [listed_snoc]; rfl,?_⟩
    have hurl : M3u.fetch {m with url := m.set2 m.url own val} (m.set2 m.url own val) = some val :=
      fetch_set2 own val m.url
    rw [listed_snoc]
    simp only [on_value,m3u_add,pls_entry_free,list_tag,List.map_append,h.inserted]
    congr 1
    simp only [List.map_cons,List.map_nil,Entry.place,m3u_entry,hurl]
    rw [hd]

theorem placed_step (h : Placed L c m) (hs : step L c m a = some m') : Placed L c m' := by
  cases a with
  | value e =>
    simp only [step] at hs
    split at hs
    · rename_i first fin hp
      obtain rfl := Option.some.inj hs
      exact h.value e (by simp [hp])
    · cases hs
  | close =>
    simp only [step] at hs
    split at hs
    · obtain rfl := Option.some.inj hs
      exact ⟨rfl,fun hc => absurd rfl hc,h.inserted⟩
    · cases hs
  | chunk first =>
    simp only [step] at hs
    split at hs
    · rename_i hp
      obtain rfl := Option.some.inj hs
      exact ⟨h.url,fun _ => h.duration (by simp [hp]),h.inserted⟩
    · cases hs
  | call =>
    simp only [step] at hs
    split at hs
    · rename_i first fin hp
      obtain rfl := Option.some.inj hs
      exact ⟨h.url,fun _ => h.duration (by simp [hp]),h.inserted⟩
    · cases hs
  | more =>
    simp only [step] at hs
    split at hs
    all_goals
      first
        | cases hs; done
        | (rename_i hp
           obtain rfl := Option.some.inj hs
           exact ⟨h.url,fun _ => h.duration (by simp [hp]),h.inserted⟩)

theorem placed_run {as : List Act} (hrun : Machine.run (step L c) .init as = some m) :
    Placed L c m :=
  Machine.run_invariant (fun _ _ _ h hs => placed_step h hs) hrun ⟨rfl,fun _ => rfl,rfl⟩

/-- The length in milliseconds that a duration stands for. -/
def msec (d : Int) : Nat := if d = -1 then 0 else (d * 1000 % 4294967296).toNat

theorem listed_values (x : Pending × List Entry) (e : M3e) :
    ∃ y : Entry, e.values.foldl (list_tag L c) x = (⟨[],[],-1⟩,x.2 ++ [y]) ∧
      y.place = (some (plist_fullname L c.ifile e.url),msec e.duration_sec) := by
  refine ⟨m3u_entry L c (some e.url) (some (if e.artist = [] then x.1.artist else e.artist))
    (some (if e.title = [] then x.1.title else e.title)) e.duration_sec,?_,rfl⟩
  by_cases ha : e.artist = [] <;> by_cases ht : e.title = [] <;> simp [M3e.values,ha,ht,list_tag]

theorem listed_flatMap (x : Pending × List Entry) (es : List M3e) :
    ((es.flatMap M3e.values).foldl (list_tag L c) x).2.map Entry.place = x.2.map Entry.place ++
      es.map fun e => (some (plist_fullname L c.ifile e.url),msec e.duration_sec) := by
  induction es generalizing x with
  | nil => simp
  | cons e es ih =>
    obtain ⟨y,hy,hplace⟩ := listed_values (L := L) (c := c) x e
    rw [List.flatMap_cons,List.foldl_append,hy,ih]
    simp [hplace]

end Read

/-! ## What comes back -/

section Saved

variable (L : PathLib) (cwd : List Name)

/-- The entry stands for the same file or URL, and its duration is the same in seconds. -/
def SameEntry (e : Item) (x : Option Name × Nat) : Prop :=
  (∃ n, x.1 = some n ∧ resolve L cwd n = resolve L cwd e.name) ∧
    x.2 / 1000 = e.length_msec.toNat / 1000

/-- A relative name is not taken for a URL behind the list's directory, and that directory and
the current one are the same above where the name goes up to. -/
def NameKept (fn name : Name) : Prop :=
  L.abs name = false → ffuri_scheme L name = 0 →
    (L.abs fn = true ∨ ffuri_scheme L (path_of L fn ++ name) = 0) ∧
      parent (climb name) (dir_of L cwd fn) = parent (climb name) cwd

/-- The length fits in `int`, or its value as `int` loses no second. -/
def LengthKept (n : UInt32) : Prop :=
  n.toNat < 2147483648 ∨ n.toNat % 1000 ≤ 296 ∧ n.toNat ≤ 4294965296

end Saved

theorem msec_nat {d : Nat} (h : d * 1000 < 4294967296) : msec d / 1000 = d := by
  have hmod : (d : Int) * 1000 % 4294967296 = (d * 1000 : Nat) := by
    rw [Int.emod_eq_of_lt (by omega) (by omega)]
    rfl
  unfold msec
  rw [if_neg (by omega),hmod,Int.toNat_natCast]
  exact Nat.mul_div_cancel d (by decide)

theorem msec_neg {d : Nat} (h : 1 < d) (hle : d ≤ 4294967) : msec (-d) / 1000 = 4294967 - d := by
  have hmod : -(d : Int) * 1000 % 4294967296 = (4294967296 - d * 1000 : Nat) := by omega
  unfold msec
  rw [if_neg (by omega),hmod,Int.toNat_natCast]
  omega

theorem msec_saved (n : UInt32) :
    msec (if n.toNat ≠ 0 then (to_int n).tdiv 1000 else -1) / 1000 = n.toNat / 1000 ↔
      LengthKept n := by
  have hlt := n.toNat_lt
  unfold to_int LengthKept
  generalize n.toNat = m at hlt ⊢
  by_cases hsmall : m < 2147483648
  · rw [if_pos hsmall]
    refine iff_of_true ?_ (.inl hsmall)
    by_cases hzero : m = 0
    · subst hzero
      rfl
    · rw [if_pos hzero,Int.tdiv_eq_ediv_of_nonneg (Int.natCast_nonneg m)]
      exact msec_nat (d := m / 1000) (by omega)
  · obtain ⟨k,hk⟩ : ∃ k : Nat, k = 4294967296 - m := ⟨_,rfl⟩
    have hneg : (m : Int) - 4294967296 = -(k : Int) := by omega
    rw [if_neg hsmall,if_pos (show m ≠ 0 by omega),hneg,Int.neg_tdiv,
      Int.tdiv_eq_ediv_of_nonneg (Int.natCast_nonneg k)]
    change msec (-(k / 1000 : Nat)) / 1000 = m / 1000 ↔ _
    -- -1 is no length
    by_cases hone : k / 1000 = 1
    · rw [hone]
      change 0 = m / 1000 ↔ _
      omega
    · by_cases hzero : k / 1000 = 0
      · rw [hzero]
        change 0 = m / 1000 ↔ _
        omega
      · -- a second is lost where the remainder of the wrapped value passes that of 2^32
        rw [msec_neg (by omega) (by omega)]
        omega

section Saved

variable {L : PathLib} {cwd : List Name} {fn name : Name}

theorem path_of_cases (L : PathLib) (fn : Name) :
    (path_of L fn = [] ∧ L.abs fn = false) ∨
      ∃ p, path_of L fn = p ++ ['/'] ∧ ∀ n, L.abs (path_of L fn ++ n) = L.abs fn := by
  cases hs : L.split fn with
  | none =>
    refine .inl ⟨by simp [path_of,hs],Bool.eq_false_iff.mpr fun ha => ?_⟩
    have hhead := (L.abs_iff fn).mp ha
    exact L.split_none fn hs (List.mem_of_mem_head? hhead)
  | some p =>
    refine .inr ⟨p,by simp [path_of,hs],fun n => ?_⟩
    obtain ⟨f,hf,-⟩ := L.split_some fn p hs
    have hp : path_of L fn = p ++ ['/'] := by simp [path_of,hs]
    rw [Bool.eq_iff_iff,L.abs_iff,L.abs_iff,hp,hf]
    cases p <;> simp

/-- The name that is loaded stands for what the saved name stands for. -/
theorem resolve_fullname (L : PathLib) (cwd : List Name) (fn name : Name) :
    resolve L cwd (plist_fullname L fn name) = resolve L cwd name ↔ NameKept L cwd fn name := by
  unfold NameKept plist_fullname
  by_cases ha : L.abs name = true
  · simp [ha]
  · have ha : L.abs name = false := Bool.eq_false_iff.mpr ha
    by_cases hs : ffuri_scheme L name = 0
    · have hname : resolve L cwd name = .file (walk cwd name) := by simp [resolve,ha,hs]
      rw [if_pos ⟨ha,hs⟩,hname]
      simp only [ha,hs,forall_true_left]
      rcases path_of_cases L fn with ⟨hp,hf⟩ | ⟨p,hp,habs⟩
      · have hdir : dir_of L cwd fn = cwd := by simp [dir_of,hp,hf,walk,enter]
        simp [hp,hname,hf,hs,hdir]
      · have hwalk (d : List Name) : walk d (path_of L fn ++ name) = walk (walk d (path_of L fn)) name := by
          rw [hp]
          exact walk_append d p name
        by_cases hf : L.abs fn = true
        · simp [resolve,habs,hf,hwalk,dir_of,walk_eq_walk_iff]
        · by_cases hu : ffuri_scheme L (path_of L fn ++ name) = 0
          · simp [resolve,habs,hf,hu,hwalk,dir_of,walk_eq_walk_iff]
          · simp [resolve,habs,hf,hu]
    · simp [hs]

theorem forall₂_map_iff {α β γ : Type} {R : α → β → Prop} {f : γ → Option β} {g : α → β} {P : α → Prop}
    (h : ∀ a, R a (g a) ↔ P a) {as : List α} {ys : List γ} (hys : ys.map f = as.map (some ∘ g)) :
    List.Forall₂ (fun a y => ∃ b, f y = some b ∧ R a b) as ys ↔ ∀ a ∈ as, P a := by
  induction as generalizing ys with
  | nil =>
    obtain rfl : ys = [] := by simpa using hys
    simp
  | cons a as ih =>
    cases ys with
    | nil => simp at hys
    | cons y ys =>
      simp only [List.map_cons,Function.comp,List.cons.injEq] at hys
      rw [List.forall₂_cons,ih hys.2,List.forall_mem_cons,← h a]
      simp [hys.1]

/-- A saved queue is loaded into an empty one with the same entries in the same order exactly
when each name and each length is kept. -/
theorem saved_loads_back (L : PathLib) (F : M3uFormat) (cwd : List Name) (fn : Name)
    (items : List Item) (hlines : ∀ e ∈ items, (m3uw_entry e).OneLine)
    (tags : List (String × Name)) (as : List Act) (m : M3u)
    (hrun : Machine.run (step L ⟨fn,tags⟩) .init as = some m)
    (hread : m.read = F.read (q_save F items))
    (s : QueueMgr) (q : Nat) (hempty : (s.queue q).index = []) (um : Bool)
    (conf : Nat → Option Entry) :
    List.Forall₂ (fun e x => ∃ y, x.map Entry.place = some y ∧ SameEntry L cwd e y) items
        ((load s q um conf m).list q) ↔
      ∀ e ∈ items, NameKept L cwd fn e.name ∧ LengthKept e.length_msec := by
  have hvalues : m.read = (items.map m3uw_entry).flatMap M3e.values := by
    rw [hread]
    exact F.inverse _ (by simpa using hlines)
  have hplaces := (placed_run hrun).inserted
  rw [hvalues,listed,listed_flatMap] at hplaces
  apply forall₂_map_iff (g := fun e : Item => (some (plist_fullname L fn e.name),
    msec (m3uw_entry e).duration_sec))
  · intro e
    have hname := resolve_fullname L cwd fn e.name
    have hlength := msec_saved e.length_msec
    rw [← hname,← hlength]
    simp [SameEntry,m3uw_entry]
  · rw [list_load hempty]
    have hmap := congrArg (List.map some) hplaces
    simpa [Function.comp_def,m3uw_entry] using hmap

end Saved

/-- A song of 61 seconds in the current directory. -/
def song : Item := ⟨['a'],61000,[]⟩

def empty_queue : QueueMgr := QueueMgr.init.qCreate false false false

/-- The reader of a saved list with this song, once it is done. -/
def song_reader (fn : Name) : M3u :=
  (Machine.run (step unix ⟨fn,[]⟩) .init (one_chunk (m3uw_entry song).values [])).getD .init

/-- A song in the current directory, one with an absolute name and no length, and one with a URL. -/
def album : List Item := [song,⟨['/','p','/','b'],0,[]⟩,⟨['h',':','/','/','c'],5999,[("artist",['d'])]⟩]

def album_values : List Tag := album.flatMap fun e => (m3uw_entry e).values

def album_reader : M3u := (Machine.run (step unix ⟨['l'],[]⟩) .init (one_chunk album_values [])).getD .init

theorem saved_loads_back_song :
    List.Forall₂ (fun e x => ∃ y, x.map Entry.place = some y ∧ SameEntry unix [['m']] e y) album
      ((load empty_queue 0 false (fun _ => none) album_reader).list 0) := by
  have hlines : ∀ e ∈ album, (m3uw_entry e).OneLine := by
    intro e he
    simp only [album,List.mem_cons,List.not_mem_nil,or_false] at he
    rcases he with rfl | rfl | rfl
    all_goals
      exact ⟨by decide,by simp [m3uw_entry,song,line_break],by simp [m3uw_entry,song,meta_find,line_break],
        by simp [m3uw_entry,song,meta_find]⟩
  refine (saved_loads_back unix plain [['m']] ['l'] album hlines [] (one_chunk album_values []) album_reader
    (Machine.run_eq_getD (by decide +kernel)) (by decide +kernel) empty_queue 0 rfl false
    fun _ => none).mpr fun e he => ?_
  simp only [album,List.mem_cons,List.not_mem_nil,or_false] at he
  rcases he with rfl | rfl | rfl
  · exact ⟨fun _ _ => ⟨.inr (by decide),by decide⟩,.inl (by decide)⟩
  · exact ⟨fun h => absurd h (by decide),.inl (by decide)⟩
  · exact ⟨fun _ h => absurd h (by decide),.inl (by decide)⟩

/-- The list is saved to another directory: the song is looked for there. -/
theorem relative_name_moved :
    (load empty_queue 0 false (fun _ => none) (song_reader ['/','p','/','l'])).list 0 =
      [some ⟨some ['/','p','/','a'],61000,[],true⟩] ∧
    ¬List.Forall₂ (fun e x => ∃ y, x.map Entry.place = some y ∧ SameEntry unix [['m']] e y) [song]
      ((load empty_queue 0 false (fun _ => none) (song_reader ['/','p','/','l'])).list 0) := by
  have hlist : (load empty_queue 0 false (fun _ => none) (song_reader ['/','p','/','l'])).list 0 =
      [some ⟨some ['/','p','/','a'],61000,[],true⟩] := by decide +kernel
  refine ⟨hlist,fun h => ?_⟩
  rw [hlist] at h
  obtain ⟨y,hy,⟨n,hn,hsame⟩,-⟩ := (List.forall₂_cons.mp h).1
  obtain rfl := Option.some.inj hy
  obtain rfl := Option.some.inj hn
  exact absurd hsame (by decide)

end Phiola.Playlist
