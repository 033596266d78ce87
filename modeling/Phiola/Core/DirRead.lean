import Phiola.Framework.Fuel
import Phiola.Queue.Order
import Phiola.Queue.Ownership
import Phiola.Util.FnBlock

/-!
# Expanding a directory

`qu_add_dir_r()` builds the tree of the file names while `fntree_cur_next_r_ctx()` walks over it.
The loops of the two functions are one loop here: a round moves the cursor once, and where the
cursor comes to an entry it also does what the caller does with that entry.
-/

namespace Phiola.DirRead

open QueueMgr

/-- Bytes. -/
abbrev Name := List UInt8

-- '/'
def SLASH : UInt8 := 0x2f

/-- "%S/%S" -/
def join (path name : Name) : Name := path ++ SLASH :: name

/-- What `fffile_info()` says of a file. -/
inductive FileType where
  | dir
  | regular
  | other
deriving DecidableEq

/-- What the file system answers while a directory is expanded. -/
structure Fs where
  /-- `fffile_open()`; it does not return for a pipe that nobody writes to -/
  open_read : Name → Option Bool
  /-- `fffile_info()` -/
  info : Name → Option FileType
  /-- `ffdirscan_open()` and the names of `ffdirscan_next()` in their order -/
  dirscan : Name → Option (List Name)

/-- The filters of the track; `wildcard pattern fn` is `ffs_wildcard(..., FFS_WC_ICASE) == 0`. -/
structure Conf where
  ifile_include : List Name
  ifile_exclude : List Name
  wildcard : Name → Name → Bool

def file_matches (c : Conf) (fn : Name) (dir : Bool) : Bool :=
  (dir || c.ifile_include.isEmpty || c.ifile_include.any fun it => c.wildcard it fn) &&
    !c.ifile_exclude.any fun it => c.wildcard it fn

/-! ## The tree -/

structure Entry where
  name : Name
  children : Option Nat
deriving DecidableEq

structure Block where
  path : Name
  entries : List Entry
deriving DecidableEq

-- what `fntree_create()` asks for
def capacity (path : Name) : Nat := FnBlock.align_ceil2 (max (path.length + 1) 512) 512

/-- There is space for the path and the names in the block, as `fntree_create()` and `fntree_add()` take it. -/
def Fits (path : Name) (names : List Name) : Prop :=
  (16 + path.length + 1 ≤ capacity path ∧ capacity path < 2 ^ 32) ∧
    FnBlock.Room (capacity path) (FnBlock.align_ceil2 (16 + path.length + 1) 8)
      ((names.takeWhile fun n => n.length ≤ 0xffff).map fun n => (n,0))

instance (path : Name) (names : List Name) : Decidable (Fits path names) := instDecidableAnd

inductive Scanned where
  | block (b : Block)
  /-- NULL -/
  | refused
  /-- Bytes behind the block are written. -/
  | overflow

/-- `fntree_add()` refuses a name that is too long. -/
def fntree_from_dirscan (path : Name) (names : List Name) : Scanned :=
  if ¬Fits path names then .overflow
  else if names.all fun n => n.length ≤ 0xffff then .block ⟨path,names.map fun n => ⟨n,none⟩⟩
  else .refused

def Block.attach (b : Block) (i child : Nat) : Block :=
  {b with entries := b.entries.modify i fun e => {e with children := some child}}

/-- The loop over the entries and the search for the next subdirectory behind it. -/
inductive Phase where
  | entries
  | subdirs
deriving DecidableEq

/-- The blocks in memory, the cursor, and the queue with the names of its entries. -/
structure St where
  blocks : List Block
  blk : Option Nat
  cur : Option Nat
  curblock : Option Nat
  -- `block_stk` and `ent_stk`, the top first
  stk : List (Nat × Nat)
  phase : Phase
  qm : QueueMgr
  name : Nat → Name

inductive Result where
  /-- `qu_add_dir_r()` has returned this code. -/
  | rc (code : Int) (s : St)
  /-- A NULL block was followed. -/
  | null
  /-- Bytes behind a block were written. -/
  | overflow
  /-- The call that opens a file does not return. -/
  | blocked

def fntree_cur_next (cur : Option Nat) (b : Block) : Option Nat :=
  let i := match cur with
    | none => 0
    | some i => i + 1
  if i < b.entries.length then some i else none

-- FF_COUNT(block_stk)
def STK_MAX : Nat := 64

section Model

variable (c : Conf) (fs : Fs) (t : Nat)

/-- What the body of the loop of `qu_add_dir_r()` does with entry `i` of block `b`. -/
def visit (s : St) (b : Nat) (block : Block) (i : Nat) (e : Entry) : St ⊕ Result :=
  let fpath := join block.path e.name
  match fs.open_read fpath with
  | none => .inr .blocked
  | some false => .inl s
  | some true =>
    match fs.info fpath with
    | none => .inl s
    | some type =>
      let dir : Bool := type = .dir
      if file_matches c fpath dir = false then .inl s
      else if dir then
        match fs.dirscan fpath with
        | none => .inl s
        | some names =>
          match fntree_from_dirscan fpath names with
          | .overflow => .inr .overflow
          | .refused => .inl {s with blk := none}
          | .block new =>
            .inl {s with
              blocks := s.blocks.set b (block.attach i s.blocks.length) ++ [new]
              blk := some s.blocks.length}
      -- whatever is no directory is taken for a file
      else .inl {s with
        qm := s.qm.readerInsert t false
        name := Function.update s.name s.qm.ne fpath}

def round (s : St) : St ⊕ Result :=
  -- the block of the cursor is used, unless it has none yet
  match (match s.curblock with | some b => some b | none => s.blk) with
  | none => .inr .null
  | some b =>
    match s.blocks[b]? with
    | none => .inr .null
    | some block =>
      match s.phase, fntree_cur_next s.cur block with
      | .entries, some i =>
        match block.entries[i]? with
        | none => .inr .null
        | some e =>
          visit c fs t {s with cur := some i, curblock := some b, blk := some b} b block i e
      | .entries, none => .inl {s with cur := none, curblock := some b, phase := .subdirs}
      | .subdirs, none =>
        match s.stk with
        | [] => .inr (.rc 0 s)
        | (b',i') :: stk => .inl {s with cur := some i', curblock := some b', stk := stk}
      | .subdirs, some i =>
        match block.entries[i]? with
        | none => .inr .null
        | some e =>
          match e.children with
          | none => .inl {s with cur := some i}
          | some child =>
            -- `_fntr_cur_push()` returns NULL, and nobody looks
            if s.stk.length = STK_MAX then .inr .null
            else .inl {s with
              stk := (b,i) :: s.stk, cur := none, curblock := some child, phase := .entries}

/-- The state before the first round. -/
def start (root : Block) (qm : QueueMgr) (name : Nat → Name) : St where
  blocks := [root]
  blk := some 0
  cur := none
  curblock := none
  stk := []
  phase := .entries
  qm := qm
  name := name

/-- The state when the directory itself cannot be read. -/
def unread (qm : QueueMgr) (name : Nat → Name) : St :=
  {start ⟨[],[]⟩ qm name with blocks := [], blk := none}

def qu_add_dir_r (fn : Name) (qm : QueueMgr) (name : Nat → Name) (fuel : Nat) : Option Result :=
  match fs.dirscan fn with
  | none => some (.rc (-1) (unread qm name))
  | some names =>
    match fntree_from_dirscan fn names with
    | .overflow => some .overflow
    | .refused => some (.rc (-1) (unread qm name))
    | .block root => Fuel.loop (round c fs t) fuel (start root qm name)

end Model

/-! ## The directory on the disk -/

/-- What the loop learns about a file. -/
inductive Kind where
  /-- It can't be opened. -/
  | unreadable
  /-- Whether it is a regular one, and not a device or a pipe. -/
  | file (regular : Bool)
  /-- The call that opens it does not return. -/
  | blocked
  /-- A directory whose names can't be read. -/
  | closed
  | dir
deriving DecidableEq

/-- A regular file, or a device if these are counted. -/
def Kind.isFile (dev : Bool) : Kind → Bool
  | .file regular => regular || dev
  | _ => false

/-- The entries of a directory. The files below an entry are given for a readable directory. -/
inductive Forest where
  | nil
  | cons (name : Name) (kind : Kind) (sub rest : Forest)

namespace Forest

def names : Forest → List Name
  | nil => []
  | cons name _ _ rest => name :: rest.names

end Forest

/-- `p` has an entry that the file system answers about as a node of this kind. -/
def Answers (fs : Fs) (p : Name) (sub : List Name) : Kind → Prop
  | .unreadable => fs.open_read p = some false ∨ fs.open_read p = some true ∧ fs.info p = none
  | .file regular => fs.open_read p = some true ∧
      fs.info p = some (if regular then .regular else .other)
  | .blocked => fs.open_read p = none
  | .closed => fs.open_read p = some true ∧ fs.info p = some .dir ∧
      ∀ names, fs.dirscan p = some names → fntree_from_dirscan p names = .refused
  | .dir => fs.open_read p = some true ∧ fs.info p = some .dir ∧ fs.dirscan p = some sub ∧
      ∀ n ∈ sub, n.length ≤ 0xffff

/-- The entries of directory `p` on the disk. -/
def OnDisk (fs : Fs) : Name → Forest → Prop
  | _, .nil => True
  | p, .cons name kind sub rest =>
    Answers fs (join p name) sub.names kind ∧ (kind = .dir → OnDisk fs (join p name) sub) ∧
      OnDisk fs p rest

section Spec

variable (c : Conf)

/-- A directory that is looked into. -/
def entered (kind : Kind) (p : Name) : Bool := kind = .dir && file_matches c p true

/-- The files of a directory. -/
def files (dev : Bool) (p : Name) : Forest → List Name
  | .nil => []
  | .cons name kind _ rest =>
    let q := join p name
    if kind.isFile dev ∧ file_matches c q false then q :: files dev p rest else files dev p rest

/-- The files of its subdirectories, one subdirectory after the other. -/
def below (dev : Bool) (p : Name) : Forest → List Name
  | .nil => []
  | .cons name kind sub rest =>
    let q := join p name
    if entered c kind q then files c dev q sub ++ below dev q sub ++ below dev p rest
    else below dev p rest

/-- All entries of a directory before its subdirectories. -/
def expansion (dev : Bool) (p : Name) (f : Forest) : List Name := files c dev p f ++ below c dev p f

/-- How many subdirectories deep the walk goes. -/
def height (p : Name) : Forest → Nat
  | .nil => 0
  | .cons name kind sub rest =>
    let q := join p name
    if entered c kind q then max (height q sub + 1) (height p rest) else height p rest

/-- The loop gets through the entries of a directory: each can be opened or not, and the names of a subdirectory
that is looked into have space in a block. -/
def Smooth (p : Name) : Forest → Prop
  | .nil => True
  | .cons name kind sub rest =>
    let q := join p name
    (kind ≠ .blocked ∧ (entered c kind q → Fits q sub.names)) ∧ Smooth p rest

/-- It gets through those of the subdirectories. -/
def SmoothBelow (p : Name) : Forest → Prop
  | .nil => True
  | .cons name kind sub rest =>
    let q := join p name
    (entered c kind q → Smooth c q sub ∧ SmoothBelow q sub) ∧ SmoothBelow p rest

/-- No device passes the filters. -/
def NoDevice (p : Name) : Forest → Prop
  | .nil => True
  | .cons name kind sub rest =>
    let q := join p name
    ¬(kind = .file false ∧ file_matches c q false) ∧ (entered c kind q → NoDevice q sub) ∧ NoDevice p rest

/-- `x` is a readable regular file that passes the filters, in a directory that does and that only such
directories lead to. -/
inductive Passes : Name → Forest → Name → Prop where
  | file {p name : Name} {sub rest : Forest} (h : file_matches c (join p name) false) :
    Passes p (.cons name (.file true) sub rest) (join p name)
  | inside {p name x : Name} {sub rest : Forest} (h : file_matches c (join p name) true)
    (hx : Passes (join p name) sub x) : Passes p (.cons name .dir sub rest) x
  | later {p name x : Name} {kind : Kind} {sub rest : Forest} (hx : Passes p rest x) :
    Passes p (.cons name kind sub rest) x

end Spec

/-! ## The place in the queue -/

/-- The list of the queue while entry `e` between `pre` and `post` is expanded. The files so far
stand there in its place, and `qu_cur` is the last one of them. -/
structure Spot (t q e : Nat) (pre post : List Nat) (old : Nat → Name) (s : St)
    (done : List Name) : Prop where
  qent : (s.qm.trk t).qent = e
  known : e < s.qm.ne
  names : ∀ x ∈ pre ++ post, s.name x = old x
  nodup : (s.qm.queue q).index.Nodup
  fresh : ∀ x ∈ (s.qm.queue q).index, x < s.qm.ne
  place : ∃ l, (s.qm.queue q).index = pre ++ l ++ (s.qm.trk t).quCur :: post ∧
    (s.qm.ent (s.qm.trk t).quCur).q = q ∧
    ((s.qm.trk t).removed = true ∧ (l ++ [(s.qm.trk t).quCur]).map s.name = done ∧
        e ∉ (s.qm.queue q).index ∨
      (s.qm.trk t).removed = false ∧ l = [] ∧ (s.qm.trk t).quCur = e ∧ done = [])

theorem insertIdx_behind (l r : List Nat) (e x : Nat) :
    (l ++ e :: r).insertIdx (l.length + 1) x = l ++ e :: x :: r := by
  induction l with
  | nil => simp
  | cons y l ih => simpa using ih

theorem qeInsert_index {m : QueueMgr} {q e : Nat} {l r : List Nat} (hq : (m.ent e).q = q)
    (hn : (m.queue q).index.Nodup) (hi : (m.queue q).index = l ++ e :: r) (um : Bool) :
    ((m.qeInsert e um).1.queue q).index = l ++ e :: m.ne :: r := by
  have hp : (m.queue q).index[l.length]? = some e := by rw [hi]; simp
  have hidx := qeIndex_listed hq hn hp
  have hpos : ((m.qeIndex e).2 + 1).toNat = l.length + 1 := by omega
  unfold QueueMgr.qeInsert QueueMgr.qInsert
  dsimp only
  rw [hq,hpos,setQueue_self,qeIndex_queue,qeIndex_ne,hi]
  exact insertIdx_behind l r e m.ne

theorem qeRemove_index {m : QueueMgr} {q e : Nat} {l r : List Nat} (hq : (m.ent e).q = q)
    (hn : (m.queue q).index.Nodup) (hi : (m.queue q).index = l ++ e :: r) :
    ((m.qeRemove e).1.queue q).index = l ++ r := by
  have hp : (m.queue q).index[l.length]? = some e := by rw [hi]; simp
  have hidx := qeIndex_listed hq hn hp
  unfold QueueMgr.qeRemove QueueMgr.qRemoveAt
  dsimp only
  rw [hq,hidx,qeIndex_queue]
  have hget : qGet (m.queue q) (l.length : Int) = some e := qGet_eq_some.mpr ⟨_,rfl,hp⟩
  simp only [hget]
  rw [(sameOrder_unref _ e).index,setQueue_self]
  dsimp only
  rw [hi,Int.toNat_natCast,List.eraseIdx_append_of_length_le (Nat.le_refl _),Nat.sub_self]
  rfl

theorem nodup_behind {l r : List Nat} {e x : Nat} (hn : (l ++ e :: r).Nodup)
    (hx : x ∉ l ++ e :: r) : (l ++ e :: x :: r).Nodup := by
  have hperm : (l ++ e :: x :: r).Perm (x :: (l ++ e :: r)) := by
    rw [List.append_cons l e (x :: r),List.append_cons l e r]
    exact List.perm_middle
  exact hperm.nodup_iff.mpr (List.nodup_cons.mpr ⟨hx,hn⟩)

section Insert

variable {t q e : Nat} {pre post : List Nat} {old : Nat → Name} {s : St} {done : List Name}

theorem Spot.unused (h : Spot t q e pre post old s done) :
    s.qm.ne ∉ (s.qm.queue q).index := fun hm => Nat.lt_irrefl _ (h.fresh _ hm)

theorem Spot.name_kept (h : Spot t q e pre post old s done) (fpath : Name) {x : Nat}
    (hx : x ∈ (s.qm.queue q).index) : Function.update s.name s.qm.ne fpath x = s.name x := by
  refine Function.update_of_ne (fun heq => ?_) _ _
  exact h.unused (heq ▸ hx)

theorem Spot.around (h : Spot t q e pre post old s done) (fpath : Name) :
    ∀ x ∈ pre ++ post, Function.update s.name s.qm.ne fpath x = old x := by
  intro x hx
  obtain ⟨l,hindex,_⟩ := h.place
  refine (h.name_kept fpath ?_).trans (h.names x hx)
  rw [hindex]
  simp only [List.mem_append,List.mem_cons] at hx ⊢
  tauto

theorem Spot.longer (h : Spot t q e pre post old s done) {l : List Nat}
    (hindex : (s.qm.queue q).index = pre ++ l ++ (s.qm.trk t).quCur :: post) :
    (pre ++ l ++ (s.qm.trk t).quCur :: s.qm.ne :: post).Nodup ∧
      ∀ x ∈ pre ++ l ++ (s.qm.trk t).quCur :: s.qm.ne :: post, x < s.qm.ne + 1 := by
  refine ⟨nodup_behind (hindex ▸ h.nodup) (hindex ▸ h.unused),fun x hx => ?_⟩
  by_cases hxn : x = s.qm.ne
  · omega
  · refine Nat.lt_succ_of_lt (h.fresh x ?_)
    rw [hindex]
    simp only [List.mem_append,List.mem_cons] at hx ⊢
    tauto

theorem qeInsert_ne (m : QueueMgr) (c : Nat) (um : Bool) :
    (m.qeInsert c um).1.ne = m.ne + 1 := by
  simp [qeInsert,qInsert]

theorem Spot.insert_next (h : Spot t q e pre post old s done) (fpath : Name)
    (hrem : (s.qm.trk t).removed = true) : Spot t q e pre post old {s with
      qm := s.qm.readerInsert t false
      name := Function.update s.name s.qm.ne fpath} (done ++ [fpath]) := by
  obtain ⟨l,hindex,hq,⟨-,hmap,hout⟩ | ⟨hnot,_⟩⟩ := h.place
  swap
  · rw [hrem] at hnot
    cases hnot
  have hins := qeInsert_index hq h.nodup hindex false
  obtain ⟨hnodup,hlt⟩ := h.longer hindex
  obtain ⟨hnext,hown,-,htrk,-⟩ := qeInsert_new s.qm (s.qm.trk t).quCur false
  have hne := qeInsert_ne s.qm (s.qm.trk t).quCur false
  generalize hp : s.qm.qeInsert (s.qm.trk t).quCur false = p at hins hnext hown htrk hne
  have hread : s.qm.readerInsert t false =
      p.1.setTrk t {p.1.trk t with quCur := p.2, removed := true} := by
    simp [QueueMgr.readerInsert,hp,hrem]
  rw [hread]
  refine ⟨by simp [htrk,h.qent],?_,h.around fpath,?_,fun x hx => ?_,
    l ++ [(s.qm.trk t).quCur],?_,?_,Or.inl ⟨?_,?_,?_⟩⟩
  · simpa [hne] using Nat.lt_succ_of_lt h.known
  · simpa [hins] using hnodup
  · exact hne ▸ hlt x (hins ▸ hx)
  · simp [hins,hnext]
  · simp [hnext,hown,hq]
  · simp
  · have hold : (l ++ [(s.qm.trk t).quCur]).map (Function.update s.name s.qm.ne fpath) = done := by
      rw [← hmap]
      refine List.map_congr_left fun x hx => h.name_kept fpath ?_
      rw [hindex]
      simp only [List.mem_append,List.mem_cons,List.not_mem_nil] at hx ⊢
      tauto
    rw [List.map_append,hold]
    simp [hnext]
  · simp only [setTrk_queue,hins]
    intro hm
    refine hout (hindex ▸ ?_)
    have hother : e ≠ s.qm.ne := Nat.ne_of_lt h.known
    simp only [List.mem_append,List.mem_cons] at hm ⊢
    tauto

theorem Spot.insert_first (h : Spot t q e pre post old s done) (fpath : Name)
    (hrem : (s.qm.trk t).removed = false) : Spot t q e pre post old {s with
      qm := s.qm.readerInsert t false
      name := Function.update s.name s.qm.ne fpath} (done ++ [fpath]) := by
  obtain ⟨l,hindex,hq,⟨hyes,_⟩ | ⟨-,rfl,hcur,rfl⟩⟩ := h.place
  · rw [hrem] at hyes
    cases hyes
  have hins := qeInsert_index hq h.nodup hindex false
  obtain ⟨hnodup,hlt⟩ := h.longer hindex
  obtain ⟨hnext,hown,-,htrk,hkeep⟩ := qeInsert_new s.qm (s.qm.trk t).quCur false
  have hne := qeInsert_ne s.qm (s.qm.trk t).quCur false
  generalize hp : s.qm.qeInsert (s.qm.trk t).quCur false = p at hins hnext hown htrk hne hkeep
  have hread : s.qm.readerInsert t false = ((p.1.setTrk t
      {p.1.trk t with quCur := p.2, removed := true}).qeRemove e).1 := by
    simp [QueueMgr.readerInsert,hp,hrem,h.qent]
  have hu : ((p.1.setTrk t {p.1.trk t with quCur := p.2, removed := true}).queue q).index =
      pre ++ e :: s.qm.ne :: post := by simpa [hcur] using hins
  have hue : ((p.1.setTrk t {p.1.trk t with quCur := p.2, removed := true}).ent e).q = q := by
    rw [setTrk_ent,hkeep e h.known,← hcur]
    exact hq
  simp only [List.append_nil,hcur] at hnodup hlt
  have hremove := qeRemove_index hue (hu ▸ hnodup) hu
  have hkeeps := keepsOwner_qeRemove
    (p.1.setTrk t {p.1.trk t with quCur := p.2, removed := true}) e
  have htrk' : (((p.1.setTrk t {p.1.trk t with quCur := p.2, removed := true}).qeRemove e).1.trk t) =
      {p.1.trk t with quCur := p.2, removed := true} := by
    simp [QueueMgr.qeRemove]
  have hsub : (pre ++ s.qm.ne :: post).Sublist (pre ++ e :: s.qm.ne :: post) :=
    (List.sublist_cons_self e (s.qm.ne :: post)).append_left pre
  have hne' := hkeeps.ne
  have hown' := hkeeps.q s.qm.ne
  generalize ((p.1.setTrk t {p.1.trk t with quCur := p.2, removed := true}).qeRemove e).1 = w
    at hread hremove htrk' hne' hown'
  rw [setTrk_ne,hne] at hne'
  rw [hread]
  refine ⟨by simp [htrk',htrk,h.qent],hne'.symm ▸ Nat.lt_succ_of_lt h.known,h.around fpath,?_,
    fun x hx => ?_,[],?_,?_,Or.inl ⟨by rw [htrk'],?_,?_⟩⟩
  · exact hremove.symm ▸ hnodup.sublist hsub
  · exact hne'.symm ▸ hlt x (hsub.subset (hremove ▸ hx))
  · simp [hremove,htrk',hnext]
  · rw [htrk',hnext,hown',setTrk_ent,hown,hq]
  · simp [htrk',hnext]
  · rw [hremove]
    intro hm
    rw [List.nodup_append] at hnodup
    rcases List.mem_append.mp hm with hpre | hpost
    · exact hnodup.2.2 e hpre e List.mem_cons_self rfl
    · exact (List.nodup_cons.mp hnodup.2.1).1 hpost

theorem Spot.insert (h : Spot t q e pre post old s done) (fpath : Name) :
    Spot t q e pre post old {s with
      qm := s.qm.readerInsert t false
      name := Function.update s.name s.qm.ne fpath} (done ++ [fpath]) := by
  cases hrem : (s.qm.trk t).removed with
  | true => exact h.insert_next fpath hrem
  | false => exact h.insert_first fpath hrem

end Insert

/-! ## The walk -/

/-- The index of the entry that the cursor comes to next. -/
def pos : Option Nat → Nat
  | none => 0
  | some i => i + 1

theorem fntree_cur_next_eq (cur : Option Nat) (b : Block) :
    fntree_cur_next cur b = if pos cur < b.entries.length then some (pos cur) else none := by
  cases cur <;> rfl

/-- The cursor is in block `b`, behind the entries `before` and in front of `es`. -/
structure Walk (s : St) (phase : Phase) (b : Nat) (p : Name) (before es : List Entry)
    (stk : List (Nat × Nat)) : Prop where
  phase : s.phase = phase
  curblock : s.curblock = some b
  block : s.blocks[b]? = some ⟨p,before ++ es⟩
  pos : pos s.cur = before.length
  stk : s.stk = stk

def fresh (names : List Name) : List Entry := names.map fun n => ⟨n,none⟩

def kids (es : List Entry) : List Nat := es.filterMap Entry.children

/-- The blocks of the directories to look into hang at their entries and are not walked yet. -/
def Planted (c : Conf) (blocks : List Block) (p : Name) : Forest → List Entry → Prop
  | .nil, es => es = []
  | .cons name kind sub rest, es => ∃ e es', es = e :: es' ∧
    (if entered c kind (join p name) then
      ∃ k, e.children = some k ∧ blocks[k]? = some ⟨join p name,fresh sub.names⟩
    else e.children = none) ∧ Planted c blocks p rest es'

/-- Blocks other than those in `x` stay as they are. -/
structure Frame (x : Nat → Prop) (s s' : St) : Prop where
  grows : s.blocks.length ≤ s'.blocks.length
  same : ∀ j, j < s.blocks.length → ¬x j → s'.blocks[j]? = s.blocks[j]?

theorem Frame.refl (x : Nat → Prop) (s : St) : Frame x s s := ⟨Nat.le_refl _,fun _ _ _ => rfl⟩

theorem Frame.trans {x y z : Nat → Prop} {s s' s'' : St} (h : Frame x s s') (h' : Frame y s' s'')
    (hx : ∀ j, x j → z j) (hy : ∀ j, j < s.blocks.length → y j → z j) : Frame z s s'' where
  grows := h.grows.trans h'.grows
  same j hj hz := (h'.same j (Nat.lt_of_lt_of_le hj h.grows) fun hj' => hz (hy j hj hj')).trans
    (h.same j hj fun hj' => hz (hx j hj'))

theorem Planted.mono {c : Conf} {blocks blocks' : List Block} {p : Name} {f : Forest}
    {es : List Entry} (h : Planted c blocks p f es)
    (hs : ∀ k ∈ kids es, blocks'[k]? = blocks[k]?) : Planted c blocks' p f es := by
  induction f generalizing es with
  | nil => exact h
  | cons name kind sub rest _ ih =>
    obtain ⟨e,es',rfl,he,hrest⟩ := h
    refine ⟨e,es',rfl,?_,ih hrest fun k hk => hs k ?_⟩
    · split at he
      · next hent =>
        obtain ⟨k,hk,hb⟩ := he
        rw [if_pos hent]
        exact ⟨k,hk,(hs k (List.mem_filterMap.mpr ⟨e,List.mem_cons_self,hk⟩)).trans hb⟩
      · next hent =>
        rw [if_neg hent]
        exact he
    · obtain ⟨e',he',hc⟩ := List.mem_filterMap.mp hk
      exact List.mem_filterMap.mpr ⟨e',List.mem_cons_of_mem e he',hc⟩

section Walking

variable {c : Conf} {fs : Fs} {t : Nat} {x : Place}

theorem round_entry {s : St} {b : Nat} {p : Name} {before es : List Entry} {x : Entry}
    {stk : List (Nat × Nat)} (h : Walk s .entries b p before (x :: es) stk) :
    round c fs t s = visit c fs t
      {s with cur := some before.length, curblock := some b, blk := some b} b
      ⟨p,before ++ x :: es⟩ before.length x := by
  simp [round,h.curblock,h.block,h.phase,fntree_cur_next_eq,h.pos]

theorem round_scanned {s : St} {b : Nat} {p : Name} {before : List Entry}
    {stk : List (Nat × Nat)} (h : Walk s .entries b p before [] stk) :
    round c fs t s = .inl {s with cur := none, curblock := some b, phase := .subdirs} := by
  simp [round,h.curblock,h.block,h.phase,fntree_cur_next_eq,h.pos]

theorem round_plain {s : St} {b : Nat} {p : Name} {before es : List Entry} {x : Entry}
    {stk : List (Nat × Nat)} (h : Walk s .subdirs b p before (x :: es) stk)
    (hx : x.children = none) :
    round c fs t s = .inl {s with cur := some before.length} := by
  simp [round,h.curblock,h.block,h.phase,fntree_cur_next_eq,h.pos,hx]

theorem round_push {s : St} {b k : Nat} {p : Name} {before es : List Entry} {x : Entry}
    {stk : List (Nat × Nat)} (h : Walk s .subdirs b p before (x :: es) stk)
    (hx : x.children = some k) :
    round c fs t s = if stk.length = STK_MAX then .inr .null else .inl {s with
      stk := (b,before.length) :: stk, cur := none, curblock := some k, phase := .entries} := by
  simp [round,h.curblock,h.block,h.phase,fntree_cur_next_eq,h.pos,hx,h.stk]

theorem round_pop {s : St} {b b' i' : Nat} {p : Name} {before : List Entry}
    {stk : List (Nat × Nat)} (h : Walk s .subdirs b p before [] ((b',i') :: stk)) :
    round c fs t s = .inl {s with cur := some i', curblock := some b', stk := stk} := by
  simp [round,h.curblock,h.block,h.phase,fntree_cur_next_eq,h.pos,h.stk]

theorem round_complete {s : St} {b : Nat} {p : Name} {before : List Entry}
    (h : Walk s .subdirs b p before [] []) : round c fs t s = .inr (.rc 0 s) := by
  simp [round,h.curblock,h.block,h.phase,fntree_cur_next_eq,h.pos,h.stk]

/-- The track, the queue, and the entry that is expanded between two parts of the list. -/
structure Place where
  t : Nat
  q : Nat
  e : Nat
  pre : List Nat
  post : List Nat
  old : Nat → Name

abbrev Place.Spot (x : Place) (s : St) (done : List Name) : Prop :=
  DirRead.Spot x.t x.q x.e x.pre x.post x.old s done

/-- The list of the queue gets these files. -/
def Found (x : Place) (s s' : St) (l : List Name) : Prop :=
  ∀ done, x.Spot s done → x.Spot s' (done ++ l)

theorem Found.trans {s s' s'' : St} {l l' : List Name} (h : Found x s s' l)
    (h' : Found x s' s'' l') : Found x s s'' (l ++ l') :=
  fun done hs => List.append_assoc done l l' ▸ h' _ (h done hs)

theorem Place.Spot.same {s s' : St} {done : List Name} (h : x.Spot s done) (hq : s'.qm = s.qm)
    (hn : s'.name = s.name) : x.Spot s' done :=
  ⟨hq ▸ h.qent,hq ▸ h.known,hn ▸ h.names,hq ▸ h.nodup,hq ▸ h.fresh,by rw [hq,hn]; exact h.place⟩

theorem Found.none {s s' : St} (hq : s'.qm = s.qm) (hn : s'.name = s.name) :
    Found x s s' [] := by
  intro done h
  rw [List.append_nil]
  exact h.same hq hn

theorem modify_behind (before rest : List Entry) (x : Entry) (f : Entry → Entry) :
    (before ++ x :: rest).modify before.length f = before ++ f x :: rest := by
  induction before with
  | nil => rfl
  | cons y before ih => simpa using ih

/-- What is left of an entry after the loop has been at it. -/
def planted (c : Conf) (kind : Kind) (q : Name) (k : Nat) (name : Name) : Entry :=
  ⟨name,if entered c kind q then some k else none⟩

/-- What the loop has done when it is through with an entry of block `b`. -/
structure Visited (c : Conf) (x : Place) (s s' : St) (b : Nat) (p name : Name)
    (before rest : List Entry) (kind : Kind) (sub : Forest) : Prop where
  phase : s'.phase = s.phase
  cur : s'.cur = s.cur
  curblock : s'.curblock = s.curblock
  stk : s'.stk = s.stk
  block : s'.blocks[b]? =
    some ⟨p,before ++ planted c kind (join p name) s.blocks.length name :: rest⟩
  child : entered c kind (join p name) → s.blocks.length < s'.blocks.length ∧
    s'.blocks[s.blocks.length]? = some ⟨join p name,fresh sub.names⟩
  frame : Frame (fun j => j = b) s s'
  found : Found x s s' (files c true p (.cons name kind sub .nil))

variable {s : St} {b : Nat} {p name : Name} {before rest : List Entry} {kind : Kind} {sub : Forest}

theorem Visited.quiet (hb : s.blocks[b]? = some ⟨p,before ++ ⟨name,none⟩ :: rest⟩)
    (hent : entered c kind (join p name) = false)
    (hfile : ¬(kind.isFile true ∧ file_matches c (join p name) false)) (blk : Option Nat) :
    Visited c x s {s with blk := blk} b p name before rest kind sub where
  phase := rfl
  cur := rfl
  curblock := rfl
  stk := rfl
  block := by rw [planted,hent]; exact hb
  child h := by rw [hent] at h; cases h
  frame := ⟨Nat.le_refl _,fun _ _ _ => rfl⟩
  found := by
    rw [files,if_neg hfile]
    exact Found.none rfl rfl

theorem Visited.attached (hb : s.blocks[b]? = some ⟨p,before ++ ⟨name,none⟩ :: rest⟩)
    (hent : entered c kind (join p name) = true)
    (hfile : ¬(kind.isFile true ∧ file_matches c (join p name) false)) :
    Visited c x s {s with
      blocks := s.blocks.set b
        ((⟨p,before ++ ⟨name,none⟩ :: rest⟩ : Block).attach before.length s.blocks.length) ++
          [⟨join p name,fresh sub.names⟩]
      blk := some s.blocks.length} b p name before rest kind sub where
  phase := rfl
  cur := rfl
  curblock := rfl
  stk := rfl
  block := by
    have hlt := (List.getElem?_eq_some_iff.mp hb).1
    rw [List.getElem?_append_left (by simpa using hlt),List.getElem?_set_self hlt]
    simp only [Block.attach,planted,hent,if_true]
    rw [modify_behind]
  child _ := by simp
  frame := by
    refine ⟨by simp,fun j hj hne => ?_⟩
    rw [List.getElem?_append_left (by simpa using hj),List.getElem?_set_ne (Ne.symm hne)]
  found := by
    rw [files,if_neg hfile]
    exact Found.none rfl rfl

theorem Visited.listed {regular : Bool} (hb : s.blocks[b]? = some ⟨p,before ++ ⟨name,none⟩ :: rest⟩)
    (hm : file_matches c (join p name) false) :
    Visited c x s {s with
      qm := s.qm.readerInsert x.t false
      name := Function.update s.name s.qm.ne (join p name)} b p name before rest (.file regular) sub where
  phase := rfl
  cur := rfl
  curblock := rfl
  stk := rfl
  block := hb
  child h := by cases h
  frame := ⟨Nat.le_refl _,fun _ _ _ => rfl⟩
  found := by
    rw [files,if_pos ⟨by simp [Kind.isFile],hm⟩]
    exact fun done h => h.insert (join p name)

/-- The loop ends, but not with a code. -/
def Stops (fs : Fs) (c : Conf) (t : Nat) (s : St) : Prop :=
  ∃ r, Fuel.Returns (round c fs t) s r ∧ ∀ code s, r ≠ .rc code s

theorem visit_visited (ha : Answers fs (join p name) sub.names kind)
    (hp : kind ≠ .blocked ∧ (entered c kind (join p name) → Fits (join p name) sub.names))
    (hb : s.blocks[b]? = some ⟨p,before ++ ⟨name,none⟩ :: rest⟩) : ∃ s',
    visit c fs x.t s b ⟨p,before ++ ⟨name,none⟩ :: rest⟩ before.length ⟨name,none⟩ = .inl s' ∧
      Visited c x s s' b p name before rest kind sub := by
  cases kind with
  | unreadable =>
    refine ⟨s,?_,Visited.quiet hb rfl (by simp [Kind.isFile]) s.blk⟩
    rcases ha with ho | ⟨ho,hi⟩
    · simp [visit,ho]
    · simp [visit,ho,hi]
  | blocked => exact absurd rfl hp.1
  | file regular =>
    obtain ⟨ho,hi⟩ := ha
    have hdir : decide ((if regular then FileType.regular else .other) = .dir) = false := by
      cases regular <;> rfl
    cases hm : file_matches c (join p name) false with
    | true => exact ⟨_,by simp [visit,ho,hi,hdir,hm],Visited.listed hb hm⟩
    | false =>
      exact ⟨s,by simp [visit,ho,hi,hdir,hm],Visited.quiet hb rfl (by simp [hm]) s.blk⟩
  | closed =>
    obtain ⟨ho,hi,hd⟩ := ha
    have hs : ∃ blk, visit c fs x.t s b ⟨p,before ++ ⟨name,none⟩ :: rest⟩ before.length ⟨name,none⟩ =
        .inl {s with blk := blk} := by
      cases hm : file_matches c (join p name) true with
      | false => exact ⟨s.blk,by simp [visit,ho,hi,hm]⟩
      | true =>
        cases hn : fs.dirscan (join p name) with
        | none => exact ⟨s.blk,by simp [visit,ho,hi,hm,hn]⟩
        | some names => exact ⟨none,by simp [visit,ho,hi,hm,hn,hd names hn]⟩
    obtain ⟨blk,hs⟩ := hs
    exact ⟨_,hs,Visited.quiet hb rfl (by simp [Kind.isFile]) blk⟩
  | dir =>
    obtain ⟨ho,hi,hd,hlen⟩ := ha
    cases hm : file_matches c (join p name) true with
    | true =>
      have hent : entered c .dir (join p name) = true := by simpa [entered] using hm
      have hnew : fntree_from_dirscan (join p name) sub.names =
          .block ⟨join p name,fresh sub.names⟩ := by
        rw [fntree_from_dirscan,if_neg (not_not.mpr (hp.2 hent)),if_pos (by simpa using hlen)]
        rfl
      exact ⟨_,by simp [visit,ho,hi,hm,hd,hnew],Visited.attached hb hent (by simp [Kind.isFile])⟩
    | false =>
      exact ⟨s,by simp [visit,ho,hi,hm],
        Visited.quiet hb (by simp [entered,hm]) (by simp [Kind.isFile]) s.blk⟩

theorem visit_stops (ha : Answers fs (join p name) sub.names kind)
    (hp : ¬(kind ≠ .blocked ∧ (entered c kind (join p name) → Fits (join p name) sub.names))) :
    ∃ r, visit c fs x.t s b ⟨p,before ++ ⟨name,none⟩ :: rest⟩ before.length ⟨name,none⟩ = .inr r ∧
      ∀ code s, r ≠ .rc code s := by
  cases kind with
  | blocked =>
    have ho : fs.open_read (join p name) = none := ha
    exact ⟨.blocked,by simp [visit,ho],nofun⟩
  | dir =>
    obtain ⟨ho,hi,hd,-⟩ := ha
    simp only [ne_eq,reduceCtorEq,not_false_eq_true,true_and,Classical.not_imp] at hp
    have hm : file_matches c (join p name) true = true := by simpa [entered] using hp.1
    have hnew : fntree_from_dirscan (join p name) sub.names = .overflow := if_pos hp.2
    exact ⟨.overflow,by simp [visit,ho,hi,hm,hd,hnew],nofun⟩
  | _ => exact absurd ⟨nofun,nofun⟩ hp

/-- The children of a block have been allocated one after the other, from number `lo` on. -/
structure Kids (lo hi : Nat) (es : List Entry) : Prop where
  sorted : (kids es).Pairwise (· < ·)
  low : ∀ k ∈ kids es, lo ≤ k
  high : ∀ k ∈ kids es, k < hi

theorem Planted.cons {blocks : List Block} {es : List Entry} {f : Forest} {k : Nat}
    (h : Planted c blocks p f es)
    (hk : entered c kind (join p name) → blocks[k]? = some ⟨join p name,fresh sub.names⟩) :
    Planted c blocks p (.cons name kind sub f) (planted c kind (join p name) k name :: es) := by
  refine ⟨_,es,rfl,?_,h⟩
  by_cases hent : entered c kind (join p name) = true
  · rw [if_pos hent]
    exact ⟨k,by rw [planted,if_pos hent],hk hent⟩
  · rw [if_neg hent,planted,if_neg hent]

theorem kids_planted (c : Conf) (kind : Kind) (p name : Name) (es : List Entry) (k : Nat) :
    kids (planted c kind (join p name) k name :: es) =
      if entered c kind (join p name) then k :: kids es else kids es := by
  unfold kids
  split
  · next hent => rw [List.filterMap_cons_some (b := k) (by rw [planted,if_pos hent])]
  · next hent => rw [List.filterMap_cons_none (by rw [planted,if_neg hent])]

theorem Kids.cons {lo mid hi : Nat} {es : List Entry} (h : Kids mid hi es) (hmid : lo ≤ mid)
    (hhi : mid ≤ hi) (hlt : entered c kind (join p name) → lo < mid) :
    Kids lo hi (planted c kind (join p name) lo name :: es) := by
  have hkids := kids_planted c kind p name es lo
  by_cases hent : entered c kind (join p name) = true
  · rw [if_pos hent] at hkids
    have hlt := hlt hent
    refine ⟨hkids ▸ List.pairwise_cons.mpr ⟨fun k hk => ?_,h.sorted⟩,fun k hk => ?_,fun k hk => ?_⟩
    · exact Nat.lt_of_lt_of_le hlt (h.low k hk)
    · rw [hkids] at hk
      rcases List.mem_cons.mp hk with rfl | hk
      · exact Nat.le_refl k
      · exact hmid.trans (h.low k hk)
    · rw [hkids] at hk
      rcases List.mem_cons.mp hk with rfl | hk
      · exact Nat.lt_of_lt_of_le hlt hhi
      · exact h.high k hk
  · rw [if_neg hent] at hkids
    exact ⟨hkids ▸ h.sorted,fun k hk => hmid.trans (h.low k (hkids ▸ hk)),
      fun k hk => h.high k (hkids ▸ hk)⟩

theorem files_cons (dev : Bool) (p : Name) (rest : Forest) : files c dev p (.cons name kind sub rest) =
    files c dev p (.cons name kind sub .nil) ++ files c dev p rest := by
  simp only [files]
  split <;> rfl

theorem Walk.next {phase : Phase} {es : List Entry} {stk : List (Nat × Nat)} {y : Entry}
    (hphase : s.phase = phase) (hcurblock : s.curblock = some b)
    (hcur : s.cur = some before.length) (hblock : s.blocks[b]? = some ⟨p,before ++ y :: es⟩)
    (hstk : s.stk = stk) : Walk s phase b p (before ++ [y]) es stk where
  phase := hphase
  curblock := hcurblock
  block := by simpa using hblock
  pos := by simp [hcur,DirRead.pos]
  stk := hstk

theorem round_visited {stk : List (Nat × Nat)}
    (hw : Walk s .entries b p before (⟨name,none⟩ :: rest) stk)
    (ha : Answers fs (join p name) sub.names kind)
    (hp : kind ≠ .blocked ∧ (entered c kind (join p name) → Fits (join p name) sub.names)) :
    ∃ s', round c fs x.t s = .inl s' ∧
      Walk s' .entries b p
        (before ++ [planted c kind (join p name) s.blocks.length name]) rest stk ∧
      (entered c kind (join p name) → s.blocks.length < s'.blocks.length ∧
        s'.blocks[s.blocks.length]? = some ⟨join p name,fresh sub.names⟩) ∧
      Frame (fun j => j = b) s s' ∧ Found x s s' (files c true p (.cons name kind sub .nil)) := by
  obtain ⟨s',hs,hv⟩ := visit_visited (x := x)
    (s := {s with cur := some before.length, curblock := some b, blk := some b}) ha hp hw.block
  refine ⟨s',(round_entry hw).trans hs,?_,hv.child,⟨hv.frame.grows,hv.frame.same⟩,fun done h => ?_⟩
  · exact Walk.next (hv.phase.trans hw.phase) hv.curblock hv.cur hv.block (hv.stk.trans hw.stk)
  · exact hv.found done (h.same rfl rfl)

/-- All entries of a block are gone through, or the loop ends at one of them. -/
theorem scan_stops {f : Forest} {stk : List (Nat × Nat)}
    (hw : Walk s .entries b p before (fresh f.names) stk) (hf : OnDisk fs p f) (hp : ¬Smooth c p f) :
    Stops fs c x.t s := by
  induction f generalizing s before with
  | nil => exact absurd trivial hp
  | cons name kind sub rest _ ih =>
    obtain ⟨ha,-,hrest⟩ := hf
    by_cases hfirst : kind ≠ .blocked ∧ (entered c kind (join p name) → Fits (join p name) sub.names)
    · obtain ⟨s₁,hround,hw₁,-⟩ := round_visited (c := c) (x := x) hw ha hfirst
      obtain ⟨r,hr,hstop⟩ := ih hw₁ hrest fun h => hp ⟨hfirst,h⟩
      exact ⟨r,Fuel.Reaches.goes hround r hr,hstop⟩
    · obtain ⟨r,hr,hstop⟩ := visit_stops (x := x) ha hfirst
      exact ⟨r,.ends ((round_entry hw).trans hr),hstop⟩

theorem scan {f : Forest} {stk : List (Nat × Nat)}
    (hw : Walk s .entries b p before (fresh f.names) stk) (hf : OnDisk fs p f) (hp : Smooth c p f) :
    ∃ s' es, Fuel.Reaches (round c fs x.t) s s' ∧ Walk s' .entries b p (before ++ es) [] stk ∧
      Planted c s'.blocks p f es ∧ Kids s.blocks.length s'.blocks.length es ∧
      Frame (fun j => j = b) s s' ∧ Found x s s' (files c true p f) := by
  induction f generalizing s before with
  | nil =>
    exact ⟨s,[],.refl s,by simpa [Forest.names,fresh] using hw,rfl,
      ⟨by simp [kids],by simp [kids],by simp [kids]⟩,.refl _ s,Found.none rfl rfl⟩
  | cons name kind sub rest _ ih =>
    obtain ⟨ha,-,hrest⟩ := hf
    obtain ⟨s₁,hround,hw₁,hchild,hframe₁,hfound₁⟩ := round_visited (c := c) (x := x) hw ha hp.1
    obtain ⟨s₂,es,hreach,hw₂,hplant,hkids,hframe₂,hfound₂⟩ := ih hw₁ hrest hp.2
    have hb : b < s.blocks.length := (List.getElem?_eq_some_iff.mp hw.block).1
    refine ⟨s₂,planted c kind (join p name) s.blocks.length name :: es,
      (Fuel.Reaches.goes hround).trans hreach,?_,hplant.cons fun hent => ?_,?_,
      hframe₁.trans hframe₂ (fun _ => id) (fun _ _ => id),?_⟩
    · simpa using hw₂
    · obtain ⟨hlt,hget⟩ := hchild hent
      exact (hframe₂.same _ hlt (Nat.ne_of_gt hb)).trans hget
    · exact hkids.cons hframe₁.grows hframe₂.grows fun hent => (hchild hent).1
    · rw [files_cons]
      exact hfound₁.trans hfound₂

/-- The search for subdirectories from here on gets through all of them. -/
def Through (c : Conf) (stk : List (Nat × Nat)) (p : Name) (f : Forest) : Prop :=
  stk.length + height c p f ≤ STK_MAX ∧ SmoothBelow c p f

/-- What is expected of the search for subdirectories from here on: it goes through all of them, or it ends at
an entry or follows a NULL block where the stack has no room. -/
def Descends (c : Conf) (fs : Fs) (x : Place) (s : St) (b : Nat) (p : Name) (before es : List Entry)
    (stk : List (Nat × Nat)) (f : Forest) : Prop :=
  (Through c stk p f → ∃ s', Fuel.Reaches (round c fs x.t) s s' ∧
    Walk s' .subdirs b p (before ++ es) [] stk ∧ Frame (fun j => j ∈ kids es) s s' ∧
    Found x s s' (below c true p f)) ∧
  (¬Through c stk p f → Stops fs c x.t s) ∧
  (SmoothBelow c p f → STK_MAX < stk.length + height c p f → Fuel.Returns (round c fs x.t) s .null)

theorem Stops.reached {s' : St} (h : Stops fs c x.t s') (hr : Fuel.Reaches (round c fs x.t) s s') :
    Stops fs c x.t s := by
  obtain ⟨r,hret,hstop⟩ := h
  exact ⟨r,hr r hret,hstop⟩

theorem Descends.skip {stk : List (Nat × Nat)} {s' : St} {y : Entry} {es : List Entry}
    {f : Forest} (hround : round c fs x.t s = .inl s')
    (hs : s'.blocks = s.blocks ∧ s'.qm = s.qm ∧ s'.name = s.name) (hy : y.children = none)
    (hent : entered c kind (join p name) = false)
    (h : Descends c fs x s' b p (before ++ [y]) es stk f) :
    Descends c fs x s b p before (y :: es) stk (.cons name kind sub f) := by
  have hheight : height c p (.cons name kind sub f) = height c p f := by simp [height,hent]
  have hsmooth : SmoothBelow c p (.cons name kind sub f) ↔ SmoothBelow c p f := by
    simp [SmoothBelow,hent]
  have hbelow : below c true p (.cons name kind sub f) = below c true p f := by simp [below,hent]
  have hkids : kids (y :: es) = kids es := List.filterMap_cons_none hy
  rw [Descends,Through,hheight,hsmooth]
  refine ⟨fun hfit => ?_,fun hnot => (h.2.1 hnot).reached (.goes hround),fun hok hdeep => ?_⟩
  · obtain ⟨s'',hreach,hw,hframe,hfound⟩ := h.1 hfit
    refine ⟨s'',(Fuel.Reaches.goes hround).trans hreach,by simpa using hw,?_,?_⟩
    · rw [hkids]
      exact ⟨hs.1 ▸ hframe.grows,hs.1 ▸ hframe.same⟩
    · rw [hbelow]
      exact (Found.none hs.2.1 hs.2.2).trans hfound
  · exact Fuel.Reaches.goes hround _ (h.2.2 hok hdeep)

/-- From the entry of a subdirectory to the same place behind its files and the files below it. -/
theorem Descends.inside {stk : List (Nat × Nat)} {y : Entry} {es : List Entry} {k : Nat}
    (hw : Walk s .subdirs b p before (y :: es) stk) (hk : y.children = some k)
    (hchild : s.blocks[k]? = some ⟨join p name,fresh sub.names⟩) (hbk : b ≠ k)
    (hsub : OnDisk fs (join p name) sub)
    (ih : ∀ {s' : St} {es' : List Entry} {stk' : List (Nat × Nat)},
      Walk s' .subdirs k (join p name) [] es' stk' → Planted c s'.blocks (join p name) sub es' →
      Kids (k + 1) s'.blocks.length es' → stk'.length ≤ STK_MAX →
      Descends c fs x s' k (join p name) [] es' stk' sub)
    (hstk : stk.length ≤ STK_MAX) :
    (stk.length + height c (join p name) sub + 1 ≤ STK_MAX → Smooth c (join p name) sub →
      SmoothBelow c (join p name) sub →
      ∃ s', Fuel.Reaches (round c fs x.t) s s' ∧ Walk s' .subdirs b p (before ++ [y]) es stk ∧
        Frame (fun j => j = k) s s' ∧
        Found x s s' (files c true (join p name) sub ++ below c true (join p name) sub)) ∧
    (¬(stk.length + height c (join p name) sub + 1 ≤ STK_MAX ∧ Smooth c (join p name) sub ∧
      SmoothBelow c (join p name) sub) → Stops fs c x.t s) ∧
    (Smooth c (join p name) sub → SmoothBelow c (join p name) sub →
      STK_MAX < stk.length + height c (join p name) sub + 1 →
      Fuel.Returns (round c fs x.t) s .null) := by
  have hround : round c fs x.t s = if stk.length = STK_MAX then .inr .null else .inl {s with
      stk := (b,before.length) :: stk, cur := none, curblock := some k, phase := .entries} :=
    round_push hw hk
  have hb : b < s.blocks.length := (List.getElem?_eq_some_iff.mp hw.block).1
  have hklt : k < s.blocks.length := (List.getElem?_eq_some_iff.mp hchild).1
  by_cases hfull : stk.length = STK_MAX
  · rw [if_pos hfull] at hround
    exact ⟨fun hfit => absurd hfit (by omega),fun _ => ⟨.null,.ends hround,nofun⟩,
      fun _ _ _ => .ends hround⟩
  rw [if_neg hfull] at hround
  have hw₁ : Walk {s with
      stk := (b,before.length) :: stk, cur := none, curblock := some k, phase := .entries}
      .entries k (join p name) [] (fresh sub.names) ((b,before.length) :: stk) :=
    ⟨rfl,rfl,hchild,rfl,rfl⟩
  by_cases hsmooth : Smooth c (join p name) sub
  swap
  · exact ⟨fun _ h => absurd h hsmooth,
      fun _ => (scan_stops (x := x) hw₁ hsub hsmooth).reached (.goes hround),fun h => absurd h hsmooth⟩
  obtain ⟨s₂,es₂,hreach,hw₂,hplant₂,hkids₂,hframe₂,hfound₂⟩ := scan (c := c) (x := x) hw₁ hsub hsmooth
  have hw₃ : Walk {s₂ with cur := none, curblock := some k, phase := .subdirs} .subdirs k
      (join p name) [] es₂ ((b,before.length) :: stk) :=
    ⟨rfl,rfl,by simpa using hw₂.block,rfl,hw₂.stk⟩
  have hgo := ((Fuel.Reaches.goes hround).trans hreach).trans (.goes (round_scanned hw₂))
  have hdesc := ih hw₃ hplant₂
    ⟨hkids₂.sorted,fun j hj => Nat.lt_of_lt_of_le hklt (hkids₂.low j hj),hkids₂.high⟩
    (by simp only [List.length_cons]; omega)
  simp only [Descends,Through,List.length_cons] at hdesc
  refine ⟨fun hfit _ hbelow => ?_,fun hnot => (hdesc.2.1 fun h => hnot ⟨by omega,hsmooth,h.2⟩).reached hgo,
    fun _ hbelow hdeep => hgo _ (hdesc.2.2 hbelow (by omega))⟩
  obtain ⟨s₄,hreach₄,hw₄,hframe₄,hfound₄⟩ := hdesc.1 ⟨by omega,hbelow⟩
  refine ⟨{s₄ with cur := some before.length, curblock := some b, stk := stk},
    (hgo.trans hreach₄).trans (.goes (round_pop hw₄)),?_,?_,?_⟩
  · refine Walk.next hw₄.phase rfl rfl ?_ rfl
    have hlt : b < s₂.blocks.length := Nat.lt_of_lt_of_le hb hframe₂.grows
    have hnot : b ∉ kids es₂ := fun hm => absurd (hkids₂.low b hm) (Nat.not_le_of_lt hb)
    exact ((hframe₄.same b hlt hnot).trans (hframe₂.same b hb hbk)).trans hw.block
  · refine ⟨hframe₂.grows.trans hframe₄.grows,fun j hj hne => ?_⟩
    have hnot : j ∉ kids es₂ := fun hm => absurd (hkids₂.low j hm) (Nat.not_le_of_lt hj)
    exact (hframe₄.same j (Nat.lt_of_lt_of_le hj hframe₂.grows) hnot).trans
      (hframe₂.same j hj hne)
  · intro done h
    have h₂ := hfound₂ done (h.same rfl rfl)
    have h₄ := hfound₄ _ (h₂.same rfl rfl)
    exact List.append_assoc done _ _ ▸ h₄.same rfl rfl

theorem descend {f : Forest} {es : List Entry} {stk : List (Nat × Nat)}
    (hw : Walk s .subdirs b p before es stk) (hf : OnDisk fs p f)
    (hplant : Planted c s.blocks p f es) (hkids : Kids (b + 1) s.blocks.length es)
    (hstk : stk.length ≤ STK_MAX) : Descends c fs x s b p before es stk f := by
  induction f generalizing s b p before es stk with
  | nil =>
    obtain rfl : es = [] := hplant
    have hheight : stk.length + height c p .nil ≤ STK_MAX := by simpa [height] using hstk
    exact ⟨fun _ => ⟨s,.refl s,by simpa using hw,.refl _ s,Found.none rfl rfl⟩,
      fun hnot => absurd ⟨hheight,trivial⟩ hnot,fun _ hdeep => absurd hheight (by omega)⟩
  | cons name kind sub rest ihsub ihrest =>
    obtain ⟨y,es,rfl,hy,hplant⟩ := hplant
    obtain ⟨-,hsub,hrest⟩ := hf
    cases hent : entered c kind (join p name) with
    | false =>
      rw [if_neg (by simp [hent])] at hy
      refine Descends.skip (round_plain hw hy) ⟨rfl,rfl,rfl⟩ hy hent (ihrest ?_ hrest hplant ?_ hstk)
      · exact Walk.next hw.phase hw.curblock rfl hw.block hw.stk
      · have heq : kids (y :: es) = kids es := List.filterMap_cons_none hy
        exact ⟨heq ▸ hkids.sorted,heq ▸ hkids.low,heq ▸ hkids.high⟩
    | true =>
      rw [if_pos hent] at hy
      obtain ⟨k,hk,hchild⟩ := hy
      have hlist : kids (y :: es) = k :: kids es := List.filterMap_cons_some hk
      have hdir : kind = .dir := by
        simp only [entered,Bool.and_eq_true,decide_eq_true_eq] at hent
        exact hent.1
      have hbk : b ≠ k := Nat.ne_of_lt (hkids.low k (hlist ▸ List.mem_cons_self))
      obtain ⟨hlater,hsorted⟩ := List.pairwise_cons.mp (hlist ▸ hkids.sorted)
      have htail {j : Nat} (hj : j ∈ kids es) : j ∈ kids (y :: es) :=
        hlist ▸ List.mem_cons_of_mem k hj
      have hin := Descends.inside (x := x) hw hk hchild hbk (hsub hdir)
        (fun hw' hp' hk' hs' => ihsub hw' (hsub hdir) hp' hk' hs') hstk
      have hheight : height c p (.cons name kind sub rest) =
          max (height c (join p name) sub + 1) (height c p rest) := by simp [height,hent]
      have hsmooth : SmoothBelow c p (.cons name kind sub rest) ↔
          (Smooth c (join p name) sub ∧ SmoothBelow c (join p name) sub) ∧ SmoothBelow c p rest := by
        simp [SmoothBelow,hent]
      have hbelow : below c true p (.cons name kind sub rest) =
          files c true (join p name) sub ++ below c true (join p name) sub ++ below c true p rest := by
        simp [below,hent]
      rw [Descends,Through,hheight,hsmooth]
      by_cases hfit : stk.length + height c (join p name) sub + 1 ≤ STK_MAX ∧
          Smooth c (join p name) sub ∧ SmoothBelow c (join p name) sub
      · obtain ⟨s₁,hreach,hw₁,hframe₁,hfound₁⟩ := hin.1 hfit.1 hfit.2.1 hfit.2.2
        have hplant₁ : Planted c s₁.blocks p rest es := hplant.mono fun j hj =>
          hframe₁.same j (hkids.high j (htail hj)) (Nat.ne_of_gt (hlater j hj))
        have hgo := ihrest hw₁ hrest hplant₁ ⟨hsorted,fun j hj => hkids.low j (htail hj),
          fun j hj => Nat.lt_of_lt_of_le (hkids.high j (htail hj)) hframe₁.grows⟩ hstk
        refine ⟨fun hall => ?_,fun hnot => ?_,fun hok hdeep => hreach _ (hgo.2.2 hok.2 (by omega))⟩
        · obtain ⟨s₂,hreach₂,hw₂,hframe₂,hfound₂⟩ := hgo.1 ⟨by omega,hall.2.2⟩
          refine ⟨s₂,hreach.trans hreach₂,by simpa using hw₂,?_,hbelow ▸ hfound₁.trans hfound₂⟩
          exact hframe₁.trans hframe₂ (fun j hj => by rw [hj,hlist]; exact List.mem_cons_self)
            fun j _ hj => htail hj
        · exact (hgo.2.1 fun h => hnot ⟨by have := h.1; omega,hfit.2,h.2⟩).reached hreach
      · refine ⟨fun hall => absurd ⟨by have := hall.1; omega,hall.2.1⟩ hfit,fun _ => hin.2.1 hfit,
          fun hok _ => hin.2.2 hok.1.1 hok.1.2 ?_⟩
        by_contra hle
        exact hfit ⟨by omega,hok.1⟩

theorem walk_returns {f : Forest} (qm : QueueMgr) (old : Nat → Name) (hf : OnDisk fs p f) :
    (height c p f ≤ STK_MAX → Smooth c p f → SmoothBelow c p f → ∃ s',
      Fuel.Returns (round c fs x.t) (start ⟨p,fresh f.names⟩ qm old) (.rc 0 s') ∧
      Found x (start ⟨p,fresh f.names⟩ qm old) s' (expansion c true p f)) ∧
    (¬(height c p f ≤ STK_MAX ∧ Smooth c p f ∧ SmoothBelow c p f) →
      Stops fs c x.t (start ⟨p,fresh f.names⟩ qm old)) ∧
    (Smooth c p f → SmoothBelow c p f → STK_MAX < height c p f →
      Fuel.Returns (round c fs x.t) (start ⟨p,fresh f.names⟩ qm old) .null) := by
  have hfirst : round c fs x.t (start ⟨p,fresh f.names⟩ qm old) =
      round c fs x.t {start ⟨p,fresh f.names⟩ qm old with curblock := some 0} := by
    unfold round start
    dsimp only [List.getElem?_cons_zero]
    cases fntree_cur_next none (⟨p,fresh f.names⟩ : Block) <;> rfl
  have hw : Walk {start ⟨p,fresh f.names⟩ qm old with curblock := some 0} .entries 0 p []
      (fresh f.names) [] := ⟨rfl,rfl,rfl,rfl,rfl⟩
  by_cases hsmooth : Smooth c p f
  swap
  · exact ⟨fun _ h => absurd h hsmooth,
      fun _ => (scan_stops (x := x) hw hf hsmooth).reached (.same hfirst),fun h => absurd h hsmooth⟩
  obtain ⟨s₁,es,hreach,hw₁,hplant,hkids,-,hfound₁⟩ := scan (c := c) (x := x) hw hf hsmooth
  have hgo := ((Fuel.Reaches.same hfirst).trans hreach).trans (.goes (round_scanned hw₁))
  have hw₂ : Walk {s₁ with cur := none, curblock := some 0, phase := .subdirs} .subdirs 0 p [] es
      [] := ⟨rfl,rfl,by simpa using hw₁.block,rfl,hw₁.stk⟩
  have hdesc := descend (x := x) hw₂ hf hplant hkids (by decide)
  simp only [Descends,Through,List.length_nil,Nat.zero_add] at hdesc
  refine ⟨fun hfit _ hbelow => ?_,fun hnot => (hdesc.2.1 fun h => hnot ⟨h.1,hsmooth,h.2⟩).reached hgo,
    fun _ hbelow hdeep => hgo _ (hdesc.2.2 hbelow hdeep)⟩
  obtain ⟨s₃,hreach₃,hw₃,-,hfound₃⟩ := hdesc.1 ⟨hfit,hbelow⟩
  refine ⟨s₃,hgo _ (hreach₃ _ (.ends (round_complete hw₃))),fun done h => ?_⟩
  have h₃ := hfound₃ _ ((hfound₁ done (h.same rfl rfl)).same rfl rfl)
  exact List.append_assoc done _ _ ▸ h₃

end Walking

/-! ## The files -/

theorem join_inj {p n n' : Name} (h : join p n = join p n') : n = n' := by
  simpa [join] using h

theorem component_unique {n n' r r' : Name} (hn : SLASH ∉ n) (hn' : SLASH ∉ n')
    (h : n ++ SLASH :: r = n' ++ SLASH :: r') : n = n' := by
  induction n generalizing n' with
  | nil =>
    cases n' with
    | nil => rfl
    | cons y n' =>
      obtain ⟨rfl,-⟩ := List.cons.inj h
      exact absurd List.mem_cons_self hn'
  | cons y n ih =>
    cases n' with
    | nil =>
      obtain ⟨rfl,-⟩ := List.cons.inj h
      exact absurd List.mem_cons_self hn
    | cons y' n' =>
      simp only [List.cons_append,List.cons.injEq] at h
      obtain ⟨rfl,h⟩ := h
      rw [ih (fun hm => hn (List.mem_cons_of_mem y hm)) (fun hm => hn' (List.mem_cons_of_mem y hm)) h]

/-- The names in a directory are different and without slashes. -/
def Proper : Forest → Prop
  | .nil => True
  | .cons name kind sub rest =>
    name ∉ rest.names ∧ SLASH ∉ name ∧ (kind = .dir → Proper sub) ∧ Proper rest

theorem Proper.name {f : Forest} (h : Proper f) {n : Name} (hn : n ∈ f.names) : SLASH ∉ n := by
  induction f with
  | nil => cases hn
  | cons name kind sub rest _ ih =>
    rcases List.mem_cons.mp hn with rfl | hn
    · exact h.2.1
    · exact ih h.2.2.2 hn

section Files

variable {c : Conf} {dev : Bool} {p y : Name} {f : Forest}

theorem entered_dir {kind : Kind} {q : Name} (h : entered c kind q = true) :
    kind = .dir ∧ file_matches c q true := by
  simpa [entered] using h

theorem mem_files (h : y ∈ files c dev p f) : ∃ n ∈ f.names, y = join p n := by
  induction f with
  | nil => cases h
  | cons name kind sub rest _ ih =>
    have hrest (h : y ∈ files c dev p rest) : ∃ n ∈ (Forest.cons name kind sub rest).names,
        y = join p n := by
      obtain ⟨n,hn,rfl⟩ := ih h
      exact ⟨n,List.mem_cons_of_mem name hn,rfl⟩
    simp only [files] at h
    split at h
    · rcases List.mem_cons.mp h with rfl | h
      · exact ⟨name,List.mem_cons_self,rfl⟩
      · exact hrest h
    · exact hrest h

theorem mem_below (h : y ∈ below c dev p f) : ∃ n ∈ f.names, ∃ r, y = join p n ++ SLASH :: r := by
  induction f generalizing p with
  | nil => cases h
  | cons name kind sub rest ihsub ihrest =>
    have hrest (h : y ∈ below c dev p rest) : ∃ n ∈ (Forest.cons name kind sub rest).names,
        ∃ r, y = join p n ++ SLASH :: r := by
      obtain ⟨n,hn,hr⟩ := ihrest h
      exact ⟨n,List.mem_cons_of_mem name hn,hr⟩
    simp only [below] at h
    split at h
    · rcases List.mem_append.mp h with h | h
      · refine ⟨name,List.mem_cons_self,?_⟩
        rcases List.mem_append.mp h with h | h
        · obtain ⟨n,-,rfl⟩ := mem_files h
          exact ⟨n,rfl⟩
        · obtain ⟨n,-,r,rfl⟩ := ihsub h
          exact ⟨n ++ SLASH :: r,by simp [join]⟩
      · exact hrest h
    · exact hrest h

theorem mem_inside {name : Name} (h : y ∈ expansion c dev (join p name) f) :
    ∃ r, y = join p name ++ SLASH :: r := by
  rcases List.mem_append.mp h with h | h
  · obtain ⟨n,-,rfl⟩ := mem_files h
    exact ⟨n,rfl⟩
  · obtain ⟨n,-,r,rfl⟩ := mem_below h
    exact ⟨n ++ SLASH :: r,by simp [join]⟩

theorem Proper.disjoint (h : Proper f) (hy : y ∈ files c dev p f) : y ∉ below c dev p f := by
  intro hb
  obtain ⟨n,hn,rfl⟩ := mem_files hy
  obtain ⟨n',-,r,heq⟩ := mem_below hb
  have hsplit : n = n' ++ SLASH :: r := by simpa [join] using heq
  exact h.name hn (hsplit ▸ List.mem_append_right n' List.mem_cons_self)

theorem expansion_nodup (h : Proper f) : (expansion c dev p f).Nodup := by
  induction f generalizing p with
  | nil => exact List.nodup_nil
  | cons name kind sub rest ihsub ihrest =>
    have hproper := h
    obtain ⟨hname,hslash,hsub,hrest⟩ := h
    obtain ⟨hfiles,hbelow,-⟩ := List.nodup_append.mp (ihrest (p := p) hrest)
    refine List.nodup_append.mpr ⟨?_,?_,fun a ha b hb hab => hproper.disjoint ha (hab ▸ hb)⟩
    · simp only [files]
      split
      · refine List.nodup_cons.mpr ⟨fun hm => ?_,hfiles⟩
        obtain ⟨n,hn,heq⟩ := mem_files hm
        exact hname (join_inj heq ▸ hn)
      · exact hfiles
    · simp only [below]
      split
      · next hent =>
        refine List.nodup_append.mpr ⟨ihsub (hsub (entered_dir hent).1),hbelow,?_⟩
        rintro a ha b hb rfl
        obtain ⟨r,rfl⟩ := mem_inside ha
        obtain ⟨n,hn,r',heq⟩ := mem_below hb
        have hsplit : name ++ SLASH :: r = n ++ SLASH :: r' := by simpa [join] using heq
        exact hname (component_unique hslash (hrest.name hn) hsplit ▸ hn)
      · exact hbelow

theorem mem_expansion_cons {name : Name} {kind : Kind} {sub rest : Forest} :
    y ∈ expansion c dev p (.cons name kind sub rest) ↔
      kind.isFile dev ∧ file_matches c (join p name) false ∧ y = join p name ∨
      entered c kind (join p name) ∧ y ∈ expansion c dev (join p name) sub ∨
      y ∈ expansion c dev p rest := by
  have hfiles : y ∈ files c dev p (.cons name kind sub rest) ↔
      kind.isFile dev ∧ file_matches c (join p name) false ∧ y = join p name ∨ y ∈ files c dev p rest := by
    rw [files]
    split
    · rename_i h
      rw [List.mem_cons,eq_true h.1,eq_true h.2,true_and,true_and]
    · rename_i h
      rw [← and_assoc,eq_false h,false_and,false_or]
  have hbelow : y ∈ below c dev p (.cons name kind sub rest) ↔
      entered c kind (join p name) ∧ y ∈ expansion c dev (join p name) sub ∨ y ∈ below c dev p rest := by
    rw [below]
    split
    · rename_i h
      rw [List.mem_append,eq_true h,true_and,expansion]
    · rename_i h
      rw [eq_false h,false_and,false_or]
  have hrest : y ∈ expansion c dev p rest ↔ y ∈ files c dev p rest ∨ y ∈ below c dev p rest := List.mem_append
  rw [expansion,List.mem_append,hfiles,hbelow,hrest]
  constructor
  · rintro ((hy | hy) | hy | hy)
    · exact .inl hy
    · exact .inr (.inr (.inl hy))
    · exact .inr (.inl hy)
    · exact .inr (.inr (.inr hy))
  · rintro (hy | hy | hy | hy)
    · exact .inl (.inl hy)
    · exact .inr (.inl hy)
    · exact .inl (.inr hy)
    · exact .inr (.inr hy)

theorem isFile_false {kind : Kind} (h : kind.isFile false) : kind = .file true := by
  cases kind with
  | file regular => simpa [Kind.isFile] using h
  | _ => cases h

theorem mem_expansion : y ∈ expansion c false p f ↔ Passes c p f y := by
  constructor
  · intro h
    induction f generalizing p with
    | nil => cases h
    | cons name kind sub rest ihsub ihrest =>
      rcases mem_expansion_cons.mp h with ⟨hkind,hm,rfl⟩ | ⟨hent,hy⟩ | hy
      · obtain rfl := isFile_false hkind
        exact .file hm
      · obtain ⟨rfl,hm⟩ := entered_dir hent
        exact .inside hm (ihsub hy)
      · exact .later (ihrest hy)
  · intro h
    induction h with
    | file hm => exact mem_expansion_cons.mpr (.inl ⟨rfl,hm,rfl⟩)
    | inside hm _ ih => exact mem_expansion_cons.mpr (.inr (.inl ⟨by simpa [entered] using hm,ih⟩))
    | later _ ih => exact mem_expansion_cons.mpr (.inr (.inr ih))

theorem expansion_noDevice (h : NoDevice c p f) : expansion c true p f = expansion c false p f := by
  have hboth : files c true p f = files c false p f ∧ below c true p f = below c false p f := by
    induction f generalizing p with
    | nil => exact ⟨rfl,rfl⟩
    | cons name kind sub rest ihsub ihrest =>
      obtain ⟨hdev,hsub,hrest⟩ := h
      have hfile : (kind.isFile true ∧ file_matches c (join p name) false) ↔
          (kind.isFile false ∧ file_matches c (join p name) false) := by
        refine and_congr_left fun hm => ?_
        cases kind with
        | file regular =>
          cases regular with
          | true => exact Iff.rfl
          | false => exact absurd ⟨rfl,hm⟩ hdev
        | _ => exact Iff.rfl
      constructor
      · simp only [files,hfile,(ihrest hrest).1]
      · simp only [below,(ihrest hrest).2]
        split
        · next hent => rw [(ihsub (hsub hent)).1,(ihsub (hsub hent)).2]
        · rfl
  rw [expansion,expansion,hboth.1,hboth.2]

theorem expansion_length_cons {name : Name} {kind : Kind} {sub rest : Forest} :
    (expansion c dev p (.cons name kind sub rest)).length =
      (if kind.isFile dev ∧ file_matches c (join p name) false then 1 else 0) +
        (if entered c kind (join p name) then (expansion c dev (join p name) sub).length else 0) +
          (expansion c dev p rest).length := by
  simp only [expansion,files,below]
  split <;> split <;> simp <;> omega

theorem expansion_length : (expansion c false p f).length ≤ (expansion c true p f).length ∧
    ((expansion c true p f).length = (expansion c false p f).length → NoDevice c p f) := by
  induction f generalizing p with
  | nil => exact ⟨Nat.le_refl _,fun _ => trivial⟩
  | cons name kind sub rest ihsub ihrest =>
    obtain ⟨hlesub,heqsub⟩ := ihsub (p := join p name)
    obtain ⟨hlerest,heqrest⟩ := ihrest (p := p)
    have hfile : (if kind.isFile false ∧ file_matches c (join p name) false then 1 else 0) +
        (if kind = .file false ∧ file_matches c (join p name) false then 1 else 0) =
          (if kind.isFile true ∧ file_matches c (join p name) false then 1 else 0) := by
      cases kind with
      | file regular => cases regular <;> simp [Kind.isFile]
      | _ => simp [Kind.isFile]
    rw [expansion_length_cons,expansion_length_cons,← hfile]
    refine ⟨by split_ifs <;> omega,fun heq => ⟨fun hdev => ?_,fun hent => heqsub ?_,heqrest ?_⟩⟩
    · rw [if_pos hdev] at heq
      split_ifs at heq <;> omega
    · rw [if_pos hent,if_pos hent] at heq
      omega
    · split_ifs at heq <;> omega

end Files

/-! ## The expansion -/

/-- A track that expands entry `e` begins. -/
structure Expanding (x : Place) (qm : QueueMgr) : Prop where
  qent : (qm.trk x.t).qent = x.e
  quCur : (qm.trk x.t).quCur = x.e
  removed : (qm.trk x.t).removed = false
  own : (qm.ent x.e).q = x.q
  list : (qm.queue x.q).index = x.pre ++ x.e :: x.post
  nodup : (qm.queue x.q).index.Nodup
  fresh : ∀ y ∈ (qm.queue x.q).index, y < qm.ne

/-- The directory itself: nothing is known below one whose names can't be read. -/
def Root (fs : Fs) (p : Name) : Option Forest → Prop
  | none => ∀ names, fs.dirscan p = some names → fntree_from_dirscan p names = .refused
  | some f => fs.dirscan p = some f.names ∧ (∀ n ∈ f.names, n.length ≤ 0xffff) ∧ OnDisk fs p f

/-- The files that pass stand in the list in the place of the directory. -/
def Expanded (c : Conf) (fs : Fs) (x : Place) (qm : QueueMgr) (f : Forest) : Prop :=
  ∃ fuel code s l, qu_add_dir_r c fs x.t (x.old x.e) qm x.old fuel = some (.rc code s) ∧
    (s.qm.queue x.q).index.map s.name = x.pre.map x.old ++ l ++ x.post.map x.old ∧
    l = expansion c false (x.old x.e) f ∧ l.Nodup ∧ (∀ y, y ∈ l ↔ Passes c (x.old x.e) f y) ∧
    x.e ∉ (s.qm.queue x.q).index

section Expansion

variable {c : Conf} {fs : Fs} {x : Place} {qm : QueueMgr} {s : St} {l : List Name}

theorem Expanding.spot (h : Expanding x qm) (root : Block) : x.Spot (start root qm x.old) [] where
  qent := h.qent
  known := h.fresh x.e (h.list ▸ List.mem_append_right _ List.mem_cons_self)
  names _ _ := rfl
  nodup := h.nodup
  fresh := h.fresh
  place := ⟨[],by rw [List.append_nil]; exact h.quCur ▸ h.list,by
    change (qm.ent (qm.trk x.t).quCur).q = x.q
    rw [h.quCur,h.own],Or.inr ⟨h.removed,rfl,h.quCur,rfl⟩⟩

theorem spot_empty (h : x.Spot s []) : x.e ∈ (s.qm.queue x.q).index := by
  obtain ⟨l,hindex,-,⟨-,hmap,-⟩ | ⟨-,-,hcur,-⟩⟩ := h.place
  · simp at hmap
  · rw [hindex,hcur]
    exact List.mem_append_right _ List.mem_cons_self

theorem spot_files (h : x.Spot s l) (hl : l ≠ []) :
    (s.qm.queue x.q).index.map s.name = x.pre.map x.old ++ l ++ x.post.map x.old ∧
      x.e ∉ (s.qm.queue x.q).index := by
  obtain ⟨ids,hindex,-,⟨-,hmap,hout⟩ | ⟨-,-,-,hnil⟩⟩ := h.place
  · have hpre : x.pre.map s.name = x.pre.map x.old :=
      List.map_congr_left fun y hy => h.names y (List.mem_append_left _ hy)
    have hpost : x.post.map s.name = x.post.map x.old :=
      List.map_congr_left fun y hy => h.names y (List.mem_append_right _ hy)
    refine ⟨?_,hout⟩
    rw [hindex,List.append_cons,List.append_assoc x.pre,List.map_append,List.map_append,hmap,hpre,
      hpost]
  · exact absurd hnil hl

theorem unread_listed {r : Result} {fuel : Nat} (hroot : Root fs (x.old x.e) none)
    (hrun : qu_add_dir_r c fs x.t (x.old x.e) qm x.old fuel = some r) :
    r = .rc (-1) (unread qm x.old) := by
  have hres : qu_add_dir_r c fs x.t (x.old x.e) qm x.old fuel =
      some (.rc (-1) (unread qm x.old)) := by
    unfold qu_add_dir_r
    cases hd : fs.dirscan (x.old x.e) with
    | none => rfl
    | some names =>
      dsimp only
      rw [hroot names hd]
  exact (Option.some.inj (hres.symm.trans hrun)).symm

theorem qu_add_dir_r_loop {f : Forest} (hroot : Root fs (x.old x.e) (some f))
    (hfits : Fits (x.old x.e) f.names) (fuel : Nat) : qu_add_dir_r c fs x.t (x.old x.e) qm x.old fuel =
      Fuel.loop (round c fs x.t) fuel (start ⟨x.old x.e,fresh f.names⟩ qm x.old) := by
  obtain ⟨hscan,hlen,-⟩ := hroot
  have hblock : fntree_from_dirscan (x.old x.e) f.names = .block ⟨x.old x.e,fresh f.names⟩ := by
    rw [fntree_from_dirscan,if_neg (not_not_intro hfits),if_pos (by simpa using hlen)]
    rfl
  simp only [qu_add_dir_r,hscan,hblock]

/-- The loop gets through the whole tree. -/
structure Clear (c : Conf) (p : Name) (f : Forest) : Prop where
  deep : height c p f ≤ STK_MAX
  fits : Fits p f.names
  smooth : Smooth c p f
  below : SmoothBelow c p f

theorem listed_clear {f : Forest} (hx : Expanding x qm) (hroot : Root fs (x.old x.e) (some f))
    (h : Clear c (x.old x.e) f) : ∃ s fuel,
      qu_add_dir_r c fs x.t (x.old x.e) qm x.old fuel = some (.rc 0 s) ∧
        x.Spot s (expansion c true (x.old x.e) f) ∧
        ∀ r fuel, qu_add_dir_r c fs x.t (x.old x.e) qm x.old fuel = some r → r = .rc 0 s := by
  obtain ⟨s,hreturns,hfound⟩ := (walk_returns (x := x) qm x.old hroot.2.2).1 h.deep h.smooth h.below
  refine ⟨s,hreturns.choose,?_,hfound [] (hx.spot _),fun r fuel hrun => ?_⟩
  · rw [qu_add_dir_r_loop hroot h.fits]
    exact hreturns.choose_spec
  · rw [qu_add_dir_r_loop hroot h.fits] at hrun
    exact Fuel.Returns.unique ⟨fuel,hrun⟩ hreturns

theorem no_code {f : Forest} (hroot : Root fs (x.old x.e) (some f)) (h : ¬Clear c (x.old x.e) f)
    {code : Int} {fuel : Nat} :
    qu_add_dir_r c fs x.t (x.old x.e) qm x.old fuel ≠ some (.rc code s) := by
  intro hrun
  by_cases hfits : Fits (x.old x.e) f.names
  · obtain ⟨r,hret,hstop⟩ := (walk_returns (x := x) qm x.old hroot.2.2).2.1
      fun hall => h ⟨hall.1,hfits,hall.2.1,hall.2.2⟩
    rw [qu_add_dir_r_loop hroot hfits] at hrun
    exact hstop code s (Fuel.Returns.unique hret ⟨fuel,hrun⟩)
  · have hover : fntree_from_dirscan (x.old x.e) f.names = .overflow := if_pos hfits
    simp [qu_add_dir_r,hroot.1,hover] at hrun

theorem null_deep {f : Forest} (hroot : Root fs (x.old x.e) (some f)) (hfits : Fits (x.old x.e) f.names)
    (hsmooth : Smooth c (x.old x.e) f) (hbelow : SmoothBelow c (x.old x.e) f)
    (hdeep : STK_MAX < height c (x.old x.e) f) :
    ∃ fuel, qu_add_dir_r c fs x.t (x.old x.e) qm x.old fuel = some .null := by
  obtain ⟨fuel,hrun⟩ := (walk_returns (x := x) qm x.old hroot.2.2).2.2 hsmooth hbelow hdeep
  exact ⟨fuel,(qu_add_dir_r_loop hroot hfits fuel).trans hrun⟩

theorem Expanded.needs {f : Forest} (h : Expanded c fs x qm f) (hx : Expanding x qm)
    (hroot : Root fs (x.old x.e) (some f)) :
    Clear c (x.old x.e) f ∧ NoDevice c (x.old x.e) f ∧ ∃ y, Passes c (x.old x.e) f y := by
  obtain ⟨fuel,code,s,l,hrun,hindex,rfl,-,hmem,hout⟩ := h
  have hclear : Clear c (x.old x.e) f := by
    by_contra hnot
    exact no_code hroot hnot hrun
  obtain ⟨s',_,-,hspot,hunique⟩ := listed_clear hx hroot hclear
  obtain ⟨-,rfl⟩ := Result.rc.inj (hunique _ _ hrun)
  have hsome : expansion c true (x.old x.e) f ≠ [] :=
    fun hnil => hout (spot_empty (hnil ▸ hspot))
  have hsame : expansion c true (x.old x.e) f = expansion c false (x.old x.e) f :=
    List.append_cancel_left (List.append_cancel_right ((spot_files hspot hsome).1.symm.trans hindex))
  obtain ⟨y,hy⟩ := List.exists_mem_of_ne_nil _ hsome
  exact ⟨hclear,expansion_length.2 (congrArg List.length hsame),y,(hmem y).mp (hsame ▸ hy)⟩

/-- A directory is replaced by its files exactly when there is one, no device passes, and the loop gets through
the whole tree. -/
theorem expanded_iff {root : Option Forest} (hx : Expanding x qm) (hroot : Root fs (x.old x.e) root)
    (hproper : Proper (root.getD .nil)) : Expanded c fs x qm (root.getD .nil) ↔
      Clear c (x.old x.e) (root.getD .nil) ∧ NoDevice c (x.old x.e) (root.getD .nil) ∧
        ∃ y, Passes c (x.old x.e) (root.getD .nil) y := by
  cases root with
  | none =>
    refine ⟨fun ⟨fuel,code,s,l,hrun,_,_,_,_,hout⟩ => ?_,fun ⟨_,_,y,hy⟩ => nomatch hy⟩
    obtain ⟨-,rfl⟩ := Result.rc.inj (unread_listed hroot hrun)
    refine absurd ?_ hout
    exact hx.list ▸ List.mem_append_right _ List.mem_cons_self
  | some f =>
    rw [Option.getD_some] at hproper ⊢
    refine ⟨fun h => h.needs hx hroot,fun ⟨hclear,hdev,y,hy⟩ => ?_⟩
    obtain ⟨s,fuel,hrun,hspot,-⟩ := listed_clear hx hroot hclear
    rw [expansion_noDevice hdev] at hspot
    obtain ⟨hmap,hout⟩ := spot_files hspot (List.ne_nil_of_mem (mem_expansion.mpr hy))
    exact ⟨fuel,0,s,_,hrun,hmap,rfl,expansion_nodup hproper,fun _ => mem_expansion,hout⟩

end Expansion

/-! ## A list of a file, a directory and another file -/

def shelf : QueueMgr :=
  (((QueueMgr.init.qCreate false false false).qAdd 0 false none false).qAdd 0 false (some .dir)
    true).qAdd 0 false none false

-- "i", "d", "j"
def middle : Place := ⟨0,0,1,[0],[2],fun e => if e = 1 then [0x64] else [0x69 + e.toUInt8 / 2]⟩

/-- No filters. -/
def anyFile : Conf := ⟨[],[],fun _ _ => false⟩

theorem shelf_expanding : Expanding middle shelf where
  qent := by decide +kernel
  quCur := by decide +kernel
  removed := by decide +kernel
  own := by decide +kernel
  list := by decide +kernel
  nodup := by decide +kernel
  fresh := by decide +kernel

/-- "a" is a file, "s" has the file "b" and the empty directory "e", "u" can't be opened. -/
def smallTree : Forest :=
  .cons [0x61] (.file true) .nil (.cons [0x73] .dir
    (.cons [0x62] (.file true) .nil (.cons [0x65] .dir .nil .nil)) (.cons [0x75] .unreadable .nil .nil))

def smallFs : Fs where
  open_read p := some (p.getLast? ≠ some 0x75)
  info p := some (if p.getLast? = some 0x73 ∨ p.getLast? = some 0x65 then .dir else .regular)
  dirscan p :=
    if p = [0x64] then some [[0x61],[0x73],[0x75]]
    else if p.getLast? = some 0x73 then some [[0x62],[0x65]]
    else some []

theorem small_root : Root smallFs (middle.old middle.e) (some smallTree) :=
  ⟨rfl,by decide,⟨by decide,by decide⟩,nofun,⟨by decide,by decide,by decide,by decide⟩,fun _ =>
    ⟨⟨by decide,by decide⟩,nofun,⟨by decide,by decide,by decide,by decide⟩,fun _ => trivial,
      trivial⟩,.inl (by decide),nofun,trivial⟩

theorem small_proper : Proper smallTree :=
  ⟨by decide,by decide,nofun,by decide,by decide,fun _ =>
    ⟨by decide,by decide,nofun,by decide,by decide,fun _ => trivial,trivial⟩,by decide,by decide,
    nofun,trivial⟩

theorem small_clear : Clear anyFile (middle.old middle.e) smallTree where
  deep := by decide
  fits := by decide
  smooth := ⟨⟨nofun,nofun⟩,⟨nofun,fun _ => by decide⟩,⟨nofun,nofun⟩,trivial⟩
  below := ⟨nofun,fun _ => ⟨⟨⟨nofun,nofun⟩,⟨nofun,fun _ => by decide⟩,trivial⟩,
    nofun,fun _ => ⟨trivial,trivial⟩,trivial⟩,nofun,trivial⟩

theorem expanded_small : Expanded anyFile smallFs middle shelf smallTree :=
  (expanded_iff shelf_expanding small_root small_proper).mpr ⟨small_clear,
    ⟨by decide,nofun,by decide,fun _ => ⟨by decide,nofun,by decide,fun _ => trivial,trivial⟩,by decide,
      nofun,trivial⟩,_,.file (by decide)⟩

/-- A directory with nothing in it, and one with directories in directories. -/
def nest : Nat → Forest
  | 0 => .nil
  | n + 1 => .cons [0x61] .dir (nest n) .nil

def nestFs (n : Nat) : Fs where
  open_read _ := some true
  info _ := some .dir
  dirscan p := some (if p.length < 2 * n + 1 then [[0x61]] else [])

theorem nest_on_disk {n k : Nat} {p : Name} (hp : p.length + 2 * k = 2 * n + 1) :
    (nestFs n).dirscan p = some (nest k).names ∧ OnDisk (nestFs n) p (nest k) := by
  induction k generalizing p with
  | zero =>
    have hlen : ¬p.length < 2 * n + 1 := by omega
    exact ⟨congrArg some (if_neg hlen),trivial⟩
  | succ k ih =>
    have hlen : p.length < 2 * n + 1 := by omega
    obtain ⟨hscan,hdisk⟩ := ih (p := join p [0x61]) (by simp [join]; omega)
    refine ⟨congrArg some (if_pos hlen),⟨rfl,rfl,hscan,?_⟩,fun _ => hdisk,trivial⟩
    cases k <;> simp [nest,Forest.names]

theorem nest_root (n : Nat) : Root (nestFs n) (middle.old middle.e) (some (nest n)) := by
  obtain ⟨hscan,hdisk⟩ := nest_on_disk (n := n) (k := n) (p := middle.old middle.e)
    (Nat.add_comm _ _)
  refine ⟨hscan,?_,hdisk⟩
  cases n <;> simp [nest,Forest.names]

theorem nest_height (n : Nat) (p : Name) : height anyFile p (nest n) = n := by
  induction n generalizing p with
  | zero => rfl
  | succ n ih =>
    have hm : file_matches anyFile (join p [0x61]) true = true := rfl
    simp [nest,height,entered,hm,ih]

theorem nest_fits {n : Nat} {p : Name} (hp : p.length + 2 * n ≤ 400) : Fits p (nest n).names := by
  have hcap : capacity p = 512 := by
    simp only [capacity,FnBlock.align_ceil2]
    omega
  rw [Fits,hcap]
  cases n with
  | zero => exact ⟨by omega,trivial⟩
  | succ n =>
    have hnew : FnBlock.align_ceil2 (16 + p.length + 1) 8 + FnBlock._fntr_ent_size 1 0 ≤ 512 := by
      simp only [FnBlock._fntr_ent_size,FnBlock.align_ceil2]
      omega
    refine ⟨by omega,?_⟩
    change FnBlock.Room 512 _ [([0x61],0)]
    rw [FnBlock.Room,if_neg (by decide)]
    exact (if_pos hnew).mpr trivial

theorem nest_smooth {n : Nat} {p : Name} (hp : p.length + 2 * n ≤ 400) :
    Smooth anyFile p (nest n) ∧ SmoothBelow anyFile p (nest n) := by
  induction n generalizing p with
  | zero => exact ⟨trivial,trivial⟩
  | succ n ih =>
    have hq : (join p [0x61]).length + 2 * n ≤ 400 := by
      simp only [join,List.length_append,List.length_cons,List.length_nil]
      omega
    exact ⟨⟨⟨nofun,fun _ => nest_fits hq⟩,trivial⟩,fun _ => ih hq,trivial⟩

/-- A directory with "a" and the file "b". -/
def pair (a : Kind) : Forest := .cons [0x61] a .nil (.cons [0x62] (.file true) .nil .nil)

def pairFs (opens : Option Bool) (type : FileType) : Fs where
  open_read p := if p.getLast? = some 0x61 then opens else some true
  info p := some (if p.getLast? = some 0x61 then type else .regular)
  dirscan _ := some [[0x61],[0x62]]

theorem pair_root {opens : Option Bool} {type : FileType} {a : Kind} {p : Name} (ha : a ≠ .dir)
    (h : Answers (pairFs opens type) (join p [0x61]) [] a) :
    Root (pairFs opens type) p (some (pair a)) := by
  refine ⟨rfl,by simp [pair,Forest.names],h,fun hdir => absurd hdir ha,⟨?_,?_⟩,nofun,trivial⟩
  · simp [pairFs,join]
  · simp [pairFs,join]

theorem not_fits {p : Name} {names : List Name} (hp : p.length = 500) : ¬Fits p names := by
  intro h
  have hspace := h.1.1
  simp only [capacity,FnBlock.align_ceil2] at hspace
  omega

/-- "d" is a path of 500 bytes. -/
def far : Place := {middle with old := fun e => if e = 1 then List.replicate 500 0x64 else middle.old e}

theorem not_expanded :
    (Root (nestFs 0) (middle.old middle.e) (some .nil) ∧
      ¬Expanded anyFile (nestFs 0) middle shelf .nil) ∧
    (Root (nestFs 65) (middle.old middle.e) (some (nest 65)) ∧
      ∃ fuel, qu_add_dir_r anyFile (nestFs 65) 0 (middle.old middle.e) shelf middle.old fuel =
        some .null) ∧
    (Root (pairFs (some true) .regular) (far.old far.e) (some (pair (.file true))) ∧
      ∀ fuel, qu_add_dir_r anyFile (pairFs (some true) .regular) 0 (far.old far.e) shelf far.old fuel =
        some .overflow) ∧
    (Root (pairFs (some true) .other) (middle.old middle.e) (some (pair (.file false))) ∧
      ¬Expanded anyFile (pairFs (some true) .other) middle shelf (pair (.file false))) ∧
    Root (pairFs none .other) (middle.old middle.e) (some (pair .blocked)) ∧
      ¬Expanded anyFile (pairFs none .other) middle shelf (pair .blocked) := by
  have hdevice : Root (pairFs (some true) .other) (middle.old middle.e) (some (pair (.file false))) :=
    pair_root nofun ⟨by decide,by decide⟩
  have hpipe : Root (pairFs none .other) (middle.old middle.e) (some (pair .blocked)) :=
    pair_root nofun (show _ = none by decide)
  have hsmooth := nest_smooth (n := 65) (p := middle.old middle.e) (by decide)
  have hdeep : STK_MAX < height anyFile (middle.old middle.e) (nest 65) := by
    rw [nest_height]
    decide
  refine ⟨⟨nest_root 0,fun h => ?_⟩,⟨nest_root 65,?_⟩,⟨pair_root nofun ⟨?_,?_⟩,fun fuel => ?_⟩,
    ⟨hdevice,fun h => ?_⟩,hpipe,fun h => ?_⟩
  · obtain ⟨-,-,y,hy⟩ := h.needs shelf_expanding (nest_root 0)
    cases hy
  · exact null_deep (nest_root 65) (nest_fits (by decide)) hsmooth.1 hsmooth.2 hdeep
  · simp [pairFs,join]
  · simp [pairFs,join]
  · have hover : fntree_from_dirscan (far.old far.e) [[0x61],[0x62]] = .overflow :=
      if_pos (not_fits (List.length_replicate (a := (0x64 : UInt8))))
    have hscan : (pairFs (some true) .regular).dirscan (far.old far.e) = some [[0x61],[0x62]] := rfl
    simp only [qu_add_dir_r,hscan,hover]
  · exact (h.needs shelf_expanding hdevice).2.1.1 ⟨rfl,by decide⟩
  · exact (h.needs shelf_expanding hpipe).1.smooth.1.1 rfl

end Phiola.DirRead
