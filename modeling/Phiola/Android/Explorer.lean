import Mathlib.Data.List.Forall2
import Phiola.Framework.Machine

/-!
# The file explorer

The view shows one row for the directory, one for the way up and one for each entry; `fns` has the paths. Two
flags and the number of directories say how a row's position is turned into an index of `fns`. The texts of the
rows are left out, but for the names.
-/

namespace Phiola.Android.Explorer

variable {N P : Type}

/-- A file, with what `isDirectory()` says while the files are sorted and when it is asked again. -/
structure File (P : Type) where
  path : P
  sorted_dir : Bool
  isDirectory : Bool

inductive Row (N P : Type) where
  -- the path of the directory
  | path (p : P)
  | up
  | dir (name : N)
  | file (name : N)
  -- the head of the list of the storage directories
  | storages
  | storage (p : P)

/-- What does not change: `same` is `equalsIgnoreCase()`, and `le` is `compareToIgnoreCase()`. -/
structure Core (N P : Type) where
  storage_paths : List P
  parent : P → Option P
  getName : P → N
  same : P → P → Bool
  le : N → N → Bool

/-- `File.listFiles()`; `none` when it throws, `some none` when it returns `null`. -/
abbrev Ls (P : Type) := P → Option (Option (List (File P)))

structure State (N P : Type) where
  rows : List (Row N P)
  fns : List P
  updir : Bool
  uproot : Bool
  ndirs : Nat
  -- `none` is the empty path
  cur_path : Option P

/-- The call of `explorer_event()`. -/
inductive Out (P : Type) where
  | nothing
  | update
  | add (p : P)
  | add_recurse (p : P)
  -- `ArrayIndexOutOfBoundsException`
  | out_of_bounds
deriving DecidableEq

def Out.throws : Out P → Bool
  | .out_of_bounds => true
  | _ => false

/-- Directories first. -/
def Core.order (c : Core N P) (f1 f2 : File P) : Bool :=
  if f1.sorted_dir = f2.sorted_dir then c.le (c.getName f1.path) (c.getName f2.path) else f1.sorted_dir

def Core.row (c : Core N P) (f : File P) : Row N P :=
  if f.isDirectory then .dir (c.getName f.path) else .file (c.getName f.path)

def list_show_root (c : Core N P) : State N P where
  rows := .storages :: c.storage_paths.map .storage
  fns := c.storage_paths
  updir := false
  uproot := false
  ndirs := c.storage_paths.length
  cur_path := none

def list_show (c : Core N P) (ls : Ls P) (path : P) (s : State N P) : State N P :=
  match ls path with
  | none => s
  | some files =>
    let top := c.storage_paths.any (c.same path)
    let parent := if top then none else c.parent path
    let sorted := (files.getD []).mergeSort c.order
    { rows := .path path :: ((if top || parent.isSome then [.up] else []) ++ sorted.map c.row)
      fns := parent.toList ++ sorted.map File.path
      updir := top || parent.isSome
      uproot := top
      ndirs := parent.toList.length + sorted.countP File.isDirectory
      cur_path := some path }

def index (fns : List P) (pos : Int) : Option P := if 0 ≤ pos then fns[pos.toNat]? else none

def add_files_r (s : State N P) (pos : Int) : Out P :=
  let pos := if s.uproot then pos - 1 else pos
  if pos = 0 ∧ s.updir then .nothing
  else match index s.fns pos with
    | some p => .add_recurse p
    | none => .out_of_bounds

def event (c : Core N P) (ls : Ls P) (s : State N P) (long : Bool) (pos : Int) : State N P × Out P :=
  if pos = 0 then (s,.nothing)
  else
    let pos := pos - 1
    if long then (s,add_files_r s pos)
    else if s.uproot ∧ pos = 0 then (list_show_root c,.update)
    else
      let pos := if s.uproot then pos - 1 else pos
      match index s.fns pos with
      | none => (s,.out_of_bounds)
      | some p => if pos < s.ndirs then (list_show c ls p s,.update) else (s,.add p)

/-- `fill()`, which may be the first call. -/
def fill (c : Core N P) (ls : Ls P) (s : State N P) : State N P :=
  match s.cur_path with
  | none => list_show_root c
  | some p => list_show c ls p s

/-- The file system may be another one at each call. -/
inductive Act (P : Type) where
  | fill (ls : Ls P)
  | click (ls : Ls P) (long : Bool) (row : Nat)

/-- The view has the rows up to `count()`. After an exception nothing goes on. -/
def step (c : Core N P) (s : State N P) : Act P → Option (State N P)
  | .fill ls => some (fill c ls s)
  | .click ls long row =>
    if s.rows.length ≤ row ∨ (event c ls s long row).2.throws then none else some (event c ls s long row).1

/-! ### What a row stands for -/

inductive Item (P : Type) where
  -- the list of the storage directories
  | root
  | dir (p : P)
  | file (p : P)

/-- The path that is added. -/
def Item.path : Item P → Option P
  | .root => none
  | .dir p => some p
  | .file p => some p

def listed (fns : List P) (ndirs : Nat) : List (Item P) := (fns.take ndirs).map .dir ++ (fns.drop ndirs).map .file

/-- The items of all rows but the first. -/
def State.items (s : State N P) : List (Item P) := (if s.uproot then [.root] else []) ++ listed s.fns s.ndirs

def File.item (f : File P) : Item P := if f.isDirectory then .dir f.path else .file f.path

/-- The files that the directory in the view had, when it was read. -/
inductive Shows (c : Core N P) : State N P → List (File P) → Prop where
  | root : Shows c (list_show_root c) []
  | dir (ls : Ls P) (path : P) (files : Option (List (File P))) (s : State N P) (h : ls path = some files) :
    Shows c (list_show c ls path s) (files.getD [])

/-- A row and its item: the way up, a file with its name, or a storage directory. -/
inductive Names (c : Core N P) (cur : Option P) (files : List (File P)) : Row N P → Item P → Prop where
  | root (p : P) (hp : cur = some p) (h : c.storage_paths.any (c.same p) = true) : Names c cur files .up .root
  | parent (p q : P) (hp : cur = some p) (h : c.parent p = some q) : Names c cur files .up (.dir q)
  | entry (f : File P) (h : f ∈ files) : Names c cur files (c.row f) f.item
  | storage (p : P) (h : p ∈ c.storage_paths) : Names c cur files (.storage p) (.dir p)

/-- `isDirectory()` gives one answer for each file while a directory is read. -/
def Steady (ls : Ls P) : Prop :=
  ∀ p files,ls p = some (some files) → ∀ f ∈ files,f.sorted_dir = f.isDirectory

def Act.Steady : Act P → Prop
  | .fill ls | .click ls _ _ => Explorer.Steady ls

structure Good (c : Core N P) (s : State N P) : Prop where
  rows : s.rows ≠ []
  names : ∃ files,Shows c s files ∧ List.Forall₂ (Names c s.cur_path files) s.rows.tail s.items
  -- The row of the way up is the first one behind the path.
  up : ∀ i,s.rows[i]? = some .up ↔ i = 1 ∧ s.updir = true
  uproot : s.uproot = true → s.updir = true

/-- The comparison of names is an order. -/
structure Ordered (c : Core N P) : Prop where
  total : ∀ a b,(c.le a b || c.le b a) = true
  trans : ∀ a b d,c.le a b = true → c.le b d = true → c.le a d = true

theorem listed_cons (p : P) (fns : List P) (n : Nat) : listed (p :: fns) (n + 1) = .dir p :: listed fns n := rfl

theorem listed_get (fns : List P) (n i : Nat) :
    (listed fns n)[i]? = fns[i]?.map fun p => if i < n then .dir p else .file p := by
  induction fns generalizing n i with
  | nil => simp [listed]
  | cons p fns ih =>
    cases n with
    | zero =>
      have hfiles : listed (p :: fns) 0 = (p :: fns).map .file := rfl
      rw [hfiles,List.getElem?_map]
      simp
    | succ n =>
      cases i with
      | zero => simp [listed]
      | succ i => simpa [listed] using ih n i

/-! ### The order of the entries -/

section Order

variable {c : Core N P}

theorem order_total (h : Ordered c) (f g : File P) : (c.order f g || c.order g f) = true := by
  unfold Core.order
  by_cases he : f.sorted_dir = g.sorted_dir
  · rw [if_pos he,if_pos he.symm]
    exact h.total _ _
  · rw [if_neg he,if_neg (Ne.symm he)]
    cases hf : f.sorted_dir <;> cases hg : g.sorted_dir <;> simp_all

theorem order_trans (h : Ordered c) (f g k : File P) (hfg : c.order f g = true) (hgk : c.order g k = true) :
    c.order f k = true := by
  have ht := h.trans (c.getName f.path) (c.getName g.path) (c.getName k.path)
  unfold Core.order at *
  cases hf : f.sorted_dir <;> cases hg : g.sorted_dir <;> cases hk : k.sorted_dir <;> simp_all

theorem order_dir {f g : File P} (h : c.order f g = true) (hg : g.sorted_dir = true) : f.sorted_dir = true := by
  unfold Core.order at h
  cases hf : f.sorted_dir
  · simp [hf,hg] at h
  · rfl

/-- Directories come before files, so their number says which paths are theirs. -/
theorem items_sorted {l : List (File P)} (h : l.Pairwise fun f g => c.order f g = true)
    (hs : ∀ f ∈ l,f.sorted_dir = f.isDirectory) :
    listed (l.map File.path) (l.countP File.isDirectory) = l.map File.item := by
  induction l with
  | nil => rfl
  | cons f l ih =>
    have hp := List.pairwise_cons.mp h
    have hl := ih hp.2 fun g hg => hs g (List.mem_cons_of_mem f hg)
    cases hf : f.isDirectory with
    | true =>
      rw [List.countP_cons_of_pos hf,List.map_cons,List.map_cons,listed_cons,hl,File.item,if_pos hf]
    | false =>
      have hzero : l.countP File.isDirectory = 0 := by
        rw [List.countP_eq_zero]
        intro g hg hdir
        have hdir' := order_dir (hp.1 g hg) ((hs g (List.mem_cons_of_mem f hg)).trans hdir)
        rw [hs f List.mem_cons_self,hf] at hdir'
        cases hdir'
      rw [hzero] at hl
      rw [List.countP_cons_of_neg (by simp [hf]),hzero,List.map_cons,List.map_cons,← hl,File.item,
        if_neg (by simp [hf])]
      rfl

theorem row_ne_up (l : List (File P)) (i : Nat) : (l.map c.row)[i]? ≠ some .up := by
  intro h
  obtain ⟨f,-,hf⟩ := List.mem_map.mp (List.mem_of_getElem? h)
  unfold Core.row at hf
  split at hf <;> exact nomatch hf

end Order

/-! ### Every view -/

section View

variable {c : Core N P}

theorem good_root : Good c (list_show_root c) := by
  refine ⟨by simp [list_show_root],⟨[],.root,?_⟩,?_,by simp [list_show_root]⟩
  · have hall : listed c.storage_paths c.storage_paths.length = c.storage_paths.map .dir := by simp [listed]
    have hitems : (list_show_root c).items = c.storage_paths.map .dir := by
      simpa [State.items,list_show_root] using hall
    rw [hitems]
    exact List.forall₂_map_left_iff.mpr (List.forall₂_map_right_iff.mpr
      (List.forall₂_same.mpr fun p hp => .storage p hp))
  · intro i
    cases i <;> simp [list_show_root]

theorem good_show (hc : Ordered c) {ls : Ls P} (hs : Steady ls) {path : P} {files : Option (List (File P))}
    (hls : ls path = some files) (s : State N P) : Good c (list_show c ls path s) := by
  have hshows : Shows c (list_show c ls path s) (files.getD []) := .dir ls path files s hls
  have hmem : ∀ f,f ∈ (files.getD []).mergeSort c.order → f ∈ files.getD [] := fun f => List.mem_mergeSort.mp
  have hsteady : ∀ f ∈ files.getD [],f.sorted_dir = f.isDirectory := by
    cases files with
    | none => exact nofun
    | some l => exact hs path l hls
  have hsort := items_sorted (List.pairwise_mergeSort (order_trans hc) (order_total hc) (files.getD []))
    fun f hf => hsteady f (hmem f hf)
  have hrow := row_ne_up (c := c) ((files.getD []).mergeSort c.order)
  have hentries : List.Forall₂ (Names c (some path) (files.getD []))
      (((files.getD []).mergeSort c.order).map c.row) (((files.getD []).mergeSort c.order).map File.item) :=
    List.forall₂_map_left_iff.mpr (List.forall₂_map_right_iff.mpr
      (List.forall₂_same.mpr fun f hf => .entry f (hmem f hf)))
  rw [← hsort] at hentries
  generalize hl : (files.getD []).mergeSort c.order = l at hrow hentries
  cases htop : c.storage_paths.any (c.same path) with
  | true =>
    simp only [list_show,hls,hl,htop] at hshows ⊢
    refine ⟨by simp,⟨_,hshows,?_⟩,?_,by simp⟩
    · simpa [State.items] using List.Forall₂.cons (Names.root path rfl htop) hentries
    · intro i
      match i with
      | 0 => simp
      | 1 => simp
      | i + 2 => simpa using hrow i
  | false =>
    cases hp : c.parent path with
    | none =>
      simp only [list_show,hls,hl,htop,hp] at hshows ⊢
      refine ⟨by simp,⟨_,hshows,by simpa [State.items] using hentries⟩,?_,by simp⟩
      intro i
      match i with
      | 0 => simp
      | i + 1 => simpa using hrow i
    | some p =>
      simp only [list_show,hls,hl,htop,hp] at hshows ⊢
      refine ⟨by simp,⟨_,hshows,?_⟩,?_,by simp⟩
      · have hcount : 1 + l.countP File.isDirectory = l.countP File.isDirectory + 1 := Nat.add_comm _ _
        simpa [State.items,hcount,listed_cons] using List.Forall₂.cons (Names.parent path p rfl hp) hentries
      · intro i
        match i with
        | 0 => simp
        | 1 => simp
        | i + 2 => simpa using hrow i

theorem Good.show (hc : Ordered c) {s : State N P} (h : Good c s) {ls : Ls P} (hs : Steady ls) (path : P) :
    Good c (list_show c ls path s) := by
  cases hls : ls path with
  | none => simpa only [list_show,hls] using h
  | some files => exact good_show hc hs hls s

theorem Good.fill (hc : Ordered c) {s : State N P} (h : Good c s) {ls : Ls P} (hs : Steady ls) :
    Good c (fill c ls s) := by
  unfold Explorer.fill
  split
  · exact good_root
  · exact h.show hc hs _

theorem Good.event (hc : Ordered c) {s : State N P} (h : Good c s) {ls : Ls P} (hs : Steady ls) (long : Bool)
    (pos : Int) : Good c (event c ls s long pos).1 := by
  have hopen : ∀ pos : Int,Good c (match index s.fns pos with
      | none => (s,Out.out_of_bounds)
      | some p => if pos < s.ndirs then (list_show c ls p s,Out.update) else (s,Out.add p)).1 := by
    intro pos
    split
    · exact h
    · split
      · exact h.show hc hs _
      · exact h
  unfold Explorer.event
  split
  · exact h
  · cases long with
    | true => exact h
    | false =>
      simp only [Bool.false_eq_true,if_false]
      split
      · exact good_root
      · exact hopen _

theorem Good.step (hc : Ordered c) {s s' : State N P} {act : Act P} (h : Good c s) (ha : act.Steady)
    (hs : step c s act = some s') : Good c s' := by
  cases act with
  | fill ls =>
    obtain rfl := Option.some.inj hs
    exact h.fill hc ha
  | click ls long row =>
    simp only [Explorer.step] at hs
    split at hs
    · exact nomatch hs
    · obtain rfl := Option.some.inj hs
      exact h.event hc ha long row

theorem run_good (hc : Ordered c) {s s' : State N P} {as : List (Act P)} (h : Good c s) (has : ∀ a ∈ as,a.Steady)
    (hrun : Machine.run (step c) s as = some s') : Good c s' := by
  induction as generalizing s with
  | nil => exact Option.some.inj hrun ▸ h
  | cons a as ih =>
    obtain ⟨m,hm,hrest⟩ := Machine.run_cons_eq_some.mp hrun
    exact ih (h.step hc (has a List.mem_cons_self) hm) (fun b hb => has b (List.mem_cons_of_mem a hb)) hrest

/-! ### Clicks -/

theorem Good.item {s : State N P} (h : Good c s) {i : Nat} (hi : i + 1 < s.rows.length) :
    ∃ it,s.items[i]? = some it := by
  obtain ⟨r,rs,hr⟩ := List.exists_cons_of_ne_nil h.rows
  obtain ⟨files,-,hn⟩ := h.names
  have hlen := hn.length_eq
  rw [hr] at hi hlen
  simp only [List.tail_cons] at hlen
  simp only [List.length_cons] at hi
  exact ⟨s.items[i],List.getElem?_eq_getElem (by omega)⟩

theorem items_root {s : State N P} (h : s.uproot = true) : s.items = .root :: listed s.fns s.ndirs := by
  simp [State.items,h]

theorem items_listed {s : State N P} (h : s.uproot = false) : s.items = listed s.fns s.ndirs := by
  simp [State.items,h]

theorem index_nat (fns : List P) (i : Nat) : index fns i = fns[i]? := by simp [index]

/-- The path of an item that is in the list, with the place where it is. -/
theorem listed_some {fns : List P} {n i : Nat} {it : Item P} (h : (listed fns n)[i]? = some it) :
    ∃ p,fns[i]? = some p ∧ it = if i < n then .dir p else .file p := by
  rw [listed_get] at h
  obtain ⟨p,hp,hit⟩ := Option.map_eq_some_iff.mp h
  exact ⟨p,hp,hit.symm⟩

/-- What a click does with an item. -/
def Item.opened (c : Core N P) (ls : Ls P) (s : State N P) : Item P → State N P × Out P
  | .root => (list_show_root c,.update)
  | .dir p => (list_show c ls p s,.update)
  | .file p => (s,.add p)

theorem opened_listed (ls : Ls P) (s : State N P) {p : P} {i : Nat} :
    (if (i : Int) < s.ndirs then (list_show c ls p s,Out.update) else (s,Out.add p)) =
      (if i < s.ndirs then Item.dir p else .file p).opened c ls s := by
  by_cases hi : i < s.ndirs
  · rw [if_pos hi,if_pos (by exact_mod_cast hi)]
    rfl
  · rw [if_neg hi,if_neg (by exact_mod_cast hi)]
    rfl

theorem click_item (ls : Ls P) {s : State N P} {i : Nat} {it : Item P} (hit : s.items[i]? = some it) :
    event c ls s false (i + 1 : Nat) = it.opened c ls s := by
  have hpos : ((i + 1 : Nat) : Int) ≠ 0 := by omega
  have hsub : ((i + 1 : Nat) : Int) - 1 = i := by omega
  simp only [event,if_neg hpos,Bool.false_eq_true,if_false,hsub]
  cases hr : s.uproot with
  | false =>
    rw [items_listed hr] at hit
    obtain ⟨p,hp,rfl⟩ := listed_some hit
    simp only [Bool.false_eq_true,false_and,if_false,index_nat,hp]
    exact opened_listed ls s
  | true =>
    rw [items_root hr] at hit
    cases i with
    | zero =>
      obtain rfl := Option.some.inj hit
      simp [Item.opened]
    | succ i =>
      obtain ⟨p,hp,rfl⟩ := listed_some (i := i) (by simpa using hit)
      have hne : ((i + 1 : Nat) : Int) ≠ 0 := by omega
      have hsub' : ((i + 1 : Nat) : Int) - 1 = i := by omega
      simp only [true_and,if_neg hne,if_true,hsub',index_nat,hp]
      exact opened_listed ls s

/-- The first view, which `count()` needs. -/
inductive Started (c : Core N P) : State N P → Prop where
  | root : Started c (list_show_root c)
  | dir (ls : Ls P) (hs : Steady ls) (path : P) (files : Option (List (File P))) (s : State N P)
    (h : ls path = some files) : Started c (list_show c ls path s)

theorem Started.good (hc : Ordered c) {s : State N P} (h : Started c s) : Good c s := by
  cases h with
  | root => exact good_root
  | dir ls hs path files s h => exact good_show hc hs h s

theorem Good.row {s : State N P} (h : Good c s) {i : Nat} (hi : i + 1 < s.rows.length) : ∃ files r it,
    Shows c s files ∧ s.rows[i + 1]? = some r ∧ s.items[i]? = some it ∧ Names c s.cur_path files r it := by
  obtain ⟨it,hit⟩ := h.item hi
  obtain ⟨r,rs,hr⟩ := List.exists_cons_of_ne_nil h.rows
  obtain ⟨files,hshows,hn⟩ := h.names
  simp only [hr,List.tail_cons,List.length_cons] at hn hi
  have hrow : rs[i]? = some rs[i] := List.getElem?_eq_getElem (by omega)
  have hlt := (List.getElem?_eq_some_iff.mp hit).1
  refine ⟨files,rs[i],it,hshows,by rw [hr,List.getElem?_cons_succ,hrow],hit,?_⟩
  rw [← (List.getElem?_eq_some_iff.mp hit).2]
  exact hn.get (by omega) hlt

/-- A storage directory `1` with a directory `15`, which has a file, and a file beside it -/
def storage : Core Nat Nat :=
  ⟨[1],fun p => if p = 1 then some 0 else some (p / 10),fun p => p % 10,fun a b => a == b,fun a b => a ≤ b⟩
def sdcard : Ls Nat := fun p =>
  if p = 1 then some (some [⟨15,true,true⟩,⟨16,false,false⟩])
  else if p = 15 then some (some [⟨157,false,false⟩]) else some none

def sdcard_view : State Nat Nat := ⟨[.path 1,.up,.dir 5,.file 6],[15,16],true,true,1,some 1⟩
def below_view : State Nat Nat := ⟨[.path 15,.up,.file 7],[1,157],true,false,1,some 15⟩

theorem storage_ordered : Ordered storage := by
  refine ⟨fun a b => ?_,fun a b d hab hbd => ?_⟩
  · simpa [storage] using Nat.le_total a b
  · simp only [storage,decide_eq_true_eq] at hab hbd ⊢
    exact Nat.le_trans hab hbd

theorem sdcard_steady : Steady sdcard := by
  intro p files h f hf
  unfold sdcard at h
  split_ifs at h
  · cases h
    revert f hf
    decide
  · cases h
    revert f hf
    decide
  · cases h

theorem show_sdcard (s : State Nat Nat) : list_show storage sdcard 1 s = sdcard_view := by
  simp [list_show,sdcard,storage,sdcard_view,Core.row,List.mergeSort,List.MergeSort.Internal.splitInTwo,
    Core.order]

theorem show_below (s : State Nat Nat) : list_show storage sdcard 15 s = below_view := by
  simp [list_show,sdcard,storage,below_view,Core.row]

theorem clicks_below : Machine.run (step storage) (list_show_root storage)
    [.click sdcard false 1,.fill sdcard,.click sdcard false 2] = some below_view := by
  have hfirst : step storage (list_show_root storage) (.click sdcard false 1) = some sdcard_view :=
    congrArg some (show_sdcard (list_show_root storage))
  have hfill : step storage sdcard_view (.fill sdcard) = some sdcard_view :=
    congrArg some (show_sdcard sdcard_view)
  have hdir : step storage sdcard_view (.click sdcard false 2) = some below_view :=
    congrArg some (show_below sdcard_view)
  exact Machine.run_cons_eq_some.mpr ⟨_,hfirst,Machine.run_cons_eq_some.mpr ⟨_,hfill,
    Machine.run_cons_eq_some.mpr ⟨_,hdir,rfl⟩⟩⟩

/-- In every view that can be reached, over whatever the directories have at each time, a click on a row does
what the row says. -/
theorem click_follows_row (hc : Ordered c) {s₀ s : State N P} (h₀ : Started c s₀) {as : List (Act P)}
    (has : ∀ a ∈ as,a.Steady) (hrun : Machine.run (step c) s₀ as = some s) (ls : Ls P) {i : Nat}
    (hi : i + 1 < s.rows.length) : ∃ files r it,
      Shows c s files ∧ s.rows[i + 1]? = some r ∧ s.items[i]? = some it ∧ Names c s.cur_path files r it ∧
        event c ls s false (i + 1 : Nat) = it.opened c ls s := by
  have h := run_good hc (h₀.good hc) has hrun
  obtain ⟨files,r,it,hshows,hr,hit,hn⟩ := h.row hi
  exact ⟨files,r,it,hshows,hr,hit,hn,click_item ls hit⟩

theorem clicks_steady : ∀ a ∈ [Act.click sdcard false 1,.fill sdcard,.click sdcard false 2],a.Steady := by
  simp [Act.Steady,sdcard_steady]

theorem click_follows_row_below : ∃ files,Shows storage below_view files ∧
    Names storage (some 15) files (.file 7) (.file 157) ∧
      event storage sdcard below_view false (2 : Nat) = (below_view,.add 157) := by
  obtain ⟨files,r,it,hshows,hr,hit,hn,hev⟩ :=
    click_follows_row storage_ordered .root clicks_steady clicks_below sdcard (i := 1) (by decide)
  obtain rfl := Option.some.inj hr
  obtain rfl := Option.some.inj hit
  exact ⟨files,hshows,hn,hev⟩

theorem added_listed {s : State N P} {i : Nat} {it : Item P} (hit : (listed s.fns s.ndirs)[i]? = some it) :
    ∃ p,it.path = some p ∧ index s.fns i = some p := by
  obtain ⟨p,hp,rfl⟩ := listed_some hit
  refine ⟨p,?_,by rw [index_nat,hp]⟩
  split <;> rfl

theorem long_below {s : State N P} (hr : s.uproot = false) {i : Nat} {it : Item P} (hit : s.items[i]? = some it) :
    (i = 0 → s.updir = true → add_files_r s i = .nothing) ∧
      (¬(i = 0 ∧ s.updir = true) → ∃ p,it.path = some p ∧ add_files_r s i = .add_recurse p) := by
  rw [items_listed hr] at hit
  refine ⟨fun h0 hu => by simp [add_files_r,hr,h0,hu],fun hne => ?_⟩
  obtain ⟨p,hp,hidx⟩ := added_listed hit
  refine ⟨p,hp,?_⟩
  have hne' : ¬((i : Int) = 0 ∧ s.updir = true) := fun h => hne ⟨by exact_mod_cast h.1,h.2⟩
  simp only [add_files_r,hr,Bool.false_eq_true,if_false,if_neg hne',hidx]

theorem long_top {s : State N P} (hr : s.uproot = true) (hu : s.updir = true) {i : Nat} {it : Item P}
    (hit : s.items[i]? = some it) :
    (i = 0 → add_files_r s i = .out_of_bounds) ∧ (i = 1 → add_files_r s i = .nothing) ∧
      (2 ≤ i → ∃ p,it.path = some p ∧ add_files_r s i = .add_recurse p) := by
  rw [items_root hr] at hit
  refine ⟨fun h0 => by simp [add_files_r,hr,h0,index],fun h1 => by simp [add_files_r,hr,h1,hu],fun h2 => ?_⟩
  obtain ⟨j,rfl⟩ : ∃ j,i = j + 1 := ⟨i - 1,by omega⟩
  obtain ⟨p,hp,hidx⟩ := added_listed (i := j) (by simpa using hit)
  refine ⟨p,hp,?_⟩
  have hsub : ((j + 1 : Nat) : Int) - 1 = j := by omega
  have hne : ¬((j : Int) = 0 ∧ s.updir = true) := fun h => by omega
  simp only [add_files_r,hr,if_true,hsub,if_neg hne,hidx]

/-- A long click adds what the row stands for, and does nothing on the way up. In a storage directory `uproot`
is taken off the position a second time, before it is compared: the way up throws, and the first entry is taken
for it. -/
theorem long_click_row (hc : Ordered c) {s₀ s : State N P} (h₀ : Started c s₀) {as : List (Act P)}
    (has : ∀ a ∈ as,a.Steady) (hrun : Machine.run (step c) s₀ as = some s) (ls : Ls P) {i : Nat}
    (hi : i + 1 < s.rows.length) : ∃ files r it,
      Shows c s files ∧ s.rows[i + 1]? = some r ∧ s.items[i]? = some it ∧ Names c s.cur_path files r it ∧
      (event c ls s true (i + 1 : Nat)).1 = s ∧
      let out := (event c ls s true (i + 1 : Nat)).2
      if s.uproot then
        (i = 0 → r = .up ∧ out = .out_of_bounds) ∧ (i = 1 → r ≠ .up ∧ out = .nothing) ∧
          (2 ≤ i → ∃ p,it.path = some p ∧ out = .add_recurse p)
      else
        (r = .up → out = .nothing) ∧ (r ≠ .up → ∃ p,it.path = some p ∧ out = .add_recurse p) := by
  have h := run_good hc (h₀.good hc) has hrun
  obtain ⟨files,r,it,hshows,hr,hit,hn⟩ := h.row hi
  have hpos : ((i + 1 : Nat) : Int) ≠ 0 := by omega
  have hsub : ((i + 1 : Nat) : Int) - 1 = i := by omega
  have hev : event c ls s true (i + 1 : Nat) = (s,add_files_r s i) := by
    simp only [event,if_neg hpos,if_true,hsub]
  have hup : r = .up ↔ i = 0 ∧ s.updir = true := by
    have hrow := h.up (i + 1)
    rw [hr] at hrow
    simpa using hrow
  refine ⟨files,r,it,hshows,hr,hit,hn,by rw [hev],?_⟩
  rw [hev]
  cases hroot : s.uproot with
  | true =>
    have hu := h.uproot hroot
    obtain ⟨h0,h1,h2⟩ := long_top hroot hu hit
    have hfirst : i = 1 → r ≠ .up := fun h1 hru => absurd (hup.mp hru).1 (by omega)
    exact ⟨fun he => ⟨hup.mpr ⟨he,hu⟩,h0 he⟩,fun he => ⟨hfirst he,h1 he⟩,h2⟩
  | false =>
    obtain ⟨h0,h1⟩ := long_below hroot hit
    exact ⟨fun hru => h0 (hup.mp hru).1 (hup.mp hru).2,fun hne => h1 fun he => hne (hup.mpr he)⟩

theorem long_click_row_below :
    ∃ files,Shows storage below_view files ∧ Names storage (some 15) files (.file 7) (.file 157) ∧
      (event storage sdcard below_view true (2 : Nat)).2 = .add_recurse 157 := by
  obtain ⟨files,r,it,hshows,hr,hit,hn,-,-,hadd⟩ :=
    long_click_row storage_ordered .root clicks_steady clicks_below sdcard (i := 1) (by decide)
  obtain rfl := Option.some.inj hr
  obtain rfl := Option.some.inj hit
  obtain ⟨p,hp,hout⟩ := hadd nofun
  obtain rfl := Option.some.inj hp
  exact ⟨files,hshows,hn,hout⟩

end View

end Phiola.Android.Explorer
