import Mathlib.Data.List.Basic

/-!
# Names in a playlist

A name is a URL, an absolute file name or a file name relative to a directory. The reader of a
playlist puts the playlist's directory before a relative name.
-/

namespace Phiola.Playlist

abbrev Name := List Char

/-- The functions of the system library that read a name, on a system with `/` as separator. -/
structure PathLib where
  /-- `ffpath_abs()` -/
  abs : Name → Bool
  /-- The directory part of `ffpath_splitpath_str()`, if the name has a separator. -/
  split : Name → Option Name
  /-- `ffstr_matchfmt()` for `%S://`: the code and the scheme. -/
  match_scheme : Name → Int × Name
  abs_iff : ∀ n, abs n = true ↔ n.head? = some '/'
  split_none : ∀ n, split n = none → '/' ∉ n
  split_some : ∀ n p, split n = some p → ∃ f, n = p ++ '/' :: f ∧ '/' ∉ f

/-- What precedes the last separator of a name. -/
def before_separator : Name → Option Name
  | [] => none
  | ch :: n =>
    match before_separator n with
    | some p => some (ch :: p)
    | none => if ch = '/' then some [] else none

theorem before_separator_none {n : Name} (h : before_separator n = none) : '/' ∉ n := by
  induction n with
  | nil => exact List.not_mem_nil
  | cons ch n ih =>
    cases hn : before_separator n with
    | some p => simp [before_separator,hn] at h
    | none =>
      have hch : ch ≠ '/' := by simpa [before_separator,hn] using h
      simp [ih hn,Ne.symm hch]

theorem before_separator_some {n p : Name} (h : before_separator n = some p) :
    ∃ f, n = p ++ '/' :: f ∧ '/' ∉ f := by
  induction n generalizing p with
  | nil => cases h
  | cons ch n ih =>
    cases hn : before_separator n with
    | some q =>
      obtain ⟨f,rfl,hf⟩ := ih hn
      obtain rfl : ch :: q = p := by simpa [before_separator,hn] using h
      exact ⟨f,rfl,hf⟩
    | none =>
      obtain ⟨rfl,rfl⟩ : ch = '/' ∧ p = [] := by
        simpa [before_separator,hn,eq_comm] using h
      exact ⟨n,rfl,before_separator_none hn⟩

/-- The functions on a Unix system. -/
def unix : PathLib where
  abs n := n.head? = some '/'
  split := before_separator
  match_scheme n :=
    let rest := n.dropWhile (· ≠ ':')
    if [':','/','/'] <+: rest then (rest.length - 3,n.takeWhile (· ≠ ':')) else (-1,[])
  abs_iff n := by simp
  split_none _ := before_separator_none
  split_some _ _ := before_separator_some

variable (L : PathLib)

def ffuri_scheme (name : Name) : Nat :=
  if (L.match_scheme name).1 ≤ 0 then 0 else (L.match_scheme name).2.length

/-- The part of a file name up to its last separator. -/
def path_of (fn : Name) : Name :=
  match L.split fn with
  | some p => p ++ ['/']
  | none => []

def plist_fullname (fn name : Name) : Name :=
  if L.abs name = false ∧ ffuri_scheme L name = 0 then path_of L fn ++ name else name

/-! ## What a name stands for -/

/-- One component of a file name, from the directory `d`. -/
def enter (d : List Name) (c : Name) : List Name :=
  if c = [] ∨ c = ['.'] then d else if c = ['.','.'] then d.dropLast else d ++ [c]

/-- One character of a file name: the directory so far and the component so far. -/
def scan (x : List Name × Name) (ch : Char) : List Name × Name :=
  if ch = '/' then (enter x.1 x.2,[]) else (x.1,x.2 ++ [ch])

/-- The file or directory that a relative name reaches from `d`. -/
def walk (d : List Name) (name : Name) : List Name :=
  let x := name.foldl scan (d,[])
  enter x.1 x.2

inductive Target
  | file (path : List Name)
  | url (name : Name)
deriving DecidableEq, Repr

/-- What a name stands for in the current directory `cwd`. -/
def resolve (cwd : List Name) (name : Name) : Target :=
  if L.abs name then .file (walk [] name)
  else if ffuri_scheme L name ≠ 0 then .url name
  else .file (walk cwd name)

/-- The directory of a file. -/
def dir_of (cwd : List Name) (fn : Name) : List Name :=
  walk (if L.abs fn then [] else cwd) (path_of L fn)

theorem foldl_scan_snoc (d : List Name) (p : Name) :
    (p ++ ['/']).foldl scan (d,[]) = (walk d p,[]) := by
  simp [List.foldl_append,scan,walk]

theorem walk_append (d : List Name) (p n : Name) :
    walk d (p ++ ['/'] ++ n) = walk (walk d (p ++ ['/'])) n := by
  have hend : walk d (p ++ ['/']) = walk d p := by
    rw [walk,foldl_scan_snoc]
    simp [enter]
  rw [hend,walk,List.foldl_append,foldl_scan_snoc]
  rfl

/-! ## How far a name goes up -/

/-- The directory `k` levels above `d`. -/
def parent (k : Nat) (d : List Name) : List Name := d.take (d.length - k)

/-- A path below the directory `up` levels above the start. -/
structure Below where
  up : Nat
  rest : List Name

def Below.enter (x : Below) (c : Name) : Below :=
  if c = [] ∨ c = ['.'] then x
  else if c = ['.','.'] then
    (if x.rest = [] then ⟨x.up + 1,[]⟩ else ⟨x.up,x.rest.dropLast⟩)
  else ⟨x.up,x.rest ++ [c]⟩

def Below.scan (x : Below × Name) (ch : Char) : Below × Name :=
  if ch = '/' then (x.1.enter x.2,[]) else (x.1,x.2 ++ [ch])

def below (name : Name) : Below :=
  let x := name.foldl Below.scan (⟨0,[]⟩,[])
  x.1.enter x.2

/-- How many levels a relative name goes up from where it starts. -/
def climb (name : Name) : Nat := (below name).up

/-- The directory a path below `d` is in. -/
def Below.from_dir (x : Below) (d : List Name) : List Name := parent x.up d ++ x.rest

theorem dropLast_parent (k : Nat) (d : List Name) : (parent k d).dropLast = parent (k + 1) d := by
  rw [parent,List.dropLast_eq_take,List.take_take,List.length_take,parent]
  congr 1
  omega

theorem enter_from_dir (x : Below) (d : List Name) (c : Name) :
    enter (x.from_dir d) c = (x.enter c).from_dir d := by
  by_cases hskip : c = [] ∨ c = ['.']
  · simp only [enter,Below.enter,hskip,if_true]
  · by_cases hup : c = ['.','.']
    · rw [enter,Below.enter,if_neg hskip,if_neg hskip,if_pos hup,if_pos hup]
      by_cases hr : x.rest = []
      · rw [if_pos hr,Below.from_dir,hr,List.append_nil,dropLast_parent,Below.from_dir,List.append_nil]
      · rw [if_neg hr,Below.from_dir,Below.from_dir,List.dropLast_append_of_ne_nil hr]
    · rw [enter,Below.enter,if_neg hskip,if_neg hskip,if_neg hup,if_neg hup,Below.from_dir,
        Below.from_dir,List.append_assoc]

theorem foldl_scan_from_dir (d : List Name) (name : Name) (x : Below) (c : Name) :
    name.foldl scan (x.from_dir d,c) =
      ((name.foldl Below.scan (x,c)).1.from_dir d,(name.foldl Below.scan (x,c)).2) := by
  induction name generalizing x c with
  | nil => rfl
  | cons ch name ih =>
    rw [List.foldl_cons,List.foldl_cons]
    by_cases hs : ch = '/'
    · simp only [scan,Below.scan,hs,if_true,enter_from_dir]
      exact ih (x.enter c) []
    · simp only [scan,Below.scan,hs,if_false]
      exact ih x (c ++ [ch])

theorem walk_eq (d : List Name) (name : Name) :
    walk d name = parent (climb name) d ++ (below name).rest := by
  have hstart : d = (⟨0,[]⟩ : Below).from_dir d := by
    simp [Below.from_dir,parent]
  have hscan := foldl_scan_from_dir d name ⟨0,[]⟩ []
  rw [← hstart] at hscan
  rw [walk,hscan]
  exact enter_from_dir _ d _

/-- A relative name reaches the same file from two directories if they agree above where it
goes up to. -/
theorem walk_eq_walk_iff (d d' : List Name) (name : Name) :
    walk d name = walk d' name ↔ parent (climb name) d = parent (climb name) d' := by
  rw [walk_eq,walk_eq,List.append_left_inj]

end Phiola.Playlist
