import Mathlib.Algebra.Group.Nat.Defs
import Mathlib.Data.List.DropRight
import Phiola.Framework.Memory

/-!
# Output file names

`fw_name()` replaces the variables of an output template. Names are bytes.
-/

namespace Phiola.FileName

open Memory (byte_all)

def chars (cs : List Char) : List UInt8 := cs.map Char.toUInt8

/-- What `ffpath_splitpath()` splits at; a `\` only where `FFPATH_SLASH` is one. -/
def is_slash (ffpath_slash b : UInt8) : Bool := b == 47 || b == ffpath_slash

/-- The separators `/` and `\`. -/
def is_sep (b : UInt8) : Bool := b == 47 || b == 92

/-! ## Parts of a path -/

/-- `ffpath_splitpath_str()`: what is before the last slash, and the name. -/
def ffpath_splitpath_str (ffpath_slash : UInt8) (fullname : List UInt8) : List UInt8 × List UInt8 :=
  ((fullname.rdropWhile (!is_slash ffpath_slash ·)).dropLast,fullname.rtakeWhile (!is_slash ffpath_slash ·))

/-- `ffstr_rsplitby()`: what is before the last `by` and after it, or everything. -/
def ffstr_rsplitby (s : List UInt8) (sep : UInt8) : List UInt8 × List UInt8 :=
  if sep ∈ s then ((s.rdropWhile (· != sep)).dropLast,s.rtakeWhile (· != sep)) else (s,[])

/-- `ffpath_splitname_str()`: a name that starts with its only `.` has no extension. -/
def ffpath_splitname_str (nm : List UInt8) : List UInt8 × List UInt8 :=
  if (ffstr_rsplitby nm 46).1 = [] then (nm,[]) else ffstr_rsplitby nm 46

/-- `ffpath_split3_str()` -/
def ffpath_split3_str (ffpath_slash : UInt8) (fullname : List UInt8) :
    List UInt8 × List UInt8 × List UInt8 :=
  let (path,nm) := ffpath_splitpath_str ffpath_slash fullname
  (path,ffpath_splitname_str nm)

/-- `ffpath_split3_output()`: here such a name is just an extension. -/
def ffpath_split3_output (ffpath_slash : UInt8) (fullname : List UInt8) :
    List UInt8 × List UInt8 × List UInt8 :=
  let (path,nm) := ffpath_splitpath_str ffpath_slash fullname
  (path,ffstr_rsplitby nm 46)

/-! ## Characters -/

/-- `_ffpath_charmask_filename` -/
def _ffpath_charmask_filename : List Nat :=
  [0,0x2bff7bfb,0xefffffff,0x6fffffff,0xffffffff,0xffffffff,0xffffffff,0xffffffff]

/-- `ffbit_test_array32()` -/
def ffbit_test_array32 (ar : List Nat) (bit : Nat) : Bool := (ar.getD (bit / 32) 0).testBit (bit % 32)

def allowed (b : UInt8) : Bool := ffbit_test_array32 _ffpath_charmask_filename b.toNat

/-- `ffstr_skipchar()` and `ffstr_rskipchar()` of blanks -/
def trim (s : List UInt8) : List UInt8 := (s.dropWhile (· == 32)).rdropWhile (· == 32)

/-- `ffpath_makefn()` -/
def ffpath_makefn (src : List UInt8) (replace_char : UInt8) : List UInt8 :=
  (trim src).map fun b => if allowed b then b else replace_char

/-- `%0*u` -/
def decimal (width n : Nat) : List UInt8 :=
  List.replicate (width - (Nat.toDigits 10 n).length) 48 ++ chars (Nat.toDigits 10 n)

/-! ## Variables -/

/-- The fields of `ffdatetime` that are read. -/
structure DateTime where
  year : Nat
  month : Nat
  day : Nat
  hour : Nat
  minute : Nat
  second : Nat

/-- What is looked at: the system, `conf.ifile.name` and `metaif->find()` of the track, and the clock. -/
structure Track where
  windows : Bool
  ifile_name : List UInt8
  find : List UInt8 → Option (List UInt8)
  time : Nat → DateTime

/-- `FFPATH_SLASH` -/
def Track.ffpath_slash (t : Track) : UInt8 := if t.windows then 92 else 47

/-- `counter`, and how many times the clock was read. -/
structure Counts where
  counter : Nat
  reads : Nat

def VAR_COUNTER : List UInt8 := chars ['c','o','u','n','t','e','r']
def VAR_FILENAME : List UInt8 := chars ['f','i','l','e','n','a','m','e']
def VAR_FILEPATH : List UInt8 := chars ['f','i','l','e','p','a','t','h']
def VAR_NOWDATE : List UInt8 := chars ['n','o','w','d','a','t','e']
def VAR_NOWTIME : List UInt8 := chars ['n','o','w','t','i','m','e']

/-- `fw_name_var()` of a variable without its `@`. -/
def fw_name_var (t : Track) (n : Counts) (var : List UInt8) : Counts × List UInt8 :=
  if var = VAR_FILEPATH then (n,(ffpath_split3_str t.ffpath_slash t.ifile_name).1)
  else if var = VAR_FILENAME then (n,(ffpath_split3_str t.ffpath_slash t.ifile_name).2.1)
  else if var = VAR_NOWDATE then
    let dt := t.time n.reads
    ({n with reads := n.reads + 1},decimal 4 dt.year ++ decimal 2 dt.month ++ decimal 2 dt.day)
  else if var = VAR_NOWTIME then
    let dt := t.time n.reads
    ({n with reads := n.reads + 1},decimal 2 dt.hour ++ decimal 2 dt.minute ++ decimal 2 dt.second)
  else if var = VAR_COUNTER then
    let counter := (n.counter + 1) % 2 ^ 32
    ({n with counter},decimal 0 counter)
  else (n,ffpath_makefn ((t.find var).getD (64 :: var)) 95)

/-! ## Templates -/

/-- `0-9A-Z_a-z` -/
def is_var (b : UInt8) : Bool :=
  48 ≤ b && b ≤ 57 || 65 ≤ b && b ≤ 90 || b == 95 || 97 ≤ b && b ≤ 122

/-- A text chunk, or a variable without its `@`. -/
inductive Piece
  | text (s : List UInt8)
  | var (name : List UInt8)

/-- `ffstr_var_next()` with `@`, of a string that is not empty. -/
def ffstr_var_next : List UInt8 → List UInt8 × Piece
  | [] => ([],.text [])
  | b :: s =>
    if b ≠ 64 then ((b :: s).dropWhile (· != 64),.text ((b :: s).takeWhile (· != 64)))
    else (s.dropWhile is_var,.var (s.takeWhile is_var))

/-- The loop of `fw_name()`, at most so many times. -/
def expand (t : Track) : Nat → Counts → List UInt8 → List UInt8 → Counts × List UInt8
  | 0,n,_,buf => (n,buf)
  | k + 1,n,fn,buf =>
    if fn = [] then (n,buf)
    else
      match ffstr_var_next fn with
      | (fn,.text val) => expand t k n fn (buf ++ val)
      | (fn,.var name) =>
        let (n,val) := fw_name_var t n name
        expand t k n fn (buf ++ val)

/-- The template that is expanded: an extension alone gets `@filename` before it. -/
def fw_template (t : Track) (name : List UInt8) : List UInt8 :=
  let (fdir,fname,ext) := ffpath_split3_output t.ffpath_slash name
  if fname = [] then
    fdir ++ (if fdir ≠ [] then [t.ffpath_slash] else []) ++ 64 :: VAR_FILENAME ++ 46 :: ext
  else name

/-- `fw_name()`; every pass of its loop takes a byte at least. -/
def fw_name (t : Track) (n : Counts) (name : List UInt8) : Counts × List UInt8 :=
  let (_,fname,_) := ffpath_split3_output t.ffpath_slash name
  let fn := fw_template t name
  if fname ≠ [] ∧ 64 ∉ name then (n,name) else expand t fn.length n fn []

/-! ## What is expected -/

/-- A byte of the template, or a variable of it. -/
inductive Item
  | lit (b : UInt8)
  | var (name : List UInt8)
deriving DecidableEq

/-- The same with what the variable is replaced by. -/
inductive Part
  | lit (b : UInt8)
  | var (name bs : List UInt8)

def Item.source : Item → List UInt8
  | .lit b => [b]
  | .var name => 64 :: name

def Part.item : Part → Item
  | .lit b => .lit b
  | .var name _ => .var name

def Part.bytes : Part → List UInt8
  | .lit b => [b]
  | .var _ bs => bs

def Item.sep : Item → Bool
  | .lit b => is_sep b
  | .var _ => false

def Item.is_var : Item → Bool
  | .lit _ => false
  | .var _ => true

/-- The bytes and variables of a template. -/
def items : Nat → List UInt8 → List Item
  | 0,_ => []
  | k + 1,fn =>
    if fn = [] then []
    else
      match ffstr_var_next fn with
      | (fn,.text val) => val.map Item.lit ++ items k fn
      | (fn,.var name) => .var name :: items k fn

/-- The variables replaced one after the other. -/
def replaced (t : Track) (n : Counts) : List Item → List Part
  | [] => []
  | .lit b :: is => .lit b :: replaced t n is
  | .var name :: is =>
    let (n,bs) := fw_name_var t n name
    .var name bs :: replaced t n is

/-- The parts of the name that a template gives. -/
def parts (t : Track) (n : Counts) (fn : List UInt8) : List Part := replaced t n (items fn.length fn)

/-- What is between two separators, or at an end. -/
def Component {α : Type} (sep : α → Bool) (xs c : List α) : Prop :=
  ∃ pre post, xs = pre ++ c ++ post ∧ (∀ x ∈ c, sep x = false) ∧ (∀ x ∈ pre.getLast?, sep x = true) ∧
    ∀ x ∈ post.head?, sep x = true

/-- Empty, `.` or `..`. -/
def Dots (bs : List UInt8) : Prop := bs.length ≤ 2 ∧ ∀ b ∈ bs, b = 46

/-- A template that is an extension alone has its file name before it. -/
def completed (t : Track) (name : List UInt8) : List UInt8 :=
  let (_,fname,_) := ffpath_split3_output t.ffpath_slash name
  if fname = [] then
    name.rdropWhile (!is_slash t.ffpath_slash ·) ++ 64 :: VAR_FILENAME ++
      name.rtakeWhile (!is_slash t.ffpath_slash ·)
  else name

/-- The name stays in the chosen directory. -/
structure Contained (t : Track) (n : Counts) (name : List UInt8) : Prop where
  literal : ((parts t n (fw_template t name)).map Part.item).flatMap Item.source = completed t name ∧
    (fw_name t n name).2 = (parts t n (fw_template t name)).flatMap Part.bytes
  seps : (fw_name t n name).2.countP is_sep = name.countP is_sep
  components : ∀ c, Component (Item.sep ∘ Part.item) (parts t n (fw_template t name)) c → c ≠ [] →
    (∀ p ∈ c, p.item.is_var) → ¬Dots (c.flatMap Part.bytes)
  masked : ∀ var bs, Part.var var bs ∈ parts t n (fw_template t name) → var ≠ VAR_FILENAME →
    ∀ b ∈ bs, allowed b

/-- The name of the input file without its directory and extension. -/
def ifile_fname (t : Track) : List UInt8 := (ffpath_split3_str t.ffpath_slash t.ifile_name).2.1

/-- What a variable stands for before its characters are replaced; a number is a digit here. -/
def raw (t : Track) : Item → List UInt8
  | .lit b => [b]
  | .var name =>
    if name = VAR_FILENAME then ifile_fname t
    else if name = VAR_NOWDATE ∨ name = VAR_NOWTIME ∨ name = VAR_COUNTER then [48]
    else trim ((t.find name).getD (64 :: name))

/-! ## The loop -/

variable {t : Track} {n : Counts} {fn buf name : List UInt8} {k : Nat} {is : List Item}

theorem next_length (h : fn ≠ []) : (ffstr_var_next fn).1.length < fn.length := by
  cases fn with
  | nil => exact absurd rfl h
  | cons b s =>
    rw [ffstr_var_next,List.length_cons]
    split
    · rename_i hb
      rw [List.dropWhile_cons_of_pos (by simpa using hb)]
      have := (List.dropWhile_suffix (p := (· != 64)) (l := s)).length_le
      dsimp only
      omega
    · have := (List.dropWhile_suffix (p := is_var) (l := s)).length_le
      dsimp only
      omega

/-- The bytes of the template that a piece takes. -/
def Piece.source : Piece → List UInt8
  | .text s => s
  | .var name => 64 :: name

theorem next_source (fn : List UInt8) : (ffstr_var_next fn).2.source ++ (ffstr_var_next fn).1 = fn := by
  cases fn with
  | nil => rfl
  | cons b s =>
    by_cases hb : b = 64
    · rw [ffstr_var_next,if_neg (not_not.mpr hb),hb]
      exact congrArg _ List.takeWhile_append_dropWhile
    · rw [ffstr_var_next,if_pos hb]
      exact List.takeWhile_append_dropWhile

theorem lit_source (s : List UInt8) : (s.map Item.lit).flatMap Item.source = s := by
  induction s with
  | nil => rfl
  | cons b s ih => exact congrArg _ ih

theorem items_source (h : fn.length ≤ k) : (items k fn).flatMap Item.source = fn := by
  induction k generalizing fn with
  | zero =>
    obtain rfl := List.length_eq_zero_iff.mp (Nat.le_zero.mp h)
    rfl
  | succ k ih =>
    rw [items]
    by_cases hfn : fn = []
    · rw [if_pos hfn,hfn]
      rfl
    · rw [if_neg hfn]
      have hlen := next_length hfn
      have hsource := next_source fn
      rcases hnext : ffstr_var_next fn with ⟨rest,val | var⟩
      · rw [hnext] at hlen hsource
        dsimp only [Piece.source] at hlen hsource ⊢
        rw [List.flatMap_append,lit_source,ih (by omega),hsource]
      · rw [hnext] at hlen hsource
        dsimp only [Piece.source] at hlen hsource ⊢
        rw [List.flatMap_cons,Item.source,ih (by omega),hsource]

theorem replaced_item : (replaced t n is).map Part.item = is := by
  induction is generalizing n with
  | nil => rfl
  | cons i is ih =>
    cases i with
    | lit b => exact congrArg _ ih
    | var name => exact congrArg _ ih

theorem replaced_lit (s : List UInt8) : replaced t n (s.map Item.lit ++ is) = s.map Part.lit ++ replaced t n is := by
  induction s with
  | nil => rfl
  | cons b s ih => exact congrArg _ ih

theorem lit_bytes (s : List UInt8) : (s.map Part.lit).flatMap Part.bytes = s := by
  induction s with
  | nil => rfl
  | cons b s ih => exact congrArg _ ih

theorem expand_eq : (expand t k n fn buf).2 = buf ++ (replaced t n (items k fn)).flatMap Part.bytes := by
  induction k generalizing n fn buf with
  | zero => exact (List.append_nil _).symm
  | succ k ih =>
    rw [expand,items]
    by_cases hfn : fn = []
    · rw [if_pos hfn,if_pos hfn]
      exact (List.append_nil _).symm
    · rw [if_neg hfn,if_neg hfn]
      rcases ffstr_var_next fn with ⟨rest,val | var⟩
      · dsimp only
        rw [ih,replaced_lit,List.flatMap_append,lit_bytes,List.append_assoc]
      · dsimp only
        rw [ih,replaced,List.flatMap_cons,Part.bytes,List.append_assoc]

theorem no_var (h : ∀ i ∈ is, i.is_var = false) : (replaced t n is).flatMap Part.bytes = is.flatMap Item.source := by
  induction is with
  | nil => rfl
  | cons i is ih =>
    cases i with
    | lit b => exact congrArg _ (ih fun i hi => h i (List.mem_cons_of_mem _ hi))
    | var name => exact absurd (h _ (List.mem_cons_self ..)) nofun

/-- `fw_name()` puts the parts together. -/
theorem fw_name_eq : (fw_name t n name).2 = (parts t n (fw_template t name)).flatMap Part.bytes := by
  rcases hsplit : ffpath_split3_output t.ffpath_slash name with ⟨fdir,fname,ext⟩
  simp only [fw_name,hsplit]
  split
  · rename_i h
    have htemplate : fw_template t name = name := by
      simp only [fw_template,hsplit,if_neg h.1]
    rw [htemplate,parts,no_var,items_source (Nat.le_refl _)]
    intro i hi
    cases i with
    | lit b => rfl
    | var var =>
      refine absurd ?_ h.2
      have hsource : (items name.length name).flatMap Item.source = name := items_source (Nat.le_refl _)
      rw [← hsource]
      exact List.mem_flatMap.mpr ⟨_,hi,List.mem_cons_self ..⟩
  · exact expand_eq

theorem parts_source : ((parts t n fn).map Part.item).flatMap Item.source = fn := by
  rw [parts,replaced_item,items_source (Nat.le_refl _)]

/-! ## An extension alone -/

theorem dirs_last {c : UInt8} (h : c ∈ (name.rdropWhile (!is_slash t.ffpath_slash ·)).getLast?) :
    is_slash t.ffpath_slash c := by
  obtain ⟨hne,rfl⟩ := List.mem_getLast?_eq_getLast h
  simpa using List.rdropWhile_last_not _ _ hne

theorem slash_ne {c : UInt8} (h : is_slash t.ffpath_slash c) : c ≠ 64 ∧ c ≠ 46 := by
  rw [is_slash,Track.ffpath_slash,Bool.or_eq_true,beq_iff_eq,beq_iff_eq] at h
  split at h <;> rcases h with rfl | rfl <;> decide

theorem rsplit_nil {nm : List UInt8} (h : (ffstr_rsplitby nm 46).1 = []) :
    nm = 46 :: (ffstr_rsplitby nm 46).2 ∨ nm = [] ∧ (ffstr_rsplitby nm 46).2 = [] := by
  rw [ffstr_rsplitby] at h ⊢
  by_cases hmem : 46 ∈ nm
  · rw [if_pos hmem] at h ⊢
    left
    have hne : nm.rdropWhile (· != 46) ≠ [] := by
      intro hnil
      have := List.rdropWhile_eq_nil_iff.mp hnil 46 hmem
      simp at this
    have hlast := List.rdropWhile_last_not _ _ hne
    have hone : nm.rdropWhile (· != 46) = [46] := by
      have hdrop : (nm.rdropWhile (· != 46)).dropLast = [] := h
      rw [← List.dropLast_append_getLast hne,hdrop]
      simpa using hlast
    calc nm = nm.rdropWhile (· != 46) ++ nm.rtakeWhile (· != 46) := (List.rdropWhile_append_rtakeWhile ..).symm
      _ = 46 :: nm.rtakeWhile (· != 46) := by rw [hone]; rfl
  · rw [if_neg hmem] at h ⊢
    exact .inr ⟨h,rfl⟩

/-- The template that is expanded is the completed one if the name is an extension after `FFPATH_SLASH`. -/
theorem template_iff {fdir fname ext : List UInt8}
    (hsplit : ffpath_split3_output t.ffpath_slash name = (fdir,fname,ext)) :
    fw_template t name = completed t name ↔
      (fname = [] → name = fdir ++ (if fdir ≠ [] then [t.ffpath_slash] else []) ++ 46 :: ext) := by
  simp only [fw_template,completed,hsplit]
  by_cases hfname : fname = []
  · rw [if_pos hfname,if_pos hfname,forall_prop_of_true hfname]
    simp only [ffpath_split3_output,ffpath_splitpath_str,Prod.mk.injEq] at hsplit
    obtain ⟨hfdir,hname⟩ := hsplit
    have happend : name.rdropWhile (!is_slash t.ffpath_slash ·) ++ name.rtakeWhile (!is_slash t.ffpath_slash ·) =
      name := List.rdropWhile_append_rtakeWhile
    have hnm := rsplit_nil (by rw [hname]; exact hfname)
    have hlast (c : UInt8) (hc : c ∈ (name.rdropWhile (!is_slash t.ffpath_slash ·)).getLast?) := dirs_last hc
    rw [hname] at hnm
    generalize name.rdropWhile (!is_slash t.ffpath_slash ·) = dirs at *
    generalize name.rtakeWhile (!is_slash t.ffpath_slash ·) = nm at *
    generalize hsl : (if fdir ≠ [] then [t.ffpath_slash] else []) = sl
    dsimp only at hnm
    rcases hnm with hnm | ⟨hnm,hext⟩
    · rw [← happend,hnm,List.append_left_inj,List.append_left_inj,List.append_left_inj]
      exact eq_comm
    · rw [hext]
      refine iff_of_false (fun h => ?_) fun h => ?_
      · rw [hnm,List.append_nil] at h
        rcases List.eq_nil_or_concat dirs with hnil | ⟨ds,c,hds⟩
        · have hlen := congrArg List.length h
          simp only [hnil,List.length_append,List.length_cons,List.length_nil] at hlen
          omega
        · rw [List.concat_eq_append] at hds
          have hlen := congrArg List.length h
          have hfd : fdir = ds := by rw [← hfdir,hds,List.dropLast_concat]
          subst hds hfd
          simp only [List.length_append,List.length_cons,List.length_nil] at hlen
          have hslnil : sl = [] := List.length_eq_zero_iff.mp (by omega)
          have hfdnil : fdir = [] := by
            by_contra hne
            rw [if_pos hne,hslnil] at hsl
            cases hsl
          rw [hslnil,hfdnil] at h
          exact (slash_ne (hlast c (by simp))).1 (List.cons.inj h).1.symm
      · rw [← happend,hnm,List.append_nil] at h
        exact (slash_ne (hlast 46 (by rw [h]; simp))).2 rfl
  · rw [if_neg hfname,if_neg hfname]
    exact ⟨fun _ h => absurd h hfname,fun _ => rfl⟩

/-! ## Characters of the values -/

theorem not_sep_of_allowed {b : UInt8} (h : allowed b) : is_sep b = false := by
  have := byte_all (P := fun b => !(allowed b && is_sep b)) (by decide +kernel) b
  simpa [h] using this

theorem not_sep_of_var {b : UInt8} (h : is_var b) : is_sep b = false := by
  have := byte_all (P := fun b => !(is_var b && is_sep b)) (by decide +kernel) b
  simpa [h] using this

theorem digit_byte {c : Char} (h : c.isDigit) : allowed c.toUInt8 ∧ c.toUInt8 ≠ 46 := by
  have hrange : 48 ≤ c.toNat ∧ c.toNat ≤ 57 := by
    simpa [Char.isDigit,UInt32.le_iff_toNat_le] using h
  have hbyte : c.toUInt8 = UInt8.ofNat c.toNat := rfl
  rw [hbyte]
  generalize c.toNat = i at hrange
  have hall : ∀ i < 58, 48 ≤ i → allowed (UInt8.ofNat i) = true ∧ UInt8.ofNat i ≠ 46 := by decide
  exact hall i (by omega) hrange.1

theorem decimal_byte {width m : Nat} {b : UInt8} (h : b ∈ decimal width m) : allowed b ∧ b ≠ 46 := by
  rcases List.mem_append.mp h with h | h
  · rw [(List.mem_replicate.mp h).2]
    decide
  · obtain ⟨c,hc,rfl⟩ := List.mem_map.mp h
    exact digit_byte (Nat.isDigit_of_mem_toDigits (by decide) (by decide) hc)

theorem decimal_ne {width m : Nat} : decimal width m ≠ [] := by
  intro h
  exact Nat.toDigits_ne_nil (List.map_eq_nil_iff.mp (List.append_eq_nil_iff.mp h).2)

/-- Dots in the same places, if there is nothing else. -/
def Alike (a b : List UInt8) : Prop :=
  ((∀ x ∈ a, x = 46) ↔ ∀ x ∈ b, x = 46) ∧ ((∀ x ∈ b, x = 46) → a.length = b.length)

theorem Alike.refl (a : List UInt8) : Alike a a := ⟨Iff.rfl,fun _ => rfl⟩

theorem Alike.append {a b a' b' : List UInt8} (h : Alike a b) (h' : Alike a' b') : Alike (a ++ a') (b ++ b') := by
  constructor
  · simp only [List.forall_mem_append,h.1,h'.1]
  · intro hall
    rw [List.forall_mem_append] at hall
    rw [List.length_append,List.length_append,h.2 hall.1,h'.2 hall.2]

theorem Alike.dots {a b : List UInt8} (h : Alike a b) : Dots a ↔ Dots b := by
  constructor
  · intro ⟨hlen,hall⟩
    have hb := h.1.mp hall
    exact ⟨h.2 hb ▸ hlen,hb⟩
  · intro ⟨hlen,hall⟩
    exact ⟨(h.2 hall).symm ▸ hlen,h.1.mpr hall⟩

theorem alike_digits {a : List UInt8} (hne : a ≠ []) (h : ∀ b ∈ a, allowed b ∧ b ≠ 46) : Alike a [48] := by
  have hdots : ¬∀ x ∈ ([48] : List UInt8), x = 46 := by decide
  refine ⟨iff_of_false (fun hall => ?_) hdots,fun hall => absurd hall hdots⟩
  obtain ⟨b,s,rfl⟩ := List.exists_cons_of_ne_nil hne
  exact (h b (List.mem_cons_self ..)).2 (hall b (List.mem_cons_self ..))

theorem alike_makefn (s : List UInt8) : Alike (ffpath_makefn s 95) (trim s) := by
  have hdot (x : UInt8) : (if allowed x then x else 95) = 46 ↔ x = 46 := by
    split
    · rfl
    · rename_i hx
      refine iff_of_false (by decide) ?_
      rintro rfl
      exact hx (by decide)
  refine ⟨?_,fun _ => List.length_map _⟩
  rw [ffpath_makefn,List.forall_mem_map]
  exact forall_congr' fun x => imp_congr_right fun _ => hdot x

theorem makefn_allowed {s : List UInt8} {b : UInt8} (h : b ∈ ffpath_makefn s 95) : allowed b := by
  obtain ⟨x,-,rfl⟩ := List.mem_map.mp h
  split
  · assumption
  · decide

theorem var_bytes {var : List UInt8} (hpath : var ≠ VAR_FILEPATH) :
    var = VAR_FILENAME ∧ (fw_name_var t n var).2 = ifile_fname t ∨
      var ≠ VAR_FILENAME ∧ (∀ b ∈ (fw_name_var t n var).2, allowed b) ∧
        Alike (fw_name_var t n var).2 (raw t (.var var)) := by
  have hnumber {bs : List UInt8} (hne : bs ≠ []) (h : ∀ b ∈ bs, allowed b ∧ b ≠ 46) :
      (∀ b ∈ bs, allowed b) ∧ Alike bs [48] := ⟨fun b hb => (h b hb).1,alike_digits hne h⟩
  have hthree {w w' i j l : Nat} : ∀ b ∈ decimal w i ++ decimal w' j ++ decimal w' l, allowed b ∧ b ≠ 46 := by
    intro b hb
    rcases List.mem_append.mp hb with hb | hb
    · rcases List.mem_append.mp hb with hb | hb
      · exact decimal_byte hb
      · exact decimal_byte hb
    · exact decimal_byte hb
  rw [fw_name_var,if_neg hpath]
  by_cases hname : var = VAR_FILENAME
  · rw [if_pos hname]
    exact .inl ⟨hname,rfl⟩
  rw [if_neg hname,raw,if_neg hname]
  refine .inr ⟨hname,?_⟩
  by_cases hdate : var = VAR_NOWDATE
  · rw [if_pos hdate,if_pos (.inl hdate)]
    exact hnumber (by simp [decimal_ne]) hthree
  by_cases htime : var = VAR_NOWTIME
  · rw [if_neg hdate,if_pos htime,if_pos (.inr (.inl htime))]
    exact hnumber (by simp [decimal_ne]) hthree
  by_cases hcounter : var = VAR_COUNTER
  · rw [if_neg hdate,if_neg htime,if_pos hcounter,if_pos (.inr (.inr hcounter))]
    exact hnumber decimal_ne fun b hb => decimal_byte hb
  rw [if_neg hdate,if_neg htime,if_neg hcounter,if_neg (by simp [hdate,htime,hcounter])]
  exact ⟨fun b hb => makefn_allowed hb,alike_makefn _⟩

/-! ## Parts -/

theorem replaced_var {var bs : List UInt8} (h : Part.var var bs ∈ replaced t n is) :
    Item.var var ∈ is ∧ ∃ m, bs = (fw_name_var t m var).2 := by
  induction is generalizing n with
  | nil => cases h
  | cons i is ih =>
    cases i with
    | lit b =>
      rcases List.mem_cons.mp h with h | h
      · cases h
      · exact ⟨List.mem_cons_of_mem _ (ih h).1,(ih h).2⟩
    | var name =>
      rcases List.mem_cons.mp h with h | h
      · obtain ⟨rfl,rfl⟩ := Part.var.inj h
        exact ⟨List.mem_cons_self ..,n,rfl⟩
      · exact ⟨List.mem_cons_of_mem _ (ih h).1,(ih h).2⟩

theorem part_alike (hpath : Item.var VAR_FILEPATH ∉ is) {p : Part} (h : p ∈ replaced t n is) :
    Alike p.bytes (raw t p.item) := by
  cases p with
  | lit b => exact .refl _
  | var var bs =>
    obtain ⟨hmem,m,rfl⟩ := replaced_var h
    rcases var_bytes (t := t) (n := m) (fun heq => hpath (heq ▸ hmem)) with ⟨hname,hbs⟩ | ⟨-,-,halike⟩
    · rw [Part.bytes,hbs,Part.item,raw,if_pos hname]
      exact .refl _
    · exact halike

theorem parts_alike {ps : List Part} (h : ∀ p ∈ ps, Alike p.bytes (raw t p.item)) :
    Alike (ps.flatMap Part.bytes) ((ps.map Part.item).flatMap (raw t)) := by
  induction ps with
  | nil => exact .refl _
  | cons p ps ih =>
    rw [List.flatMap_cons,List.map_cons,List.flatMap_cons]
    exact (h p (List.mem_cons_self ..)).append (ih fun q hq => h q (List.mem_cons_of_mem _ hq))

theorem Component.mem {α : Type} {sep : α → Bool} {xs c : List α} (h : Component sep xs c) : ∀ x ∈ c, x ∈ xs := by
  obtain ⟨pre,post,rfl,-⟩ := h
  intro x hx
  simp [hx]

theorem component_map {ps : List Part} {c : List Item} :
    Component Item.sep (ps.map Part.item) c ↔ ∃ d, Component (Item.sep ∘ Part.item) ps d ∧ d.map Part.item = c := by
  constructor
  · rintro ⟨pre,post,hxs,hc,hpre,hpost⟩
    obtain ⟨ps',post',rfl,hps',rfl⟩ := List.map_eq_append_iff.mp hxs
    obtain ⟨pre',d,rfl,rfl,rfl⟩ := List.map_eq_append_iff.mp hps'
    refine ⟨d,⟨pre',post',rfl,fun x hx => hc _ (List.mem_map_of_mem hx),fun x hx => ?_,fun x hx => ?_⟩,rfl⟩
    · exact hpre _ (by rw [List.getLast?_map]; exact Option.mem_map_of_mem _ hx)
    · exact hpost _ (by rw [List.head?_map]; exact Option.mem_map_of_mem _ hx)
  · rintro ⟨d,⟨pre,post,rfl,hd,hpre,hpost⟩,rfl⟩
    refine ⟨pre.map Part.item,post.map Part.item,by simp,?_,?_,?_⟩
    · rw [List.forall_mem_map]
      exact hd
    · intro x hx
      rw [List.getLast?_map] at hx
      obtain ⟨y,hy,rfl⟩ := Option.map_eq_some_iff.mp hx
      exact hpre y hy
    · intro x hx
      rw [List.head?_map] at hx
      obtain ⟨y,hy,rfl⟩ := Option.map_eq_some_iff.mp hx
      exact hpost y hy

/-- A component made of variables is no dots if their values together are none. -/
theorem components_iff (hpath : Item.var VAR_FILEPATH ∉ is) :
    (∀ c, Component (Item.sep ∘ Part.item) (replaced t n is) c → c ≠ [] → (∀ p ∈ c, p.item.is_var) →
      ¬Dots (c.flatMap Part.bytes)) ↔
    ∀ c, Component Item.sep is c → c ≠ [] → (∀ i ∈ c, i.is_var) → ¬Dots (c.flatMap (raw t)) := by
  have hdots {d : List Part} (hd : Component (Item.sep ∘ Part.item) (replaced t n is) d) :
      Dots (d.flatMap Part.bytes) ↔ Dots ((d.map Part.item).flatMap (raw t)) :=
    (parts_alike fun p hp => part_alike hpath (hd.mem p hp)).dots
  have hitem : (replaced t n is).map Part.item = is := replaced_item
  constructor
  · intro h c hc hne hvar
    rw [← hitem] at hc
    obtain ⟨d,hd,rfl⟩ := component_map.mp hc
    rw [← hdots hd]
    exact h d hd (fun hnil => hne (by rw [hnil]; rfl)) (List.forall_mem_map.mp hvar)
  · intro h d hd hne hvar
    rw [hdots hd]
    refine h _ ?_ (fun hnil => hne (List.map_eq_nil_iff.mp hnil)) (List.forall_mem_map.mpr hvar)
    have := component_map.mpr ⟨d,hd,rfl⟩
    rwa [hitem] at this

/-! ## Separators -/

theorem count_none {bs : List UInt8} (h : ∀ b ∈ bs, is_sep b = false) : bs.countP is_sep = 0 := by
  rw [List.countP_eq_zero]
  exact fun b hb => by simp [h b hb]

theorem next_var {var : List UInt8} (h : (ffstr_var_next fn).2 = .var var) : ∀ b ∈ var, is_var b := by
  cases fn with
  | nil => cases h
  | cons b s =>
    by_cases hb : b = 64
    · rw [ffstr_var_next,if_neg (not_not.mpr hb)] at h
      obtain rfl := Piece.var.inj h
      exact fun x hx => List.mem_takeWhile_imp hx
    · rw [ffstr_var_next,if_pos hb] at h
      cases h

theorem items_var {var : List UInt8} (h : Item.var var ∈ items k fn) : ∀ b ∈ var, is_var b := by
  induction k generalizing fn with
  | zero => cases h
  | succ k ih =>
    rw [items] at h
    split at h
    · cases h
    · split at h
      · rcases List.mem_append.mp h with h | h
        · obtain ⟨b,-,hb⟩ := List.mem_map.mp h
          cases hb
        · exact ih h
      · rename_i rest name hnext
        rcases List.mem_cons.mp h with h | h
        · obtain rfl := Item.var.inj h
          exact next_var (congrArg Prod.snd hnext)
        · exact ih h

/-- The values bring as many separators as `@filename` has. -/
theorem count_replaced (hpath : Item.var VAR_FILEPATH ∉ is)
    (hvar : ∀ var, Item.var var ∈ is → ∀ b ∈ var, is_var b) :
    ((replaced t n is).flatMap Part.bytes).countP is_sep =
      (is.flatMap Item.source).countP is_sep + is.count (.var VAR_FILENAME) * (ifile_fname t).countP is_sep := by
  induction is generalizing n with
  | nil => simp [replaced]
  | cons i is ih =>
    have hrest (n : Counts) := ih (n := n) (fun h => hpath (List.mem_cons_of_mem _ h))
      fun var h => hvar var (List.mem_cons_of_mem _ h)
    cases i with
    | lit b =>
      rw [replaced,List.flatMap_cons,List.countP_append,hrest,List.flatMap_cons,List.countP_append,
        List.count_cons_of_ne (by exact nofun),Part.bytes,Item.source,Nat.add_assoc]
    | var var =>
      have hsource : (Item.var var).source.countP is_sep = 0 := by
        refine count_none fun b hb => ?_
        rcases List.mem_cons.mp hb with rfl | hb
        · decide
        · exact not_sep_of_var (hvar var (List.mem_cons_self ..) b hb)
      rw [replaced,List.flatMap_cons,List.countP_append,hrest,List.flatMap_cons,List.countP_append,hsource,
        Part.bytes,Nat.zero_add]
      rcases var_bytes (t := t) (n := n) (fun heq => hpath (heq ▸ List.mem_cons_self ..)) with
        ⟨hname,hbs⟩ | ⟨hname,hallowed,-⟩
      · rw [hbs,hname,List.count_cons_self,Nat.succ_mul]
        omega
      · rw [count_none fun b hb => not_sep_of_allowed (hallowed b hb),Nat.zero_add,
          List.count_cons_of_ne fun heq => hname (Item.var.inj heq)]

theorem mem_rsplit {nm : List UInt8} {b : UInt8} (h : b ∈ (ffstr_rsplitby nm 46).1) : b ∈ nm := by
  rw [ffstr_rsplitby] at h
  split at h
  · exact (List.rdropWhile_prefix _ _).subset (List.dropLast_subset _ h)
  · exact h

theorem mem_splitname {nm : List UInt8} {b : UInt8} (h : b ∈ (ffpath_splitname_str nm).1) : b ∈ nm := by
  rw [ffpath_splitname_str] at h
  split at h
  · exact h
  · exact mem_rsplit h

/-- The name of the input file has no `/`. -/
theorem fname_slash : 47 ∉ ifile_fname t := by
  intro h
  have hnm : 47 ∈ t.ifile_name.rtakeWhile (!is_slash t.ffpath_slash ·) := mem_splitname h
  have := List.mem_rtakeWhile_imp hnm
  simp [is_slash] at this

theorem fname_count : (ifile_fname t).countP is_sep = 0 ↔ 92 ∉ ifile_fname t := by
  rw [List.countP_eq_zero]
  constructor
  · intro h hmem
    exact h 92 hmem (by decide)
  · intro h b hb hsep
    rw [is_sep,Bool.or_eq_true,beq_iff_eq,beq_iff_eq] at hsep
    rcases hsep with rfl | rfl
    · exact fname_slash hb
    · exact h hb

theorem completed_count : (completed t name).countP is_sep = name.countP is_sep := by
  rcases hsplit : ffpath_split3_output t.ffpath_slash name with ⟨fdir,fname,ext⟩
  simp only [completed,hsplit]
  split
  · have hname : (64 :: VAR_FILENAME).countP is_sep = 0 := by decide
    have happend : name.rdropWhile (!is_slash t.ffpath_slash ·) ++ name.rtakeWhile (!is_slash t.ffpath_slash ·) =
      name := List.rdropWhile_append_rtakeWhile
    rw [List.countP_append,List.countP_append,hname,Nat.add_zero,← List.countP_append,happend]
  · rfl

/-! ## Containment -/

/-- The items of the completed template. -/
def template_items (t : Track) (name : List UInt8) : List Item :=
  items (completed t name).length (completed t name)

/-- The name stays in the chosen directory if and only if an extension alone follows `FFPATH_SLASH` or
nothing, `@filename` has no `\`, and no variables that make up a component have nothing or dots for their
values. -/
theorem contained_iff (t : Track) (n : Counts) (name : List UInt8)
    (hpath : Item.var VAR_FILEPATH ∉ template_items t name) :
    Contained t n name ↔
      ((ffpath_split3_output t.ffpath_slash name).2.1 = [] →
        name = (ffpath_split3_output t.ffpath_slash name).1 ++
          (if (ffpath_split3_output t.ffpath_slash name).1 ≠ [] then [t.ffpath_slash] else []) ++
            46 :: (ffpath_split3_output t.ffpath_slash name).2.2) ∧
      (Item.var VAR_FILENAME ∈ template_items t name → 92 ∉ ifile_fname t) ∧
      ∀ c, Component Item.sep (template_items t name) c → c ≠ [] → (∀ i ∈ c, i.is_var) →
        ¬Dots (c.flatMap (raw t)) := by
  rcases hsplit : ffpath_split3_output t.ffpath_slash name with ⟨fdir,fname,ext⟩
  have htemplate := template_iff hsplit
  have hsep (h : fw_template t name = completed t name) :
      (fw_name t n name).2.countP is_sep = name.countP is_sep ↔
        (Item.var VAR_FILENAME ∈ template_items t name → 92 ∉ ifile_fname t) := by
    have hparts : parts t n (fw_template t name) = replaced t n (template_items t name) := by
      rw [h]
      rfl
    rw [fw_name_eq,hparts,count_replaced hpath fun var => items_var,template_items,
      items_source (Nat.le_refl _),completed_count,← fname_count,Nat.add_eq_left,Nat.mul_eq_zero,
      List.count_eq_zero,imp_iff_not_or]
  constructor
  · rintro ⟨⟨hliteral,-⟩,hseps,hcomponents,-⟩
    rw [parts_source] at hliteral
    refine ⟨htemplate.mp hliteral,(hsep hliteral).mp hseps,?_⟩
    rw [hliteral] at hcomponents
    exact (components_iff hpath).mp hcomponents
  · rintro ⟨hext,hfilename,hdots⟩
    have heq := htemplate.mpr hext
    refine ⟨⟨parts_source.trans heq,fw_name_eq⟩,(hsep heq).mpr hfilename,?_,?_⟩
    · rw [heq]
      exact (components_iff hpath).mpr hdots
    · intro var bs hmem hname
      rw [heq] at hmem
      obtain ⟨hitem,m,rfl⟩ := replaced_var hmem
      rcases var_bytes (t := t) (n := m) (fun h => hpath (h ▸ hitem)) with ⟨h,-⟩ | ⟨-,hallowed,-⟩
      · exact absurd h hname
      · exact hallowed

/-- A track with one tag. -/
def tagged (val : List UInt8) : Track := ⟨false,chars ['i','n','.','x'],fun _ => some val,fun _ => ⟨0,0,0,0,0,0⟩⟩

theorem contained_iff_title : Contained (tagged [97]) ⟨0,0⟩ (chars ['@','t']) := by
  refine (contained_iff (tagged [97]) ⟨0,0⟩ (chars ['@','t']) (by decide)).mpr
    ⟨by decide,by decide,fun c hc hne _ hdots => ?_⟩
  obtain ⟨i,c,rfl⟩ := List.exists_cons_of_ne_nil hne
  have hi : i ∈ [Item.var [116]] := hc.mem i (List.mem_cons_self ..)
  obtain rfl := List.mem_singleton.mp hi
  exact absurd (hdots.2 97 (List.mem_cons_self ..)) (by decide)

/-- A tag of two dots is the directory above, and a template that is a slash with an extension loses its slash. -/
theorem not_contained : ¬Contained (tagged [46,46]) ⟨0,0⟩ (chars ['@','t','/','x']) ∧
    ¬Contained (tagged []) ⟨0,0⟩ (chars ['/','.','m']) := by
  constructor
  · intro h
    refine h.components [.var [116] [46,46]] ⟨[],[.lit 47,.lit 120],rfl,?_,nofun,?_⟩ (by simp) ?_ ?_
    · simp [Part.item,Item.sep]
    · simp [Part.item,Item.sep,is_sep]
    · simp [Part.item,Item.is_var]
    · exact ⟨by simp [Part.bytes],by simp [Part.bytes]⟩
  · intro h
    exact absurd h.seps (by decide)

end Phiola.FileName
