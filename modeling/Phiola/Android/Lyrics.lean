import Mathlib.Algebra.Group.Nat.Defs
import Mathlib.Data.List.TakeWhile

/-!
# The line of the lyrics

The search for the line of a position begins at the line that was found last, until a seek. The lines are taken
as the file has them, in whatever order their times are.
-/

namespace Phiola.Android

/-! ## The filter -/

structure Line where
  text : String
  ts : Int
  deriving DecidableEq

def QSIZE : Nat := 5

structure Lyrics where
  lines : Option (List Line)
  justOpened : Bool
  hint : Nat
  lastPos : Int
  queue : List Nat
  deriving DecidableEq

namespace Lyrics

/-- The object before its first use -/
def new : Lyrics := ⟨none,false,0,0,[]⟩

def getInst (u : Lyrics) : Lyrics := {u with lastPos := -1, hint := 0}

/-- `setUILines()` succeeds when the window is there. -/
def setLinePos (u : Lyrics) (window : Bool) (p : Int) : Lyrics :=
  match u.lines with
  | none => u
  | some lines =>
    let p := min (if p < 0 then 0 else p) ((lines.length : Int) - 1)
    if p ≠ u.lastPos ∧ window then {u with lastPos := p} else u

/-- Where `open()` gets the lines from. -/
inductive Source
  | cache (lines : List Line)
  | file (lines : List Line)
  /-- The name has no extension, or the file can't be read. -/
  | nowhere

/-- `open()` -/
def openUrl (u : Lyrics) (window : Bool) : Source → Lyrics
  | .cache lines => {u with lines := some lines, hint := 0, lastPos := -1, justOpened := true}
  | .nowhere => {u with lines := none, hint := 0, lastPos := -1}
  | .file lines =>
    let v := {u with lines := none, hint := 0, lastPos := -1}
    if lines.isEmpty then v
    else {setLinePos {v with lines := some lines} window 0 with justOpened := true}

def seeked (u : Lyrics) : Lyrics := {u with hint := 0}

/-- A cast to `int` -/
def int (n : Int) : Int := Int.bmod n (2 ^ 32)

/-- `resume()` from the saved number of a line: the position for `track.seek()`. A number without a line is an
exception that is caught. -/
def resume (u : Lyrics) (saved : Option Int) : Option Int :=
  match u.lines,saved with
  | some lines,some pos =>
    if pos < 0 then none
    else lines[pos.toNat]?.map fun l => max 0 (int (int l.ts - 1000))
  | _,_ => none

/-- The loop of `locate()`: the index before the first line that is later. -/
def before (lines : List Line) (pos : Int) (hint0 : Nat) : Int :=
  match (lines.drop hint0).findIdx? fun l => decide (l.ts > pos) with
  | some i => (hint0 + i : Nat) - 1
  | none => lines.length - 1

def scan (lines : List Line) (pos : Int) (hint0 : Nat) : Int :=
  if before lines pos hint0 < 0 then 0 else before lines pos hint0

def locate (lines : List Line) (pos : Int) (hint0 : Nat) : Int :=
  let f := scan lines pos hint0
  if f = (lines.length : Int) - 1 ∧ hint0 > 0 then scan lines pos 0 else f

/-- `FixSizedQueue.add()` -/
def add (queue : List Nat) (v : Nat) : List Nat :=
  let queue := queue ++ [v]
  if queue.length > QSIZE then queue.tail else queue

/-- What `process()` is called with, and what is there then. -/
structure Call where
  pos_msec : Int
  playing : Bool
  window : Bool
  saved : Option Int

/-- What `process()` does outside: the line it finds, a seek, and the line it saves. -/
structure Out where
  line : Option Nat
  seek : Option Int
  put : Option Nat
  deriving DecidableEq

/-- `process()` from the search on -/
def show_line (u : Lyrics) (lines : List Line) (c : Call) : Lyrics × Out :=
  let f := (locate lines c.pos_msec u.hint).toNat
  let v := setLinePos {u with hint := f} c.window f
  let queue := add v.queue f
  if f > 0 ∧ queue.length ≥ QSIZE ∧ (queue.getLastD 0 : Int) - queue.headD 0 ≤ QSIZE * 2 then
    ({v with queue := []},⟨some f,none,some f⟩)
  else ({v with queue},⟨some f,none,none⟩)

def process (u : Lyrics) (c : Call) : Lyrics × Out :=
  match u.lines with
  | none => (u,⟨none,none,none⟩)
  | some lines =>
    if u.justOpened ∧ c.playing then
      let v := {u with justOpened := false}
      match v.resume c.saved with
      | some ms => (v,⟨none,some ms,none⟩)
      | none => v.show_line lines c
    else u.show_line lines c

inductive Event
  | getInst
  | opened (window : Bool) (source : Source)
  | seeked
  | process (c : Call)

def step (u : Lyrics) : Event → Lyrics
  | .getInst => u.getInst
  | .opened window source => u.openUrl window source
  | .seeked => u.seeked
  | .process c => (u.process c).1

def run (u : Lyrics) (es : List Event) : Lyrics := es.foldl step u

/-! ## The search -/

/-- The line before the first one that is later, or the first line. -/
def lineAt (lines : List Line) (pos : Int) : Nat := (lines.takeWhile fun l => l.ts ≤ pos).length - 1

variable {lines : List Line} {pos : Int} {hint : Nat}

theorem findIdx?_later (lines : List Line) (pos : Int) :
    (lines.findIdx? fun l => l.ts > pos) =
      if (lines.takeWhile fun l => l.ts ≤ pos).length = lines.length then none
      else some (lines.takeWhile fun l => l.ts ≤ pos).length := by
  induction lines with
  | nil => rfl
  | cons l lines ih =>
    rw [List.findIdx?_cons,ih]
    by_cases hl : l.ts ≤ pos
    · rw [List.takeWhile_cons_of_pos (by simpa using hl),if_neg (by simpa using hl)]
      simp only [List.length_cons,Nat.add_right_cancel_iff]
      split <;> rfl
    · rw [List.takeWhile_cons_of_neg (by simpa using hl),if_pos (by simpa using hl)]
      simp

/-- What stands before the hint is not later: the search from there finds what the whole search finds. -/
theorem scan_eq (h : ∀ l ∈ lines.take hint,l.ts ≤ pos) : scan lines pos hint = lineAt lines pos := by
  have hall : (lines.takeWhile fun l => l.ts ≤ pos) =
      lines.take hint ++ (lines.drop hint).takeWhile fun l => l.ts ≤ pos := by
    conv => lhs; rw [← List.take_append_drop hint lines]
    exact List.takeWhile_append_of_pos fun l hl => by simpa using h l hl
  have hlen : (lines.take hint).length = min hint lines.length := List.length_take
  have hdrop : (lines.drop hint).length = lines.length - hint := List.length_drop
  rw [scan,before,findIdx?_later,lineAt,hall,List.length_append]
  have hle : ((lines.drop hint).takeWhile fun l => decide (l.ts ≤ pos)).length ≤ (lines.drop hint).length :=
    (List.takeWhile_prefix _).length_le
  split
  · rename_i i hi
    split at hi
    · cases hi
    · obtain rfl := Option.some.inj hi
      omega
  · rename_i hi
    split at hi
    · omega
    · cases hi

theorem locate_eq (h : ∀ l ∈ lines.take hint,l.ts ≤ pos) : locate lines pos hint = lineAt lines pos := by
  have hfirst : scan lines pos 0 = lineAt lines pos := scan_eq (by simp)
  rw [locate,scan_eq h,hfirst,ite_self]

theorem lineAt_lt (pos : Int) (h : lines ≠ []) : lineAt lines pos < lines.length := by
  have hle := (List.takeWhile_prefix (l := lines) fun l => decide (l.ts ≤ pos)).length_le
  have hpos := List.length_pos_iff.mpr h
  rw [lineAt]
  omega

theorem take_lineAt (lines : List Line) (pos : Int) : ∀ l ∈ lines.take (lineAt lines pos),l.ts ≤ pos := by
  intro l hl
  have hpre := List.takeWhile_prefix (l := lines) fun l => decide (l.ts ≤ pos)
  have htake := List.prefix_iff_eq_take.mp hpre
  have hmem : l ∈ lines.takeWhile fun l => decide (l.ts ≤ pos) := by
    rw [htake]
    exact (List.take_sublist_take_left (Nat.sub_le _ 1)).subset hl
  simpa using List.mem_takeWhile_imp hmem

/-! ## Runs -/

/-- The position doesn't go back but by a seek or with another file. -/
def Ordered : Option Int → List Event → Prop
  | _,[] => True
  | last,.process c :: es => (∀ p ∈ last,p ≤ c.pos_msec) ∧ Ordered (some c.pos_msec) es
  | _,_ :: es => Ordered none es

/-- Nothing before the hint is later than the last position. -/
def Fits (u : Lyrics) (last : Option Int) : Prop :=
  match last with
  | none => u.hint = 0
  | some p => ∀ lines,u.lines = some lines → ∀ l ∈ lines.take u.hint,l.ts ≤ p

variable {u : Lyrics} {last : Option Int} {c : Call}

@[simp] theorem setLinePos_lines (u : Lyrics) (window : Bool) (p : Int) :
    (u.setLinePos window p).lines = u.lines := by
  unfold setLinePos
  split
  · rfl
  · exact (apply_ite Lyrics.lines _ _ _).trans (ite_self _)

@[simp] theorem setLinePos_hint (u : Lyrics) (window : Bool) (p : Int) :
    (u.setLinePos window p).hint = u.hint := by
  unfold setLinePos
  split
  · rfl
  · exact (apply_ite Lyrics.hint _ _ _).trans (ite_self _)

theorem setLinePos_lastPos {f : Nat} (hl : u.lines = some lines) (hf : f < lines.length) :
    (u.setLinePos true f).lastPos = f := by
  rw [setLinePos,hl]
  have hmin : min (if (f : Int) < 0 then 0 else (f : Int)) ((lines.length : Int) - 1) = f := by
    rw [if_neg (by omega)]
    omega
  simp only [hmin]
  split
  · rfl
  · rename_i h
    exact (not_not.mp fun hne => h ⟨hne,trivial⟩).symm

theorem Fits.take (h : Fits u last) (hl : u.lines = some lines) (hp : ∀ p ∈ last,p ≤ pos) :
    ∀ l ∈ lines.take u.hint,l.ts ≤ pos := by
  intro l hm
  cases last with
  | none =>
    rw [show u.hint = 0 from h] at hm
    cases hm
  | some p => exact Int.le_trans (h lines hl l hm) (hp p rfl)

theorem Fits.show_line (h : Fits u last) (hl : u.lines = some lines) (hp : ∀ p ∈ last,p ≤ c.pos_msec) :
    (u.show_line lines c).1.hint = lineAt lines c.pos_msec ∧ (u.show_line lines c).1.lines = some lines := by
  have hf := locate_eq (h.take hl hp)
  unfold Lyrics.show_line
  simp only [hf,Int.toNat_natCast]
  split <;> simp [hl]

theorem process_cases (hl : u.lines = some lines) (c : Call) : ∃ v : Lyrics,
    v.lines = some lines ∧ v.hint = u.hint ∧
      ((∃ ms,u.process c = (v,⟨none,some ms,none⟩)) ∨ u.process c = v.show_line lines c) := by
  have hprocess : u.process c = if u.justOpened ∧ c.playing then
      match ({u with justOpened := false} : Lyrics).resume c.saved with
      | some ms => ({u with justOpened := false},⟨none,some ms,none⟩)
      | none => ({u with justOpened := false} : Lyrics).show_line lines c
    else u.show_line lines c := by
    rw [process]
    split
    · rename_i hn
      cases hn.symm.trans hl
    · rename_i lines' hl'
      obtain rfl := Option.some.inj (hl'.symm.trans hl)
      rfl
  rw [hprocess]
  split
  · refine ⟨{u with justOpened := false},hl,rfl,?_⟩
    cases ({u with justOpened := false} : Lyrics).resume c.saved with
    | some ms => exact .inl ⟨ms,rfl⟩
    | none => exact .inr rfl
  · exact ⟨u,hl,rfl,.inr rfl⟩

theorem Fits.same {v : Lyrics} (h : Fits u last) (hlines : v.lines = u.lines) (hhint : v.hint = u.hint) :
    Fits v last := by
  cases last with
  | none => exact hhint.trans h
  | some p =>
    intro lines hl
    rw [hhint]
    exact h lines (hlines.symm.trans hl)

theorem Fits.process (h : Fits u last) (hp : ∀ p ∈ last,p ≤ c.pos_msec) :
    Fits (u.process c).1 (some c.pos_msec) := by
  intro lines' hl'
  cases hl : u.lines with
  | none =>
    have hnone : u.process c = (u,⟨none,none,none⟩) := by
      rw [Lyrics.process]
      split
      · rfl
      · rename_i hs
        cases hl.symm.trans hs
    rw [hnone] at hl'
    cases hl.symm.trans hl'
  | some lines =>
    obtain ⟨v,hvl,hvh,⟨ms,hv⟩ | hv⟩ := process_cases hl c
    · rw [hv] at hl' ⊢
      exact (h.same (hvl.trans hl.symm) hvh).take hl' hp
    · obtain ⟨hhint,hlines⟩ := (h.same (hvl.trans hl.symm) hvh).show_line hvl hp
      rw [hv] at hl' ⊢
      obtain rfl := Option.some.inj (hlines.symm.trans hl')
      rw [hhint]
      exact take_lineAt lines c.pos_msec

theorem Fits.reset (hu : u.hint = 0) : Fits u none := hu

/-- Before each call of `process()` the hint holds for the position that comes. -/
theorem fits_run {es : List Event} (h : Fits u last) (ho : Ordered last (es ++ [Event.process c])) :
    ∃ last',Fits (u.run es) last' ∧ ∀ p ∈ last',p ≤ c.pos_msec := by
  induction es generalizing u last with
  | nil => exact ⟨last,h,ho.1⟩
  | cons e es ih =>
    cases e with
    | process d => exact ih (h.process ho.1) ho.2
    | getInst => exact ih (Fits.reset rfl) ho
    | seeked => exact ih (Fits.reset rfl) ho
    | opened window source =>
      refine ih (Fits.reset ?_) ho
      cases source with
      | cache | nowhere => rfl
      | file lines =>
        simp only [step,openUrl]
        split
        · rfl
        · exact setLinePos_hint _ _ _

/-- In every run in which the position goes back only with a seek or with another file, a call that doesn't
resume finds the line that a search from the first line would find, shows this line when there is a window, and
saves no other. -/
theorem process_line {es : List Event} (ho : Ordered none (es ++ [Event.process c]))
    (hl : (new.run es).lines = some lines) (hne : lines ≠ [])
    (hseek : ((new.run es).process c).2.seek = none) :
    ((new.run es).process c).2.line = some (lineAt lines c.pos_msec) ∧
      (c.window = true → ((new.run es).process c).1.lastPos = lineAt lines c.pos_msec) ∧
      ∀ f,((new.run es).process c).2.put = some f → f = lineAt lines c.pos_msec := by
  obtain ⟨last,hfits,hp⟩ := fits_run (Fits.reset (u := new) rfl) ho
  generalize new.run es = u at *
  obtain ⟨v,hvl,hvh,⟨ms,hv⟩ | hv⟩ := process_cases hl c
  · rw [hv] at hseek
    cases hseek
  · have hf := locate_eq ((hfits.same (hvl.trans hl.symm) hvh).take hvl hp)
    have hshown (hw : c.window = true) : (setLinePos {v with hint := lineAt lines c.pos_msec} c.window
        (lineAt lines c.pos_msec)).lastPos = lineAt lines c.pos_msec := by
      rw [hw]
      exact setLinePos_lastPos hvl (lineAt_lt _ hne)
    rw [hv,Lyrics.show_line]
    simp only [hf,Int.toNat_natCast]
    split
    · exact ⟨rfl,hshown,fun f h => (Option.some.inj h).symm⟩
    · exact ⟨rfl,hshown,nofun⟩

/-- Three lines, the second of which begins after one second -/
def song : List Line := [⟨"a",0⟩,⟨"b",1000⟩,⟨"c",2000⟩]

/-- The song until its second line -/
def begun : List Event :=
  [.opened true (.file song),.process ⟨500,true,true,none⟩,.process ⟨1500,true,true,none⟩]

theorem process_line_song : (new.run begun).hint = 1 ∧
    ((new.run begun).process ⟨2500,true,true,none⟩).2.line = some (lineAt song 2500) ∧ lineAt song 2500 = 2 :=
  ⟨by decide,(process_line
    (show Ordered none (begun ++ [Event.process ⟨2500,true,true,none⟩]) from ⟨by simp,by simp,by simp,trivial⟩)
    (show (new.run begun).lines = some song from rfl) (by decide) (by decide)).1,by decide⟩

end Lyrics

end Phiola.Android
