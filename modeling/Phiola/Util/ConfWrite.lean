import Mathlib.Algebra.Ring.Nat
import Mathlib.Data.List.Basic
import Phiola.Framework.Memory

/-!
# Configuration text

`ffconfw_add()` writes keys, values and braces; a reader of the text gives back the calls. Text is bytes, and
the flags are those without `FFCONFW_FDONTESCAPE` and `FFCONFW_FLINE`.
-/

namespace Phiola.ConfWrite

open Memory (byte_all)

/-! ## Escapes -/

/-- `esc_char`: `0` for a byte that stays, `1` for `\xHH`, else the letter. -/
def esc_char (b : UInt8) : UInt8 :=
  if b = 8 then 98 else if b = 9 then 116 else if b = 10 then 110 else if b = 12 then 102
  else if b = 13 then 114 else if b = 34 then 34 else if b = 92 then 92
  else if b < 32 ∨ b = 127 then 1 else 0

/-- `ffHEX` -/
def ffHEX (d : UInt8) : UInt8 := if d < 10 then 48 + d else 55 + d

/-- `ffconf_escape()` for a byte. -/
def escape_byte (b : UInt8) : List UInt8 :=
  if esc_char b = 0 then [b]
  else if esc_char b = 1 then [92,120,ffHEX (b / 16),ffHEX (b % 16)]
  else [92,esc_char b]

/-- The escaped bytes; `ffconf_escape()` without a buffer returns their number. -/
def ffconf_escape (s : List UInt8) : List UInt8 := s.flatMap escape_byte

/-- `ffconf_escape()` into a buffer with `n` bytes in it: only an escape is checked against `cap`, and `none` is
where it returns 0. -/
def ffconf_escape_to (cap : Nat) : Nat → List UInt8 → Option (List UInt8)
  | _,[] => some []
  | n,b :: bs =>
    if esc_char b ≠ 0 ∧ cap < n + (escape_byte b).length then none
    else (ffconf_escape_to cap (n + (escape_byte b).length) bs).map (escape_byte b ++ ·)

/-! ## The writer -/

/-- `ffconfw` with its flags. -/
structure Ffconfw where
  buf : List UInt8
  cap : Nat
  level : Nat
  crlf : Bool
  kvtab : Bool
  indent : Bool

/-- A call of `ffconfw_add()`: a key, a value, or a brace. -/
inductive Call
  | K (s : List UInt8)
  | S (s : List UInt8)
  | obj_open
  | obj_close
deriving DecidableEq

/-- `MUST_QUOTE` -/
def must_quote (b : UInt8) : Bool := b == 32 || b == 123 || b == 125 || b == 35 || b == 47 || b == 92

/-- `complex` of `ffconfw_size()` -/
def complex (s : List UInt8) : Bool := (ffconf_escape s).length != s.length || s.isEmpty || s.any must_quote

/-- `ffconfw_size()` before it is made an `int`. -/
def ffconfw_size (level : Nat) : Call → Nat
  | .K s | .S s => 4 + (ffconf_escape s).length + level
  | .obj_open | .obj_close => 3 + level

/-- An `int` that is made a size again. -/
def int_size (n : Nat) : Nat :=
  if n % 2 ^ 32 < 2 ^ 31 then n % 2 ^ 32 else 2 ^ 64 - 2 ^ 32 + n % 2 ^ 32

def line_end (c : Ffconfw) : List UInt8 := if c.crlf then [13,10] else [10]

/-- The level after a call. -/
def next_level (indent : Bool) (n : Nat) : Call → Nat
  | .obj_open => if indent then n + 1 else n
  | .obj_close => if indent then n - 1 else n
  | _ => n

/-- What stands before a key. -/
def key_start (c : Ffconfw) : List UInt8 := if c.buf = [] then [] else line_end c ++ List.replicate c.level 9

/-- A key or value where `cap` bytes are left for it, in quotes if it needs them. -/
def word (cap : Nat) (s : List UInt8) : List UInt8 :=
  if complex s then 34 :: (ffconf_escape_to (cap - 1) 0 s).getD [] ++ [34] else s

/-- What a call puts into the buffer where `cap` bytes are left. -/
def pushed (c : Ffconfw) (cap : Nat) : Call → List UInt8
  | .S s => (if c.kvtab then 9 else 32) :: word (cap - 1) s
  | .K s => key_start c ++ word (cap - (key_start c).length) s
  | .obj_open => [32,123]
  | .obj_close => List.replicate (next_level c.indent c.level .obj_close) 9 ++ line_end c ++ [125]

/-- `ffconfw_add()`: the size that is reserved, and the writer; `none` where `ffvec_growtwice()` finds no room
or the assertion on the level fails. -/
def ffconfw_add (growtwice : Nat → Nat → Nat → Option Nat) (c : Ffconfw) (x : Call) : Option (Nat × Ffconfw) :=
  let r := int_size (ffconfw_size c.level x)
  match growtwice c.buf.length c.cap r with
  | none => none
  | some cap =>
    if x = .obj_close ∧ c.indent ∧ c.level = 0 then none
    else
      some (r,{c with
        buf := c.buf ++ pushed c (cap - c.buf.length) x
        cap := cap
        level := next_level c.indent c.level x})

/-- The calls one after the other, with the sizes that were reserved and the numbers of bytes written. -/
def add_all (growtwice : Nat → Nat → Nat → Option Nat) (c : Ffconfw) :
    List Call → Option (List (Nat × Nat) × Ffconfw)
  | [] => some ([],c)
  | x :: xs =>
    match ffconfw_add growtwice c x with
    | none => none
    | some (r,c') => (add_all growtwice c' xs).map fun y => ((r,c'.buf.length - c.buf.length) :: y.1,y.2)

/-! ## The reader -/

inductive Token
  | word (s : List UInt8)
  | obj_open
  | obj_close
  | line

/-- Between tokens, in a token without quotes, in quotes, in an escape, or in a comment. -/
inductive Lex
  | between
  | plain (s : List UInt8)
  | quoted (s : List UInt8)
  | esc (s : List UInt8)
  | hex (s : List UInt8)
  | hex2 (s : List UInt8) (d : UInt8)
  | comment

/-- A token without quotes may be a brace. -/
def plain_token (s : List UInt8) : Token :=
  if s = [123] then .obj_open else if s = [125] then .obj_close else .word s

def is_blank (b : UInt8) : Bool := b == 32 || b == 9 || b == 13

/-- The byte that a letter after `\` stands for. -/
def unescape (b : UInt8) : Option UInt8 :=
  if b = 98 then some 8 else if b = 116 then some 9 else if b = 110 then some 10 else if b = 102 then some 12
  else if b = 114 then some 13 else if b = 34 then some 34 else if b = 92 then some 92 else none

def hex_digit (b : UInt8) : Option UInt8 :=
  if 48 ≤ b ∧ b ≤ 57 then some (b - 48) else if 65 ≤ b ∧ b ≤ 70 then some (b - 55) else none

/-- Tokens are separated at blanks and line ends; quotes are removed and escapes undone; `#` and `/` start
comments. -/
def lex : Lex → List UInt8 → Option (List Token)
  | .between,[] | .comment,[] => some []
  | .plain s,[] => some [plain_token s]
  | _,[] => none
  | .between,b :: bs =>
    if b = 10 then (lex .between bs).map (.line :: ·)
    else if is_blank b then lex .between bs
    else if b = 34 then lex (.quoted []) bs
    else if b = 35 ∨ b = 47 then lex .comment bs
    else lex (.plain [b]) bs
  | .plain s,b :: bs =>
    if b = 10 then (lex .between bs).map fun ts => plain_token s :: .line :: ts
    else if is_blank b then (lex .between bs).map (plain_token s :: ·)
    else lex (.plain (s ++ [b])) bs
  | .quoted s,b :: bs =>
    if b = 34 then (lex .between bs).map (.word s :: ·)
    else if b = 92 then lex (.esc s) bs
    else lex (.quoted (s ++ [b])) bs
  | .esc s,b :: bs =>
    if b = 120 then lex (.hex s) bs
    else
      match unescape b with
      | some x => lex (.quoted (s ++ [x])) bs
      | none => none
  | .hex s,b :: bs =>
    match hex_digit b with
    | some d => lex (.hex2 s d) bs
    | none => none
  | .hex2 s d,b :: bs =>
    match hex_digit b with
    | some e => lex (.quoted (s ++ [16 * d + e])) bs
    | none => none
  | .comment,b :: bs => if b = 10 then (lex .between bs).map (.line :: ·) else lex .comment bs

/-- The first token of a line is a key or `}`, and those after it are values or `{`. -/
def group : Bool → List Token → Option (List Call)
  | _,[] => some []
  | _,.line :: ts => group true ts
  | true,.word s :: ts => (group false ts).map (.K s :: ·)
  | false,.word s :: ts => (group false ts).map (.S s :: ·)
  | true,.obj_close :: ts => (group false ts).map (.obj_close :: ·)
  | false,.obj_open :: ts => (group false ts).map (.obj_open :: ·)
  | _,_ => none

/-- What the text says. -/
def read (bs : List UInt8) : Option (List Call) := (lex .between bs).bind (group true)

/-! ## Tokens read back -/

variable {s bs rest : List UInt8} {b : UInt8} {c c' : Ffconfw} {x : Call} {xs : List Call}
  {growtwice : Nat → Nat → Nat → Option Nat}

theorem hex_digit_ffHEX {d : UInt8} (h : d.toNat < 16) : hex_digit (ffHEX d) = some d := by
  have hall : ∀ n < 16, hex_digit (ffHEX (UInt8.ofNat n)) = some (UInt8.ofNat n) := by decide
  simpa using hall d.toNat h

theorem esc_char_cases (b : UInt8) :
    esc_char b = 0 ∨ esc_char b = 1 ∨ esc_char b ≠ 120 ∧ unescape (esc_char b) = some b := by
  by_contra hno
  have hne (x : UInt8) (hx : esc_char x ≠ 120 ∧ unescape (esc_char x) = some x) : b ≠ x :=
    fun h => hno (.inr (.inr (h ▸ hx)))
  apply hno
  rw [esc_char,if_neg (hne 8 (by decide)),if_neg (hne 9 (by decide)),if_neg (hne 10 (by decide)),
    if_neg (hne 12 (by decide)),if_neg (hne 13 (by decide)),if_neg (hne 34 (by decide)),
    if_neg (hne 92 (by decide))]
  by_cases hcontrol : b < 32 ∨ b = 127
  · rw [if_pos hcontrol]
    exact .inr (.inl rfl)
  · rw [if_neg hcontrol]
    exact .inl rfl

theorem lex_byte (b : UInt8) : lex (.quoted s) (escape_byte b ++ rest) = lex (.quoted (s ++ [b])) rest := by
  rw [escape_byte]
  by_cases hzero : esc_char b = 0
  · have hb : b ≠ 34 ∧ b ≠ 92 := by
      constructor <;> rintro rfl <;> exact absurd hzero (by decide)
    rw [if_pos hzero,List.singleton_append,lex,if_neg hb.1,if_neg hb.2]
  · rw [if_neg hzero]
    by_cases hone : esc_char b = 1
    · have hlt := b.toNat_lt
      have hhigh : hex_digit (ffHEX (b / 16)) = some (b / 16) := by
        apply hex_digit_ffHEX
        rw [UInt8.toNat_div]
        exact Nat.div_lt_of_lt_mul hlt
      have hlow : hex_digit (ffHEX (b % 16)) = some (b % 16) := by
        apply hex_digit_ffHEX
        rw [UInt8.toNat_mod]
        exact Nat.mod_lt _ (by decide)
      have hsum : 16 * (b / 16) + b % 16 = b := by
        apply UInt8.toNat_inj.mp
        rw [UInt8.toNat_add,UInt8.toNat_mul,UInt8.toNat_div,UInt8.toNat_mod]
        change (16 * (b.toNat / 16) % 256 + b.toNat % 16) % 256 = b.toNat
        omega
      rw [if_pos hone]
      simp only [List.cons_append,List.nil_append]
      rw [lex,if_neg (by decide),if_pos rfl,lex,if_pos rfl,lex,hhigh]
      dsimp only
      rw [lex,hlow]
      dsimp only
      rw [hsum]
    · have hletter := ((esc_char_cases b).resolve_left hzero).resolve_left hone
      rw [if_neg hone]
      simp only [List.cons_append,List.nil_append]
      rw [lex,if_neg (by decide),if_pos rfl,lex,if_neg hletter.1,hletter.2]

theorem lex_quoted : lex (.quoted s) (ffconf_escape bs ++ 34 :: rest) =
    (lex .between rest).map (.word (s ++ bs) :: ·) := by
  induction bs generalizing s with
  | nil =>
    rw [List.append_nil]
    rfl
  | cons b bs ih =>
    rw [ffconf_escape,List.flatMap_cons,List.append_assoc,lex_byte]
    refine ih.trans ?_
    rw [List.append_assoc,List.singleton_append]

/-- The text ends, or it goes on with a blank or a line end. -/
def Sep (rest : List UInt8) : Prop := ∀ b ∈ rest.head?, b = 10 ∨ is_blank b

theorem lex_plain_end (h : Sep rest) : lex (.plain s) rest = (lex .between rest).map (plain_token s :: ·) := by
  cases rest with
  | nil => rfl
  | cons b bs =>
    rw [lex,lex]
    by_cases hb : b = 10
    · rw [if_pos hb,if_pos hb,Option.map_map]
      rfl
    · have hblank := (h b rfl).resolve_left hb
      rw [if_neg hb,if_pos hblank,if_neg hb,if_pos hblank]

/-- A byte of a token without quotes. -/
def Plain (b : UInt8) : Prop := esc_char b = 0 ∧ must_quote b = false

instance (b : UInt8) : Decidable (Plain b) := inferInstanceAs (Decidable (_ ∧ _))

theorem plain_byte (h : Plain b) :
    b ≠ 10 ∧ is_blank b = false ∧ b ≠ 34 ∧ b ≠ 35 ∧ b ≠ 47 ∧ b ≠ 123 ∧ b ≠ 125 := by
  have hne (x : UInt8) (hx : ¬ Plain x) : b ≠ x := by
    rintro rfl
    exact hx h
  have hblank : is_blank b = false := by
    simp [is_blank,hne 32 (by decide),hne 9 (by decide),hne 13 (by decide)]
  exact ⟨hne 10 (by decide),hblank,hne 34 (by decide),hne 35 (by decide),hne 47 (by decide),hne 123 (by decide),
    hne 125 (by decide)⟩

theorem lex_plain (h : ∀ b ∈ bs, Plain b) (hsep : Sep rest) :
    lex (.plain s) (bs ++ rest) = (lex .between rest).map (plain_token (s ++ bs) :: ·) := by
  induction bs generalizing s with
  | nil => rw [List.append_nil,List.nil_append,lex_plain_end hsep]
  | cons b bs ih =>
    obtain ⟨hb,hbs⟩ := List.forall_mem_cons.mp h
    obtain ⟨hline,hblank,-⟩ := plain_byte hb
    rw [List.cons_append,lex,if_neg hline,if_neg (by simp [hblank]),ih hbs,List.append_assoc,
      List.singleton_append]

theorem escape_length : s.length ≤ (ffconf_escape s).length ∧
    ((ffconf_escape s).length = s.length → ∀ b ∈ s, esc_char b = 0) := by
  induction s with
  | nil => exact ⟨Nat.le_refl _,nofun⟩
  | cons b s ih =>
    have hbyte : 1 ≤ (escape_byte b).length ∧ ((escape_byte b).length = 1 → esc_char b = 0) := by
      rw [escape_byte]
      split
      · exact ⟨Nat.le_refl _,fun _ => by assumption⟩
      · split <;> exact ⟨by simp,by simp⟩
    simp only [ffconf_escape,List.flatMap_cons,List.length_append,List.length_cons] at ih ⊢
    refine ⟨by omega,fun h => List.forall_mem_cons.mpr ⟨hbyte.2 (by omega),ih.2 (by omega)⟩⟩

theorem plain_of_not_complex (h : complex s = false) : s ≠ [] ∧ ∀ b ∈ s, Plain b := by
  simp only [complex,Bool.or_eq_false_iff,bne_eq_false_iff_eq,List.isEmpty_eq_false_iff,
    List.any_eq_false] at h
  obtain ⟨⟨hlen,hne⟩,hquote⟩ := h
  exact ⟨hne,fun b hb => ⟨escape_length.2 hlen b hb,by simpa using hquote b hb⟩⟩

/-- A key or value with all its escapes. -/
def whole_word (s : List UInt8) : List UInt8 := if complex s then 34 :: ffconf_escape s ++ [34] else s

/-- A key or value is read back as it is, and it is not taken for a brace or a comment. -/
theorem lex_word (hsep : Sep rest) :
    lex .between (whole_word s ++ rest) = (lex .between rest).map (.word s :: ·) := by
  rw [whole_word]
  by_cases hcomplex : complex s = true
  · rw [if_pos hcomplex,List.append_assoc,List.cons_append,lex,if_neg (by decide),if_neg (by decide),if_pos rfl]
    exact lex_quoted
  · rw [if_neg hcomplex]
    obtain ⟨hne,hall⟩ := plain_of_not_complex (Bool.eq_false_iff.mpr hcomplex)
    obtain ⟨b,bs,rfl⟩ := List.exists_cons_of_ne_nil hne
    obtain ⟨hb,hbs⟩ := List.forall_mem_cons.mp hall
    obtain ⟨hline,hblank,hquote,hhash,hslash,hopen,hclose⟩ := plain_byte hb
    rw [List.cons_append,lex,if_neg hline,if_neg (by simp [hblank]),if_neg hquote,
      if_neg (not_or.mpr ⟨hhash,hslash⟩),lex_plain hbs hsep]
    have htoken : plain_token ([b] ++ bs) = .word (b :: bs) := by
      rw [plain_token,if_neg (by simp [hopen]),if_neg (by simp [hclose])]
      rfl
    rw [htoken]

theorem lex_blank (h : is_blank b) : lex .between (b :: rest) = lex .between rest := by
  rw [lex,if_neg,if_pos h]
  rintro rfl
  exact absurd h (by decide)

theorem lex_tabs (n : Nat) : lex .between (List.replicate n 9 ++ rest) = lex .between rest := by
  induction n with
  | zero => rfl
  | succ n ih =>
    rw [List.replicate_succ,List.cons_append,lex_blank (by decide)]
    exact ih

theorem lex_line : lex .between (line_end c ++ rest) = (lex .between rest).map (.line :: ·) := by
  rw [line_end]
  split
  · rw [List.cons_append,lex_blank (by decide)]
    rfl
  · rfl

theorem lex_brace {t : Token} (ht : plain_token [b] = t) (hb : b = 123 ∨ b = 125) (hsep : Sep rest) :
    lex .between (b :: rest) = (lex .between rest).map (t :: ·) := by
  have hplain : lex .between (b :: rest) = lex (.plain [b]) rest := by
    rcases hb with rfl | rfl <;> rfl
  rw [hplain,lex_plain_end hsep,ht]

/-! ## The text of the calls -/

/-- What a call puts into the buffer where all its escapes have room. -/
def whole (c : Ffconfw) : Call → List UInt8
  | .S s => (if c.kvtab then 9 else 32) :: whole_word s
  | .K s => key_start c ++ whole_word s
  | .obj_open => pushed c 0 .obj_open
  | .obj_close => pushed c 0 .obj_close

/-- The tokens of a call. -/
def tokens (start : Bool) : Call → List Token
  | .K s => (if start then [] else [.line]) ++ [.word s]
  | .S s => [.word s]
  | .obj_open => [.obj_open]
  | .obj_close => [.line,.obj_close]

/-- The first call of a text is a key. -/
def Key : Call → Prop
  | .K _ => True
  | _ => False

theorem lex_whole (hsep : Sep rest) (hkey : c.buf = [] → Key x) :
    lex .between (whole c x ++ rest) = (lex .between rest).map (tokens c.buf.isEmpty x ++ ·) := by
  cases x with
  | K s =>
    rw [whole,key_start]
    by_cases hbuf : c.buf = []
    · rw [if_pos hbuf,List.nil_append,lex_word hsep,hbuf]
      rfl
    · rw [if_neg hbuf,List.append_assoc,List.append_assoc,lex_line,lex_tabs,lex_word hsep,Option.map_map,
        List.isEmpty_eq_false_iff.mpr hbuf]
      rfl
  | S s =>
    rw [whole,List.cons_append,lex_blank (by split <;> decide),lex_word hsep]
    rfl
  | obj_open =>
    rw [whole,pushed]
    exact (lex_blank (by decide)).trans (lex_brace rfl (.inl rfl) hsep)
  | obj_close =>
    rw [whole,pushed,List.append_assoc,List.append_assoc,lex_tabs,lex_line,List.singleton_append,
      lex_brace (t := .obj_close) rfl (.inr rfl) hsep,Option.map_map]
    rfl

theorem sep_line : Sep (line_end c ++ rest) := by
  intro b hb
  rw [line_end] at hb
  split at hb
  · exact .inr (by simp at hb; subst hb; decide)
  · exact .inl (by simpa using hb.symm)

theorem sep_whole (hbuf : c.buf ≠ []) : Sep (whole c x ++ rest) := by
  cases x with
  | K s =>
    rw [whole,key_start,if_neg hbuf,List.append_assoc,List.append_assoc]
    exact sep_line
  | S s =>
    intro b hb
    rw [whole] at hb
    split at hb
    · exact .inr (by simp at hb; subst hb; decide)
    · exact .inr (by simp at hb; subst hb; decide)
  | obj_open =>
    intro b hb
    exact .inr (by simp [whole,pushed] at hb; subst hb; decide)
  | obj_close =>
    rw [whole,pushed,List.append_assoc,List.append_assoc]
    cases hlevel : next_level c.indent c.level .obj_close with
    | zero => exact sep_line
    | succ n =>
      intro b hb
      rw [List.replicate_succ] at hb
      exact .inr (by simp at hb; subst hb; decide)

/-- The writer after a call. -/
def next (c : Ffconfw) (x : Call) : Ffconfw :=
  {c with buf := c.buf ++ whole c x, level := next_level c.indent c.level x}

theorem whole_word_ne : whole_word s ≠ [] := by
  rw [whole_word]
  split
  · exact nofun
  · rename_i h
    exact (plain_of_not_complex (Bool.eq_false_iff.mpr h)).1

theorem whole_ne : whole c x ≠ [] := by
  cases x with
  | K s => exact fun h => whole_word_ne (List.append_eq_nil_iff.mp h).2
  | S s => exact nofun
  | obj_open => exact nofun
  | obj_close => exact fun h => absurd (List.append_eq_nil_iff.mp h).2 nofun

theorem next_ne : (next c x).buf ≠ [] := fun h => whole_ne (List.append_eq_nil_iff.mp h).2

/-- The text that calls add. -/
def added (c : Ffconfw) : List Call → List UInt8
  | [] => []
  | x :: xs => whole c x ++ added (next c x) xs

theorem added_cap (n : Nat) : added {c with cap := n} xs = added c xs := by
  induction xs generalizing c with
  | nil => rfl
  | cons x xs ih =>
    have hwhole : whole {c with cap := n} x = whole c x := by
      cases x <;> rfl
    have hnext : next {c with cap := n} x = {next c x with cap := n} := by
      rw [next,hwhole]
      rfl
    rw [added,added,hwhole,hnext,ih]

theorem sep_added (hbuf : c.buf ≠ []) : Sep (added c xs) := by
  cases xs with
  | nil => exact nofun
  | cons x xs => exact sep_whole hbuf

theorem lex_added (hkey : c.buf = [] → ∀ x ∈ xs.head?, Key x) :
    lex .between (added c xs) = some (xs.head?.toList.flatMap (tokens c.buf.isEmpty) ++
      xs.tail.flatMap (tokens false)) := by
  induction xs generalizing c with
  | nil => rfl
  | cons x xs ih =>
    rw [added,lex_whole (sep_added next_ne) fun h => hkey h x rfl,ih fun h => absurd h next_ne,
      List.isEmpty_eq_false_iff.mpr next_ne]
    cases xs <;> simp

theorem group_tokens (start : Bool) (ts : List Token) (x : Call) (hx : start = true → Key x) :
    group start (tokens start x ++ ts) = (group false ts).map (x :: ·) := by
  cases x with
  | K s => cases start <;> rfl
  | S s =>
    cases start with
    | true => exact absurd (hx rfl) id
    | false => rfl
  | obj_open =>
    cases start with
    | true => exact absurd (hx rfl) id
    | false => rfl
  | obj_close =>
    cases start with
    | true => exact absurd (hx rfl) id
    | false => rfl

theorem group_rest : group false (xs.flatMap (tokens false)) = some xs := by
  induction xs with
  | nil => rfl
  | cons x xs ih => rw [List.flatMap_cons,group_tokens false _ x nofun,ih,Option.map_some]

theorem read_added (hempty : c.buf = []) (hkey : ∀ x ∈ xs.head?, Key x) : read (added c xs) = some xs := by
  rw [read,lex_added fun _ => hkey,hempty]
  cases xs with
  | nil => rfl
  | cons x xs =>
    simp only [List.head?_cons,Option.toList_some,List.flatMap_cons,List.flatMap_nil,List.append_nil,
      List.tail_cons,Option.bind_some]
    exact (group_tokens true _ x fun _ => hkey x rfl).trans (by rw [group_rest,Option.map_some])

/-! ## Sizes -/

theorem escape_to_some {cap n : Nat} (h : n + (ffconf_escape s).length ≤ cap) :
    ffconf_escape_to cap n s = some (ffconf_escape s) := by
  induction s generalizing n with
  | nil => rfl
  | cons b s ih =>
    rw [ffconf_escape,List.flatMap_cons,List.length_append] at h
    rw [ffconf_escape_to,if_neg (by omega),ih (by rw [ffconf_escape]; omega)]
    rfl

theorem escape_to_cases (cap n : Nat) (s : List UInt8) :
    ffconf_escape_to cap n s = some (ffconf_escape s) ∨ ffconf_escape_to cap n s = none := by
  induction s generalizing n with
  | nil => exact .inl rfl
  | cons b s ih =>
    rw [ffconf_escape_to]
    split
    · exact .inr rfl
    · rcases ih (n + (escape_byte b).length) with hs | hs
      · exact .inl (by rw [hs]; rfl)
      · exact .inr (by rw [hs]; rfl)

theorem word_some {cap : Nat} (h : 1 + (ffconf_escape s).length ≤ cap) : word cap s = whole_word s := by
  rw [word,whole_word,escape_to_some (by omega)]
  rfl

/-- Where the escapes have no room, the text is that of the empty string. -/
theorem word_cases (cap : Nat) (s : List UInt8) : word cap s = whole_word s ∨ word cap s = whole_word [] := by
  rw [word,whole_word]
  split
  · rcases escape_to_cases (cap - 1) 0 s with hs | hs
    · exact .inl (by rw [hs]; rfl)
    · exact .inr (by rw [hs]; rfl)
  · exact .inl rfl

theorem line_end_le : (line_end c).length ≤ 2 := by
  rw [line_end]
  split <;> decide

theorem key_start_le : (key_start c).length ≤ 2 + c.level := by
  have := line_end_le (c := c)
  rw [key_start]
  split
  · exact Nat.zero_le _
  · rw [List.length_append,List.length_replicate]
    omega

theorem pushed_some {cap : Nat} (h : ffconfw_size c.level x ≤ cap) : pushed c cap x = whole c x := by
  cases x with
  | K s =>
    have := key_start_le (c := c)
    rw [ffconfw_size] at h
    rw [pushed,whole,word_some (by omega)]
  | S s =>
    rw [ffconfw_size] at h
    rw [pushed,whole,word_some (by omega)]
  | obj_open => rfl
  | obj_close => rfl

theorem pushed_cases (c : Ffconfw) (cap : Nat) (x : Call) : ∃ y, pushed c cap x = whole c y ∧ (Key x → Key y) ∧
    next_level c.indent c.level x = next_level c.indent c.level y := by
  cases x with
  | K s =>
    rcases word_cases (cap - (key_start c).length) s with hs | hs
    · exact ⟨.K s,congrArg (key_start c ++ ·) hs,id,rfl⟩
    · exact ⟨.K [],congrArg (key_start c ++ ·) hs,id,rfl⟩
  | S s =>
    rcases word_cases (cap - 1) s with hs | hs
    · exact ⟨.S s,congrArg (_ :: ·) hs,id,rfl⟩
    · exact ⟨.S [],congrArg (_ :: ·) hs,id,rfl⟩
  | obj_open => exact ⟨.obj_open,rfl,id,rfl⟩
  | obj_close => exact ⟨.obj_close,rfl,id,rfl⟩

theorem whole_le : (whole c x).length ≤ ffconfw_size c.level x := by
  have hword (s : List UInt8) : (whole_word s).length ≤ 2 + (ffconf_escape s).length := by
    rw [whole_word]
    split
    · simp only [List.cons_append,List.length_cons,List.length_append,List.length_nil]
      omega
    · have := (escape_length (s := s)).1
      omega
  cases x with
  | K s =>
    have := hword s
    have := key_start_le (c := c)
    rw [whole,ffconfw_size,List.length_append]
    omega
  | S s =>
    have := hword s
    rw [whole,ffconfw_size,List.length_cons]
    omega
  | obj_open => exact Nat.le_trans (by decide : 2 ≤ 3) (Nat.le_add_right _ _)
  | obj_close =>
    have := line_end_le (c := c)
    have hlevel : next_level c.indent c.level .obj_close ≤ c.level := by
      rw [next_level]
      split <;> omega
    rw [whole,pushed,ffconfw_size,List.length_append,List.length_append,List.length_replicate,
      List.length_singleton]
    omega

/-- Every size that is reserved is an `int`. -/
def Sizes (indent : Bool) : Nat → List Call → Prop
  | _,[] => True
  | n,x :: xs => ffconfw_size n x < 2 ^ 31 ∧ Sizes indent (next_level indent n x) xs

/-- No more objects are closed than are open. -/
def Nested : Nat → List Call → Prop
  | _,[] => True
  | n,.obj_open :: xs => Nested (n + 1) xs
  | n,.obj_close :: xs => 0 < n ∧ Nested (n - 1) xs
  | n,_ :: xs => Nested n xs

/-- There is room for what fits into an `int`. -/
def Room (growtwice : Nat → Nat → Nat → Option Nat) : Prop :=
  ∀ len cap r, r < 2 ^ 31 → ∃ n, growtwice len cap r = some n ∧ len + r ≤ n

/-- There is no room for half of all addresses. -/
def Max (growtwice : Nat → Nat → Nat → Option Nat) : Prop :=
  ∀ len cap r, 2 ^ 63 ≤ r → growtwice len cap r = none

theorem add_eq (hroom : Room growtwice) (hsize : ffconfw_size c.level x < 2 ^ 31)
    (hlevel : ¬(x = .obj_close ∧ c.indent ∧ c.level = 0)) :
    ∃ n, ffconfw_add growtwice c x = some (ffconfw_size c.level x,{next c x with cap := n}) := by
  have hmod : ffconfw_size c.level x % 2 ^ 32 = ffconfw_size c.level x := Nat.mod_eq_of_lt (by omega)
  have hint : int_size (ffconfw_size c.level x) = ffconfw_size c.level x := by
    rw [int_size,hmod,if_pos hsize]
  obtain ⟨n,hn,hle⟩ := hroom c.buf.length c.cap _ hsize
  refine ⟨n,?_⟩
  simp only [ffconfw_add,hint,hn]
  rw [if_neg hlevel,pushed_some (by omega)]
  rfl

theorem add_all_eq {n : Nat} (hroom : Room growtwice) (hlevel : c.indent → c.level = n) (hnested : Nested n xs)
    (hsizes : Sizes c.indent c.level xs) : ∃ log c', add_all growtwice c xs = some (log,c') ∧
      c'.buf = c.buf ++ added c xs ∧ ∀ y ∈ log, y.2 ≤ y.1 := by
  induction xs generalizing c n with
  | nil => exact ⟨[],c,rfl,(List.append_nil _).symm,nofun⟩
  | cons x xs ih =>
    obtain ⟨hsize,hsizes⟩ := hsizes
    have hstep : ¬(x = .obj_close ∧ c.indent ∧ c.level = 0) ∧ ∃ m, ((next c x).indent → (next c x).level = m) ∧
        Nested m xs := by
      cases x with
      | K s => exact ⟨nofun,n,hlevel,hnested⟩
      | S s => exact ⟨nofun,n,hlevel,hnested⟩
      | obj_open =>
        refine ⟨nofun,n + 1,fun hindent => ?_,hnested⟩
        exact (if_pos hindent).trans (by rw [hlevel hindent])
      | obj_close =>
        refine ⟨fun ⟨_,hindent,hzero⟩ => ?_,n - 1,fun hindent => ?_,hnested.2⟩
        · have := hnested.1
          rw [hlevel hindent] at hzero
          omega
        · exact (if_pos hindent).trans (by rw [hlevel hindent])
    obtain ⟨hassert,m,hm,hrest⟩ := hstep
    obtain ⟨cap,hadd⟩ := add_eq hroom hsize hassert
    obtain ⟨log,c',hall,hbuf,hlog⟩ := ih (c := {next c x with cap := cap}) hm hrest hsizes
    refine ⟨_,c',by rw [add_all,hadd]; dsimp only; rw [hall]; rfl,?_,List.forall_mem_cons.mpr ⟨?_,hlog⟩⟩
    · rw [hbuf,added_cap,added,← List.append_assoc]
      rfl
    · have := whole_le (c := c) (x := x)
      dsimp only
      rw [next,List.length_append,Nat.add_sub_cancel_left]
      exact this

theorem whole_word_ge : (ffconf_escape s).length ≤ (whole_word s).length := by
  rw [whole_word]
  split
  · simp only [List.cons_append,List.length_cons,List.length_append,List.length_nil]
    omega
  · rename_i h
    simp only [complex,Bool.not_eq_true,Bool.or_eq_false_iff,bne_eq_false_iff_eq] at h
    omega

/-- What a call leaves in the buffer, and that a size which is no `int` is not enough for it. -/
theorem add_some {r : Nat} (hmax : Max growtwice) (hadd : ffconfw_add growtwice c x = some (r,c')) :
    ∃ y cap, c' = {next c y with cap := cap} ∧ (Key x → Key y) ∧ c'.level = next_level c.indent c.level x ∧
      (y = x → c.level < 2 ^ 31 → c'.buf.length - c.buf.length ≤ r → ffconfw_size c.level x < 2 ^ 31) := by
  simp only [ffconfw_add] at hadd
  split at hadd
  · cases hadd
  · rename_i cap hcap
    split at hadd
    · cases hadd
    · obtain ⟨rfl,rfl⟩ := Prod.mk.inj (Option.some.inj hadd)
      obtain ⟨y,hy,hkey,hlevel⟩ := pushed_cases c (cap - c.buf.length) x
      refine ⟨y,cap,by rw [hy,hlevel]; rfl,hkey,rfl,?_⟩
      rintro rfl hlt hfits
      by_contra hsize
      have hint : int_size (ffconfw_size c.level y) < 2 ^ 63 := by
        by_contra hge
        rw [hmax _ _ _ (Nat.le_of_not_lt hge)] at hcap
        cases hcap
      dsimp only at hfits
      rw [hy,List.length_append,Nat.add_sub_cancel_left] at hfits
      rw [int_size] at hfits hint
      split at hfits
      · have hle : (whole c y).length + 2 ^ 32 ≤ ffconfw_size c.level y := by omega
        cases y with
        | K s =>
          have := whole_word_ge (s := s)
          rw [whole,ffconfw_size,List.length_append] at hle
          omega
        | S s =>
          have := whole_word_ge (s := s)
          rw [whole,ffconfw_size,List.length_cons] at hle
          omega
        | obj_open =>
          rw [ffconfw_size] at hle
          omega
        | obj_close =>
          rw [ffconfw_size] at hle
          omega
      · rename_i hmod
        rw [if_neg hmod] at hint
        omega

theorem level_lt {indent : Bool} {n : Nat} (hsize : ffconfw_size n x < 2 ^ 31) :
    next_level indent n x < 2 ^ 31 := by
  have hle : n + 3 ≤ ffconfw_size n x := by
    cases x <;> rw [ffconfw_size] <;> omega
  have hnext : next_level indent n x ≤ n + 1 := by
    cases x <;> simp only [next_level] <;> (try split) <;> omega
  omega

/-- The text is that of some calls, and if they are the calls made, every size was an `int`. -/
theorem add_all_some {log : List (Nat × Nat)} (hmax : Max growtwice)
    (hall : add_all growtwice c xs = some (log,c')) :
    ∃ ys, c'.buf = c.buf ++ added c ys ∧ ((∀ x ∈ xs.head?, Key x) → ∀ y ∈ ys.head?, Key y) ∧
      (ys = xs → c.level < 2 ^ 31 → (∀ y ∈ log, y.2 ≤ y.1) → Sizes c.indent c.level xs) := by
  induction xs generalizing c log with
  | nil =>
    obtain ⟨-,rfl⟩ := Prod.mk.inj (Option.some.inj hall)
    exact ⟨[],(List.append_nil _).symm,id,fun _ _ _ => trivial⟩
  | cons x xs ih =>
    rw [add_all] at hall
    rcases hadd : ffconfw_add growtwice c x with _ | ⟨r,d⟩
    · rw [hadd] at hall
      cases hall
    · rw [hadd] at hall
      obtain ⟨z,hz,heq⟩ := Option.map_eq_some_iff.mp hall
      obtain ⟨rfl,rfl⟩ := Prod.mk.inj heq
      obtain ⟨y,cap,hd,hkey,hlevel,hsize⟩ := add_some hmax hadd
      obtain ⟨ys,hbuf,-,hrest⟩ := ih hz
      refine ⟨y :: ys,?_,fun h w hw => ?_,fun hys hlt hlog => ?_⟩
      · rw [hbuf,hd,added_cap,added,← List.append_assoc]
        rfl
      · obtain rfl := Option.some.inj hw
        exact hkey (h x rfl)
      · obtain ⟨rfl,rfl⟩ := List.cons.inj hys
        obtain ⟨hhead,htail⟩ := List.forall_mem_cons.mp hlog
        have hint := hsize rfl hlt hhead
        have hindent : d.indent = c.indent := by rw [hd]; rfl
        rw [hindent,hlevel] at hrest
        exact ⟨hint,hrest rfl (level_lt hint) htail⟩

/-! ## The whole text -/

/-- `ffconfw_init()` -/
def ffconfw_init (crlf kvtab indent : Bool) : Ffconfw := ⟨[],0,0,crlf,kvtab,indent⟩

/-- The calls succeed, each within the size reserved for it, and the text gives them back, if and only if
every size is an `int`. -/
theorem written_iff (growtwice : Nat → Nat → Nat → Option Nat) (hroom : Room growtwice) (hmax : Max growtwice)
    (crlf kvtab indent : Bool) (xs : List Call) (hkey : ∀ x ∈ xs.head?, Key x) (hnested : Nested 0 xs) :
    (∃ log c, add_all growtwice (ffconfw_init crlf kvtab indent) xs = some (log,c) ∧
      (∀ y ∈ log, y.2 ≤ y.1) ∧ read c.buf = some xs) ↔ Sizes indent 0 xs := by
  constructor
  · rintro ⟨log,c,hall,hlog,hread⟩
    obtain ⟨ys,hbuf,hkeys,hsizes⟩ := add_all_some hmax hall
    rw [hbuf] at hread
    have heq : some ys = some xs := (read_added rfl (hkeys hkey)).symm.trans hread
    exact hsizes (Option.some.inj heq) (show 0 < 2 ^ 31 by decide) hlog
  · intro hsizes
    obtain ⟨log,c,hall,hbuf,hlog⟩ := add_all_eq (c := ffconfw_init crlf kvtab indent) hroom (fun _ => rfl)
      hnested hsizes
    refine ⟨log,c,hall,hlog,?_⟩
    rw [hbuf]
    exact read_added rfl hkey

theorem written_iff_object :
    ∃ log c, add_all (fun len _ r => if r < 2 ^ 63 then some (2 * len + r) else none)
      (ffconfw_init true false true) [.K [97],.obj_open,.K [123],.S [],.obj_close] = some (log,c) ∧
        (∀ y ∈ log, y.2 ≤ y.1) ∧ read c.buf = some [.K [97],.obj_open,.K [123],.S [],.obj_close] :=
  (written_iff (fun len _ r => if r < 2 ^ 63 then some (2 * len + r) else none)
    (fun len _ r hr => ⟨2 * len + r,if_pos (by omega),by omega⟩) (fun _ _ r hr => if_neg (by omega))
    true false true [.K [97],.obj_open,.K [123],.S [],.obj_close]
    (by rintro x ⟨⟩; exact trivial) ⟨Nat.one_pos,trivial⟩).mpr
    ⟨by decide,by decide,by decide,by decide,by decide,trivial⟩

theorem escape_replicate (n : Nat) : ffconf_escape (List.replicate n 97) = List.replicate n 97 := by
  induction n with
  | zero => rfl
  | succ n ih => exact congrArg (97 :: ·) ih

/-- A key of `2 ^ 31` bytes. -/
theorem long_key_fails : ¬∃ log c, add_all (fun len _ r => if r < 2 ^ 63 then some (2 * len + r) else none)
    (ffconfw_init false false false) [.K (List.replicate (2 ^ 31) 97)] = some (log,c) ∧
      (∀ y ∈ log, y.2 ≤ y.1) ∧ read c.buf = some [.K (List.replicate (2 ^ 31) 97)] := by
  rintro ⟨log,c,hall,hlog,hread⟩
  obtain ⟨ys,hbuf,hkeys,hsizes⟩ := add_all_some (fun _ _ r hr => if_neg (by omega)) hall
  rw [hbuf] at hread
  have heq := (read_added rfl (hkeys (by rintro x ⟨⟩; exact trivial))).symm.trans hread
  have hsize := (hsizes (Option.some.inj heq) (show 0 < 2 ^ 31 by decide) hlog).1
  rw [ffconfw_size,escape_replicate,List.length_replicate] at hsize
  omega

end Phiola.ConfWrite
