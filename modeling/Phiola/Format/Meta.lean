import Mathlib.Algebra.Group.Nat.Defs
import Mathlib.Data.List.Basic
import Mathlib.Logic.Function.Basic

/-!
# The store of tags

A store is a vector of pointers, two for each pair: one to the name, which starts an allocated
block, and one to the value, which is in the same block behind the name.
-/

namespace Phiola.MetaStore

abbrev Name := List Char

def NUL : Char := '\x00'

structure Ptr where
  block : Nat
  off : Nat
deriving DecidableEq, Repr

/-- What is allocated. -/
structure Mem where
  block : Nat → Option (List Char)
  next : Nat

def Mem.alloc (m : Mem) (s : List Char) : Mem × Ptr :=
  (⟨Function.update m.block m.next (some s),m.next + 1⟩,⟨m.next,0⟩)

/-- `ffmem_free()` of a block that is allocated. -/
def Mem.free (m : Mem) (p : Ptr) : Option Mem :=
  if p.off = 0 ∧ (m.block p.block).isSome then some ⟨Function.update m.block p.block none,m.next⟩
  else none

/-- The string at a pointer, up to its NUL. -/
def Mem.str (m : Mem) (p : Ptr) : Option Name :=
  (m.block p.block).bind fun s =>
    if NUL ∈ s.drop p.off then some ((s.drop p.off).takeWhile (· ≠ NUL)) else none

/-! ## The calls -/

/-- The walk of `meta_set()` with `PHI_META_REPLACE`; `s` is the new block. -/
def replace (m : Mem) (name : Name) (s : Ptr) : List Ptr → Option (Mem × List Ptr × Bool)
  | k :: v :: rest => do
    let n ← m.str k
    if n = name then
      let m ← m.free k
      pure (m,s :: ⟨s.block,name.length + 1⟩ :: rest,true)
    else
      let (m,rest,found) ← replace m name s rest
      pure (m,k :: v :: rest,found)
  | rest => pure (m,rest,false)

def meta_set (m : Mem) (store : List Ptr) (name val : Name) (repl : Bool) :
    Option (Mem × List Ptr) :=
  if name = [] then some (m,store)
  else
    let (m,s) := m.alloc (name ++ NUL :: (val ++ [NUL]))
    let pushed := store ++ [s,⟨s.block,name.length + 1⟩]
    if repl then do
      let (m,store,found) ← replace m name s store
      pure (m,if found then store else pushed)
    else some (m,pushed)

def meta_copy (m : Mem) (dst : List Ptr) : List Ptr → Option (Mem × List Ptr)
  | k :: v :: rest => do
    let name ← m.str k
    let val ← m.str v
    let (m,dst) ← meta_set m dst name val false
    meta_copy m dst rest
  | _ => some (m,dst)

def meta_destroy (m : Mem) : List Ptr → Option Mem
  | k :: _ :: rest => do
    let m ← m.free k
    meta_destroy m rest
  | _ => some m

structure Flags where
  unique : Bool
  priv : Bool
deriving DecidableEq, Repr

def lower (c : Char) : Char := if 'A' ≤ c ∧ c ≤ 'Z' then Char.ofNat (c.toNat + 32) else c

/-- `ffstr_ieqz()` -/
def ieq (a b : Name) : Bool := a.map lower = b.map lower

/-- The scan for `PHI_META_UNIQUE`: it stops at the pair itself. -/
def scan (m : Mem) (k : Ptr) (name : Name) : List Ptr → Option Bool
  | it :: _ :: rest =>
    if k = it then some false
    else do
      let n ← m.str it
      if ieq name n then some true else scan m k name rest
  | _ => some false

inductive Listed
  | done
  | pair (i : Nat) (name val : Name)
deriving DecidableEq, Repr

def hidden (flags : Flags) (name : Name) : Bool :=
  !flags.priv && "_phi_".toList.isPrefixOf name

/-- `for (;;)` of `meta_list()`, for at most `fuel` rounds; the counter is an `uint`. -/
def list_loop (m : Mem) (store : List Ptr) (flags : Flags) : Nat → Nat → Option Listed
  | 0, _ => none
  | fuel + 1, i =>
    if i * 2 % 2 ^ 32 = store.length then some .done
    else do
      let k ← store[i * 2 % 2 ^ 32]?
      let v ← store[i * 2 % 2 ^ 32 + 1]?
      let name ← m.str k
      let val ← m.str v
      if hidden flags name then list_loop m store flags fuel ((i + 1) % 2 ^ 32)
      else
        let skip ← if flags.unique then scan m k name store else some false
        if skip then list_loop m store flags fuel ((i + 1) % 2 ^ 32)
        else pure (.pair ((i + 1) % 2 ^ 32) name val)

def meta_list (m : Mem) (store : List Ptr) (flags : Flags) (i : Nat) : Option Listed :=
  list_loop m store flags (store.length + 1) i

/-- `while` of `meta_find()`, for at most `fuel` rounds. -/
def find_loop (m : Mem) (store : List Ptr) (name : Name) (flags : Flags) :
    Nat → Nat → Option (Option Name)
  | 0, _ => none
  | fuel + 1, i => do
    match ← meta_list m store flags i with
    | .done => pure none
    | .pair i n v => if n = name then pure (some v) else find_loop m store name flags fuel i

def meta_find (m : Mem) (store : List Ptr) (name : Name) (flags : Flags) : Option (Option Name) :=
  find_loop m store name flags (store.length + 1) 0

/-- A caller that lists all pairs from a counter on. -/
def list_from (m : Mem) (store : List Ptr) (flags : Flags) : Nat → Nat → Option (List (Name × Name))
  | 0, _ => none
  | fuel + 1, i => do
    match ← meta_list m store flags i with
    | .done => pure []
    | .pair i n v => do
      let rest ← list_from m store flags fuel i
      pure ((n,v) :: rest)

def list_all (m : Mem) (store : List Ptr) (flags : Flags) : Option (List (Name × Name)) :=
  list_from m store flags (store.length + 1) 0

/-- The pairs that a store denotes. -/
def denote (m : Mem) : List Ptr → Option (List (Name × Name))
  | k :: v :: rest => do
    let name ← m.str k
    let val ← m.str v
    let pairs ← denote m rest
    pure ((name,val) :: pairs)
  | _ => some []

/-! ## Histories of several stores -/

/-- A value: a text of the caller, or the `k`-th value of store `i`. -/
inductive Val
  | text (s : Name)
  | stored (i k : Nat)
deriving DecidableEq, Repr

inductive Op
  | set (i : Nat) (name : Name) (val : Val) (repl : Bool)
  | copy (dst src : Nat)
  | destroy (i : Nat)
deriving DecidableEq, Repr

structure Stores where
  mem : Mem
  store : Nat → List Ptr

def Stores.val (s : Stores) : Val → Option Name
  | .text t => some t
  | .stored i k => do
    let p ← (s.store i)[2 * k + 1]?
    s.mem.str p

def step (s : Stores) : Op → Option Stores
  | .set i name val repl => do
    let val ← s.val val
    let (m,l) ← meta_set s.mem (s.store i) name val repl
    pure ⟨m,Function.update s.store i l⟩
  | .copy dst src =>
    if dst = src then none
    else do
      let (m,l) ← meta_copy s.mem (s.store dst) (s.store src)
      pure ⟨m,Function.update s.store dst l⟩
  | .destroy i => do
    let m ← meta_destroy s.mem (s.store i)
    pure ⟨m,Function.update s.store i []⟩

def init : Stores := ⟨⟨fun _ => none,0⟩,fun _ => []⟩

/-! ## The multimap -/

abbrev Pairs := List (Name × Name)

/-- The first pair of the name gets the value; with none, a pair is appended. -/
def put (name val : Name) : Pairs → Pairs
  | [] => [(name,val)]
  | (n,v) :: rest => if n = name then (name,val) :: rest else (n,v) :: put name val rest

/-- A set with no name is ignored. -/
def set_pair (pairs : Pairs) (name val : Name) (repl : Bool) : Pairs :=
  if name = [] then pairs
  else if repl then put name val pairs
  else pairs ++ [(name,val)]

def value (a : Nat → Pairs) : Val → Option Name
  | .text t => some t
  | .stored i k => ((a i)[k]?).map Prod.snd

def spec_step (a : Nat → Pairs) : Op → Option (Nat → Pairs)
  | .set i name val repl => (value a val).map fun v =>
    Function.update a i (set_pair (a i) name v repl)
  | .copy dst src =>
    if dst = src then none else some (Function.update a dst (a dst ++ a src))
  | .destroy i => some (Function.update a i [])

/-- The `k`-th pair is listed. -/
def shown (flags : Flags) (pairs : Pairs) (k : Nat) : Bool :=
  match pairs[k]? with
  | none => false
  | some p => !hidden flags p.1 && !(flags.unique && (pairs.take k).any fun q => ieq p.1 q.1)

/-- The pairs that are listed, in their order. -/
def listed (flags : Flags) (pairs : Pairs) : Pairs :=
  ((List.range pairs.length).filter (shown flags pairs)).filterMap fun k => pairs[k]?

/-- The texts of an operation have no NUL in them. -/
def Op.clean : Op → Prop
  | .set _ name (.text val) _ => NUL ∉ name ∧ NUL ∉ val
  | .set _ name (.stored _ _) _ => NUL ∉ name
  | .copy _ _ | .destroy _ => True

instance : ∀ o : Op, Decidable o.clean
  | .set _ name (.text val) _ => inferInstanceAs (Decidable (NUL ∉ name ∧ NUL ∉ val))
  | .set _ name (.stored _ _) _ => inferInstanceAs (Decidable (NUL ∉ name))
  | .copy _ _ | .destroy _ => inferInstanceAs (Decidable True)

/-! ## Pairs in memory -/

/-- A pair and its block. -/
structure Cell where
  block : Nat
  name : Name
  val : Name
deriving DecidableEq, Repr

def Cell.text (c : Cell) : List Char := c.name ++ NUL :: (c.val ++ [NUL])

def Cell.pair (c : Cell) : Name × Name := (c.name,c.val)

def ptrs (l : List Cell) : List Ptr := l.flatMap fun c => [⟨c.block,0⟩,⟨c.block,c.name.length + 1⟩]

/-- The blocks of the pairs are allocated, and hold their texts. -/
structure InMem (m : Mem) (c : Cell) : Prop where
  block : m.block c.block = some c.text
  name : NUL ∉ c.name
  val : NUL ∉ c.val
  named : c.name ≠ []
  lt : c.block < m.next

variable {m m' : Mem} {c : Cell} {l : List Cell} {name val : Name} {flags : Flags}

theorem ptrs_cons (c : Cell) (l : List Cell) :
    ptrs (c :: l) = ⟨c.block,0⟩ :: ⟨c.block,c.name.length + 1⟩ :: ptrs l := rfl

theorem ptrs_append (l l' : List Cell) : ptrs (l ++ l') = ptrs l ++ ptrs l' := List.flatMap_append

theorem ptrs_length (l : List Cell) : (ptrs l).length = 2 * l.length := by
  induction l with
  | nil => rfl
  | cons c l ih =>
    rw [ptrs_cons,List.length_cons,List.length_cons,List.length_cons,ih]
    omega

theorem ptrs_name (l : List Cell) (k : Nat) :
    (ptrs l)[2 * k]? = (l[k]?).map fun c => ⟨c.block,0⟩ := by
  induction l generalizing k with
  | nil => rfl
  | cons c l ih =>
    cases k with
    | zero => rfl
    | succ k => exact ih k

theorem ptrs_val (l : List Cell) (k : Nat) :
    (ptrs l)[2 * k + 1]? = (l[k]?).map fun c => ⟨c.block,c.name.length + 1⟩ := by
  induction l generalizing k with
  | nil => rfl
  | cons c l ih =>
    cases k with
    | zero => rfl
    | succ k => exact ih k

theorem takeWhile_NUL {s t : List Char} (h : NUL ∉ s) :
    (s ++ NUL :: t).takeWhile (· ≠ NUL) = s := by
  induction s with
  | nil => simp
  | cons x s ih =>
    have hx : x ≠ NUL := fun hx => h (by simp [hx])
    rw [List.cons_append,List.takeWhile_cons_of_pos (by simpa using hx),
      ih fun hs => h (List.mem_cons_of_mem x hs)]

theorem InMem.str_name (h : InMem m c) : m.str ⟨c.block,0⟩ = some c.name := by
  simp only [Mem.str,h.block,Option.bind_some,List.drop_zero,Cell.text]
  rw [if_pos (by simp),takeWhile_NUL h.name]

theorem InMem.str_val (h : InMem m c) : m.str ⟨c.block,c.name.length + 1⟩ = some c.val := by
  have hdrop : c.text.drop (c.name.length + 1) = c.val ++ [NUL] := by simp [Cell.text]
  simp only [Mem.str,h.block,Option.bind_some,hdrop]
  rw [if_pos (by simp),takeWhile_NUL h.val]

theorem denote_ptrs (h : ∀ c ∈ l, InMem m c) : denote m (ptrs l) = some (l.map Cell.pair) := by
  induction l with
  | nil => rfl
  | cons c l ih =>
    have hc := h c List.mem_cons_self
    have hl := ih fun d hd => h d (List.mem_cons_of_mem c hd)
    rw [ptrs_cons,denote,hc.str_name,hc.str_val]
    simp [hl,Cell.pair]

/-! ## Sets -/

theorem put_absent {pairs : Pairs} (h : ∀ p ∈ pairs, p.1 ≠ name) :
    put name val pairs = pairs ++ [(name,val)] := by
  induction pairs with
  | nil => rfl
  | cons p pairs ih =>
    rw [put,if_neg (h p List.mem_cons_self),ih fun q hq => h q (List.mem_cons_of_mem p hq)]
    rfl

theorem put_first {pairs rest : Pairs} {v : Name} (h : ∀ p ∈ pairs, p.1 ≠ name) :
    put name val (pairs ++ (name,v) :: rest) = pairs ++ (name,val) :: rest := by
  induction pairs with
  | nil => simp [put]
  | cons p pairs ih =>
    rw [List.cons_append,put,if_neg (h p List.mem_cons_self),
      ih fun q hq => h q (List.mem_cons_of_mem p hq)]
    rfl

/-- The walk finds no pair of the name, or it frees the first one and puts the new block there. -/
theorem replace_ptrs (h : ∀ c ∈ l, InMem m c) (s : Ptr) :
    ((∀ c ∈ l, c.name ≠ name) ∧ replace m name s (ptrs l) = some (m,ptrs l,false)) ∨
    ∃ l₁ c l₂, l = l₁ ++ c :: l₂ ∧ c.name = name ∧ (∀ d ∈ l₁, d.name ≠ name) ∧
      replace m name s (ptrs l) = some (⟨Function.update m.block c.block none,m.next⟩,
        ptrs l₁ ++ s :: ⟨s.block,name.length + 1⟩ :: ptrs l₂,true) := by
  induction l with
  | nil => exact .inl ⟨nofun,rfl⟩
  | cons c l ih =>
    have hc := h c List.mem_cons_self
    rw [ptrs_cons,replace,hc.str_name]
    simp only [Option.bind_eq_bind,Option.bind_some]
    by_cases hname : c.name = name
    · refine .inr ⟨[],c,l,rfl,hname,nofun,?_⟩
      have hfree : m.free ⟨c.block,0⟩ = some ⟨Function.update m.block c.block none,m.next⟩ := by
        simp [Mem.free,hc.block]
      rw [if_pos hname,hfree]
      rfl
    · rw [if_neg hname]
      rcases ih fun d hd => h d (List.mem_cons_of_mem c hd) with ⟨hno,heq⟩ | ⟨l₁,d,l₂,rfl,hd,hno,heq⟩
      · refine .inl ⟨fun d hd => ?_,by rw [heq]; rfl⟩
        rcases List.mem_cons.mp hd with rfl | hd
        · exact hname
        · exact hno d hd
      · refine .inr ⟨c :: l₁,d,l₂,rfl,hd,fun x hx => ?_,by rw [heq]; rfl⟩
        rcases List.mem_cons.mp hx with rfl | hx
        · exact hname
        · exact hno x hx

/-- Every pair of every store has a block of its own. -/
structure Holds (s : Stores) (cells : Nat → List Cell) : Prop where
  ptrs : ∀ i, s.store i = ptrs (cells i)
  mem : ∀ i, ∀ c ∈ cells i, InMem s.mem c
  once : ∀ i, ((cells i).map Cell.block).Nodup
  apart : ∀ i j, ∀ c ∈ cells i, ∀ d ∈ cells j, c.block = d.block → i = j

variable {s s' : Stores} {cells : Nat → List Cell} {i : Nat}

/-- One store changes: its pairs are old ones of it, or have new blocks. -/
theorem Holds.change (h : Holds s cells) (hm : ∀ c ∈ l, InMem m c)
    (honce : (l.map Cell.block).Nodup) (hnew : ∀ c ∈ l, c ∈ cells i ∨ s.mem.next ≤ c.block)
    (hnext : s.mem.next ≤ m.next)
    (hframe : ∀ j, j ≠ i → ∀ c ∈ cells j, m.block c.block = s.mem.block c.block) :
    Holds ⟨m,Function.update s.store i (MetaStore.ptrs l)⟩ (Function.update cells i l) := by
  have hold {j : Nat} (hj : j ≠ i) {c : Cell} (hc : c ∈ cells j) {d : Cell} (hd : d ∈ l)
      (hb : c.block = d.block) : False := by
    rcases hnew d hd with hd | hd
    · exact hj (h.apart j i c hc d hd hb)
    · have := (h.mem j c hc).lt
      omega
  refine ⟨fun j => ?_,fun j c hc => ?_,fun j => ?_,fun j k c hc d hd hb => ?_⟩
  · by_cases hj : j = i
    · subst hj
      simp
    · simp [Function.update_of_ne hj,h.ptrs j]
  · by_cases hj : j = i
    · subst hj
      rw [Function.update_self] at hc
      exact hm c hc
    · rw [Function.update_of_ne hj] at hc
      have hin := h.mem j c hc
      exact ⟨(hframe j hj c hc).trans hin.block,hin.name,hin.val,hin.named,
        Nat.lt_of_lt_of_le hin.lt hnext⟩
  · by_cases hj : j = i
    · subst hj
      rw [Function.update_self]
      exact honce
    · rw [Function.update_of_ne hj]
      exact h.once j
  · by_cases hj : j = i <;> by_cases hk : k = i
    · rw [hj,hk]
    · subst hj
      rw [Function.update_self] at hc
      rw [Function.update_of_ne hk] at hd
      exact (hold hk hd hc hb.symm).elim
    · subst hk
      rw [Function.update_self] at hd
      rw [Function.update_of_ne hj] at hc
      exact (hold hj hc hd hb).elim
    · rw [Function.update_of_ne hj] at hc
      rw [Function.update_of_ne hk] at hd
      exact h.apart j k c hc d hd hb

theorem InMem.alloc (h : InMem m c) (t : List Char) : InMem (m.alloc t).1 c := by
  have hne : c.block ≠ m.next := Nat.ne_of_lt h.lt
  exact ⟨(Function.update_of_ne hne _ _).trans h.block,h.name,h.val,h.named,Nat.lt_succ_of_lt h.lt⟩

theorem InMem.free (h : InMem m c) {b : Nat} (hb : c.block ≠ b) :
    InMem ⟨Function.update m.block b none,m.next⟩ c :=
  ⟨(Function.update_of_ne hb _ _).trans h.block,h.name,h.val,h.named,h.lt⟩

theorem inMem_new (m : Mem) (hname : NUL ∉ name) (hval : NUL ∉ val) (hne : name ≠ []) :
    InMem (m.alloc (name ++ NUL :: (val ++ [NUL]))).1 ⟨m.next,name,val⟩ :=
  ⟨Function.update_self _ _ _,hname,hval,hne,Nat.lt_succ_self _⟩

theorem Holds.push (h : Holds s cells) (i : Nat) (hname : NUL ∉ name) (hval : NUL ∉ val)
    (hne : name ≠ []) :
    Holds ⟨(s.mem.alloc (name ++ NUL :: (val ++ [NUL]))).1,
        Function.update s.store i (MetaStore.ptrs (cells i ++ [⟨s.mem.next,name,val⟩]))⟩
      (Function.update cells i (cells i ++ [⟨s.mem.next,name,val⟩])) := by
  refine h.change (fun c hc => ?_) ?_ (fun c hc => ?_) (Nat.le_succ _) fun j _ c hc => ?_
  · rcases List.mem_append.mp hc with hc | hc
    · exact (h.mem i c hc).alloc _
    · obtain rfl := List.mem_singleton.mp hc
      exact inMem_new s.mem hname hval hne
  · rw [List.map_append,List.nodup_append]
    refine ⟨h.once i,by simp,fun b hb b' hb' => ?_⟩
    obtain ⟨c,hc,rfl⟩ := List.mem_map.mp hb
    obtain rfl : b' = s.mem.next := List.mem_singleton.mp hb'
    exact Nat.ne_of_lt (h.mem i c hc).lt
  · rcases List.mem_append.mp hc with hc | hc
    · exact .inl hc
    · obtain rfl := List.mem_singleton.mp hc
      exact .inr (Nat.le_refl _)
  · exact Function.update_of_ne (Nat.ne_of_lt (h.mem j c hc).lt) _ _

theorem Holds.put (h : Holds s cells) {l₁ l₂ : List Cell} (hl : cells i = l₁ ++ c :: l₂)
    (hname : NUL ∉ name) (hval : NUL ∉ val) (hne : name ≠ []) :
    Holds ⟨⟨Function.update (s.mem.alloc (name ++ NUL :: (val ++ [NUL]))).1.block c.block none,
          s.mem.next + 1⟩,
        Function.update s.store i (MetaStore.ptrs (l₁ ++ ⟨s.mem.next,name,val⟩ :: l₂))⟩
      (Function.update cells i (l₁ ++ ⟨s.mem.next,name,val⟩ :: l₂)) := by
  have honce := h.once i
  rw [hl,List.map_append,List.map_cons,List.nodup_append,List.nodup_cons] at honce
  obtain ⟨h₁,⟨hc₂,h₂⟩,h₁₂⟩ := honce
  have hcm : c ∈ cells i := by
    rw [hl]
    simp
  have hclt : c.block < s.mem.next := (h.mem i c hcm).lt
  have hother {d : Cell} (hd : d ∈ l₁ ∨ d ∈ l₂) : d ∈ cells i ∧ d.block ≠ c.block := by
    rw [hl]
    rcases hd with hd | hd
    · refine ⟨by simp [hd],?_⟩
      exact h₁₂ d.block (List.mem_map_of_mem hd) c.block List.mem_cons_self
    · refine ⟨by simp [hd],fun hb => hc₂ ?_⟩
      rw [← hb]
      exact List.mem_map_of_mem hd
  have hin {d : Cell} (hd : d ∈ l₁ ++ ⟨s.mem.next,name,val⟩ :: l₂) :
      d = ⟨s.mem.next,name,val⟩ ∨ d ∈ l₁ ∨ d ∈ l₂ := by
    rcases List.mem_append.mp hd with hd | hd
    · exact .inr (.inl hd)
    · exact (List.mem_cons.mp hd).imp_right .inr
  refine h.change (fun d hd => ?_) ?_ (fun d hd => ?_) (Nat.le_succ _) fun j hj d hd => ?_
  · rcases hin hd with rfl | hd
    · exact (inMem_new s.mem hname hval hne).free (Nat.ne_of_gt hclt)
    · obtain ⟨hmem,hb⟩ := hother hd
      exact ((h.mem i d hmem).alloc _).free hb
  · have hfresh {d : Cell} (hd : d ∈ l₁ ∨ d ∈ l₂) : d.block ≠ s.mem.next :=
      Nat.ne_of_lt (h.mem i d (hother hd).1).lt
    rw [List.map_append,List.map_cons,List.nodup_append,List.nodup_cons]
    refine ⟨h₁,⟨fun hb => ?_,h₂⟩,fun b hb b' hb' => ?_⟩
    · obtain ⟨d,hd,hbd⟩ := List.mem_map.mp hb
      exact hfresh (.inr hd) hbd
    · obtain ⟨d,hd,rfl⟩ := List.mem_map.mp hb
      rcases List.mem_cons.mp hb' with rfl | hb'
      · exact hfresh (.inl hd)
      · exact h₁₂ d.block hb b' (List.mem_cons_of_mem _ hb')
  · rcases hin hd with rfl | hd
    · exact .inr (Nat.le_refl _)
    · exact .inl (hother hd).1
  · have hb : d.block ≠ c.block := fun hb => hj (h.apart j i d hd c hcm hb)
    have hnext : d.block ≠ s.mem.next := Nat.ne_of_lt (h.mem j d hd).lt
    exact (Function.update_of_ne hb _ _).trans (Function.update_of_ne hnext _ _)

/-- `meta_set()` with a name does what the multimap does. -/
theorem Holds.set (h : Holds s cells) (i : Nat) (repl : Bool) (hname : NUL ∉ name)
    (hval : NUL ∉ val) :
    ∃ m' l', meta_set s.mem (s.store i) name val repl = some (m',MetaStore.ptrs l') ∧
      Holds ⟨m',Function.update s.store i (MetaStore.ptrs l')⟩ (Function.update cells i l') ∧
      l'.map Cell.pair = set_pair ((cells i).map Cell.pair) name val repl := by
  by_cases hne : name = []
  · refine ⟨s.mem,cells i,?_,?_,?_⟩
    · rw [meta_set,if_pos hne,h.ptrs i]
    · rw [← h.ptrs i,Function.update_eq_self,Function.update_eq_self]
      exact h
    · rw [set_pair,if_pos hne]
  have hpush := h.push i hname hval hne
  have hpushed : s.store i ++ [⟨s.mem.next,0⟩,⟨s.mem.next,name.length + 1⟩] =
      MetaStore.ptrs (cells i ++ [⟨s.mem.next,name,val⟩]) := by
    rw [ptrs_append,h.ptrs i]
    rfl
  rw [meta_set,if_neg hne,set_pair,if_neg hne]
  cases repl with
  | false =>
    refine ⟨_,_,?_,hpush,?_⟩
    · rw [← hpushed]
      rfl
    · rw [List.map_append]
      rfl
  | true =>
    have hmem (c : Cell) (hc : c ∈ cells i) := (h.mem i c hc).alloc (name ++ NUL :: (val ++ [NUL]))
    have hrep := @replace_ptrs _ _ name hmem ⟨s.mem.next,0⟩
    rw [← h.ptrs i] at hrep
    rcases hrep with ⟨hno,heq⟩ | ⟨l₁,c,l₂,hl,hc,hno,heq⟩
    · refine ⟨_,_,?_,hpush,?_⟩
      · rw [← hpushed]
        simp only [if_true,Mem.alloc] at heq ⊢
        rw [heq]
        rfl
      · have hput : MetaStore.put name val ((cells i).map Cell.pair) = _ :=
          put_absent fun p hp => by
            obtain ⟨c,hc,rfl⟩ := List.mem_map.mp hp
            exact hno c hc
        rw [if_pos rfl,hput,List.map_append]
        rfl
    · refine ⟨_,_,?_,h.put hl hname hval hne,?_⟩
      · simp only [if_true,Mem.alloc] at heq ⊢
        rw [heq,ptrs_append]
        rfl
      · rw [if_pos rfl,hl,List.map_append,List.map_append,List.map_cons,List.map_cons]
        have hfirst := @put_first name val (l₁.map Cell.pair) (l₂.map Cell.pair) c.val
          fun p hp => by
            obtain ⟨d,hd,rfl⟩ := List.mem_map.mp hp
            exact hno d hd
        have hpair : c.pair = (name,c.val) := by rw [Cell.pair,hc]
        rw [hpair,hfirst]
        rfl

/-- `meta_copy()` of pairs of another store. -/
theorem Holds.copy (h : Holds s cells) {dst src : Nat} (hne : dst ≠ src) (l : List Cell)
    (hl : ∀ c ∈ l, c ∈ cells src) :
    ∃ m' d, meta_copy s.mem (s.store dst) (MetaStore.ptrs l) = some (m',MetaStore.ptrs d) ∧
      Holds ⟨m',Function.update s.store dst (MetaStore.ptrs d)⟩ (Function.update cells dst d) ∧
      d.map Cell.pair = (cells dst).map Cell.pair ++ l.map Cell.pair := by
  induction l generalizing s cells with
  | nil =>
    refine ⟨s.mem,cells dst,?_,?_,by simp⟩
    · rw [h.ptrs dst]
      rfl
    · rw [← h.ptrs dst,Function.update_eq_self,Function.update_eq_self]
      exact h
  | cons c l ih =>
    have hc := h.mem src c (hl c List.mem_cons_self)
    obtain ⟨m₁,d₁,hset,h₁,hd₁⟩ := h.set dst false hc.name hc.val
    have hsrc (x : Cell) (hx : x ∈ l) : x ∈ Function.update cells dst d₁ src := by
      rw [Function.update_of_ne (Ne.symm hne)]
      exact hl x (List.mem_cons_of_mem c hx)
    obtain ⟨m₂,d₂,hcopy,h₂,hd₂⟩ := ih h₁ hsrc
    dsimp only at hcopy
    rw [Function.update_self] at hcopy hd₂
    refine ⟨m₂,d₂,?_,?_,?_⟩
    · rw [ptrs_cons,meta_copy,hc.str_name,hc.str_val]
      simp only [Option.bind_eq_bind,Option.bind_some,hset]
      exact hcopy
    · rw [Function.update_idem,Function.update_idem] at h₂
      exact h₂
    · rw [hd₂,hd₁,set_pair,if_neg hc.named]
      simp [Cell.pair]

/-- `meta_destroy()` frees the blocks of the pairs, and no others. -/
theorem meta_destroy_ptrs (h : ∀ c ∈ l, InMem m c) (hn : (l.map Cell.block).Nodup) :
    ∃ m', meta_destroy m (ptrs l) = some m' ∧ m'.next = m.next ∧
      ∀ b, b ∉ l.map Cell.block → m'.block b = m.block b := by
  induction l generalizing m with
  | nil => exact ⟨m,rfl,rfl,fun _ _ => rfl⟩
  | cons c l ih =>
    rw [List.map_cons,List.nodup_cons] at hn
    have hc := h c List.mem_cons_self
    have hfree : m.free ⟨c.block,0⟩ = some ⟨Function.update m.block c.block none,m.next⟩ := by
      simp [Mem.free,hc.block]
    have hrest (d : Cell) (hd : d ∈ l) : InMem ⟨Function.update m.block c.block none,m.next⟩ d := by
      refine (h d (List.mem_cons_of_mem c hd)).free fun hb => hn.1 ?_
      rw [← hb]
      exact List.mem_map_of_mem hd
    obtain ⟨m',hm',hnext,hblock⟩ := ih hrest hn.2
    refine ⟨m',?_,hnext,fun b hb => ?_⟩
    · rw [ptrs_cons,meta_destroy,hfree]
      exact hm'
    · rw [List.map_cons,List.mem_cons,not_or] at hb
      rw [hblock b hb.2]
      exact Function.update_of_ne hb.1 _ _

/-! ## The stores refine multimaps -/

def Denotes (s : Stores) (a : Nat → Pairs) : Prop :=
  ∃ cells, Holds s cells ∧ ∀ i, a i = (cells i).map Cell.pair

variable {a a' : Nat → Pairs}

theorem denotes_update (h : Holds ⟨m',Function.update s.store i (ptrs l)⟩ (Function.update cells i l))
    (ha : ∀ j, a j = (cells j).map Cell.pair) {p : Pairs} (hp : p = l.map Cell.pair) :
    Denotes ⟨m',Function.update s.store i (ptrs l)⟩ (Function.update a i p) := by
  refine ⟨_,h,fun j => ?_⟩
  by_cases hj : j = i
  · subst hj
    rw [Function.update_self,Function.update_self]
    exact hp
  · rw [Function.update_of_ne hj,Function.update_of_ne hj]
    exact ha j

/-- The value of an operation is what it is in the multimap, and has no NUL. -/
theorem Holds.value (h : Holds s cells) (ha : ∀ j, a j = (cells j).map Cell.pair) {o : Val}
    (hv : value a o = some val) (hclean : ∀ t, o = .text t → NUL ∉ t) :
    s.val o = some val ∧ NUL ∉ val := by
  cases o with
  | text t =>
    obtain rfl := Option.some.inj hv
    exact ⟨rfl,hclean t rfl⟩
  | stored i k =>
    obtain ⟨p,hp,rfl⟩ := Option.map_eq_some_iff.mp hv
    rw [ha i,List.getElem?_map] at hp
    obtain ⟨c,hc,rfl⟩ := Option.map_eq_some_iff.mp hp
    have hin := h.mem i c (List.mem_of_getElem? hc)
    refine ⟨?_,hin.val⟩
    simp only [Stores.val,h.ptrs i,ptrs_val,hc,Option.map_some,Option.bind_eq_bind,Option.bind_some]
    exact hin.str_val

theorem step_denotes {o : Op} (h : Denotes s a) (hclean : o.clean) (hs : spec_step a o = some a') :
    ∃ s', step s o = some s' ∧ Denotes s' a' := by
  obtain ⟨cells,h,ha⟩ := h
  cases o with
  | set i name v repl =>
    obtain ⟨val,hv,rfl⟩ := Option.map_eq_some_iff.mp hs
    have hname : NUL ∉ name := by
      cases v with
      | text t => exact hclean.1
      | stored j k => exact hclean
    obtain ⟨hval,hclear⟩ := h.value ha hv fun t ht => by
      subst ht
      exact hclean.2
    obtain ⟨m',l',hset,hnew,hpairs⟩ := h.set i repl hname hclear
    refine ⟨⟨m',Function.update s.store i (ptrs l')⟩,?_,denotes_update hnew ha ?_⟩
    · simp only [step,hval,Option.bind_eq_bind,Option.bind_some,hset]
      rfl
    · rw [ha i,hpairs]
  | copy dst src =>
    dsimp only [spec_step] at hs
    split at hs
    · cases hs
    · rename_i hne
      obtain rfl := Option.some.inj hs
      obtain ⟨m',d,hcopy,hnew,hpairs⟩ := h.copy hne (cells src) fun c hc => hc
      rw [← h.ptrs src] at hcopy
      refine ⟨⟨m',Function.update s.store dst (ptrs d)⟩,?_,denotes_update hnew ha ?_⟩
      · simp only [step,if_neg hne,hcopy,Option.bind_eq_bind,Option.bind_some]
        rfl
      · rw [ha dst,ha src,hpairs]
  | destroy i =>
    obtain rfl := Option.some.inj hs
    obtain ⟨m',hdes,hnext,hblock⟩ := meta_destroy_ptrs (h.mem i) (h.once i)
    rw [← h.ptrs i] at hdes
    have hnew : Holds ⟨m',Function.update s.store i (ptrs [])⟩ (Function.update cells i []) := by
      refine h.change nofun List.nodup_nil nofun (Nat.le_of_eq hnext.symm) fun j hj c hc =>
        hblock c.block fun hb => ?_
      obtain ⟨d,hd,hbd⟩ := List.mem_map.mp hb
      exact hj (h.apart j i c hc d hd hbd.symm)
    refine ⟨⟨m',Function.update s.store i []⟩,?_,denotes_update hnew ha rfl⟩
    simp only [step,hdes,Option.bind_eq_bind,Option.bind_some]
    rfl

theorem run_denotes {ops : List Op} (h : Denotes s a) (hclean : ∀ o ∈ ops, o.clean)
    (hs : ops.foldlM spec_step a = some a') :
    ∃ s', ops.foldlM step s = some s' ∧ Denotes s' a' := by
  induction ops generalizing s a with
  | nil =>
    obtain rfl := Option.some.inj hs
    exact ⟨s,rfl,h⟩
  | cons o ops ih =>
    rw [List.foldlM_cons] at hs
    obtain ⟨b,hb,hrest⟩ := Option.bind_eq_some_iff.mp hs
    obtain ⟨s₁,hs₁,h₁⟩ := step_denotes h (hclean o List.mem_cons_self) hb
    obtain ⟨s₂,hs₂,h₂⟩ := ih h₁ (fun o' ho => hclean o' (List.mem_cons_of_mem o ho)) hrest
    refine ⟨s₂,?_,h₂⟩
    rw [List.foldlM_cons,hs₁]
    exact hs₂

theorem denotes_init : Denotes init fun _ => [] :=
  ⟨fun _ => [],⟨fun _ => rfl,nofun,fun _ => List.nodup_nil,nofun⟩,fun _ => rfl⟩

/-! ## Listing -/

theorem scan_ptrs {l₁ l₂ : List Cell} (h : ∀ d ∈ l₁ ++ c :: l₂, InMem m d)
    (hb : ∀ d ∈ l₁, d.block ≠ c.block) :
    scan m ⟨c.block,0⟩ name (ptrs (l₁ ++ c :: l₂)) = some (l₁.any fun d => ieq name d.name) := by
  induction l₁ with
  | nil =>
    rw [List.nil_append,ptrs_cons,scan,if_pos rfl]
    rfl
  | cons d l₁ ih =>
    have hd := h d List.mem_cons_self
    have hne : (⟨c.block,0⟩ : Ptr) ≠ ⟨d.block,0⟩ := fun heq =>
      hb d List.mem_cons_self (Ptr.mk.inj heq).1.symm
    rw [List.cons_append,ptrs_cons,scan,if_neg hne,hd.str_name]
    simp only [Option.bind_eq_bind,Option.bind_some,List.any_cons]
    cases ieq name d.name with
    | true => rfl
    | false =>
      exact ih (fun x hx => h x (List.mem_cons_of_mem d hx))
        fun x hx => hb x (List.mem_cons_of_mem d hx)

theorem shown_pairs {k : Nat} (hc : l[k]? = some c) : shown flags (l.map Cell.pair) k =
    (!hidden flags c.name && !(flags.unique && (l.take k).any fun d => ieq c.name d.name)) := by
  simp only [shown,List.getElem?_map,hc,Option.map_some,Cell.pair,← List.map_take,List.any_map]
  rfl

/-- The answer of `meta_list()` from counter `i` on. -/
def answer (flags : Flags) (pairs : Pairs) (i : Nat) : Listed :=
  match (List.range' i (pairs.length - i)).find? (shown flags pairs) with
  | none => .done
  | some k =>
    match pairs[k]? with
    | none => .done
    | some p => .pair (k + 1) p.1 p.2

theorem range'_step {i n : Nat} (h : i < n) :
    List.range' i (n - i) = i :: List.range' (i + 1) (n - (i + 1)) := by
  have hn : n - i = n - (i + 1) + 1 := by omega
  rw [hn,List.range'_succ]

theorem answer_skip {pairs : Pairs} (hi : i < pairs.length) (hs : shown flags pairs i = false) :
    answer flags pairs i = answer flags pairs (i + 1) := by
  rw [answer,range'_step hi,List.find?_cons_of_neg (by simp [hs])]
  rfl

theorem answer_shown {pairs : Pairs} {p : Name × Name} (hp : pairs[i]? = some p)
    (hs : shown flags pairs i = true) : answer flags pairs i = .pair (i + 1) p.1 p.2 := by
  have hi := (List.getElem?_eq_some_iff.mp hp).1
  rw [answer,range'_step hi,List.find?_cons_of_pos hs]
  dsimp only
  rw [hp]

/-- With fewer than 2^31 pairs the counter does not wrap, and the loop ends. -/
theorem list_loop_ptrs (h : ∀ c ∈ l, InMem m c) (hn : (l.map Cell.block).Nodup)
    (hlen : l.length < 2 ^ 31) (fuel i : Nat) (hi : i ≤ l.length) (hf : l.length - i < fuel) :
    list_loop m (ptrs l) flags fuel i = some (answer flags (l.map Cell.pair) i) := by
  induction fuel generalizing i with
  | zero => omega
  | succ fuel ih =>
    have hpos : i * 2 % 2 ^ 32 = 2 * i := by omega
    have hnext : (i + 1) % 2 ^ 32 = i + 1 := by omega
    rw [list_loop,hpos,hnext,ptrs_length]
    by_cases hend : i = l.length
    · subst hend
      rw [if_pos rfl]
      simp [answer]
    rw [if_neg (by omega),ptrs_name,ptrs_val]
    have hlt : i < l.length := by omega
    obtain ⟨c,hc⟩ : ∃ c, l[i]? = some c := ⟨l[i],List.getElem?_eq_getElem hlt⟩
    have hin := h c (List.mem_of_getElem? hc)
    have hpair : (l.map Cell.pair)[i]? = some c.pair := by rw [List.getElem?_map,hc]; rfl
    have hrest := ih (i + 1) (by omega) (by omega)
    have hskip (hs : shown flags (l.map Cell.pair) i = false) :
        list_loop m (ptrs l) flags fuel (i + 1) = some (answer flags (l.map Cell.pair) i) := by
      rw [hrest,answer_skip (by simpa using hlt) hs]
    have hshow := @shown_pairs _ _ flags _ hc
    simp only [hc,Option.map_some,Option.bind_eq_bind,Option.bind_some,hin.str_name,hin.str_val]
    cases hhid : hidden flags c.name with
    | true =>
      rw [if_pos rfl]
      exact hskip (by rw [hshow,hhid]; rfl)
    | false =>
      rw [if_neg (by simp)]
      have hscan : scan m ⟨c.block,0⟩ c.name (ptrs l) =
          some ((l.take i).any fun d => ieq c.name d.name) := by
        have hsplit : l = l.take i ++ c :: l.drop (i + 1) := by
          have hcons := List.drop_eq_getElem_cons hlt
          rw [(List.getElem?_eq_some_iff.mp hc).2] at hcons
          rw [← hcons,List.take_append_drop]
        rw [hsplit,List.map_append,List.map_cons,List.nodup_append] at hn
        have hbefore (d : Cell) (hd : d ∈ l.take i) : d.block ≠ c.block :=
          hn.2.2 d.block (List.mem_map_of_mem hd) c.block List.mem_cons_self
        have hall : ∀ d ∈ l.take i ++ c :: l.drop (i + 1), InMem m d := by
          rw [← hsplit]
          exact h
        have hs := @scan_ptrs _ _ c.name _ _ hall hbefore
        rw [← hsplit] at hs
        exact hs
      rw [hhid] at hshow
      cases hu : flags.unique with
      | false =>
        rw [hu] at hshow
        rw [if_neg (by simp),if_neg (by simp),answer_shown hpair hshow]
        rfl
      | true =>
        rw [hu] at hshow
        rw [if_pos rfl,hscan,Option.bind_some]
        cases hrep : (l.take i).any fun d => ieq c.name d.name with
        | true =>
          rw [if_pos rfl]
          exact hskip (by rw [hshow,hrep]; rfl)
        | false =>
          rw [if_neg (by simp),answer_shown hpair (by rw [hshow,hrep]; rfl)]
          rfl

/-- The pairs that are listed from counter `i` on. -/
def listed_from (flags : Flags) (pairs : Pairs) (i : Nat) : Pairs :=
  ((List.range' i (pairs.length - i)).filter (shown flags pairs)).filterMap fun k => pairs[k]?

theorem listed_from_zero (flags : Flags) (pairs : Pairs) :
    listed_from flags pairs 0 = listed flags pairs := by
  rw [listed_from,listed,List.range_eq_range',Nat.sub_zero]

/-- A call answers with the first of the pairs that are listed, and the counter goes behind it. -/
theorem answer_cases (flags : Flags) (pairs : Pairs) (i : Nat) (hi : i ≤ pairs.length) :
    (answer flags pairs i = .done ∧ listed_from flags pairs i = []) ∨
    ∃ k p, i ≤ k ∧ k < pairs.length ∧ answer flags pairs i = .pair (k + 1) p.1 p.2 ∧
      listed_from flags pairs i = p :: listed_from flags pairs (k + 1) := by
  induction hn : pairs.length - i generalizing i with
  | zero =>
    have hend : pairs.length - i = 0 := hn
    exact .inl ⟨by simp [answer,hend],by simp [listed_from,hend]⟩
  | succ n ih =>
    have hlt : i < pairs.length := by omega
    cases hs : shown flags pairs i with
    | true =>
      have hp : pairs[i]? = some pairs[i] := List.getElem?_eq_getElem hlt
      refine .inr ⟨i,pairs[i],Nat.le_refl i,hlt,answer_shown hp hs,?_⟩
      rw [listed_from,range'_step hlt,List.filter_cons_of_pos hs,List.filterMap_cons_some hp]
      rfl
    | false =>
      have hfrom : listed_from flags pairs i = listed_from flags pairs (i + 1) := by
        rw [listed_from,range'_step hlt,List.filter_cons_of_neg (by simp [hs])]
        rfl
      rw [answer_skip hlt hs,hfrom]
      refine (ih (i + 1) hlt (by omega)).imp_right ?_
      rintro ⟨k,p,hik,hrest⟩
      exact ⟨k,p,by omega,hrest⟩

section Listing

variable (h : ∀ c ∈ l, InMem m c) (hn : (l.map Cell.block).Nodup) (hlen : l.length < 2 ^ 31)
include h hn hlen

theorem meta_list_ptrs (flags : Flags) (i : Nat) (hi : i ≤ l.length) :
    meta_list m (ptrs l) flags i = some (answer flags (l.map Cell.pair) i) :=
  list_loop_ptrs h hn hlen _ i hi (by rw [ptrs_length]; omega)

theorem list_from_ptrs (flags : Flags) (fuel i : Nat) (hi : i ≤ l.length)
    (hf : l.length - i < fuel) :
    list_from m (ptrs l) flags fuel i = some (listed_from flags (l.map Cell.pair) i) := by
  induction fuel generalizing i with
  | zero => omega
  | succ fuel ih =>
    rw [list_from,meta_list_ptrs h hn hlen flags i hi]
    simp only [Option.bind_eq_bind,Option.bind_some]
    rcases answer_cases flags (l.map Cell.pair) i (by simpa using hi) with
      ⟨hans,hfrom⟩ | ⟨k,p,hik,hk,hans,hfrom⟩
    · rw [hans,hfrom]
      rfl
    · rw [List.length_map] at hk
      rw [hans,hfrom]
      dsimp only
      rw [ih (k + 1) hk (by omega)]
      rfl

theorem find_loop_ptrs (flags : Flags) (name : Name) (fuel i : Nat) (hi : i ≤ l.length)
    (hf : l.length - i < fuel) : find_loop m (ptrs l) name flags fuel i =
      some (((listed_from flags (l.map Cell.pair) i).find? fun p => p.1 = name).map Prod.snd) := by
  induction fuel generalizing i with
  | zero => omega
  | succ fuel ih =>
    rw [find_loop,meta_list_ptrs h hn hlen flags i hi]
    simp only [Option.bind_eq_bind,Option.bind_some]
    rcases answer_cases flags (l.map Cell.pair) i (by simpa using hi) with
      ⟨hans,hfrom⟩ | ⟨k,p,hik,hk,hans,hfrom⟩
    · rw [hans,hfrom]
      rfl
    · rw [List.length_map] at hk
      rw [hans,hfrom]
      dsimp only
      by_cases hp : p.1 = name
      · rw [if_pos hp,List.find?_cons_of_pos (by simpa using hp)]
        rfl
      · rw [if_neg hp,List.find?_cons_of_neg (by simpa using hp)]
        exact ih (k + 1) hk (by omega)

end Listing

theorem Denotes.denote_eq (h : Denotes s a) (i : Nat) :
    denote s.mem (s.store i) = some (a i) := by
  obtain ⟨cells,h,ha⟩ := h
  rw [h.ptrs i,ha i]
  exact denote_ptrs (h.mem i)

theorem Denotes.lists (h : Denotes s a) {i : Nat} (hlen : (a i).length < 2 ^ 31) (flags : Flags) :
    list_all s.mem (s.store i) flags = some (listed flags (a i)) ∧
      ∀ name, meta_find s.mem (s.store i) name flags =
        some (((listed flags (a i)).find? fun p => p.1 = name).map Prod.snd) := by
  obtain ⟨cells,h,ha⟩ := h
  rw [ha i,List.length_map] at hlen
  rw [h.ptrs i,ha i,← listed_from_zero]
  exact ⟨list_from_ptrs (h.mem i) (h.once i) hlen flags _ 0 (Nat.zero_le _)
      (by rw [ptrs_length]; omega),
    fun name => find_loop_ptrs (h.mem i) (h.once i) hlen flags name _ 0 (Nat.zero_le _)
      (by rw [ptrs_length]; omega)⟩

/-- After any sets, copies and destructions each store denotes its multimap; with fewer than 2^31
pairs, its listing is that of the multimap, and a search finds the first listed pair of the name. -/
theorem store_refines (ops : List Op) (a : Nat → Pairs) (hclean : ∀ o ∈ ops, o.clean)
    (hspec : ops.foldlM spec_step (fun _ => []) = some a) :
    ∃ s, ops.foldlM step init = some s ∧ ∀ i, denote s.mem (s.store i) = some (a i) ∧
      ((a i).length < 2 ^ 31 → ∀ flags,
        list_all s.mem (s.store i) flags = some (listed flags (a i)) ∧
        ∀ name, meta_find s.mem (s.store i) name flags =
          some (((listed flags (a i)).find? fun p => p.1 = name).map Prod.snd)) := by
  obtain ⟨s,hrun,h⟩ := run_denotes denotes_init hclean hspec
  exact ⟨s,hrun,fun i => ⟨h.denote_eq i,h.lists⟩⟩

/-- A title is set, its value is given to another name, and it is replaced; then all is copied. -/
def tagged : List Op :=
  [.set 0 "title".toList (.text "A".toList) false,.set 0 "_phi_info".toList (.stored 0 0) true,
    .set 0 "title".toList (.text "B".toList) true,.set 0 "TITLE".toList (.stored 0 0) false,
    .copy 1 0,.destroy 0]

theorem store_refines_tagged :
    ∃ s, tagged.foldlM step init = some s ∧
      denote s.mem (s.store 1) = some [("title".toList,"B".toList),
        ("_phi_info".toList,"A".toList),("TITLE".toList,"B".toList)] ∧
      list_all s.mem (s.store 1) ⟨true,false⟩ = some [("title".toList,"B".toList)] := by
  obtain ⟨s,hs,h⟩ := store_refines tagged _ (by decide) rfl
  obtain ⟨hdenote,hlist⟩ := h 1
  refine ⟨s,hs,hdenote,?_⟩
  rw [((hlist (by decide)) ⟨true,false⟩).1]
  decide

theorem spec_replicate (a : Nat → Pairs) (name val : Name) (hname : name ≠ []) (n : Nat) :
    (List.replicate n (Op.set 0 name (.text val) false)).foldlM spec_step a =
      some (Function.update a 0 (a 0 ++ List.replicate n (name,val))) := by
  induction n generalizing a with
  | zero => simp
  | succ n ih =>
    rw [List.replicate_succ,List.foldlM_cons]
    simp only [spec_step,value,Option.map_some,Option.bind_eq_bind,Option.bind_some]
    rw [ih,Function.update_idem,Function.update_self,set_pair,if_neg hname,List.replicate_succ]
    simp

/-- The counter of 2^31 pairs that have all been listed stands for the first pair again. -/
theorem list_wraps (h : ∀ d ∈ l, InMem m d) {n : Nat} (hn : n + 1 = 2 ^ 31)
    (hl : l.map Cell.pair = List.replicate (n + 1) (name,val)) :
    meta_list m (ptrs l) ⟨false,true⟩ (n + 1) = some (.pair ((n + 2) % 2 ^ 32) name val) := by
  cases l with
  | nil => cases hl
  | cons d l =>
    have hd := h d List.mem_cons_self
    rw [List.map_cons,List.replicate_succ,List.cons.injEq] at hl
    have hpos : (n + 1) * 2 % 2 ^ 32 = 0 := by omega
    obtain ⟨rfl,rfl⟩ : d.name = name ∧ d.val = val := by simpa [Cell.pair] using hl.1
    rw [meta_list,list_loop,hpos,if_neg (by rw [ptrs_length]; simp),ptrs_cons]
    simp only [List.getElem?_cons_zero,List.getElem?_cons_succ,Nat.zero_add,Option.bind_eq_bind,
      Option.bind_some,hd.str_name,hd.str_val]
    rfl

/-- A pair with no name is not appended; and when 2^31 pairs have been listed, the next call lists the
first one again. -/
theorem set_ignored_and_list_wraps :
    (∃ s, [Op.set 0 [] (.text "A".toList) false].foldlM step init = some s ∧
      denote s.mem (s.store 0) ≠ some [([],"A".toList)]) ∧
    ∃ s, (List.replicate (2 ^ 31) (Op.set 0 "A".toList (.text "B".toList) false)).foldlM step init =
        some s ∧
      denote s.mem (s.store 0) = some (List.replicate (2 ^ 31) ("A".toList,"B".toList)) ∧
      ∃ i, meta_list s.mem (s.store 0) ⟨false,true⟩ (2 ^ 31) =
        some (.pair i "A".toList "B".toList) := by
  refine ⟨⟨_,rfl,by decide⟩,?_⟩
  have hclean : ∀ o ∈ List.replicate (2 ^ 31) (Op.set 0 "A".toList (.text "B".toList) false),
      o.clean := by
    intro o ho
    obtain rfl := List.eq_of_mem_replicate ho
    decide
  obtain ⟨s,hs,cells,h,ha⟩ := run_denotes denotes_init hclean
    (spec_replicate (fun _ => []) "A".toList "B".toList (by decide) (2 ^ 31))
  have hpairs := (ha 0).symm
  rw [Function.update_self,List.nil_append] at hpairs
  refine ⟨s,hs,?_,2 ^ 31 + 1,?_⟩
  · rw [h.ptrs 0,denote_ptrs (h.mem 0),hpairs]
  · rw [h.ptrs 0]
    exact list_wraps (n := 2 ^ 31 - 1) (h.mem 0) (by omega) hpairs

end Phiola.MetaStore
