import Mathlib.Data.List.Basic
import Mathlib.Data.List.Nodup
import Mathlib.Logic.Relation
import Phiola.Framework.Fuel

/-!
# Trees of file names

A tree has blocks of entries, and an entry may have a block of its own. An entry is named by its block and
its index there.
-/

namespace Phiola.FnTree

open Fuel

/-! ## Trees -/

/-- The entries of a block: a file, or a directory with its block. -/
inductive Ents (B : Type)
  | nil
  | file (rest : Ents B)
  | dir (b : B) (sub rest : Ents B)

variable {B : Type}

/-- The blocks below, each after those below it. -/
def Ents.post : Ents B → List B
  | .nil => []
  | .file rest => rest.post
  | .dir b sub rest => sub.post ++ b :: rest.post

/-- The number of blocks on the longest way down. -/
def Ents.depth : Ents B → Nat
  | .nil => 0
  | .file rest => rest.depth
  | .dir _ sub rest => max (sub.depth + 1) rest.depth

/-- Block `b` has these entries from index `k` on; `len` is `entries`, and `child` is `children`. -/
def Shape (len : B → Nat) (child : B × Nat → Option B) (b : B) : Nat → Ents B → Prop
  | k,.nil => len b = k
  | k,.file rest => child (b,k) = none ∧ Shape len child b (k + 1) rest
  | k,.dir b' sub rest => child (b,k) = some b' ∧ Shape len child b' 0 sub ∧ Shape len child b (k + 1) rest

/-- Block `x` is attached to an entry of block `y`. -/
def Child (len : B → Nat) (child : B × Nat → Option B) (x y : B) : Prop :=
  ∃ k < len y, child (y,k) = some x

/-! ## The cursor -/

/-- A pointer to a block, or the value that stands for the way back. -/
inductive Curblock (B : Type)
  | null
  | block (b : B)
  | back

/-- `struct fntree_cursor`: the stack has blocks with their current entries. -/
structure Cursor (B : Type) where
  cur : Option (B × Nat)
  curblock : Curblock B
  stk : List (B × B × Nat)

/-- `FF_COUNT(c->block_stk)` -/
def max_depth : Nat := 64

/-- The entry that `fntree_cur_next()` looks at. -/
def ent_next (cur : Option (B × Nat)) (b : B) : B × Nat :=
  match cur with
  | none => (b,0)
  | some e => (e.1,e.2 + 1)

/-- The current entry before index `k`. -/
def place (b : B) (k : Nat) : Option (B × Nat) := if k = 0 then none else some (b,k - 1)

@[simp] theorem ent_next_place (b : B) (k : Nat) : ent_next (place b k) b = (b,k) := by
  cases k <;> rfl

variable [DecidableEq B]

def fntree_cur_next (len : B → Nat) (cur : Option (B × Nat)) (b : B) : Option (B × Nat) :=
  if ent_next cur b = (b,len b) then none else some (ent_next cur b)

variable {len : B → Nat} {child : B × Nat → Option B} {b : B} {k : Nat} {es : Ents B}

omit [DecidableEq B] in
theorem Shape.le (h : Shape len child b k es) : k ≤ len b := by
  induction es generalizing k with
  | nil => exact Nat.le_of_eq h.symm
  | file rest ih => exact Nat.le_of_succ_le (ih h.2)
  | dir b' sub rest _ ih => exact Nat.le_of_succ_le (ih h.2.2)

theorem next_end : fntree_cur_next len (place b (len b)) b = none := by
  rw [fntree_cur_next,ent_next_place,if_pos rfl]

theorem next_some (h : k < len b) : fntree_cur_next len (place b k) b = some (b,k) := by
  rw [fntree_cur_next,ent_next_place,if_neg fun h' => Nat.ne_of_lt h (Prod.mk.inj h').2]

/-! ## Freeing -/

inductive Pc (B : Type)
  | call (root : Option B)
  | scan (b : B)

structure Walk (B : Type) where
  c : Cursor B
  pc : Pc B
  freed : List B

/-- A round of `fntree_free_all()`, or of the loop of `_fntr_blk_next_r_post()` that it calls. The result is
`none` when a block is read or freed that is no more there. -/
def free_step (len : B → Nat) (child : B × Nat → Option B) (w : Walk B) : Walk B ⊕ Option (List B) :=
  match w.pc with
  | .call root =>
    match w.c.curblock with
    | .null =>
      match root with
      | none => .inr none
      | some b => .inl {w with c := {w.c with curblock := .block b}, pc := .scan b}
    | .block b => .inl {w with pc := .scan b}
    | .back =>
      -- `_fntr_cur_pop()`
      match w.c.stk with
      | [] => .inr (some w.freed)
      | (b,e) :: stk => .inl {w with c := ⟨some e,.block b,stk⟩, pc := .scan b}
  | .scan b =>
    if b ∈ w.freed ∨ (ent_next w.c.cur b).1 ∈ w.freed then .inr none
    else
      match fntree_cur_next len w.c.cur b with
      | some e =>
        match child e with
        | none => .inl {w with c := {w.c with cur := some e}}
        | some b' =>
          -- `_fntr_cur_push()`; without room there is no next block, and the loop is left
          if w.c.stk.length = max_depth then .inr (some w.freed)
          else .inl {w with c := ⟨none,.block b',(b,e) :: w.c.stk⟩, pc := .scan b'}
      | none =>
        match w.c.curblock with
        | .block b' =>
          if b' ∈ w.freed then .inr none
          else .inl ⟨{w.c with curblock := .back},.call none,w.freed ++ [b']⟩
        | _ => .inr none

def fntree_free_all (root : B) : Walk B := ⟨⟨none,.null,[]⟩,.call (some root),[]⟩

variable {stk : List (B × B × Nat)} {freed : List B}

theorem free_file (stk : List (B × B × Nat)) (hk : k < len b) (hb : b ∉ freed) (hchild : child (b,k) = none) :
    free_step len child ⟨⟨place b k,.block b,stk⟩,.scan b,freed⟩ =
      .inl ⟨⟨place b (k + 1),.block b,stk⟩,.scan b,freed⟩ := by
  simp only [free_step,ent_next_place,hb,or_self,if_false,next_some hk,hchild]
  rfl

theorem free_dir {b' : B} (stk : List (B × B × Nat)) (hk : k < len b) (hb : b ∉ freed) (hchild : child (b,k) = some b') :
    free_step len child ⟨⟨place b k,.block b,stk⟩,.scan b,freed⟩ =
      if stk.length = max_depth then .inr (some freed)
      else .inl ⟨⟨place b' 0,.block b',(b,b,k) :: stk⟩,.scan b',freed⟩ := by
  simp only [free_step,ent_next_place,hb,or_self,if_false,next_some hk,hchild]
  rfl

theorem free_end (hb : b ∉ freed) :
    free_step len child ⟨⟨place b (len b),.block b,stk⟩,.scan b,freed⟩ =
      .inl ⟨⟨place b (len b),.back,stk⟩,.call none,freed ++ [b]⟩ := by
  simp only [free_step,ent_next_place,hb,or_self,if_false,next_end]

theorem free_pop {b' : B} {cur : Option (B × Nat)} :
    free_step len child ⟨⟨cur,.back,(b',b',k) :: stk⟩,.call none,freed⟩ =
      .inl ⟨⟨place b' (k + 1),.block b',stk⟩,.scan b',freed⟩ := rfl

/-- The blocks below the entries from `k` on are freed, and the walk is at the end of the block. -/
theorem free_rest (hs : Shape len child b k es) (hn : (freed ++ es.post).Nodup) (hb : b ∉ freed ++ es.post)
    (hdepth : es.depth + stk.length ≤ max_depth) :
    Fuel.Reaches (free_step len child) ⟨⟨place b k,.block b,stk⟩,.scan b,freed⟩
      ⟨⟨place b (len b),.block b,stk⟩,.scan b,freed ++ es.post⟩ := by
  induction es generalizing b k stk freed with
  | nil =>
    rw [show len b = k from hs,Ents.post,List.append_nil]
    exact Fuel.Reaches.refl _
  | file rest ih =>
    obtain ⟨hchild,hrest⟩ := hs
    have hstep := free_file stk hrest.le (fun h => hb (List.mem_append_left _ h)) hchild
    exact (Fuel.Reaches.goes hstep).trans (ih hrest hn hb hdepth)
  | dir b' sub rest ihsub ihrest =>
    obtain ⟨hchild,hsub,hrest⟩ := hs
    rw [Ents.depth] at hdepth
    simp only [Ents.post] at hn hb ⊢
    have hlist : freed ++ (sub.post ++ b' :: rest.post) = freed ++ sub.post ++ [b'] ++ rest.post := by simp
    rw [hlist] at hn hb ⊢
    have hn' := hn.of_append_left
    have hb' : b' ∉ freed ++ sub.post := fun h =>
      (List.nodup_append.mp hn').2.2 b' h b' (List.mem_singleton_self _) rfl
    have hroom : ¬ stk.length = max_depth := by omega
    have hstep := free_dir stk hrest.le (show b ∉ freed from fun h => hb (by simp [h])) hchild
    rw [if_neg hroom] at hstep
    refine (Fuel.Reaches.goes hstep).trans ?_
    refine (ihsub hsub hn'.of_append_left hb' (by rw [List.length_cons]; omega)).trans ?_
    refine (Fuel.Reaches.goes (free_end hb')).trans ?_
    refine (Fuel.Reaches.goes free_pop).trans ?_
    exact ihrest hrest hn hb (by omega)

/-- With too many blocks on the way down the walk is left early, and nothing else is freed. -/
theorem free_stops (stk : List (B × B × Nat)) (hs : Shape len child b k es) (hn : (freed ++ es.post).Nodup) (hb : b ∉ freed ++ es.post)
    (hstk : stk.length ≤ max_depth) (hdepth : max_depth < es.depth + stk.length) :
    ∃ xs, Returns (free_step len child) ⟨⟨place b k,.block b,stk⟩,.scan b,freed⟩ (some (freed ++ xs)) ∧
      ∀ x ∈ xs, x ∈ es.post := by
  induction es generalizing b k stk freed with
  | nil =>
    rw [Ents.depth] at hdepth
    omega
  | file rest ih =>
    obtain ⟨hchild,hrest⟩ := hs
    have hstep := free_file stk hrest.le (fun h => hb (List.mem_append_left _ h)) hchild
    obtain ⟨xs,hxs,hmem⟩ := ih stk hrest hn hb hstk hdepth
    exact ⟨xs,Fuel.Reaches.goes hstep _ hxs,hmem⟩
  | dir b' sub rest ihsub ihrest =>
    obtain ⟨hchild,hsub,hrest⟩ := hs
    rw [Ents.depth] at hdepth
    simp only [Ents.post] at hn hb ⊢
    have hlist : freed ++ (sub.post ++ b' :: rest.post) = freed ++ sub.post ++ [b'] ++ rest.post := by simp
    rw [hlist] at hn hb
    have hn' := hn.of_append_left
    have hb' : b' ∉ freed ++ sub.post := fun h =>
      (List.nodup_append.mp hn').2.2 b' h b' (List.mem_singleton_self _) rfl
    have hstep := free_dir stk hrest.le (show b ∉ freed from fun h => hb (by simp [h])) hchild
    by_cases hfull : stk.length = max_depth
    · rw [if_pos hfull] at hstep
      exact ⟨[],Returns.ends (by rw [hstep,List.append_nil]),nofun⟩
    rw [if_neg hfull] at hstep
    by_cases hdeep : max_depth < sub.depth + (stk.length + 1)
    · obtain ⟨xs,hxs,hmem⟩ := ihsub ((b,b,k) :: stk) hsub hn'.of_append_left hb'
        (by rw [List.length_cons]; omega) hdeep
      exact ⟨xs,Fuel.Reaches.goes hstep _ hxs,fun x hx => List.mem_append_left _ (hmem x hx)⟩
    · obtain ⟨xs,hxs,hmem⟩ := ihrest stk hrest hn hb hstk (by omega)
      refine ⟨sub.post ++ b' :: xs,?_,fun x hx => ?_⟩
      · have hlist' : freed ++ (sub.post ++ b' :: xs) = freed ++ sub.post ++ [b'] ++ xs := by simp
        rw [hlist']
        apply Fuel.Reaches.goes hstep
        apply free_rest hsub hn'.of_append_left hb' (by rw [List.length_cons]; omega)
        apply Fuel.Reaches.goes (free_end hb')
        exact Fuel.Reaches.goes free_pop _ hxs
      · rcases List.mem_append.mp hx with hx | hx
        · exact List.mem_append_left _ hx
        · rcases List.mem_cons.mp hx with rfl | hx
          · exact List.mem_append_right _ (List.mem_cons_self ..)
          · exact List.mem_append_right _ (List.mem_cons_of_mem _ (hmem x hx))

section Below
omit [DecidableEq B]

theorem child_mem_post (hs : Shape len child b k es) {x : B} {j : Nat} (hkj : k ≤ j) (hj : j < len b)
    (hx : child (b,j) = some x) : x ∈ es.post := by
  induction es generalizing k with
  | nil => exact absurd hs (by rw [Shape]; omega)
  | file rest ih =>
    by_cases heq : k = j
    · rw [heq] at hs
      rw [hs.1] at hx
      cases hx
    · exact ih hs.2 (by omega)
  | dir b' sub rest _ ih =>
    by_cases heq : k = j
    · rw [heq] at hs
      obtain rfl := Option.some.inj (hs.1.symm.trans hx)
      exact List.mem_append_right _ (List.mem_cons_self ..)
    · exact List.mem_append_right _ (List.mem_cons_of_mem _ (ih hs.2.2 (by omega)))

theorem child_before (hs : Shape len child b k es) {x y : B} (hy : y ∈ es.post) (hxy : Child len child x y) :
    [x,y].Sublist es.post := by
  induction es generalizing b k with
  | nil => cases hy
  | file rest ih => exact ih hs.2 hy
  | dir b' sub rest ihsub ihrest =>
    obtain ⟨-,hsub,hrest⟩ := hs
    rw [Ents.post] at hy ⊢
    rcases List.mem_append.mp hy with hy | hy
    · exact (ihsub hsub hy).trans (List.sublist_append_left ..)
    · rcases List.mem_cons.mp hy with rfl | hy
      · obtain ⟨j,hj,hx⟩ := hxy
        have hmem := child_mem_post hsub (Nat.zero_le j) hj hx
        exact (List.singleton_sublist.mpr hmem).append
          (List.singleton_sublist.mpr (List.mem_cons_self ..))
      · exact (ihrest hrest hy).trans ((List.sublist_cons_self ..).trans (List.sublist_append_right ..))

theorem post_below (hs : Shape len child b k es) {y : B} (hy : y ∈ es.post) :
    Relation.TransGen (Child len child) y b := by
  induction es generalizing b k with
  | nil => cases hy
  | file rest ih => exact ih hs.2 hy
  | dir b' sub rest ihsub ihrest =>
    obtain ⟨hchild,hsub,hrest⟩ := hs
    have hb' : Child len child b' b := ⟨k,hrest.le,hchild⟩
    rcases List.mem_append.mp hy with hy | hy
    · exact (ihsub hsub hy).tail hb'
    · rcases List.mem_cons.mp hy with rfl | hy
      · exact .single hb'
      · exact ihrest hrest hy

/-- In a list without repetition, what comes before `y` is in the part before it. -/
theorem mem_before {x y : B} {xs ys : List B} (hn : (xs ++ y :: ys).Nodup)
    (h : [x,y].Sublist (xs ++ y :: ys)) : x ∈ xs := by
  have hxs : y ∉ xs := fun hy => (List.nodup_append.mp hn).2.2 y hy y (List.mem_cons_self ..) rfl
  have hys : y ∉ ys := (List.nodup_cons.mp (List.nodup_append.mp hn).2.1).1
  obtain ⟨as,bs,hsplit,has,hbs⟩ := List.sublist_append_iff.mp h
  cases as with
  | nil =>
    rw [List.nil_append] at hsplit
    subst hsplit
    rcases List.sublist_cons_iff.mp hbs with hbs | ⟨r,hr,hbs⟩
    · exact absurd (hbs.subset (by simp)) hys
    · obtain ⟨-,rfl⟩ := List.cons.inj hr
      exact absurd (hbs.subset (by simp)) hys
  | cons a as =>
    obtain ⟨rfl,-⟩ := List.cons.inj hsplit
    exact has.subset (List.mem_cons_self ..)

end Below

/-- All blocks from the root down are freed, each once, after the blocks below it. -/
def FreesAll (len : B → Nat) (child : B × Nat → Option B) (root : B) : Prop :=
  ∃ order, Returns (free_step len child) (fntree_free_all root) (some order) ∧ order.Nodup ∧
    (∀ x, x ∈ order ↔ Relation.ReflTransGen (Child len child) x root) ∧
    ∀ xs y ys, order = xs ++ y :: ys → ∀ x, Relation.TransGen (Child len child) x y → x ∈ xs

theorem free_starts (root : B) : Fuel.Reaches (free_step len child) (fntree_free_all root)
    ⟨⟨place root 0,.block root,[]⟩,.scan root,[]⟩ := Fuel.Reaches.goes rfl

/-- A tree is freed if and only if the stack has room for every way down. -/
theorem free_all_iff {root : B} (hs : Shape len child root 0 es) (hn : (es.post ++ [root]).Nodup) :
    FreesAll len child root ↔ es.depth ≤ max_depth := by
  have hroot : root ∉ es.post := fun h => (List.nodup_append.mp hn).2.2 root h root (by simp) rfl
  have hn' : ([] ++ es.post).Nodup := hn.of_append_left
  constructor
  · rintro ⟨order,hret,-,hmem,-⟩
    by_contra hdepth
    obtain ⟨xs,hxs,hpost⟩ := free_stops [] hs hn' hroot (Nat.zero_le _)
      (Nat.lt_of_not_le hdepth)
    obtain rfl := Option.some.inj (hret.unique (free_starts root _ hxs))
    exact hroot (hpost root ((hmem root).mpr .refl))
  · intro hdepth
    have hret : Returns (free_step len child) (fntree_free_all root) (some (es.post ++ [root])) := by
      apply free_starts
      apply free_rest hs hn' hroot (show es.depth + List.length [] ≤ max_depth from hdepth)
      apply Fuel.Reaches.goes (free_end hroot)
      exact Returns.ends rfl
    have hbefore {x y : B} (hy : y ∈ es.post ++ [root]) (hxy : Child len child x y) :
        [x,y].Sublist (es.post ++ [root]) := by
      rcases List.mem_append.mp hy with hy | hy
      · exact (child_before hs hy hxy).trans (List.sublist_append_left ..)
      · obtain rfl := List.mem_singleton.mp hy
        obtain ⟨j,hj,hx⟩ := hxy
        exact (List.singleton_sublist.mpr (child_mem_post hs (Nat.zero_le j) hj hx)).append (.refl _)
    refine ⟨_,hret,hn,fun x => ⟨fun hx => ?_,fun hx => ?_⟩,fun xs y ys heq x hx => ?_⟩
    · rcases List.mem_append.mp hx with hx | hx
      · exact (post_below hs hx).to_reflTransGen
      · rw [List.mem_singleton.mp hx]
    · induction hx using Relation.ReflTransGen.head_induction_on with
      | refl => simp
      | head hxy _ ih => exact (hbefore ih hxy).subset (List.mem_cons_self ..)
    · induction hx generalizing xs ys with
      | single hxy =>
        rw [heq] at hn hbefore
        exact mem_before hn (hbefore (by simp) hxy)
      | @tail z y _ hzy ih =>
        have hz : z ∈ xs := by
          rw [heq] at hn hbefore
          exact mem_before hn (hbefore (by simp) hzy)
        obtain ⟨as,bs,rfl⟩ := List.append_of_mem hz
        exact List.mem_append_left _ (ih as (bs ++ y :: ys) (by rw [heq]; simp))

theorem free_all_two : FreesAll (fun b => if b = 0 then 2 else 0)
    (fun e => if e = (0,1) then some 1 else none) 0 := by
  have hs : Shape (fun b => if b = 0 then 2 else 0) (fun e => if e = (0,1) then some 1 else none) 0 0
      (.file (.dir 1 .nil .nil)) := ⟨rfl,rfl,rfl,rfl⟩
  exact (free_all_iff hs (by decide)).mpr (by decide)

/-- In a chain of 66 blocks nothing is freed. -/
theorem free_chain_fails : ¬ FreesAll (fun b => if b < 65 then 1 else 0)
    (fun e => if e.1 < 65 then some (e.1 + 1) else none) 0 := by
  rintro ⟨order,hret,-,hmem,-⟩
  have hstop : Returns (free_step (fun b => if b < 65 then 1 else 0)
      (fun e => if e.1 < 65 then some (e.1 + 1) else none)) (fntree_free_all 0) (some []) :=
    ⟨70,by decide +kernel⟩
  obtain rfl := Option.some.inj (hret.unique hstop)
  cases (hmem 0).mpr .refl

end Phiola.FnTree
