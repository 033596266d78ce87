import Phiola.Framework.Forest
import Phiola.Util.FnWalk

/-!
# Comparing two trees of file names

The comparator has a cursor in each tree, and it sees the names and the depths of the two current entries
only.
-/

namespace Phiola.FnTree

open Forests

/-! ## The comparator -/

/-- A tree of file names: `entries` and `children` as the cursor reads them, and the names. -/
structure Tree (B : Type) where
  entries : B → Nat
  children : B × Nat → Option B
  name : B × Nat → List UInt8

/-- `enum FNTREE_CMP` -/
inductive Result
  | done
  | eq
  | left
  | right
  | neq
  deriving DecidableEq

/-- `struct fntree_cmp` -/
structure Cmp (B C : Type) where
  lc : Cursor B
  rc : Cursor C

/-- What `fntree_cmp_next()` returns, with the entries and their blocks that it sets. -/
structure Report (B C : Type) where
  result : Result
  l : Option (B × Nat)
  r : Option (C × Nat)
  lb : Curblock B
  rb : Curblock C

/-- `ffstr_cmp2()`: the first bytes that differ decide, and else the lengths. -/
def ffstr_cmp2 (a b : List UInt8) : Ordering := compare a b

instance : Std.TransCmp ffstr_cmp2 := inferInstanceAs (Std.TransCmp (compare : List UInt8 → List UInt8 → Ordering))

instance : Std.LawfulEqCmp ffstr_cmp2 :=
  inferInstanceAs (Std.LawfulEqCmp (compare : List UInt8 → List UInt8 → Ordering))

variable {B C : Type} [DecidableEq B] [DecidableEq C]

def fntree_cmp_init (L : Tree B) (R : Tree C) (lb : B) (rb : C) : Cmp B C :=
  ⟨⟨fntree_cur_next L.entries none lb,.block lb,[]⟩,⟨fntree_cur_next R.entries none rb,.block rb,[]⟩⟩

omit [DecidableEq B] [DecidableEq C] in
def fntree_cmp1 (L : Tree B) (R : Tree C) (cmp : B × Nat → C × Nat → Result) :
    Option (B × Nat) → Option (C × Nat) → Result
  | none,none => .done
  | none,some _ => .right
  | some _,none => .left
  | some l,some r =>
    match ffstr_cmp2 (L.name l) (R.name r) with
    | .lt => .left
    | .gt => .right
    | .eq => cmp l r

/-- `_fntree_cmp_eq()` -/
def fntree_cmp_eq (_ : B × Nat) (_ : C × Nat) : Result := .eq

/-- The cursor at the entry that was returned. -/
def landed (r : Cursor B × Option (B × B × Nat)) : Cursor B := {r.1 with cur := r.2.map Prod.snd}

/-- `c->cur = fntree_cur_next_r(c, &b)`: with `NULL` for the root the block is the cursor's, which is there. -/
def cur_go (T : Tree B) (c : Cursor B) : Cursor B :=
  match c.curblock with
  | .block b => landed (fntree_cur_next_r T.entries T.children b c)
  | _ => c

def fntree_cmp_next (L : Tree B) (R : Tree C) (cmp : B × Nat → C × Nat → Result) (c : Cmp B C) :
    Cmp B C × Report B C :=
  let l1 := if c.lc.stk.length < c.rc.stk.length then none else c.lc.cur
  let r1 := if c.lc.stk.length > c.rc.stk.length then none else c.rc.cur
  let i := fntree_cmp1 L R cmp l1 r1
  (⟨if i ≠ .right ∧ c.lc.cur ≠ none then cur_go L c.lc else c.lc,
    if i ≠ .left ∧ c.rc.cur ≠ none then cur_go R c.rc else c.rc⟩,
    ⟨i,c.lc.cur,c.rc.cur,c.lc.curblock,c.rc.curblock⟩)

/-- The report tells of the item: an entry of one tree with its block, or one of each with the result of the
caller's function. -/
def Report.Tells (cmp : B × Nat → C × Nat → Result) (o : Report B C) : Item (B × Nat) (C × Nat) → Prop
  | .left e => o.result = .left ∧ o.l = some e ∧ o.lb = .block e.1
  | .right e => o.result = .right ∧ o.r = some e ∧ o.rb = .block e.1
  | .both l r => o.result = cmp l r ∧ o.l = some l ∧ o.lb = .block l.1 ∧ o.r = some r ∧ o.rb = .block r.1

/-- Calls of `fntree_cmp_next()` tell of these items, and from then on return `FNTREE_CMP_DONE`. -/
inductive Compares (L : Tree B) (R : Tree C) (cmp : B × Nat → C × Nat → Result) :
    Cmp B C → List (Item (B × Nat) (C × Nat)) → Prop
  | done {c o} (h : fntree_cmp_next L R cmp c = (c,o)) (ho : o.result = .done) : Compares L R cmp c []
  | next {c i is} (h : (fntree_cmp_next L R cmp c).2.Tells cmp i)
      (hrest : Compares L R cmp (fntree_cmp_next L R cmp c).1 is) : Compares L R cmp c (i :: is)

/-! ## The cursors -/

/-- The entries from index `k` on as a forest. -/
def forest (b : B) : Nat → Ents B → Forest (B × Nat)
  | _,.nil => .nil
  | k,.file rest => .node (b,k) .nil (forest b (k + 1) rest)
  | k,.dir b' sub rest => .node (b,k) (forest b' 0 sub) (forest b (k + 1) rest)

omit [DecidableEq B] in
theorem forest_pre (b : B) (k : Nat) (es : Ents B) : (forest b k es).pre = (pre b k es).map Prod.snd := by
  induction es generalizing b k with
  | nil => rfl
  | file rest ih => rw [forest,Forest.pre,ih,pre,List.map_cons]; rfl
  | dir b' sub rest ihsub ihrest => rw [forest,Forest.pre,ihsub,ihrest,pre,List.map_cons,List.map_append]

/-- The cursor is at the first of these entries, at its depth, and comes to the others. -/
def Follows (T : Tree B) : Cursor B → List (Nat × B × Nat) → Prop
  | c,[] => c.cur = none ∧ c.stk = []
  | c,x :: xs => c.cur = some x.2 ∧ c.stk.length = x.1 ∧ c.curblock = .block x.2.1 ∧ Follows T (cur_go T c) xs

variable {T : Tree B} {b : B} {k : Nat} {es : Ents B} {stk : List (B × B × Nat)} {ys : List (Nat × B × Nat)}

theorem landed_some (h : k < T.entries b) :
    landed (next_loop T.entries (place b k) b stk) = ⟨place b (k + 1),.block b,stk⟩ := by
  rw [next_loop_some h]
  rfl

theorem cur_go_block (T : Tree B) (cur : Option (B × Nat)) (b : B) (stk : List (B × B × Nat)) :
    cur_go T ⟨cur,.block b,stk⟩ = landed (fntree_cur_next_r T.entries T.children b ⟨cur,.block b,stk⟩) := rfl

theorem follows_rest (hs : Shape T.entries T.children b k es) (hdepth : es.depth + stk.length ≤ max_depth)
    (hrest : Follows T (landed (next_loop T.entries (place b (T.entries b)) b stk)) ys) :
    Follows T (landed (next_loop T.entries (place b k) b stk))
      (Forest.preD stk.length (forest b k es) ++ ys) := by
  induction es generalizing b k stk ys with
  | nil =>
    rw [show k = T.entries b from hs.symm]
    exact hrest
  | file rest ih =>
    obtain ⟨hchild,hshape⟩ := hs
    rw [landed_some hshape.le]
    refine ⟨rfl,rfl,rfl,?_⟩
    rw [cur_go_block,next_r_file hchild]
    exact ih hshape hdepth hrest
  | dir b' sub rest ihsub ihrest =>
    obtain ⟨hchild,hsub,hshape⟩ := hs
    rw [Ents.depth] at hdepth
    rw [landed_some hshape.le,forest,Forest.preD,List.cons_append,List.append_assoc]
    refine ⟨rfl,rfl,rfl,?_⟩
    rw [cur_go_block,next_r_dir hchild (by omega)]
    refine ihsub hsub (by rw [List.length_cons]; omega) ?_
    rw [next_loop_end]
    exact ihrest hshape (by omega) hrest

theorem follows_init (hs : Shape T.entries T.children b 0 es) (hdepth : es.depth ≤ max_depth) :
    Follows T ⟨fntree_cur_next T.entries none b,.block b,[]⟩ (Forest.preD 0 (forest b 0 es)) := by
  have hend : Follows T (landed (next_loop T.entries (place b (T.entries b)) b [])) [] := by
    rw [next_loop,next_end]
    exact ⟨rfl,rfl⟩
  have hall : Follows T (landed (next_loop T.entries (place b 0) b [])) (Forest.preD 0 (forest b 0 es) ++ []) :=
    follows_rest hs hdepth hend
  have hinit : landed (next_loop T.entries (place b 0) b []) =
      ⟨fntree_cur_next T.entries none b,.block b,[]⟩ := by
    rw [next_loop,show place b 0 = none from rfl]
    cases fntree_cur_next T.entries none b <;> rfl
  rwa [hinit,List.append_nil] at hall

/-! ## The comparison -/

variable {L : Tree B} {R : Tree C} {cmp : B × Nat → C × Nat → Result} {c : Cmp B C} {lc : Cursor B}
  {rc : Cursor C} {xs : List (Nat × B × Nat)} {zs : List (Nat × C × Nat)} {is : List (Item (B × Nat) (C × Nat))}

theorem cmp_next_result {i : Result} (hi : fntree_cmp1 L R cmp
    (if lc.stk.length < rc.stk.length then none else lc.cur)
    (if lc.stk.length > rc.stk.length then none else rc.cur) = i) :
    fntree_cmp_next L R cmp ⟨lc,rc⟩ =
      (⟨if i ≠ .right ∧ lc.cur ≠ none then cur_go L lc else lc,
        if i ≠ .left ∧ rc.cur ≠ none then cur_go R rc else rc⟩,⟨i,lc.cur,rc.cur,lc.curblock,rc.curblock⟩) := by
  subst hi
  rfl

/-- A call reports what the walk picks, and the cursors come to what it leaves. -/
theorem next_pick (hcmp : ∀ l r, cmp l r = .eq ∨ cmp l r = .neq) (hl : Follows L lc xs) (hr : Follows R rc zs) :
    match pick (fun l r => ffstr_cmp2 (L.name l) (R.name r)) xs zs with
    | none => ∃ o, fntree_cmp_next L R cmp ⟨lc,rc⟩ = (⟨lc,rc⟩,o) ∧ o.result = .done
    | some (i,xs',zs') => (fntree_cmp_next L R cmp ⟨lc,rc⟩).2.Tells cmp i ∧
        Follows L (fntree_cmp_next L R cmp ⟨lc,rc⟩).1.lc xs' ∧
        Follows R (fntree_cmp_next L R cmp ⟨lc,rc⟩).1.rc zs' := by
  match xs,zs with
  | [],[] =>
    have hi : fntree_cmp_next L R cmp ⟨lc,rc⟩ = _ := cmp_next_result (i := .done)
      (by simp [fntree_cmp1,hl.1,hr.1])
    rw [hi,hl.1,hr.1]
    exact ⟨_,rfl,rfl⟩
  | [],(d,e) :: zs =>
    obtain ⟨hcur,hstk,hblk,hgo⟩ := hr
    have hi : fntree_cmp_next L R cmp ⟨lc,rc⟩ = _ := cmp_next_result (i := .right)
      (by simp [fntree_cmp1,hl.1,hl.2,hcur])
    rw [pick,hi]
    simpa [Report.Tells,hcur,hblk] using ⟨hl,hgo⟩
  | (d,e) :: xs,[] =>
    obtain ⟨hcur,hstk,hblk,hgo⟩ := hl
    have hi : fntree_cmp_next L R cmp ⟨lc,rc⟩ = _ := cmp_next_result (i := .left)
      (by simp [fntree_cmp1,hr.1,hr.2,hcur])
    rw [pick,hi]
    simpa [Report.Tells,hcur,hblk] using ⟨hgo,hr⟩
  | (d,e) :: xs,(d',e') :: zs =>
    have hl' := hl
    have hr' := hr
    obtain ⟨hcur,hstk,hblk,hgo⟩ := hl
    obtain ⟨hcur',hstk',hblk',hgo'⟩ := hr
    dsimp only at hcur hstk hblk hgo hcur' hstk' hblk' hgo'
    have hleft (hi : fntree_cmp1 L R cmp (if lc.stk.length < rc.stk.length then none else lc.cur)
        (if lc.stk.length > rc.stk.length then none else rc.cur) = .left) :
        (fntree_cmp_next L R cmp ⟨lc,rc⟩).2.Tells cmp (.left e) ∧
          Follows L (fntree_cmp_next L R cmp ⟨lc,rc⟩).1.lc xs ∧
          Follows R (fntree_cmp_next L R cmp ⟨lc,rc⟩).1.rc ((d',e') :: zs) := by
      rw [cmp_next_result hi]
      simpa [Report.Tells,hcur,hblk] using ⟨hgo,hr'⟩
    have hright (hi : fntree_cmp1 L R cmp (if lc.stk.length < rc.stk.length then none else lc.cur)
        (if lc.stk.length > rc.stk.length then none else rc.cur) = .right) :
        (fntree_cmp_next L R cmp ⟨lc,rc⟩).2.Tells cmp (.right e') ∧
          Follows L (fntree_cmp_next L R cmp ⟨lc,rc⟩).1.lc ((d,e) :: xs) ∧
          Follows R (fntree_cmp_next L R cmp ⟨lc,rc⟩).1.rc zs := by
      rw [cmp_next_result hi]
      simpa [Report.Tells,hcur',hblk'] using ⟨hl',hgo'⟩
    rw [pick]
    rcases Nat.lt_trichotomy d d' with hlt | rfl | hgt
    · rw [if_pos hlt]
      exact hright (by rw [hstk,hstk',if_pos hlt,if_neg (by omega),hcur']; rfl)
    · have hsame : fntree_cmp1 L R cmp (if lc.stk.length < rc.stk.length then none else lc.cur)
          (if lc.stk.length > rc.stk.length then none else rc.cur) = fntree_cmp1 L R cmp (some e) (some e') := by
        rw [hstk,hstk',if_neg (Nat.lt_irrefl d),if_neg (Nat.lt_irrefl d),hcur,hcur']
      rw [if_neg (Nat.lt_irrefl d),if_neg (Nat.lt_irrefl d)]
      rw [fntree_cmp1] at hsame
      cases hname : ffstr_cmp2 (L.name e) (R.name e') with
      | lt => exact hleft (by rw [hsame,hname])
      | gt => exact hright (by rw [hsame,hname])
      | eq =>
        rw [hname] at hsame
        have hne : cmp e e' ≠ .left ∧ cmp e e' ≠ .right := by
          rcases hcmp e e' with h | h <;> simp [h]
        rw [cmp_next_result hsame]
        simpa [Report.Tells,hcur,hblk,hcur',hblk',hne] using ⟨hgo,hgo'⟩
    · rw [if_neg (by omega),if_pos hgt]
      exact hleft (by rw [hstk,hstk',if_neg (by omega),if_pos hgt,hcur]; rfl)

theorem compares_walk (hcmp : ∀ l r, cmp l r = .eq ∨ cmp l r = .neq)
    (hw : Forests.Walk (fun l r => ffstr_cmp2 (L.name l) (R.name r)) xs zs is) (hl : Follows L c.lc xs)
    (hr : Follows R c.rc zs) : Compares L R cmp c is := by
  induction hw generalizing c with
  | done =>
    obtain ⟨o,hnext,ho⟩ := next_pick hcmp hl hr
    exact .done hnext ho
  | next h _ ih =>
    have hnext := next_pick hcmp hl hr
    rw [h] at hnext
    exact .next hnext.1 (ih hnext.2.1 hnext.2.2)

/-- The comparator tells of all entries of both trees, each once and in the order of `fntree_cur_next_r()`. In
trees whose blocks have ascending names an entry is told of on its own when the other tree has none with its
path, and else with the one that has it. -/
theorem cmp_entries {lb : B} {rb : C} {es : Ents B} {fs : Ents C}
    (hls : Shape L.entries L.children lb 0 es) (hrs : Shape R.entries R.children rb 0 fs)
    (hld : es.depth ≤ max_depth) (hrd : fs.depth ≤ max_depth)
    (hcmp : ∀ l r, cmp l r = .eq ∨ cmp l r = .neq) :
    ∃ items, Compares L R cmp (fntree_cmp_init L R lb rb) items ∧
      items.filterMap Item.left? = (pre lb 0 es).map Prod.snd ∧
      items.filterMap Item.right? = (pre rb 0 fs).map Prod.snd ∧
      ((forest lb 0 es).Asc ffstr_cmp2 L.name → (forest rb 0 fs).Asc ffstr_cmp2 R.name →
        ∀ i, i ∈ items ↔ Placed ((forest lb 0 es).paths L.name) ((forest rb 0 fs).paths R.name) i) := by
  refine ⟨_,compares_walk hcmp (walk_pre (forest lb 0 es) (forest rb 0 fs)) (follows_init hls hld)
    (follows_init hrs hrd),?_,?_,fun hasc hasc' i => ?_⟩
  · rw [merge_left?,forest_pre]
  · rw [merge_right?,forest_pre]
  · exact mem_merge _ _ hasc hasc'

/-- A directory `a` with one entry, and an entry beside it. -/
def dirTree (last : List UInt8) : Tree Nat :=
  ⟨fun b => if b = 0 then 2 else 1,fun e => if e = (0,0) then some 1 else none,
    fun e => if e = (0,0) then [97] else if e = (0,1) then last else [120]⟩

theorem dirTree_shape (last : List UInt8) :
    Shape (dirTree last).entries (dirTree last).children 0 0 (.dir 1 (.file .nil) (.file .nil)) :=
  ⟨rfl,⟨rfl,rfl⟩,rfl,rfl⟩

theorem dirTree_asc {last : List UInt8} (h : ffstr_cmp2 [97] last = .lt) :
    (forest 0 0 (.dir 1 (.file .nil) (.file .nil))).Asc ffstr_cmp2 (dirTree last).name :=
  ⟨fun _ hx => by rw [List.mem_singleton.mp hx]; exact h,⟨nofun,trivial,trivial⟩,nofun,trivial,trivial⟩

theorem not_way {last : List UInt8} {p : List (List UInt8)}
    (h : p ∉ ((forest 0 0 (.dir 1 (.file .nil) (.file .nil))).paths (dirTree last).name).map Prod.fst)
    (e : Nat × Nat) : (p,e) ∉ (forest 0 0 (.dir 1 (.file .nil) (.file .nil))).paths (dirTree last).name :=
  fun he => h (List.mem_map_of_mem he)

/-- The entries below `a` are in both trees, and of those beside it each is in one. -/
theorem cmp_entries_beside : ∃ items, Compares (dirTree [98]) (dirTree [99]) fntree_cmp_eq
    (fntree_cmp_init (dirTree [98]) (dirTree [99]) 0 0) items ∧
      .both (1,0) (1,0) ∈ items ∧ .left (0,1) ∈ items ∧ .right (0,1) ∈ items := by
  obtain ⟨items,hrun,-,-,hmem⟩ := cmp_entries (dirTree_shape [98]) (dirTree_shape [99]) (by decide) (by decide)
    (show ∀ l r : Nat × Nat,fntree_cmp_eq l r = .eq ∨ fntree_cmp_eq l r = .neq from fun _ _ => .inl rfl)
  have hmem := hmem (dirTree_asc (by decide)) (dirTree_asc (by decide))
  refine ⟨items,hrun,(hmem _).mpr ?_,(hmem _).mpr ?_,(hmem _).mpr ?_⟩
  · exact ⟨[[97],[120]],by decide,by decide⟩
  · exact ⟨[[98]],by decide,not_way (by decide)⟩
  · exact ⟨[[99]],by decide,not_way (by decide)⟩

end Phiola.FnTree
