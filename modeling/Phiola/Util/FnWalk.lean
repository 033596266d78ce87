import Mathlib.Data.List.Perm.Basic
import Phiola.Util.FnTree

/-!
# The two orders of a tree of file names

The walks that return a directory before its entries, and all entries of a block before those of the blocks
below. A block may be attached to an entry until the next call.
-/

namespace Phiola.FnTree

open Fuel

variable {B : Type}

/-! ## The walks -/

/-- `c->curblock`, which is set to the root at first. -/
def Curblock.getD (c : Curblock B) (root : B) : B :=
  match c with
  | .block b => b
  | _ => root

section Walks
variable [DecidableEq B]

/-- The loop of `fntree_cur_next_r()`; an entry is returned with its block for `*root`. -/
def next_loop (len : B → Nat) (cur : Option (B × Nat)) (b : B) :
    List (B × B × Nat) → Cursor B × Option (B × B × Nat)
  | [] =>
    match fntree_cur_next len cur b with
    | some e => (⟨some e,.block b,[]⟩,some (b,e))
    | none => (⟨cur,.block b,[]⟩,none)
  | (b',e') :: stk =>
    match fntree_cur_next len cur b with
    | some e => (⟨some e,.block b,(b',e') :: stk⟩,some (b,e))
    | none => next_loop len (some e') b' stk

def fntree_cur_next_r (len : B → Nat) (child : B × Nat → Option B) (root : B) (c : Cursor B) :
    Cursor B × Option (B × B × Nat) :=
  let b := c.curblock.getD root
  match c.cur with
  | none => next_loop len none b c.stk
  | some e =>
    match child e with
    | none => next_loop len (some e) b c.stk
    | some b' =>
      if c.stk.length = max_depth then ({c with curblock := .block b},none)
      else next_loop len none b' ((b,e) :: c.stk)

/-- `fntree_cur_next_r_ctx()` in its loops: `second` is the inner one. -/
structure Ctx (B : Type) where
  c : Cursor B
  b : B
  second : Bool

/-- A round of a loop of `fntree_cur_next_r_ctx()`. Without room on the stack the block is `NULL`, and what
`fntree_cur_next()` reads of it is not there: the result is `none`. -/
def ctx_step (len : B → Nat) (child : B × Nat → Option B) (s : Ctx B) :
    Ctx B ⊕ Option (Cursor B × Option (B × B × Nat)) :=
  match s.second,fntree_cur_next len s.c.cur s.b with
  | false,some e => .inr (some ({s.c with cur := some e},some (s.b,e)))
  | false,none => .inl ⟨{s.c with cur := none},s.b,true⟩
  | true,none =>
    match s.c.stk with
    | [] => .inr (some (s.c,none))
    | (b',e') :: stk => .inl ⟨⟨some e',.block b',stk⟩,b',true⟩
  | true,some e =>
    match child e with
    | none => .inl ⟨{s.c with cur := some e},s.b,true⟩
    | some b' =>
      if s.c.stk.length = max_depth then .inr none
      else .inl ⟨⟨none,.block b',(s.b,e) :: s.c.stk⟩,b',false⟩

def ctx_start (root : B) (c : Cursor B) : Ctx B :=
  ⟨{c with curblock := .block (c.curblock.getD root)},c.curblock.getD root,false⟩

end Walks

/-- Repeated calls return these entries; in the end `NULL`, or a call reads what is not there. The outcome
of a call may depend on the entries that were returned before. -/
inductive Calls (call : List (B × Nat) → Cursor B → Option (Cursor B × Option (B × B × Nat)) → Prop) :
    List (B × Nat) → Cursor B → List (B × B × Nat) → Bool → Prop
  | last {seen c c'} (h : call seen c (some (c',none))) : Calls call seen c [] true
  | crash {seen c} (h : call seen c none) : Calls call seen c [] false
  | next {seen c c' b e xs ok} (h : call seen c (some (c',some (b,e))))
      (hrest : Calls call (seen ++ [e]) c' xs ok) : Calls call seen c ((b,e) :: xs) ok

theorem Calls.unique {call : List (B × Nat) → Cursor B → Option (Cursor B × Option (B × B × Nat)) → Prop}
    (hcall : ∀ seen c r r', call seen c r → call seen c r' → r = r') {seen : List (B × Nat)} {c : Cursor B}
    {xs ys : List (B × B × Nat)} {ok ok' : Bool} (h : Calls call seen c xs ok)
    (h' : Calls call seen c ys ok') : xs = ys ∧ ok = ok' := by
  induction h generalizing ys ok' with
  | last h =>
    cases h' with
    | last _ => exact ⟨rfl,rfl⟩
    | crash h' => cases hcall _ _ _ _ h h'
    | next h' _ => cases hcall _ _ _ _ h h'
  | crash h =>
    cases h' with
    | last h' => cases hcall _ _ _ _ h h'
    | crash _ => exact ⟨rfl,rfl⟩
    | next h' _ => cases hcall _ _ _ _ h h'
  | next h _ ih =>
    cases h' with
    | last h' => cases hcall _ _ _ _ h h'
    | crash h' => cases hcall _ _ _ _ h h'
    | next h' hrest =>
      cases hcall _ _ _ _ h h'
      obtain ⟨rfl,rfl⟩ := ih hrest
      exact ⟨rfl,rfl⟩

section Run
variable [DecidableEq B] {len : B → Nat} {child : List (B × Nat) → B × Nat → Option B}
  {final : B × Nat → Option B} {root b : B} {k : Nat} {es : Ents B} {stk : List (B × B × Nat)}
  {seen : List (B × Nat)} {xs ys : List (B × B × Nat)} {ok : Bool}

/-- The blocks of the entries are read when these were returned: `child` is what is attached then. -/
def NextR (len : B → Nat) (child : List (B × Nat) → B × Nat → Option B) (root : B) (seen : List (B × Nat))
    (c : Cursor B) (r : Option (Cursor B × Option (B × B × Nat))) : Prop :=
  r = some (fntree_cur_next_r len (child seen) root c)

def NextRCtx (len : B → Nat) (child : List (B × Nat) → B × Nat → Option B) (root : B) (seen : List (B × Nat))
    (c : Cursor B) (r : Option (Cursor B × Option (B × B × Nat))) : Prop :=
  Returns (ctx_step len (child seen)) (ctx_start root c) r

/-! ## A directory before its entries -/

/-- The entries of a block from index `k` on, each with its block for `*root`. -/
def entries (len : B → Nat) (b : B) (k : Nat) : List (B × B × Nat) :=
  (List.range' k (len b - k)).map fun i => (b,(b,i))

def pre (b : B) : Nat → Ents B → List (B × B × Nat)
  | _,.nil => []
  | k,.file rest => (b,(b,k)) :: pre b (k + 1) rest
  | k,.dir b' sub rest => (b,(b,k)) :: (pre b' 0 sub ++ pre b (k + 1) rest)

/-- The call that is in its loop returns the first of these entries, and the next calls the others. -/
def Resumes (len : B → Nat) (child : List (B × Nat) → B × Nat → Option B) (root : B) (seen : List (B × Nat))
    (cur : Option (B × Nat)) (b : B) (stk : List (B × B × Nat)) (xs : List (B × B × Nat)) : Prop :=
  match xs with
  | [] => (next_loop len cur b stk).2 = none
  | x :: xs => ∃ c, next_loop len cur b stk = (c,some x) ∧
      Calls (NextR len child root) (seen ++ [x.2]) c xs true

theorem next_loop_some (h : k < len b) : next_loop len (place b k) b stk =
    (⟨place b (k + 1),.block b,stk⟩,some (b,(b,k))) := by
  cases stk <;> simp only [next_loop,next_some h] <;> rfl

theorem next_loop_end {b' : B} : next_loop len (place b' (len b')) b' ((b,(b,k)) :: stk) =
    next_loop len (place b (k + 1)) b stk := by
  rw [next_loop,next_end]
  rfl

theorem next_r_file {child : B × Nat → Option B} (hchild : child (b,k) = none) :
    fntree_cur_next_r len child root ⟨place b (k + 1),.block b,stk⟩ = next_loop len (place b (k + 1)) b stk := by
  simp only [show place b (k + 1) = some (b,k) from rfl,fntree_cur_next_r,hchild]
  rfl

theorem next_r_dir {child : B × Nat → Option B} {b' : B} (hchild : child (b,k) = some b')
    (hroom : stk.length ≠ max_depth) : fntree_cur_next_r len child root ⟨place b (k + 1),.block b,stk⟩ =
      next_loop len (place b' 0) b' ((b,(b,k)) :: stk) := by
  simp only [show place b (k + 1) = some (b,k) from rfl,fntree_cur_next_r,hchild,if_neg hroom]
  rfl

theorem Resumes.calls {c : Cursor B} {cur : Option (B × Nat)}
    (hc : fntree_cur_next_r len (child seen) root c = next_loop len cur b stk)
    (h : Resumes len child root seen cur b stk xs) : Calls (NextR len child root) seen c xs true := by
  cases xs with
  | nil =>
    refine .last (show NextR len child root seen c (some ((next_loop len cur b stk).1,none)) from ?_)
    rw [NextR,hc,← h]
  | cons x xs =>
    obtain ⟨c',hloop,hrest⟩ := h
    exact .next (by rw [NextR,hc,hloop]) hrest

theorem resumes_rest (hs : Shape len final b k es) (henv : ∀ seen, ∀ e ∈ seen, child seen e = final e)
    (hdepth : es.depth + stk.length ≤ max_depth)
    (hrest : ∀ seen, Resumes len child root seen (place b (len b)) b stk ys) (seen : List (B × Nat)) :
    Resumes len child root seen (place b k) b stk (pre b k es ++ ys) := by
  induction es generalizing b k stk seen ys with
  | nil =>
    rw [show k = len b from hs.symm]
    exact hrest seen
  | file rest ih =>
    obtain ⟨hchild,hshape⟩ := hs
    have hseen : child (seen ++ [(b,k)]) (b,k) = none := (henv _ _ (by simp)).trans hchild
    refine ⟨_,next_loop_some hshape.le,?_⟩
    exact Resumes.calls (next_r_file hseen) (ih hshape hdepth hrest _)
  | dir b' sub rest ihsub ihrest =>
    obtain ⟨hchild,hsub,hshape⟩ := hs
    rw [Ents.depth] at hdepth
    have hseen : child (seen ++ [(b,k)]) (b,k) = some b' := (henv _ _ (by simp)).trans hchild
    rw [pre,List.cons_append,List.append_assoc]
    refine ⟨_,next_loop_some hshape.le,?_⟩
    refine Resumes.calls (next_r_dir hseen (by omega)) ?_
    refine ihsub hsub (by rw [List.length_cons]; omega) (fun seen => ?_) _
    have hback := ihrest hshape (by omega) hrest seen
    unfold Resumes at hback ⊢
    rwa [next_loop_end]

/-! ## All entries of a block before those below -/

/-- The entries of the blocks below. -/
def subs (len : B → Nat) : Ents B → List (B × B × Nat)
  | .nil => []
  | .file rest => subs len rest
  | .dir b' sub rest => entries len b' 0 ++ subs len sub ++ subs len rest

/-- The call that is in its loops returns the first of these entries, and the next calls the others. -/
def ResumesCtx (len : B → Nat) (child : List (B × Nat) → B × Nat → Option B) (root : B)
    (seen : List (B × Nat)) (s : Ctx B) (xs : List (B × B × Nat)) (ok : Bool) : Prop :=
  match xs,ok with
  | [],true => ∃ c, Returns (ctx_step len (child seen)) s (some (c,none))
  | [],false => Returns (ctx_step len (child seen)) s none
  | x :: xs,ok => ∃ c, Returns (ctx_step len (child seen)) s (some (c,some x)) ∧
      Calls (NextRCtx len child root) (seen ++ [x.2]) c xs ok

theorem ResumesCtx.goes {s s' : Ctx B} (hs : ctx_step len (child seen) s = .inl s')
    (h : ResumesCtx len child root seen s' xs ok) : ResumesCtx len child root seen s xs ok := by
  have hgo := Fuel.Reaches.goes hs
  unfold ResumesCtx at h ⊢
  split
  · exact h.imp fun c hc => hgo _ hc
  · exact hgo _ h
  · exact h.imp fun c hc => hc.imp_left (hgo _)

theorem ResumesCtx.calls {c : Cursor B} (h : ResumesCtx len child root seen (ctx_start root c) xs ok) :
    Calls (NextRCtx len child root) seen c xs ok := by
  match xs,ok with
  | [],true => exact .last h.choose_spec
  | [],false => exact .crash h
  | x :: xs,ok => exact .next h.choose_spec.1 h.choose_spec.2

omit [DecidableEq B] in
theorem entries_succ (h : k < len b) : entries len b k = (b,(b,k)) :: entries len b (k + 1) := by
  rw [entries,show len b - k = len b - (k + 1) + 1 by omega,List.range'_succ]
  rfl

omit [DecidableEq B] in
theorem entries_nil : entries len b (len b) = [] := by
  rw [entries,Nat.sub_self]
  rfl

theorem first_pass (n : Nat) (hn : k + n = len b)
    (hrest : ∀ seen', seen ⊆ seen' → (∀ i < len b, k ≤ i → (b,i) ∈ seen') →
      ResumesCtx len child root seen' ⟨⟨place b 0,.block b,stk⟩,b,true⟩ ys ok) :
    ResumesCtx len child root seen ⟨⟨place b k,.block b,stk⟩,b,false⟩ (entries len b k ++ ys) ok := by
  induction n generalizing k seen with
  | zero =>
    rw [show k = len b from hn,entries_nil]
    refine ResumesCtx.goes ?_ (hrest seen (List.Subset.refl _) (by omega))
    simp only [ctx_step,next_end]
    rfl
  | succ n ih =>
    rw [entries_succ (by omega)]
    refine ⟨⟨place b (k + 1),.block b,stk⟩,Returns.ends ?_,ResumesCtx.calls (ih (by omega) ?_)⟩
    · simp only [ctx_step,next_some (show k < len b by omega)]
      rfl
    · intro seen' hseen hall
      refine hrest seen' (fun e he => hseen (List.mem_append_left _ he)) fun i hi hki => ?_
      rcases Nat.lt_or_eq_of_le hki with hlt | rfl
      · exact hall i hi hlt
      · exact hseen (by simp)

/-- The second pass over a block, from index `k` on. -/
theorem second_pass (hs : Shape len final b k es) (henv : ∀ seen, ∀ e ∈ seen, child seen e = final e)
    (hdepth : es.depth + stk.length ≤ max_depth) (hall : ∀ i < len b, (b,i) ∈ seen)
    (hrest : ∀ seen', seen ⊆ seen' →
      ResumesCtx len child root seen' ⟨⟨place b (len b),.block b,stk⟩,b,true⟩ ys ok) :
    ResumesCtx len child root seen ⟨⟨place b k,.block b,stk⟩,b,true⟩ (subs len es ++ ys) ok := by
  induction es generalizing b k stk seen ys with
  | nil =>
    rw [show k = len b from hs.symm]
    exact hrest seen (List.Subset.refl _)
  | file rest ih =>
    obtain ⟨hchild,hshape⟩ := hs
    have hlt : k < len b := hshape.le
    have hseen : child seen (b,k) = none := (henv _ _ (hall k hlt)).trans hchild
    refine ResumesCtx.goes ?_ (ih hshape hdepth hall hrest)
    simp only [ctx_step,next_some hlt,hseen]
    rfl
  | dir b' sub rest ihsub ihrest =>
    obtain ⟨hchild,hsub,hshape⟩ := hs
    rw [Ents.depth] at hdepth
    have hlt : k < len b := hshape.le
    have hseen : child seen (b,k) = some b' := (henv _ _ (hall k hlt)).trans hchild
    have hroom : ¬ stk.length = max_depth := by omega
    have hpush : ctx_step len (child seen) ⟨⟨place b k,.block b,stk⟩,b,true⟩ =
        .inl ⟨⟨place b' 0,.block b',(b,(b,k)) :: stk⟩,b',false⟩ := by
      simp only [ctx_step,next_some hlt,hseen,if_neg hroom]
      rfl
    rw [subs,List.append_assoc,List.append_assoc]
    refine ResumesCtx.goes hpush (first_pass (len b') (Nat.zero_add _) fun seen' hsub' hall' => ?_)
    refine ihsub hsub (by rw [List.length_cons]; omega) (fun i hi => hall' i hi (Nat.zero_le _))
      fun seen'' hsub'' => ?_
    have hpop : ctx_step len (child seen'') ⟨⟨place b' (len b'),.block b',(b,(b,k)) :: stk⟩,b',true⟩ =
        .inl ⟨⟨place b (k + 1),.block b,stk⟩,b,true⟩ := by
      simp only [ctx_step,next_end]
      rfl
    have hback : seen ⊆ seen'' := fun e he => hsub'' (hsub' he)
    exact ResumesCtx.goes hpop (ihrest hshape (by omega) (fun i hi => hback (hall i hi))
      fun seen' hs' => hrest seen' fun e he => hs' (hback he))

/-- With too many blocks on the way down, a call reads what is not there. -/
theorem ctx_crashes (stk : List (B × B × Nat)) (hs : Shape len final b k es)
    (henv : ∀ seen, ∀ e ∈ seen, child seen e = final e) (hstk : stk.length ≤ max_depth)
    (hdepth : max_depth < es.depth + stk.length) :
    ∃ ys, ∀ seen, (∀ i < len b, (b,i) ∈ seen) →
      ResumesCtx len child root seen ⟨⟨place b k,.block b,stk⟩,b,true⟩ ys false := by
  induction es generalizing b k stk with
  | nil =>
    rw [Ents.depth] at hdepth
    omega
  | file rest ih =>
    obtain ⟨hchild,hshape⟩ := hs
    obtain ⟨ys,hys⟩ := ih stk hshape hstk hdepth
    refine ⟨ys,fun seen hall => ResumesCtx.goes ?_ (hys seen hall)⟩
    have hlt : k < len b := hshape.le
    simp only [ctx_step,next_some hlt,(henv _ _ (hall k hlt)).trans hchild]
    rfl
  | dir b' sub rest ihsub ihrest =>
    obtain ⟨hchild,hsub,hshape⟩ := hs
    rw [Ents.depth] at hdepth
    have hlt : k < len b := hshape.le
    have hpush {seen} (hall : ∀ i < len b, (b,i) ∈ seen) :
        ctx_step len (child seen) ⟨⟨place b k,.block b,stk⟩,b,true⟩ =
          if stk.length = max_depth then .inr none
          else .inl ⟨⟨place b' 0,.block b',(b,(b,k)) :: stk⟩,b',false⟩ := by
      simp only [ctx_step,next_some hlt,(henv _ _ (hall k hlt)).trans hchild]
      rfl
    by_cases hfull : stk.length = max_depth
    · exact ⟨[],fun seen hall => Returns.ends (by rw [hpush hall,if_pos hfull])⟩
    simp only [if_neg hfull] at hpush
    by_cases hdeep : max_depth < sub.depth + (stk.length + 1)
    · obtain ⟨ys,hys⟩ := ihsub ((b,(b,k)) :: stk) hsub (by rw [List.length_cons]; omega) hdeep
      refine ⟨entries len b' 0 ++ ys,fun seen hall => ResumesCtx.goes (hpush hall) ?_⟩
      exact first_pass (len b') (Nat.zero_add _) fun seen' _ hall' =>
        hys seen' fun i hi => hall' i hi (Nat.zero_le _)
    · obtain ⟨ys,hys⟩ := ihrest stk hshape hstk (by omega)
      refine ⟨entries len b' 0 ++ (subs len sub ++ ys),fun seen hall => ResumesCtx.goes (hpush hall) ?_⟩
      refine first_pass (len b') (Nat.zero_add _) fun seen' hsub' hall' => ?_
      refine second_pass hsub henv (by rw [List.length_cons]; omega) (fun i hi => hall' i hi (Nat.zero_le _))
        fun seen'' hsub'' => ?_
      refine ResumesCtx.goes ?_ (hys seen'' fun i hi => hsub'' (hsub' (hall i hi)))
      simp only [ctx_step,next_end]
      rfl

/-! ## What the orders are -/

omit [DecidableEq B] in
theorem mem_entries {x : B × B × Nat} :
    x ∈ entries len b k ↔ x.1 = b ∧ x.2.1 = b ∧ k ≤ x.2.2 ∧ x.2.2 < len b := by
  obtain ⟨c,d,i⟩ := x
  simp only [entries,List.mem_map,List.mem_range'_1,Prod.mk.injEq]
  constructor
  · rintro ⟨j,hj,rfl,rfl,rfl⟩
    exact ⟨rfl,rfl,by omega⟩
  · rintro ⟨rfl,rfl,hi⟩
    exact ⟨i,by omega,rfl,rfl,rfl⟩

theorem pre_perm (hs : Shape len final b k es) :
    (pre b k es).Perm (entries len b k ++ es.post.flatMap fun c => entries len c 0) := by
  induction es generalizing b k with
  | nil =>
    rw [show k = len b from hs.symm,entries_nil]
    exact .refl _
  | file rest ih =>
    rw [entries_succ hs.2.le]
    exact (ih hs.2).cons _
  | dir b' sub rest ihsub ihrest =>
    obtain ⟨-,hsub,hrest⟩ := hs
    rw [entries_succ hrest.le,pre,List.cons_append]
    refine List.Perm.cons _ (((ihsub hsub).append (ihrest hrest)).trans ?_)
    refine List.perm_iff_count.mpr fun x => ?_
    simp only [Ents.post,List.flatMap_append,List.flatMap_cons,List.count_append]
    omega

theorem subs_perm (es : Ents B) : (subs len es).Perm (es.post.flatMap fun c => entries len c 0) := by
  induction es with
  | nil => exact .refl _
  | file rest ih => exact ih
  | dir b' sub rest ihsub ihrest =>
    refine List.Perm.trans ((List.Perm.append (.refl _) ihsub).append ihrest) ?_
    refine List.perm_iff_count.mpr fun x => ?_
    simp only [Ents.post,List.flatMap_append,List.flatMap_cons,List.count_append]
    omega

omit [DecidableEq B] in
theorem mem_flatMap_entries {bs : List B} {x : B × B × Nat} :
    x ∈ bs.flatMap (fun c => entries len c 0) ↔ x.1 ∈ bs ∧ x ∈ entries len x.1 0 := by
  rw [List.mem_flatMap]
  constructor
  · rintro ⟨c,hc,hx⟩
    obtain rfl := (mem_entries.mp hx).1
    exact ⟨hc,hx⟩
  · rintro ⟨hc,hx⟩
    exact ⟨x.1,hc,hx⟩

omit [DecidableEq B] in
/-- The entries of these blocks are there, each once, with its block. -/
theorem entries_nodup {bs : List B} (h : bs.Nodup) : (bs.flatMap fun c => entries len c 0).Nodup := by
  refine List.nodup_flatMap.mpr ⟨fun c _ => ?_,h.imp fun hne x hx hx' => ?_⟩
  · exact List.Nodup.map (fun i j hij => by simpa using hij) List.nodup_range'
  · exact hne ((mem_entries.mp hx).1.symm.trans (mem_entries.mp hx').1)

theorem mem_pre (hs : Shape len final b k es) {x : B × B × Nat} :
    x ∈ pre b k es ↔ x ∈ entries len b k ∨ x.1 ∈ es.post ∧ x ∈ entries len x.1 0 := by
  rw [(pre_perm hs).mem_iff,List.mem_append,mem_flatMap_entries]

theorem pre_before (hs : Shape len final b k es) {c c' : B} {i j : Nat} (hc : c = b ∧ k ≤ i ∨ c ∈ es.post)
    (hi : i < len c) (hchild : final (c,i) = some c') (hj : j < len c') :
    [(c,(c,i)),(c',(c',j))].Sublist (pre b k es) := by
  induction es generalizing b k with
  | nil =>
    rcases hc with ⟨rfl,hk⟩ | hc
    · exact absurd hs (by rw [Shape]; omega)
    · cases hc
  | file rest ih =>
    obtain ⟨hnone,hshape⟩ := hs
    refine (ih hshape ?_).trans (List.sublist_cons_self ..)
    rcases hc with ⟨rfl,hk⟩ | hc
    · rcases Nat.lt_or_eq_of_le hk with hlt | rfl
      · exact .inl ⟨rfl,hlt⟩
      · rw [hnone] at hchild
        cases hchild
    · exact .inr hc
  | dir b' sub rest ihsub ihrest =>
    obtain ⟨hsome,hsub,hshape⟩ := hs
    have hright (h : c = b ∧ k + 1 ≤ i ∨ c ∈ rest.post) :
        [(c,(c,i)),(c',(c',j))].Sublist ((b,(b,k)) :: (pre b' 0 sub ++ pre b (k + 1) rest)) :=
      (ihrest hshape h).trans ((List.sublist_append_right ..).trans (List.sublist_cons_self ..))
    have hleft (h : c = b' ∧ 0 ≤ i ∨ c ∈ sub.post) :
        [(c,(c,i)),(c',(c',j))].Sublist ((b,(b,k)) :: (pre b' 0 sub ++ pre b (k + 1) rest)) :=
      (ihsub hsub h).trans ((List.sublist_append_left ..).trans (List.sublist_cons_self ..))
    rcases hc with ⟨rfl,hk⟩ | hc
    · rcases Nat.lt_or_eq_of_le hk with hlt | rfl
      · exact hright (.inl ⟨rfl,hlt⟩)
      · obtain rfl := Option.some.inj (hchild.symm.trans hsome)
        refine List.Sublist.cons_cons _ (List.singleton_sublist.mpr (List.mem_append_left _ ?_))
        exact (mem_pre hsub).mpr (.inl (mem_entries.mpr ⟨rfl,rfl,Nat.zero_le _,hj⟩))
    · rcases List.mem_append.mp hc with hc | hc
      · exact hleft (.inr hc)
      · rcases List.mem_cons.mp hc with rfl | hc
        · exact hleft (.inl ⟨rfl,Nat.zero_le _⟩)
        · exact hright (.inr hc)

theorem subs_before (hs : Shape len final b k es) {c c' : B} {i j : Nat} (hc : c ∈ es.post) (hi : i < len c)
    (hbelow : Child len final c' c) (hj : j < len c') :
    [(c,(c,i)),(c',(c',j))].Sublist (subs len es) := by
  induction es generalizing b k with
  | nil => cases hc
  | file rest ih => exact ih hs.2 hc
  | dir b' sub rest ihsub ihrest =>
    obtain ⟨-,hsub,hshape⟩ := hs
    rw [subs,List.append_assoc]
    rcases List.mem_append.mp hc with hc | hc
    · exact (ihsub hsub hc).trans ((List.sublist_append_left ..).trans (List.sublist_append_right ..))
    · rcases List.mem_cons.mp hc with rfl | hc
      · have hfirst := mem_entries (x := (c,(c,i))).mpr ⟨rfl,rfl,Nat.zero_le _,hi⟩
        refine (List.singleton_sublist.mpr hfirst).append (List.singleton_sublist.mpr ?_)
        obtain ⟨m,hm,hchild⟩ := hbelow
        refine List.mem_append_left _ ((subs_perm sub).mem_iff.mpr (mem_flatMap_entries.mpr ⟨?_,?_⟩))
        · exact child_mem_post hsub (Nat.zero_le m) hm hchild
        · exact mem_entries.mpr ⟨rfl,rfl,Nat.zero_le _,hj⟩
      · exact (ihrest hshape hc).trans ((List.sublist_append_right ..).trans (List.sublist_append_right ..))

/-- Every entry of every block from the root down is returned once, with its block. -/
def Complete (len : B → Nat) (final : B × Nat → Option B) (root : B) (xs : List (B × B × Nat)) : Prop :=
  xs.Nodup ∧ ∀ x, x ∈ xs ↔ x.2.1 = x.1 ∧ x.2.2 < len x.1 ∧ Relation.ReflTransGen (Child len final) x.1 root

/-- Every entry is returned before those of its block. -/
def ParentFirst (len : B → Nat) (final : B × Nat → Option B) (root : B) (xs : List (B × B × Nat)) : Prop :=
  ∀ c c' i j, Relation.ReflTransGen (Child len final) c root → i < len c → final (c,i) = some c' →
    j < len c' → [(c,(c,i)),(c',(c',j))].Sublist xs

/-- All entries of every block are returned before those of the blocks attached to its entries. -/
def BlockFirst (len : B → Nat) (final : B × Nat → Option B) (root : B) (xs : List (B × B × Nat)) : Prop :=
  ∀ c c' i j, Relation.ReflTransGen (Child len final) c root → Child len final c' c → i < len c →
    j < len c' → [(c,(c,i)),(c',(c',j))].Sublist xs

omit [DecidableEq B] in
theorem reach_iff (hs : Shape len final root 0 es) {c : B} :
    Relation.ReflTransGen (Child len final) c root ↔ c = root ∨ c ∈ es.post := by
  constructor
  · intro h
    induction h using Relation.ReflTransGen.head_induction_on with
    | refl => exact .inl rfl
    | head hxy _ ih =>
      rcases ih with rfl | hmem
      · obtain ⟨m,hm,hchild⟩ := hxy
        exact .inr (child_mem_post hs (Nat.zero_le m) hm hchild)
      · exact .inr ((child_before hs hmem hxy).subset (List.mem_cons_self ..))
  · rintro (rfl | h)
    · exact .refl
    · exact (post_below hs h).to_reflTransGen

omit [DecidableEq B] in
theorem complete_of_perm (hs : Shape len final root 0 es) (hn : (root :: es.post).Nodup)
    (h : xs.Perm ((root :: es.post).flatMap fun c => entries len c 0)) : Complete len final root xs := by
  refine ⟨h.nodup_iff.mpr (entries_nodup hn),fun x => ?_⟩
  rw [h.mem_iff,mem_flatMap_entries,mem_entries,reach_iff hs,List.mem_cons]
  simp only [true_and,Nat.zero_le]
  tauto

theorem ctx_not_complete (hs : Shape len final root 0 es) (henv : ∀ seen, ∀ e ∈ seen, child seen e = final e)
    (hdepth : max_depth < es.depth) : ¬ Calls (NextRCtx len child root) [] ⟨none,.null,[]⟩ xs true := by
  intro hxs
  obtain ⟨ys,hys⟩ := ctx_crashes [] hs henv (Nat.zero_le _) hdepth
  have hcrash : ResumesCtx len child root [] ⟨⟨place root 0,.block root,[]⟩,root,false⟩
      (entries len root 0 ++ ys) false :=
    first_pass (len root) (Nat.zero_add _) fun seen' _ hall => hys seen' fun i hi => hall i hi (Nat.zero_le _)
  have hcalls : Calls (NextRCtx len child root) [] ⟨none,.null,[]⟩ (entries len root 0 ++ ys) false :=
    ResumesCtx.calls hcrash
  cases (hxs.unique (fun _ _ _ _ h h' => h.unique h') hcalls).2

/-- Both walks are complete and in order if and only if the stack has room for every way down. -/
theorem walks_iff (hs : Shape len final root 0 es) (hn : (root :: es.post).Nodup)
    (henv : ∀ seen, ∀ e ∈ seen, child seen e = final e) :
    ((∃ xs, Calls (NextR len child root) [] ⟨none,.null,[]⟩ xs true ∧ Complete len final root xs ∧
        ParentFirst len final root xs) ∧
      ∃ xs, Calls (NextRCtx len child root) [] ⟨none,.null,[]⟩ xs true ∧ Complete len final root xs ∧
        BlockFirst len final root xs) ↔ es.depth ≤ max_depth := by
  constructor
  · rintro ⟨-,xs,hxs,-⟩
    exact Nat.le_of_not_lt fun hdepth => ctx_not_complete hs henv hdepth hxs
  · intro hdepth
    have hroom : es.depth + List.length ([] : List (B × B × Nat)) ≤ max_depth := hdepth
    constructor
    · refine ⟨pre root 0 es ++ [],?_,?_,?_⟩
      · refine Resumes.calls (c := ⟨none,.null,[]⟩) rfl (resumes_rest hs henv hroom (fun seen => ?_) [])
        simp only [Resumes,next_loop,next_end]
      · rw [List.append_nil]
        exact complete_of_perm hs hn (pre_perm hs)
      · intro c c' i j hc hi hchild hj
        rw [List.append_nil]
        exact pre_before hs (((reach_iff hs).mp hc).imp_left fun h => ⟨h,Nat.zero_le _⟩) hi hchild hj
    · refine ⟨entries len root 0 ++ (subs len es ++ []),?_,?_,?_⟩
      · refine ResumesCtx.calls (first_pass (len root) (Nat.zero_add _) fun seen _ hall => ?_)
        refine second_pass hs henv hroom (fun i hi => hall i hi (Nat.zero_le _)) fun seen' _ => ?_
        exact ⟨⟨place root (len root),.block root,[]⟩,Returns.ends (by simp only [ctx_step,next_end])⟩
      · rw [List.append_nil]
        exact complete_of_perm hs hn (List.Perm.append (.refl _) (subs_perm es))
      · intro c c' i j hc hbelow hi hj
        rw [List.append_nil]
        rcases (reach_iff hs).mp hc with rfl | hc
        · have hfirst := mem_entries (x := (c,(c,i))).mpr ⟨rfl,rfl,Nat.zero_le _,hi⟩
          refine (List.singleton_sublist.mpr hfirst).append (List.singleton_sublist.mpr ?_)
          obtain ⟨m,hm,hchild⟩ := hbelow
          refine (subs_perm es).mem_iff.mpr (mem_flatMap_entries.mpr ⟨?_,?_⟩)
          · exact child_mem_post hs (Nat.zero_le m) hm hchild
          · exact mem_entries.mpr ⟨rfl,rfl,Nat.zero_le _,hj⟩
        · exact (subs_before hs hc hi hbelow hj).trans (List.sublist_append_right ..)

end Run

theorem walks_two :
    (∃ xs, Calls (NextR (fun b => if b = 0 then 2 else 1)
          (fun seen e => if e = (0,1) ∧ e ∈ seen then some 1 else none) 0) [] ⟨none,.null,[]⟩ xs true ∧
        Complete (fun b => if b = 0 then 2 else 1) (fun e => if e = (0,1) then some 1 else none) 0 xs ∧
        ParentFirst (fun b => if b = 0 then 2 else 1) (fun e => if e = (0,1) then some 1 else none) 0 xs) ∧
      ∃ xs, Calls (NextRCtx (fun b => if b = 0 then 2 else 1)
          (fun seen e => if e = (0,1) ∧ e ∈ seen then some 1 else none) 0) [] ⟨none,.null,[]⟩ xs true ∧
        Complete (fun b => if b = 0 then 2 else 1) (fun e => if e = (0,1) then some 1 else none) 0 xs ∧
        BlockFirst (fun b => if b = 0 then 2 else 1) (fun e => if e = (0,1) then some 1 else none) 0 xs := by
  have hs : Shape (fun b => if b = 0 then 2 else 1) (fun e => if e = (0,1) then some 1 else none) 0 0
      (.file (.dir 1 (.file .nil) .nil)) := ⟨rfl,rfl,⟨rfl,rfl⟩,rfl⟩
  exact (walks_iff hs (by decide) (by simp +contextual)).mpr (by decide)

/-- A chain of blocks with one entry each, from block `b` on. -/
def chain : Nat → Nat → Ents Nat
  | _,0 => .file .nil
  | b,n + 1 => .dir (b + 1) (chain (b + 1) n) .nil

theorem chain_shape (b n : Nat) (h : b + n = 65) :
    Shape (fun _ => 1) (fun e => if e.1 < 65 ∧ e.2 = 0 then some (e.1 + 1) else none) b 0 (chain b n) := by
  induction n generalizing b with
  | zero => exact ⟨if_neg fun h' => by omega,rfl⟩
  | succ n ih => exact ⟨if_pos ⟨by omega,rfl⟩,ih (b + 1) (by omega),rfl⟩

/-- In a chain of 66 blocks the second walk does not come to an end. -/
theorem walks_chain_fails : ¬ ∃ xs, Calls (NextRCtx (fun _ => 1)
    (fun _ e => if e.1 < 65 ∧ e.2 = 0 then some (e.1 + 1) else none) 0) [] ⟨none,.null,[]⟩ xs true := by
  rintro ⟨xs,hxs⟩
  exact ctx_not_complete (chain_shape 0 65 rfl) (fun _ _ _ => rfl) (by decide +kernel) hxs

end Phiola.FnTree
