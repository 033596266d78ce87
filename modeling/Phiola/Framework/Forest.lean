import Mathlib.Data.List.Basic
import Mathlib.Tactic.TypeStar

/-!
# Comparing ordered forests

Two forests with keys are walked side by side, each node before those below it. Next to the walk over the
listings, which sees the depths of the nodes only, is the merge by recursion, and what it says of the nodes
when siblings ascend: a node is on one side only, or the other forest has one with the same way from the root.
-/

namespace Forests

/-- The first tree of a forest, by its label and the forest below it, and the rest. -/
inductive Forest (α : Type*)
  | nil
  | node (a : α) (sub rest : Forest α)

variable {α β K : Type*}

/-! ## Listings -/

namespace Forest

/-- Each node before those below it. -/
def pre : Forest α → List α
  | .nil => []
  | .node a sub rest => a :: (sub.pre ++ rest.pre)

/-- The same with the depths. -/
def preD : Nat → Forest α → List (Nat × α)
  | _,.nil => []
  | d,.node a sub rest => (d,a) :: (preD (d + 1) sub ++ preD d rest)

/-- The labels of the roots. -/
def tops : Forest α → List α
  | .nil => []
  | .node a _ rest => a :: rest.tops

/-- Each node with the keys on the way to it. -/
def paths (key : α → K) : Forest α → List (List K × α)
  | .nil => []
  | .node a sub rest => (([key a],a) :: (sub.paths key).map fun p => (key a :: p.1,p.2)) ++ rest.paths key

/-- The same for the first tree of a forest. -/
def treePaths (key : α → K) (a : α) (sub : Forest α) : List (List K × α) :=
  ([key a],a) :: (sub.paths key).map fun p => (key a :: p.1,p.2)

/-- Siblings have ascending keys. -/
def Asc (cmp : K → K → Ordering) (key : α → K) : Forest α → Prop
  | .nil => True
  | .node a sub rest => (∀ x ∈ rest.tops, cmp (key a) (key x) = .lt) ∧ sub.Asc cmp key ∧ rest.Asc cmp key

end Forest

open Forest

variable {key : α → K} {f : Forest α}

theorem paths_node (key : α → K) (a : α) (sub rest : Forest α) :
    (Forest.node a sub rest).paths key = treePaths key a sub ++ rest.paths key := rfl

theorem paths_snd (key : α → K) (f : Forest α) : (f.paths key).map Prod.snd = f.pre := by
  induction f with
  | nil => rfl
  | node a sub rest ihsub ihrest =>
    rw [paths,List.map_append,List.map_cons,List.map_map,ihrest,pre,← ihsub]
    rfl

theorem treePaths_snd (key : α → K) (a : α) (sub : Forest α) :
    (treePaths key a sub).map Prod.snd = a :: sub.pre := by
  rw [treePaths,List.map_cons,List.map_map,← paths_snd key sub]
  rfl

/-- A way starts at a root. -/
theorem paths_head {p : List K × α} (h : p ∈ f.paths key) : ∃ x ∈ f.tops, ∃ w, p.1 = key x :: w := by
  induction f with
  | nil => cases h
  | node a sub rest _ ihrest =>
    rw [paths,List.mem_append,List.mem_cons,List.mem_map] at h
    rcases h with (rfl | ⟨q,-,rfl⟩) | h
    · exact ⟨a,List.mem_cons_self,[],rfl⟩
    · exact ⟨a,List.mem_cons_self,q.1,rfl⟩
    · obtain ⟨x,hx,hw⟩ := ihrest h
      exact ⟨x,List.mem_cons_of_mem _ hx,hw⟩

/-! ## The walk -/

/-- What is seen of two nodes. -/
inductive Item (α β : Type*)
  | left (a : α)
  | right (b : β)
  | both (a : α) (b : β)
  deriving DecidableEq

def Item.left? : Item α β → Option α
  | .left a => some a
  | .right _ => none
  | .both a _ => some a

def Item.right? : Item α β → Option β
  | .left _ => none
  | .right b => some b
  | .both _ b => some b

variable (side : α → β → Ordering)

/-- The nodes that come next, of which the deeper one is taken alone, and at the same depth the lower one. -/
def pick : List (Nat × α) → List (Nat × β) → Option (Item α β × List (Nat × α) × List (Nat × β))
  | [],[] => none
  | [],(_,b) :: ys => some (.right b,[],ys)
  | (_,a) :: xs,[] => some (.left a,xs,[])
  | (d,a) :: xs,(e,b) :: ys =>
    if d < e then some (.right b,(d,a) :: xs,ys)
    else if e < d then some (.left a,xs,(e,b) :: ys)
    else
      match side a b with
      | .lt => some (.left a,xs,(e,b) :: ys)
      | .gt => some (.right b,(d,a) :: xs,ys)
      | .eq => some (.both a b,xs,ys)

/-- The items are picked one after another until there are no nodes. -/
inductive Walk : List (Nat × α) → List (Nat × β) → List (Item α β) → Prop
  | done : Walk [] [] []
  | next {xs xs' ys ys' i is} (h : pick side xs ys = some (i,xs',ys')) (hrest : Walk xs' ys' is) :
      Walk xs ys (i :: is)

/-! ## The merge -/

/-- The merge of a tree and its siblings with a forest, where those of the forests below the root and beside
it are given. -/
def mergeNode (a : α) (s r : Forest α) (ms mr : Forest β → List (Item α β)) : Forest β → List (Item α β)
  | .nil => (Forest.node a s r).pre.map .left
  | .node b t q =>
    match side a b with
    | .lt => .left a :: (s.pre.map .left ++ mr (.node b t q))
    | .gt => .right b :: (t.pre.map .right ++ mergeNode a s r ms mr q)
    | .eq => .both a b :: (ms t ++ mr q)

def merge : Forest α → Forest β → List (Item α β)
  | .nil,g => g.pre.map .right
  | .node a s r,g => mergeNode side a s r (merge s) (merge r) g

variable {side} {g : Forest β} {xs : List (Nat × α)} {ys : List (Nat × β)} {is : List (Item α β)} {d : Nat}

/-- The first of these nodes, if there is one, is above the depth. -/
def Above (d : Nat) (xs : List (Nat × α)) : Prop := ∀ x ∈ xs.head?, x.1 < d

theorem above_preD (f : Forest α) (h : Above d xs) : Above (d + 1) (preD d f ++ xs) := by
  cases f with
  | nil => exact fun x hx => Nat.lt_succ_of_lt (h x hx)
  | node a sub rest =>
    intro x hx
    obtain rfl : (d,a) = x := Option.some.inj hx
    exact Nat.lt_succ_self d

theorem pick_left (d : Nat) (a : α) (xs : List (Nat × α)) (h : Above d ys) :
    pick side ((d,a) :: xs) ys = some (.left a,xs,ys) := by
  cases ys with
  | nil => rfl
  | cons y ys =>
    have hlt : y.1 < d := h y rfl
    rw [pick,if_neg (by omega),if_pos hlt]

theorem pick_right (d : Nat) (b : β) (ys : List (Nat × β)) (h : Above d xs) :
    pick side xs ((d,b) :: ys) = some (.right b,xs,ys) := by
  cases xs with
  | nil => rfl
  | cons x xs =>
    have hlt : x.1 < d := h x rfl
    rw [pick,if_pos hlt]

/-- A forest is left before the walk goes on with the other side. -/
theorem walk_left (f : Forest α) (h : Above d ys) (hrest : Walk side xs ys is) :
    Walk side (preD d f ++ xs) ys (f.pre.map .left ++ is) := by
  induction f generalizing d xs is with
  | nil => exact hrest
  | node a sub rest ihsub ihrest =>
    simp only [preD,pre,List.map_cons,List.map_append,List.cons_append,List.append_assoc]
    refine .next (pick_left d a _ h) (ihsub (fun y hy => Nat.lt_succ_of_lt (h y hy)) ?_)
    exact ihrest h hrest

theorem walk_right (g : Forest β) (h : Above d xs) (hrest : Walk side xs ys is) :
    Walk side xs (preD d g ++ ys) (g.pre.map .right ++ is) := by
  induction g generalizing d ys is with
  | nil => exact hrest
  | node b sub rest ihsub ihrest =>
    simp only [preD,pre,List.map_cons,List.map_append,List.cons_append,List.append_assoc]
    refine .next (pick_right d b _ h) (ihsub (fun x hx => Nat.lt_succ_of_lt (h x hx)) ?_)
    exact ihrest h hrest

/-- Two forests at the same depth are merged before the walk leaves them. -/
theorem walk_merge (f : Forest α) (g : Forest β) (hx : Above d xs) (hy : Above d ys)
    (hrest : Walk side xs ys is) : Walk side (preD d f ++ xs) (preD d g ++ ys) (merge side f g ++ is) := by
  induction f generalizing d g xs ys is with
  | nil => exact walk_right g hx hrest
  | node a s r ihs ihr =>
    induction g with
    | nil => exact walk_left (.node a s r) hy hrest
    | node b t q _ ihq =>
      have hpick : pick side (preD d (.node a s r) ++ xs) (preD d (.node b t q) ++ ys) =
          match side a b with
          | .lt => some (.left a,preD (d + 1) s ++ (preD d r ++ xs),preD d (.node b t q) ++ ys)
          | .gt => some (.right b,preD d (.node a s r) ++ xs,preD (d + 1) t ++ (preD d q ++ ys))
          | .eq => some (.both a b,preD (d + 1) s ++ (preD d r ++ xs),preD (d + 1) t ++ (preD d q ++ ys)) := by
        simp only [preD,List.cons_append,List.append_assoc,pick,if_neg (Nat.lt_irrefl d)]
      rw [merge,mergeNode]
      cases hside : side a b with
      | lt =>
        rw [hside] at hpick
        simp only [List.cons_append,List.append_assoc]
        exact .next hpick (walk_left s (above_preD (.node b t q) hy) (ihr (.node b t q) hx hy hrest))
      | gt =>
        rw [hside] at hpick
        simp only [List.cons_append,List.append_assoc]
        exact .next hpick (walk_right t (above_preD (.node a s r) hx) ihq)
      | eq =>
        rw [hside] at hpick
        simp only [List.cons_append,List.append_assoc]
        exact .next hpick (ihs t (above_preD r hx) (above_preD q hy) (ihr q hx hy hrest))

/-- The walk over the listings of two forests is their merge. -/
theorem walk_pre (f : Forest α) (g : Forest β) : Walk side (preD 0 f) (preD 0 g) (merge side f g) := by
  have h : Walk side (preD 0 f ++ []) (preD 0 g ++ []) (merge side f g ++ []) :=
    walk_merge f g (fun x hx => by cases hx) (fun y hy => by cases hy) .done
  simpa using h

/-! ## What the merge says -/

theorem merge_left? (f : Forest α) (g : Forest β) : (merge side f g).filterMap Item.left? = f.pre := by
  have hleft (as : List α) : (as.map (.left : α → Item α β)).filterMap Item.left? = as := by
    rw [List.filterMap_map]
    exact List.filterMap_some
  have hright (bs : List β) : (bs.map (.right : β → Item α β)).filterMap Item.left? = [] := by
    rw [List.filterMap_map]
    exact List.filterMap_eq_nil_iff.mpr fun _ _ => rfl
  induction f generalizing g with
  | nil => exact hright _
  | node a s r ihs ihr =>
    induction g with
    | nil => exact hleft _
    | node b t q _ ihq =>
      rw [merge] at ihq ⊢
      rw [mergeNode]
      cases side a b with
      | lt => simp [Item.left?,pre,hleft,ihr]
      | gt =>
        dsimp only
        rw [List.filterMap_cons_none rfl,List.filterMap_append,hright,ihq]
        rfl
      | eq => simp [Item.left?,pre,ihs,ihr]

theorem merge_right? (f : Forest α) (g : Forest β) : (merge side f g).filterMap Item.right? = g.pre := by
  have hright (bs : List β) : (bs.map (.right : β → Item α β)).filterMap Item.right? = bs := by
    rw [List.filterMap_map]
    exact List.filterMap_some
  have hleft (as : List α) : (as.map (.left : α → Item α β)).filterMap Item.right? = [] := by
    rw [List.filterMap_map]
    exact List.filterMap_eq_nil_iff.mpr fun _ _ => rfl
  induction f generalizing g with
  | nil => exact hright _
  | node a s r ihs ihr =>
    induction g with
    | nil => exact hleft _
    | node b t q _ ihq =>
      rw [merge] at ihq ⊢
      rw [mergeNode]
      cases side a b with
      | lt =>
        dsimp only
        rw [List.filterMap_cons_none rfl,List.filterMap_append,hleft,ihr]
        rfl
      | gt => simp [Item.right?,pre,hright,ihq]
      | eq => simp [Item.right?,pre,ihs,ihr]

/-- The item says which of the lists have a node with this way. -/
def Placed (P : List (List K × α)) (Q : List (List K × β)) : Item α β → Prop
  | .left a => ∃ p, (p,a) ∈ P ∧ ∀ b, (p,b) ∉ Q
  | .right b => ∃ p, (p,b) ∈ Q ∧ ∀ a, (p,a) ∉ P
  | .both a b => ∃ p, (p,a) ∈ P ∧ (p,b) ∈ Q

variable {P U : List (List K × α)} {Q V : List (List K × β)} {i : Item α β}

/-- Parts of the lists are compared on their own when their ways differ. -/
theorem placed_append (h : ∀ x ∈ P, ∀ y ∈ V, x.1 ≠ y.1) (h' : ∀ x ∈ U, ∀ y ∈ Q, x.1 ≠ y.1) :
    Placed (P ++ U) (Q ++ V) i ↔ Placed P Q i ∨ Placed U V i := by
  have hne {p a b} (ha : (p,a) ∈ P) (hb : (p,b) ∈ V) : False := h _ ha _ hb rfl
  have hne' {p a b} (ha : (p,a) ∈ U) (hb : (p,b) ∈ Q) : False := h' _ ha _ hb rfl
  cases i with
  | left a =>
    simp only [Placed,List.mem_append,not_or]
    constructor
    · rintro ⟨p,hp | hp,hq⟩
      · exact .inl ⟨p,hp,fun b => (hq b).1⟩
      · exact .inr ⟨p,hp,fun b => (hq b).2⟩
    · rintro (⟨p,hp,hq⟩ | ⟨p,hp,hq⟩)
      · exact ⟨p,.inl hp,fun b => ⟨hq b,hne hp⟩⟩
      · exact ⟨p,.inr hp,fun b => ⟨hne' hp,hq b⟩⟩
  | right b =>
    simp only [Placed,List.mem_append,not_or]
    constructor
    · rintro ⟨p,hp | hp,hq⟩
      · exact .inl ⟨p,hp,fun a => (hq a).1⟩
      · exact .inr ⟨p,hp,fun a => (hq a).2⟩
    · rintro (⟨p,hp,hq⟩ | ⟨p,hp,hq⟩)
      · exact ⟨p,.inl hp,fun a => ⟨hq a,fun ha => hne' ha hp⟩⟩
      · exact ⟨p,.inr hp,fun a => ⟨fun ha => hne ha hp,hq a⟩⟩
  | both a b =>
    simp only [Placed,List.mem_append]
    constructor
    · rintro ⟨p,ha | ha,hb | hb⟩
      · exact .inl ⟨p,ha,hb⟩
      · exact absurd hb (hne ha)
      · exact absurd hb (hne' ha)
      · exact .inr ⟨p,ha,hb⟩
    · rintro (⟨p,ha,hb⟩ | ⟨p,ha,hb⟩)
      · exact ⟨p,.inl ha,.inl hb⟩
      · exact ⟨p,.inr ha,.inr hb⟩

theorem placed_nil_right : Placed P ([] : List (List K × β)) i ↔ i ∈ (P.map Prod.snd).map .left := by
  cases i <;> simp [Placed]

theorem placed_nil_left : Placed ([] : List (List K × α)) Q i ↔ i ∈ (Q.map Prod.snd).map .right := by
  cases i <;> simp [Placed]

theorem mem_below {k : K} {p : List K} {a : α} :
    (p,a) ∈ (P.map fun q => (k :: q.1,q.2)) ↔ ∃ w, p = k :: w ∧ (w,a) ∈ P := by
  rw [List.mem_map]
  constructor
  · rintro ⟨⟨w,b⟩,hw,heq⟩
    obtain ⟨rfl,rfl⟩ := Prod.mk.inj heq
    exact ⟨w,rfl,hw⟩
  · rintro ⟨w,rfl,hw⟩
    exact ⟨(w,a),hw,rfl⟩

/-- The forests below two nodes with the same way. -/
theorem placed_below (k : K) :
    Placed (P.map fun p => (k :: p.1,p.2)) (Q.map fun q => (k :: q.1,q.2)) i ↔ Placed P Q i := by
  cases i with
  | left a =>
    constructor
    · rintro ⟨p,hp,hq⟩
      obtain ⟨w,rfl,hw⟩ := mem_below.mp hp
      exact ⟨w,hw,fun b hb => hq b (mem_below.mpr ⟨w,rfl,hb⟩)⟩
    · rintro ⟨w,hw,hq⟩
      refine ⟨k :: w,mem_below.mpr ⟨w,rfl,hw⟩,fun b hb => ?_⟩
      obtain ⟨w',heq,hb'⟩ := mem_below.mp hb
      obtain rfl := (List.cons.inj heq).2
      exact hq b hb'
  | right b =>
    constructor
    · rintro ⟨p,hp,hq⟩
      obtain ⟨w,rfl,hw⟩ := mem_below.mp hp
      exact ⟨w,hw,fun a ha => hq a (mem_below.mpr ⟨w,rfl,ha⟩)⟩
    · rintro ⟨w,hw,hq⟩
      refine ⟨k :: w,mem_below.mpr ⟨w,rfl,hw⟩,fun a ha => ?_⟩
      obtain ⟨w',heq,ha'⟩ := mem_below.mp ha
      obtain rfl := (List.cons.inj heq).2
      exact hq a ha'
  | both a b =>
    constructor
    · rintro ⟨p,hp,hq⟩
      obtain ⟨w,rfl,hw⟩ := mem_below.mp hp
      obtain ⟨w',heq,hw'⟩ := mem_below.mp hq
      obtain rfl := (List.cons.inj heq).2
      exact ⟨w,hw,hw'⟩
    · rintro ⟨w,hw,hw'⟩
      exact ⟨k :: w,mem_below.mpr ⟨w,rfl,hw⟩,mem_below.mpr ⟨w,rfl,hw'⟩⟩

section Ascending
variable {cmp : K → K → Ordering} {key' : β → K}

theorem mem_treePaths {a : α} {s : Forest α} {p : List K × α} (h : p ∈ treePaths key a s) :
    ∃ w, p.1 = key a :: w := by
  rcases List.mem_cons.mp h with rfl | h
  · exact ⟨[],rfl⟩
  · obtain ⟨q,-,rfl⟩ := List.mem_map.mp h
    exact ⟨q.1,rfl⟩

/-- The ways in a tree, next to a forest whose roots have other keys. -/
theorem treePaths_ne {a : α} {s : Forest α} {p : List K × α} {q : List K × β}
    (h : ∀ x ∈ g.tops, key' x ≠ key a) (hp : p ∈ treePaths key a s) (hq : q ∈ g.paths key') : p.1 ≠ q.1 := by
  obtain ⟨w,hw⟩ := mem_treePaths hp
  obtain ⟨x,hx,w',hw'⟩ := paths_head hq
  rw [hw,hw']
  exact fun heq => h x hx (List.cons.inj heq).1.symm

/-- The ways below a root are longer. -/
theorem below_ne {k : K} {x : List K × α} (hx : x ∈ (f.paths key).map fun p => (k :: p.1,p.2)) :
    x.1 ≠ [k] := by
  obtain ⟨q,hq,rfl⟩ := List.mem_map.mp hx
  obtain ⟨_,_,w,hw⟩ := paths_head hq
  intro h
  rw [hw] at h
  cases (List.cons.inj h).2

/-- Two trees whose roots have the same key. -/
theorem placed_trees {a : α} {b : β} {s : Forest α} {t : Forest β} (heq : key a = key' b) :
    Placed (treePaths key a s) (treePaths key' b t) i ↔
      i = .both a b ∨ Placed (s.paths key) (t.paths key') i := by
  have hsplit := placed_append (i := i) (P := [([key a],a)]) (Q := [([key a],b)])
    (U := (s.paths key).map fun p => (key a :: p.1,p.2)) (V := (t.paths key').map fun p => (key a :: p.1,p.2))
    (fun x hx y hy => by rw [List.mem_singleton.mp hx]; exact (below_ne hy).symm)
    (fun x hx y hy => by rw [List.mem_singleton.mp hy]; exact below_ne hx)
  rw [placed_below] at hsplit
  rw [treePaths,treePaths,← heq]
  refine hsplit.trans (or_congr_left ?_)
  cases i <;> simp [Placed]

variable [Std.TransCmp cmp] [Std.LawfulEqCmp cmp]

omit [Std.TransCmp cmp] in
theorem ne_of_lt {k k' : K} (h : cmp k k' = .lt) : k' ≠ k := by
  rintro rfl
  have hself : cmp k' k' = .eq := Std.ReflCmp.compare_self
  cases h.symm.trans hself

/-- Roots that ascend from one with a higher key have higher keys. -/
theorem tops_ne {b : β} {t q : Forest β} {k : K} (h : cmp k (key' b) = .lt)
    (hb : ∀ x ∈ q.tops, cmp (key' b) (key' x) = .lt) : ∀ x ∈ (Forest.node b t q).tops, key' x ≠ k := by
  intro x hx
  rcases List.mem_cons.mp hx with rfl | hx
  · exact ne_of_lt h
  · exact ne_of_lt (Std.TransCmp.lt_trans h (hb x hx))

/-- With ascending siblings the merge has the nodes whose ways are in one forest only, and those with the same
way in both. -/
theorem mem_merge (f : Forest α) (g : Forest β) (hf : f.Asc cmp key) (hg : g.Asc cmp key') :
    i ∈ merge (fun a b => cmp (key a) (key' b)) f g ↔ Placed (f.paths key) (g.paths key') i := by
  induction f generalizing g i with
  | nil =>
    rw [merge,paths,placed_nil_left,paths_snd]
  | node a s r ihs ihr =>
    obtain ⟨ha,hs,hr⟩ := hf
    induction g generalizing i with
    | nil =>
      rw [merge,mergeNode,show paths key' (.nil : Forest β) = [] from rfl,placed_nil_right,paths_snd]
    | node b t q _ ihq =>
      have hb := hg.1
      rw [merge,mergeNode]
      cases hside : cmp (key a) (key' b) with
      | lt =>
        have hne := tops_ne (t := t) hside hb
        have hsplit := placed_append (i := i) (P := treePaths key a s) (U := r.paths key) (Q := [])
          (V := (Forest.node b t q).paths key') (fun x hx y hy => treePaths_ne hne hx hy)
          (fun x _ y hy => by cases hy)
        rw [List.nil_append,← paths_node,placed_nil_right,treePaths_snd,List.map_cons] at hsplit
        dsimp only
        rw [← List.cons_append,List.mem_append,ihr _ hr hg,hsplit]
      | gt =>
        have hne := tops_ne (t := s) (Std.OrientedCmp.gt_iff_lt.mp hside) ha
        have hsplit := placed_append (i := i) (P := []) (U := (Forest.node a s r).paths key)
          (Q := treePaths key' b t) (V := q.paths key') (fun x hx => by cases hx)
          (fun x hx y hy => (treePaths_ne hne hy hx).symm)
        rw [List.nil_append,← paths_node,placed_nil_left,treePaths_snd,List.map_cons] at hsplit
        have hrec := ihq (i := i) hg.2.2
        rw [merge] at hrec
        dsimp only
        rw [← List.cons_append,List.mem_append,hrec,hsplit]
      | eq =>
        have heq : key a = key' b := Std.LawfulEqCmp.compare_eq_iff_eq.mp hside
        have hne : ∀ x ∈ q.tops, key' x ≠ key a := fun x hx => heq ▸ ne_of_lt (hb x hx)
        have hne' : ∀ x ∈ r.tops, key x ≠ key' b := fun x hx => heq ▸ ne_of_lt (ha x hx)
        have hsplit := placed_append (i := i) (P := treePaths key a s) (U := r.paths key)
          (Q := treePaths key' b t) (V := q.paths key') (fun x hx y hy => treePaths_ne hne hx hy)
          (fun x hx y hy => (treePaths_ne hne' hy hx).symm)
        rw [← paths_node,← paths_node,placed_trees heq] at hsplit
        dsimp only
        rw [← List.cons_append,List.mem_append,List.mem_cons,ihs _ hs hg.2.1,ihr _ hr hg.2.2,hsplit]

end Ascending

end Forests
