import Mathlib.Data.List.TakeWhile
import Phiola.Format.Meta

/-!
# Values with zero bytes

A reader gives a tag's value with its length; the store keeps it as text that ends at a NUL, and the
writers of FLAC and MP3 files take what the store lists. A run is compared with the run that stores
the values cut before their first NUL: both keep the same pointers.
-/

namespace Phiola.MetaStore

/-! ## The writers -/

/-- What the writer of a FLAC file is given. -/
inductive Written
  | tag (name val : Name)
  | pic (data : Name)
deriving DecidableEq, Repr

/-- The loop of `flac_out_addmeta()`; `add` is false where the writer takes no more. -/
def flac_loop (add : Name → Name → Bool) : Pairs → List Written × Bool
  | [] => ([],true)
  | (name,val) :: rest =>
    if name = "vendor".toList then flac_loop add rest
    else if name = "picture".toList then
      let (ws,ok) := flac_loop add rest
      (.pic val :: ws,ok)
    else if add name val then
      let (ws,ok) := flac_loop add rest
      (.tag name val :: ws,ok)
    else ([],false)

def flac_out_addmeta (add : Name → Name → Bool) (flac_vendor : Name) (m : Mem) (store : List Ptr) :
    Option (List Written × Bool) :=
  if add "vendor".toList flac_vendor then do
    let pairs ← list_all m store ⟨true,false⟩
    let (ws,ok) := flac_loop add pairs
    pure (.tag "vendor".toList flac_vendor :: ws,ok)
  else some ([],false)

def ffmmtag_str : List Name :=
  ["".toList,"album".toList,"albumartist".toList,"artist".toList,"comment".toList,
    "composer".toList,"copyright".toList,"date".toList,"discnumber".toList,"genre".toList,
    "lyrics".toList,"picture".toList,"publisher".toList,"title".toList,"tracknumber".toList,
    "tracktotal".toList,"vendor".toList]

def MMTAG_PICTURE : Nat := 11

def MMTAG_VENDOR : Nat := 16

/-- The body of the loop of `mpeg_out_addmeta()`; where the writer does not take the tag, the loop
goes on. -/
def mpeg_tag (p : Name × Name) : Option (Nat × Name) :=
  if p.1 = "vendor".toList then none
  else
    match ffmmtag_str.findIdx? (· = p.1) with
    | none => none
    | some tag => if tag = MMTAG_VENDOR then none else some (tag,p.2)

def mpeg_out_addmeta (m : Mem) (store : List Ptr) : Option (List (Nat × Name)) := do
  let pairs ← list_all m store ⟨true,false⟩
  pure (pairs.filterMap mpeg_tag)

def Written.picture : Written → Option Name
  | .tag _ _ => none
  | .pic data => some data

/-- The pictures in a FLAC file. -/
def flac_pictures (r : List Written × Bool) : List Name := r.1.filterMap Written.picture

/-- The pictures in an MP3 file. -/
def mpeg_pictures (tags : List (Nat × Name)) : List Name :=
  (tags.filter fun t => t.1 = MMTAG_PICTURE).map Prod.snd

/-- The pictures among the pairs. -/
def pictures (pairs : Pairs) : List Name :=
  (pairs.filter fun p => p.1 = "picture".toList).map Prod.snd

theorem flac_loop_pictures {add : Name → Name → Bool} (h : ∀ n v, add n v = true) (pairs : Pairs) :
    flac_pictures (flac_loop add pairs) = pictures pairs := by
  induction pairs with
  | nil => rfl
  | cons p pairs ih =>
    obtain ⟨name,val⟩ := p
    unfold flac_loop
    split
    · rename_i hname
      rw [ih,hname]
      rfl
    · split
      · rename_i hname
        rw [hname]
        exact congrArg (val :: ·) ih
      · rename_i hname
        have hd : ¬ decide (name = "picture".toList) = true := fun hd => hname (of_decide_eq_true hd)
        rw [if_pos (h name val),pictures,List.filter_cons,if_neg hd]
        exact ih

theorem mpeg_tag_picture {p : Name × Name} (h : p.1 = "picture".toList) :
    mpeg_tag p = some (MMTAG_PICTURE,p.2) := by
  obtain ⟨name,val⟩ := p
  subst h
  rfl

theorem mpeg_tag_other {p : Name × Name} {t : Nat × Name} (h : p.1 ≠ "picture".toList)
    (ht : mpeg_tag p = some t) : t.1 ≠ MMTAG_PICTURE := by
  unfold mpeg_tag at ht
  split at ht
  · cases ht
  · split at ht
    · cases ht
    · rename_i tag htag
      obtain ⟨hlt,hat,-⟩ := List.findIdx?_eq_some_iff_getElem.mp htag
      split at ht
      · cases ht
      · obtain rfl := Option.some.inj ht
        rintro rfl
        exact h (of_decide_eq_true hat).symm

theorem mpeg_loop_pictures (pairs : Pairs) :
    mpeg_pictures (pairs.filterMap mpeg_tag) = pictures pairs := by
  induction pairs with
  | nil => rfl
  | cons p pairs ih =>
    unfold pictures mpeg_pictures at ih ⊢
    by_cases hname : p.1 = "picture".toList
    · rw [List.filterMap_cons_some (mpeg_tag_picture hname),List.filter_cons_of_pos rfl,
        List.filter_cons,if_pos (decide_eq_true hname),List.map_cons,List.map_cons,ih]
    · have hd : ¬ decide (p.1 = "picture".toList) = true := fun hd => hname (of_decide_eq_true hd)
      rw [List.filter_cons,if_neg hd,← ih]
      cases htag : mpeg_tag p with
      | none => rw [List.filterMap_cons_none htag]
      | some t =>
        have ht : ¬ decide (t.1 = MMTAG_PICTURE) = true :=
          fun ht => mpeg_tag_other hname htag (of_decide_eq_true ht)
        rw [List.filterMap_cons_some htag,List.filter_cons,if_neg ht]

/-! ## Cut values -/

/-- A value up to its first NUL. -/
def cut (val : Name) : Name := val.takeWhile (· ≠ NUL)

theorem cut_clean (val : Name) : NUL ∉ cut val := fun h => by
  simpa using List.mem_takeWhile_imp h

/-- The text behind a value that has been stored is the value's NUL. -/
theorem cut_append (val t : Name) : (val ++ NUL :: t).takeWhile (· ≠ NUL) = cut val := by
  induction val with
  | nil => simp [cut]
  | cons c val ih =>
    unfold cut at ih ⊢
    by_cases hc : c = NUL
    · rw [List.cons_append,List.takeWhile_cons_of_neg (by simpa using hc),
        List.takeWhile_cons_of_neg (by simpa using hc)]
    · rw [List.cons_append,List.takeWhile_cons_of_pos (by simpa using hc),
        List.takeWhile_cons_of_pos (by simpa using hc),ih]

theorem cut_of_clean {val : Name} (h : NUL ∉ val) : cut val = val :=
  (cut_append val []).symm.trans (takeWhile_NUL h)

theorem cut_eq_iff (val : Name) : cut val = val ↔ NUL ∉ val :=
  ⟨fun h => h ▸ cut_clean val,cut_of_clean⟩

def Val.cut : Val → Val
  | .text t => .text (MetaStore.cut t)
  | .stored i k => .stored i k

def Op.cut : Op → Op
  | .set i name val repl => .set i name val.cut repl
  | .copy dst src => .copy dst src
  | .destroy i => .destroy i

/-- The name of the operation's pair is a text. -/
def Op.named : Op → Prop
  | .set _ name _ _ => NUL ∉ name
  | .copy _ _ | .destroy _ => True

instance : ∀ o : Op, Decidable o.named
  | .set _ name _ _ => inferInstanceAs (Decidable (NUL ∉ name))
  | .copy _ _ | .destroy _ => inferInstanceAs (Decidable True)

theorem Op.cut_clean {o : Op} (h : o.named) : o.cut.clean := by
  cases o with
  | set i name v repl =>
    cases v with
    | text t => exact ⟨h,MetaStore.cut_clean t⟩
    | stored j k => exact h
  | copy dst src => trivial
  | destroy i => trivial

def cut_pair (p : Name × Name) : Name × Name := (p.1,cut p.2)

def cut_pairs (a : Nat → Pairs) : Nat → Pairs := fun i => (a i).map cut_pair

theorem cut_update (a : Nat → Pairs) (i : Nat) (l : Pairs) :
    cut_pairs (Function.update a i l) = Function.update (cut_pairs a) i (l.map cut_pair) := by
  funext j
  by_cases hj : j = i
  · subst hj
    simp [cut_pairs]
  · simp [cut_pairs,Function.update_of_ne hj]

theorem cut_put (name val : Name) (pairs : Pairs) :
    (put name val pairs).map cut_pair = put name (cut val) (pairs.map cut_pair) := by
  induction pairs with
  | nil => rfl
  | cons p pairs ih =>
    by_cases hname : p.1 = name
    · rw [put,if_pos hname,List.map_cons,List.map_cons,put,
        if_pos (show (cut_pair p).1 = name from hname)]
      rfl
    · rw [put,if_neg hname,List.map_cons,List.map_cons,put,
        if_neg (show (cut_pair p).1 ≠ name from hname),ih]

theorem cut_set_pair (pairs : Pairs) (name val : Name) (repl : Bool) :
    (set_pair pairs name val repl).map cut_pair =
      set_pair (pairs.map cut_pair) name (cut val) repl := by
  unfold set_pair
  split
  · rfl
  · split
    · exact cut_put name val pairs
    · simp [cut_pair]

/-- The multimaps of the operations with cut values are the multimaps with their values cut. -/
theorem spec_step_cut {a a' : Nat → Pairs} {o : Op} (h : spec_step a o = some a') :
    spec_step (cut_pairs a) o.cut = some (cut_pairs a') := by
  cases o with
  | set i name v repl =>
    obtain ⟨val,hv,rfl⟩ := Option.map_eq_some_iff.mp h
    have hcut : value (cut_pairs a) v.cut = some (cut val) := by
      cases v with
      | text t => exact congrArg (fun t => some (cut t)) (Option.some.inj hv)
      | stored j k =>
        obtain ⟨p,hp,rfl⟩ := Option.map_eq_some_iff.mp hv
        simp [Val.cut,value,cut_pairs,hp,cut_pair]
    rw [Op.cut,spec_step,hcut,cut_update,cut_set_pair]
    rfl
  | copy dst src =>
    dsimp only [spec_step,Op.cut] at h ⊢
    split at h
    · cases h
    · rename_i hne
      obtain rfl := Option.some.inj h
      rw [if_neg hne,cut_update,List.map_append]
      rfl
  | destroy i =>
    obtain rfl := Option.some.inj h
    rw [Op.cut,spec_step,cut_update]
    rfl

theorem shown_cut (flags : Flags) (pairs : Pairs) (k : Nat) :
    shown flags (pairs.map cut_pair) k = shown flags pairs k := by
  unfold shown
  rw [List.getElem?_map]
  cases pairs[k]? with
  | none => rfl
  | some p =>
    simp only [Option.map_some,← List.map_take,List.any_map]
    rfl

theorem listed_cut (flags : Flags) (pairs : Pairs) :
    listed flags (pairs.map cut_pair) = (listed flags pairs).map cut_pair := by
  unfold listed
  rw [List.length_map,List.map_filterMap,List.filter_congr fun k _ => shown_cut flags pairs k]
  exact List.filterMap_congr fun k _ => by rw [List.getElem?_map]

/-! ## The two memories -/

/-- A block with the whole value, and the block with the value cut. -/
inductive SameText : Option (List Char) → Option (List Char) → Prop
  | none : SameText none none
  | some (name val : Name) (h : NUL ∉ name) :
    SameText (some (name ++ NUL :: (val ++ [NUL]))) (some (name ++ NUL :: (cut val ++ [NUL])))

/-- The memory of a run, and the memory of the run with cut values. -/
structure Cut (m t : Mem) : Prop where
  next : m.next = t.next
  block : ∀ b, SameText (m.block b) (t.block b)

variable {m t t' : Mem} {c : Cell} {l l' src : List Ptr} {name val : Name}

/-- The pointers read the same in both memories. -/
def Agree (m t : Mem) (l : List Ptr) : Prop := ∀ p ∈ l, p.block < t.next ∧ m.str p = t.str p

theorem Cut.alloc (h : Cut m t) (hname : NUL ∉ name) (val : Name) :
    Cut (m.alloc (name ++ NUL :: (val ++ [NUL]))).1
      (t.alloc (name ++ NUL :: (cut val ++ [NUL]))).1 := by
  refine ⟨congrArg (· + 1) h.next,fun b => ?_⟩
  dsimp only [Mem.alloc]
  rw [h.next]
  by_cases hb : b = t.next
  · subst hb
    rw [Function.update_self,Function.update_self]
    exact .some name val hname
  · rw [Function.update_of_ne hb,Function.update_of_ne hb]
    exact h.block b

theorem Cut.free (h : Cut m t) {p : Ptr} (hfree : t.free p = some t') :
    ∃ m', m.free p = some m' ∧ Cut m' t' := by
  unfold Mem.free at hfree ⊢
  have hsame : (m.block p.block).isSome = (t.block p.block).isSome := by
    have hb := h.block p.block
    generalize m.block p.block = x at hb ⊢
    generalize t.block p.block = y at hb ⊢
    cases hb <;> rfl
  rw [hsame]
  split at hfree
  · rename_i hp
    obtain rfl := Option.some.inj hfree
    refine ⟨_,if_pos hp,h.next,fun b => ?_⟩
    dsimp only
    by_cases hb : b = p.block
    · subst hb
      rw [Function.update_self,Function.update_self]
      exact .none
    · rw [Function.update_of_ne hb,Function.update_of_ne hb]
      exact h.block b
  · cases hfree

theorem Agree.alloc (h : Agree m t l) (hcut : Cut m t) (u v : List Char) :
    Agree (m.alloc u).1 (t.alloc v).1 l := fun p hp => by
  obtain ⟨hlt,hstr⟩ := h p hp
  refine ⟨Nat.lt_succ_of_lt hlt,?_⟩
  unfold Mem.str at hstr ⊢
  dsimp only [Mem.alloc]
  rw [Function.update_of_ne (by rw [hcut.next]; omega),Function.update_of_ne (by omega)]
  exact hstr

theorem Cut.pair (h : Cut m t) (hc : InMem t c) :
    m.str ⟨c.block,0⟩ = some c.name ∧ m.str ⟨c.block,c.name.length + 1⟩ = some c.val := by
  have hblock := h.block c.block
  rw [hc.block] at hblock
  generalize hm : m.block c.block = b at hblock
  generalize ht : some c.text = b' at hblock
  cases hblock with
  | none => cases ht
  | some name val hname =>
    have htext : c.name ++ NUL :: (c.val ++ [NUL]) = name ++ NUL :: (cut val ++ [NUL]) :=
      Option.some.inj ht
    have hn : c.name = name := by
      have htake := congrArg (List.takeWhile (· ≠ NUL)) htext
      rwa [takeWhile_NUL hc.name,takeWhile_NUL hname] at htake
    subst hn
    obtain ⟨-,htext⟩ := List.append_inj htext rfl
    have hv : c.val = cut val := (List.append_inj' (List.cons.inj htext).2 rfl).1
    have hdrop : (c.name ++ NUL :: (val ++ [NUL])).drop (c.name.length + 1) = val ++ [NUL] := by
      simp
    constructor
    · simp only [Mem.str,hm,Option.bind_some,List.drop_zero]
      rw [if_pos (by simp),takeWhile_NUL hname]
    · simp only [Mem.str,hm,Option.bind_some,hdrop]
      rw [if_pos (by simp),cut_append,hv]

theorem Cut.agree (h : Cut m t) {cs : List Cell} (hc : ∀ c ∈ cs, InMem t c) :
    Agree m t (ptrs cs) := fun p hp => by
  obtain ⟨c,hmem,hp⟩ := List.mem_flatMap.mp hp
  have hin := hc c hmem
  obtain ⟨hname,hval⟩ := h.pair hin
  rw [List.mem_cons,List.mem_singleton] at hp
  rcases hp with rfl | rfl
  · exact ⟨hin.lt,hname.trans hin.str_name.symm⟩
  · exact ⟨hin.lt,hval.trans hin.str_val.symm⟩

/-! ## The calls in both memories -/

theorem Agree.tail {k v : Ptr} (h : Agree m t (k :: v :: l)) : Agree m t l := fun p hp =>
  h p (List.mem_cons_of_mem k (List.mem_cons_of_mem v hp))

theorem replace_cut (h : Cut m t) {s : Ptr} {found : Bool} (ha : Agree m t l)
    (hr : replace t name s l = some (t',l',found)) :
    ∃ m', replace m name s l = some (m',l',found) ∧ Cut m' t' := by
  induction l using replace.induct generalizing t' l' found with
  | case1 k v rest ih =>
    unfold replace at hr ⊢
    rw [(ha k List.mem_cons_self).2]
    obtain ⟨n,hn,hr⟩ := Option.bind_eq_some_iff.mp hr
    rw [hn]
    dsimp only [Option.bind_eq_bind,Option.bind_some]
    split at hr
    · rename_i hname
      rw [if_pos hname]
      obtain ⟨u,hu,hr⟩ := Option.bind_eq_some_iff.mp hr
      obtain ⟨m',hm',hcut⟩ := h.free hu
      obtain ⟨rfl,rfl,rfl⟩ : u = t' ∧ _ = l' ∧ true = found := by simpa using hr
      exact ⟨m',by rw [hm']; rfl,hcut⟩
    · rename_i hname
      rw [if_neg hname]
      obtain ⟨⟨u,rest',f⟩,hu,hr⟩ := Option.bind_eq_some_iff.mp hr
      obtain ⟨m',hm',hcut⟩ := ih ha.tail hu
      obtain ⟨rfl,rfl,rfl⟩ : u = t' ∧ _ = l' ∧ f = found := by simpa using hr
      exact ⟨m',by rw [hm']; rfl,hcut⟩
  | case2 rest hno =>
    rw [replace] at hr ⊢ <;> try exact hno
    obtain ⟨rfl,rfl,rfl⟩ : t = t' ∧ rest = l' ∧ false = found := by simpa using hr
    exact ⟨m,rfl,h⟩

theorem meta_set_cut (h : Cut m t) (hname : NUL ∉ name) {repl : Bool}
    (ha : repl = true → Agree m t l)
    (hr : meta_set t l name (cut val) repl = some (t',l')) :
    ∃ m', meta_set m l name val repl = some (m',l') ∧ Cut m' t' := by
  have hsame : (m.alloc (name ++ NUL :: (val ++ [NUL]))).2 =
      (t.alloc (name ++ NUL :: (cut val ++ [NUL]))).2 := congrArg (fun b => (⟨b,0⟩ : Ptr)) h.next
  unfold meta_set at hr ⊢
  split at hr
  · rename_i hnil
    obtain ⟨rfl,rfl⟩ : t = t' ∧ l = l' := by simpa using hr
    exact ⟨m,if_pos hnil,h⟩
  · rename_i hnil
    rw [if_neg hnil]
    dsimp only at hr ⊢
    rw [hsame]
    split at hr
    · rename_i hrepl
      rw [if_pos hrepl]
      obtain ⟨⟨u,l₁,found⟩,hu,hr⟩ := Option.bind_eq_some_iff.mp hr
      obtain ⟨m',hm',hcut⟩ := replace_cut (h.alloc hname val) ((ha hrepl).alloc h _ _) hu
      obtain ⟨rfl,rfl⟩ := Prod.mk.inj (Option.some.inj hr)
      exact ⟨m',by rw [hm']; rfl,hcut⟩
    · rename_i hrepl
      obtain ⟨rfl,rfl⟩ := Prod.mk.inj (Option.some.inj hr)
      exact ⟨_,if_neg hrepl,h.alloc hname val⟩

theorem str_clean {p : Ptr} {s : Name} (h : m.str p = some s) : NUL ∉ s := by
  obtain ⟨x,-,hx⟩ := Option.bind_eq_some_iff.mp h
  split at hx
  · obtain rfl := Option.some.inj hx
    exact cut_clean _
  · cases hx

theorem meta_set_push (m : Mem) (l : List Ptr) (name val : Name) : meta_set m l name val false =
    if name = [] then some (m,l)
    else some ((m.alloc (name ++ NUL :: (val ++ [NUL]))).1,
      l ++ [⟨m.next,0⟩,⟨m.next,name.length + 1⟩]) := rfl

theorem meta_copy_cut (h : Cut m t) (ha : Agree m t src)
    (hr : meta_copy t l src = some (t',l')) :
    ∃ m', meta_copy m l src = some (m',l') ∧ Cut m' t' := by
  induction src using replace.induct generalizing m t l with
  | case1 k v rest ih =>
    rw [meta_copy] at hr ⊢
    rw [(ha k List.mem_cons_self).2,(ha v (List.mem_cons_of_mem k List.mem_cons_self)).2]
    obtain ⟨name,hn,hr⟩ := Option.bind_eq_some_iff.mp hr
    obtain ⟨val,hv,hr⟩ := Option.bind_eq_some_iff.mp hr
    simp only [hn,hv,Option.bind_eq_bind,Option.bind_some,meta_set_push] at hr ⊢
    by_cases hnil : name = []
    · simp only [if_pos hnil,Option.bind_some] at hr ⊢
      exact ih h ha.tail hr
    · simp only [if_neg hnil,Option.bind_some,h.next] at hr ⊢
      have hcut := h.alloc (str_clean hn) val
      rw [cut_of_clean (str_clean hv)] at hcut
      exact ih hcut (ha.tail.alloc h _ _) hr
  | case2 rest hno =>
    rw [meta_copy] at hr ⊢ <;> try exact hno
    obtain ⟨rfl,rfl⟩ : t = t' ∧ l = l' := by simpa using hr
    exact ⟨m,rfl,h⟩

theorem meta_destroy_cut (h : Cut m t) (hr : meta_destroy t l = some t') :
    ∃ m', meta_destroy m l = some m' ∧ Cut m' t' := by
  induction l using replace.induct generalizing m t with
  | case1 k v rest ih =>
    rw [meta_destroy] at hr ⊢
    obtain ⟨u,hu,hr⟩ := Option.bind_eq_some_iff.mp hr
    obtain ⟨m₁,hm,hcut⟩ := h.free hu
    obtain ⟨m',hm',hcut⟩ := ih hcut hr
    exact ⟨m',by rw [hm]; exact hm',hcut⟩
  | case2 rest hno =>
    rw [meta_destroy] at hr ⊢ <;> try exact hno
    obtain rfl := Option.some.inj hr
    exact ⟨m,rfl,h⟩

theorem scan_agree (ha : Agree m t l) (k : Ptr) (name : Name) : scan m k name l = scan t k name l := by
  induction l using replace.induct with
  | case1 it v rest ih =>
    rw [scan,scan,(ha it List.mem_cons_self).2,ih ha.tail]
  | case2 rest hno => rw [scan,scan] <;> exact hno

theorem list_loop_agree (ha : Agree m t l) (flags : Flags) (fuel i : Nat) :
    list_loop m l flags fuel i = list_loop t l flags fuel i := by
  induction fuel generalizing i with
  | zero => rfl
  | succ fuel ih =>
    unfold list_loop
    split
    · rfl
    · refine Option.bind_congr fun k hk => Option.bind_congr fun v hv => ?_
      rw [(ha k (List.mem_of_getElem? hk)).2,(ha v (List.mem_of_getElem? hv)).2,ih]
      refine Option.bind_congr fun name _ => Option.bind_congr fun val _ => ?_
      rw [scan_agree ha]

theorem list_all_agree (ha : Agree m t l) (flags : Flags) :
    list_all m l flags = list_all t l flags := by
  unfold list_all
  generalize l.length + 1 = fuel
  suffices ∀ i, list_from m l flags fuel i = list_from t l flags fuel i from this 0
  induction fuel with
  | zero => exact fun _ => rfl
  | succ fuel ih =>
    intro i
    unfold list_from meta_list
    simp only [ih,list_loop_agree ha]

theorem meta_find_agree (ha : Agree m t l) (name : Name) (flags : Flags) :
    meta_find m l name flags = meta_find t l name flags := by
  unfold meta_find
  generalize l.length + 1 = fuel
  suffices ∀ i, find_loop m l name flags fuel i = find_loop t l name flags fuel i from this 0
  induction fuel with
  | zero => exact fun _ => rfl
  | succ fuel ih =>
    intro i
    unfold find_loop meta_list
    simp only [ih,list_loop_agree ha]

/-! ## Runs -/

variable {s u u' : Stores} {a a' : Nat → Pairs}

theorem Holds.agree {cells : Nat → List Cell} (h : Holds u cells) (hcut : Cut s.mem u.mem)
    (i : Nat) : Agree s.mem u.mem (u.store i) := by
  rw [h.ptrs i]
  exact hcut.agree (h.mem i)

/-- The run stores what the run with cut values stores, or the whole values. -/
theorem val_cut (hstore : s.store = u.store) (ha : ∀ i, Agree s.mem u.mem (u.store i)) {v : Val}
    {y : Name} (h : u.val v.cut = some y) : ∃ val, s.val v = some val ∧ y = cut val := by
  cases v with
  | text x => exact ⟨x,rfl,(Option.some.inj h).symm⟩
  | stored i k =>
    obtain ⟨p,hp,hy⟩ := Option.bind_eq_some_iff.mp h
    refine ⟨y,?_,(cut_of_clean (str_clean hy)).symm⟩
    rw [Stores.val,hstore,hp]
    exact ((ha i p (List.mem_of_getElem? hp)).2).trans hy

theorem step_cut (hcut : Cut s.mem u.mem) (hstore : s.store = u.store) (hd : Denotes u a) {o : Op}
    (hname : o.named) (hu : step u o.cut = some u') :
    ∃ s', step s o = some s' ∧ Cut s'.mem u'.mem ∧ s'.store = u'.store := by
  obtain ⟨cells,hd,-⟩ := hd
  have ha (i : Nat) := hd.agree hcut i
  cases o with
  | set i name v repl =>
    obtain ⟨y,hy,hu⟩ := Option.bind_eq_some_iff.mp hu
    obtain ⟨⟨t',l'⟩,hset,hu⟩ := Option.bind_eq_some_iff.mp hu
    obtain rfl := Option.some.inj hu
    obtain ⟨val,hval,rfl⟩ := val_cut hstore ha hy
    obtain ⟨m',hm',hcut'⟩ := meta_set_cut hcut hname (fun _ => ha i) hset
    refine ⟨⟨m',Function.update s.store i l'⟩,?_,hcut',by rw [hstore]⟩
    simp only [step,hval,Option.bind_eq_bind,Option.bind_some]
    rw [hstore,hm']
    rfl
  | copy dst src =>
    dsimp only [step,Op.cut] at hu ⊢
    split at hu
    · cases hu
    · rename_i hne
      obtain ⟨⟨t',l'⟩,hcopy,hu⟩ := Option.bind_eq_some_iff.mp hu
      obtain rfl := Option.some.inj hu
      obtain ⟨m',hm',hcut'⟩ := meta_copy_cut hcut (ha src) hcopy
      refine ⟨⟨m',Function.update s.store dst l'⟩,?_,hcut',by rw [hstore]⟩
      rw [if_neg hne,hstore,hm']
      rfl
  | destroy i =>
    obtain ⟨t',hdes,hu⟩ := Option.bind_eq_some_iff.mp hu
    obtain rfl := Option.some.inj hu
    obtain ⟨m',hm',hcut'⟩ := meta_destroy_cut hcut hdes
    refine ⟨⟨m',Function.update s.store i []⟩,?_,hcut',by rw [hstore]⟩
    rw [step,hstore,hm']
    rfl

theorem run_cut {ops : List Op} (hcut : Cut s.mem u.mem) (hstore : s.store = u.store)
    (hd : Denotes u (cut_pairs a)) (hnames : ∀ o ∈ ops, o.named)
    (hspec : ops.foldlM spec_step a = some a') :
    ∃ s' u', ops.foldlM step s = some s' ∧ Cut s'.mem u'.mem ∧ s'.store = u'.store ∧
      Denotes u' (cut_pairs a') := by
  induction ops generalizing s u a with
  | nil =>
    obtain rfl := Option.some.inj hspec
    exact ⟨s,u,rfl,hcut,hstore,hd⟩
  | cons o ops ih =>
    rw [List.foldlM_cons] at hspec
    obtain ⟨b,hb,hrest⟩ := Option.bind_eq_some_iff.mp hspec
    have hname := hnames o List.mem_cons_self
    obtain ⟨u₁,hu,hd₁⟩ := step_denotes hd (Op.cut_clean hname) (spec_step_cut hb)
    obtain ⟨s₁,hs,hcut₁,hstore₁⟩ := step_cut hcut hstore hd hname hu
    obtain ⟨s₂,u₂,hrun,hrest⟩ := ih hcut₁ hstore₁ hd₁
      (fun o' ho => hnames o' (List.mem_cons_of_mem o ho)) hrest
    refine ⟨s₂,u₂,?_,hrest⟩
    rw [List.foldlM_cons,hs]
    exact hrun

theorem map_eq_self {α : Type} {f : α → α} {l : List α} : l.map f = l ↔ ∀ x ∈ l, f x = x := by
  simpa using List.map_inj_left (l := l) (f := f) (g := id)

theorem map_cut_iff {pairs : Pairs} : pairs.map cut_pair = pairs ↔ ∀ p ∈ pairs, NUL ∉ p.2 := by
  rw [map_eq_self]
  refine forall₂_congr fun p _ => ?_
  rw [← cut_eq_iff,Prod.ext_iff]
  exact and_iff_right rfl

theorem pictures_cut (pairs : Pairs) : pictures (pairs.map cut_pair) = (pictures pairs).map cut := by
  unfold pictures
  rw [List.filter_map,List.map_map,List.map_map]
  rfl

theorem pictures_cut_iff {pairs : Pairs} : pictures (pairs.map cut_pair) = pictures pairs ↔
    ∀ p ∈ pairs, p.1 = "picture".toList → NUL ∉ p.2 := by
  rw [pictures_cut,map_eq_self]
  constructor
  · exact fun h p hp hname => (cut_eq_iff p.2).mp (h _ (List.mem_map_of_mem
      (List.mem_filter.mpr ⟨hp,decide_eq_true hname⟩)))
  · intro h v hv
    obtain ⟨p,hp,rfl⟩ := List.mem_map.mp hv
    obtain ⟨hp,hname⟩ := List.mem_filter.mp hp
    exact cut_of_clean (h p hp (of_decide_eq_true hname))

theorem find_cut (pairs : Pairs) (name : Name) :
    ((pairs.map cut_pair).find? fun p => p.1 = name).map Prod.snd =
      (((pairs.find? fun p => p.1 = name).map Prod.snd).map cut) := by
  rw [List.find?_map,Option.map_map,Option.map_map]
  rfl

theorem map_cut_eq_iff {v : Option Name} : v.map cut = v ↔ ∀ x, v = some x → NUL ∉ x := by
  cases v with
  | none => simp
  | some x => simp [cut_eq_iff]

/-- After any sets, copies and destructions: the listing of a store is that of the whole values exactly
if none of them has a NUL, what a search finds is the whole value exactly if it has no NUL, and the
pictures in the files written are the whole pictures exactly if none of them has a NUL. -/
theorem values_survive_iff (ops : List Op) (a : Nat → Pairs) (hnames : ∀ o ∈ ops, o.named)
    (hspec : ops.foldlM spec_step (fun _ => []) = some a) :
    ∃ s, ops.foldlM step init = some s ∧ ∀ i, (a i).length < 2 ^ 31 →
      (∀ flags, list_all s.mem (s.store i) flags = some (listed flags (a i)) ↔
        ∀ p ∈ listed flags (a i), NUL ∉ p.2) ∧
      (∀ flags name, meta_find s.mem (s.store i) name flags =
          some (((listed flags (a i)).find? fun p => p.1 = name).map Prod.snd) ↔
        ∀ x, ((listed flags (a i)).find? fun p => p.1 = name).map Prod.snd = some x → NUL ∉ x) ∧
      (∀ add vendor, (∀ n v, add n v = true) →
        ((flac_out_addmeta add vendor s.mem (s.store i)).map flac_pictures =
            some (pictures (listed ⟨true,false⟩ (a i))) ↔
          ∀ p ∈ listed ⟨true,false⟩ (a i), p.1 = "picture".toList → NUL ∉ p.2)) ∧
      ((mpeg_out_addmeta s.mem (s.store i)).map mpeg_pictures =
          some (pictures (listed ⟨true,false⟩ (a i))) ↔
        ∀ p ∈ listed ⟨true,false⟩ (a i), p.1 = "picture".toList → NUL ∉ p.2) := by
  have hcut : Cut init.mem init.mem := ⟨rfl,fun _ => .none⟩
  obtain ⟨s,u,hrun,hcut,hstore,hd⟩ := run_cut (a := fun _ => []) hcut rfl denotes_init hnames hspec
  refine ⟨s,hrun,fun i hlen => ?_⟩
  have ha : Agree s.mem u.mem (s.store i) := by
    obtain ⟨cells,hcells,-⟩ := hd
    rw [hstore]
    exact hcells.agree hcut i
  have hlists (flags : Flags) := hd.lists (i := i) (by simpa [cut_pairs] using hlen) flags
  have hall (flags : Flags) : list_all s.mem (s.store i) flags =
      some ((listed flags (a i)).map cut_pair) := by
    rw [list_all_agree ha,hstore,(hlists flags).1,cut_pairs,listed_cut]
  refine ⟨fun flags => ?_,fun flags name => ?_,fun add vendor hadd => ?_,?_⟩
  · rw [hall flags,Option.some.injEq,map_cut_iff]
  · rw [meta_find_agree ha,hstore,(hlists flags).2 name,cut_pairs,listed_cut,find_cut,
      Option.some.injEq,map_cut_eq_iff]
  · rw [flac_out_addmeta,if_pos (hadd _ _),hall]
    simp only [Option.bind_eq_bind,Option.bind_some,Option.pure_def,Option.map_some]
    rw [Option.some.injEq,← pictures_cut_iff,← flac_loop_pictures hadd (List.map _ _)]
    rfl
  · rw [mpeg_out_addmeta,hall]
    simp only [Option.bind_eq_bind,Option.bind_some,Option.pure_def,Option.map_some]
    rw [Option.some.injEq,mpeg_loop_pictures,pictures_cut_iff]

/-- What a PNG file starts with. -/
def png : Name := "\x89PNG\r\n\x1a\n\x00\x00\x00\rIHDR".toList

/-- A picture and a title are set, and copied. -/
def png_copied : List Op :=
  [.set 0 "picture".toList (.text png) false,.set 0 "title".toList (.text "A".toList) false,.copy 1 0]

theorem values_survive_png :
    ∃ s, png_copied.foldlM step init = some s ∧
      list_all s.mem (s.store 1) ⟨true,false⟩ ≠
        some (listed ⟨true,false⟩ [("picture".toList,png),("title".toList,"A".toList)]) := by
  obtain ⟨s,hs,h⟩ := values_survive_iff png_copied _ (by decide) rfl
  exact ⟨s,hs,fun heq => absurd (((h 1 (by decide)).1 ⟨true,false⟩).mp heq) (by decide)⟩

/-- The pictures that are found and written have eight of the sixteen bytes. -/
theorem png_is_cut :
    ∃ s, png_copied.foldlM step init = some s ∧ png.take 8 ≠ png ∧
      meta_find s.mem (s.store 1) "picture".toList ⟨true,false⟩ = some (some (png.take 8)) ∧
      (flac_out_addmeta (fun _ _ => true) [] s.mem (s.store 1)).map flac_pictures =
        some [png.take 8] ∧
      (mpeg_out_addmeta s.mem (s.store 1)).map mpeg_pictures = some [png.take 8] :=
  ⟨_,rfl,by decide +kernel,by decide +kernel,by decide +kernel,by decide +kernel⟩

end Phiola.MetaStore
