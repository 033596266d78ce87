import Mathlib.Data.List.Basic

/-!
# Configuration contexts

`ffargs_process_conf()` over the tokens of a text, next to processing with a stack of the contexts that are
open. A context is a scheme with its object; `W` is what the handlers work on.
-/

namespace Phiola.ConfArgs

/-- What `ffconf_read()` returns, with the chunks of a token put together; the end is `FFCONF_MORE`. -/
inductive Token
  | key (text : String) (quoted : Bool)
  | val (text : String) (quoted : Bool)
  | error

/-- What `_ffargs_arg()` returns: `0` after the key is done or its context is entered, `FFARGS_E_VAL`,
`FFARGS_E_REDIR`, or an error. -/
inductive Found (S : Type)
  | done
  | enter (s : S)
  | value
  | redir (s : S)
  | fail (n : {n : Int // n ≠ 0})

/-- The functions of `ffargs`, with `_ffarg_ctx_done()`. -/
structure Args (S A W : Type) where
  find : S → String → Option A
  arg : W → S → A → String → W × Found S
  value : W → S → A → String → String → W × Int
  on_done : W → S → W × Int
  e_arg : {n : Int // n ≠ 0}
  e_val : {n : Int // n ≠ 0}

variable {S A W : Type}

/-! ## The reader -/

/-- What `ffconf_obj_read()` returns. -/
inductive Rc
  | error
  | key (text : String)
  | val (text : String)
  | obj_open
  | obj_close

/-- `ffconf_obj_read()` with `level` -/
def ffconf_obj_read (level : Nat) : Token → Nat × Rc
  | .error => (level,.error)
  | .key text quoted =>
    if text = "\x7d" ∧ quoted = false then
      if level = 0 then (level,.error) else (level - 1,.obj_close)
    else (level,.key text)
  | .val text quoted =>
    if text = "\x7b" ∧ quoted = false then (level + 1,.obj_open) else (level,.val text)

/-- How the loop over redirections ends. -/
inductive Looked (S A : Type)
  | not_found
  | done
  | enter (s : S)
  | value (a : A)
  | fail (n : {n : Int // n ≠ 0})
  | assertion

/-- The loop of `ffargs_process_conf()` for a key, at most so many times; with the context where it was found. -/
def find_arg (x : Args S A W) : Nat → W → S → String → W × S × Looked S A
  | 0,w,s,_ => (w,s,.assertion)
  | n + 1,w,s,key =>
    match x.find s key with
    | none => (w,s,.not_found)
    | some a =>
      match x.arg w s a key with
      | (w,.done) => (w,s,.done)
      | (w,.enter s') => (w,s,.enter s')
      | (w,.value) => (w,s,.value a)
      | (w,.redir s') => find_arg x n w s' key
      | (w,.fail e) => (w,s,.fail e)

/-! ## The function -/

/-- The variables of `ffargs_process_conf()`: `r` is the outer one, and `expecting` has `a` and `key`. -/
structure Vars (S A W : Type) where
  w : W
  ax : S
  level : Nat
  r : Int
  expecting : Option (A × String)

/-- The loop for a token: an error of a key goes to `end` with the outer `r`. `none` is `FF_ASSERT()`. -/
def conf_step (x : Args S A W) (scheme : S) (c : Vars S A W) (tok : Token) :
    Except (W × Option Int) (Vars S A W) :=
  let (level,rc) := ffconf_obj_read c.level tok
  match rc,c.expecting with
  | .error,_ => .error (c.w,some x.e_arg)
  | .val _,none => .error (c.w,some x.e_val)
  | .val v,some (a,key) =>
    let (w,r) := x.value c.w c.ax a key v
    if r ≠ 0 then .error (w,some r) else .ok {c with level, w, r, expecting := none}
  | _,some _ => .error (c.w,some x.e_val)
  | .obj_open,none => .ok {c with level}
  | .obj_close,none => .ok {c with level, ax := scheme}
  | .key key,none =>
    match find_arg x 100 c.w c.ax key with
    | (w,_,.not_found) => .error (w,some x.e_arg)
    | (w,ax,.done) => .ok {c with level, w, ax}
    | (w,_,.enter ax) => .ok {c with level, w, ax}
    | (w,ax,.value a) => .ok {c with level, w, ax, expecting := some (a,key)}
    | (w,_,.fail _) => .error (w,some c.r)
    | (w,_,.assertion) => .error (w,none)

/-- After the loop. -/
def conf_end (x : Args S A W) (c : Vars S A W) : W × Option Int :=
  match c.expecting with
  | some _ => (c.w,some x.e_val)
  | none => ((x.on_done c.w c.ax).1,some (x.on_done c.w c.ax).2)

/-- What a run comes to, with the keys that were looked up and where. -/
structure Ran (S W R : Type) where
  w : W
  r : R
  keys : List (S × String)

/-- The key that is looked up for a token. -/
def looked_up (ax : S) (expecting : Option (A × String)) : Token → List (S × String)
  | .key text quoted => if text = "\x7d" ∧ quoted = false ∨ expecting.isSome then [] else [(ax,text)]
  | _ => []

/-- `ffargs_process_conf()` from its variables on. -/
def process (x : Args S A W) (scheme : S) (c : Vars S A W) : List Token → Ran S W (Option Int)
  | [] => ⟨(conf_end x c).1,(conf_end x c).2,[]⟩
  | tok :: toks =>
    match conf_step x scheme c tok with
    | .error (w,r) => ⟨w,r,looked_up c.ax c.expecting tok⟩
    | .ok c' =>
      let ran := process x scheme c' toks
      {ran with keys := looked_up c.ax c.expecting tok ++ ran.keys}

/-- `ffargs_process_conf()`; `r` is what the variable has before it is set. -/
def ffargs_process_conf (x : Args S A W) (scheme : S) (w : W) (r : Int) (toks : List Token) :
    Ran S W (Option Int) :=
  process x scheme ⟨w,scheme,0,r,none⟩ toks

/-! ## Processing with a stack -/

/-- The innermost context, those that enclose it, and the context of the key just before. -/
structure Open (S A W : Type) where
  w : W
  cur : S
  stack : List S
  entered : Option S
  expecting : Option (A × String)

/-- How it ends: at the end of the text, with the error of a handler, or with an error of the text. -/
inductive Stop
  | done (n : Int)
  | handler (n : Int)
  | refused

/-- A token with the stack: `{` opens the context of the key before it, `}` goes back to the enclosing one. -/
def stack_step (x : Args S A W) (o : Open S A W) : Token → Except (W × Stop) (Open S A W)
  | .error => .error (o.w,.refused)
  | .val text quoted =>
    if text = "\x7b" ∧ quoted = false then
      match o.expecting with
      | some _ => .error (o.w,.refused)
      | none => .ok {o with cur := o.entered.getD o.cur, stack := o.cur :: o.stack, entered := none}
    else
      match o.expecting with
      | none => .error (o.w,.refused)
      | some (a,key) =>
        let (w,n) := x.value o.w o.cur a key text
        if n ≠ 0 then .error (w,.handler n) else .ok {o with w, expecting := none}
  | .key text quoted =>
    if text = "\x7d" ∧ quoted = false then
      match o.stack,o.expecting with
      | s :: stack,none => .ok {o with cur := s, stack, entered := none}
      | _,_ => .error (o.w,.refused)
    else
      match o.expecting with
      | some _ => .error (o.w,.refused)
      | none =>
        match find_arg x 100 o.w o.cur text with
        | (w,_,.not_found) => .error (w,.refused)
        | (w,cur,.done) => .ok {o with w, cur, entered := none}
        | (w,cur,.enter s) => .ok {o with w, cur, entered := some s}
        | (w,cur,.value a) => .ok {o with w, cur, entered := none, expecting := some (a,text)}
        | (w,_,.fail n) => .error (w,.handler n)
        | (w,_,.assertion) => .error (w,.refused)

def stack_end (x : Args S A W) (o : Open S A W) : W × Stop :=
  match o.expecting,o.stack with
  | none,[] => ((x.on_done o.w o.cur).1,.done (x.on_done o.w o.cur).2)
  | _,_ => (o.w,.refused)

/-- The tokens processed with the stack. -/
def proper (x : Args S A W) (o : Open S A W) : List Token → Ran S W Stop
  | [] => ⟨(stack_end x o).1,(stack_end x o).2,[]⟩
  | tok :: toks =>
    match stack_step x o tok with
    | .error (w,stop) => ⟨w,stop,looked_up o.cur o.expecting tok⟩
    | .ok o' =>
      let ran := proper x o' toks
      {ran with keys := looked_up o.cur o.expecting tok ++ ran.keys}

/-- The same keys are looked up in the same contexts, `0` is returned only if every context is closed and
every handler succeeds, and the error of a handler is the result. -/
def Meets (a : Ran S W (Option Int)) (b : Ran S W Stop) : Prop :=
  a.keys = b.keys ∧ (a.r = some 0 → b.r = .done 0) ∧ ∀ n, b.r = .handler n → a.w = b.w ∧ a.r = some n

/-! ## The condition -/

/-- The context that is in use: after `}` it is the first one, until a key is read. -/
def in_use (scheme : S) (o : Open S A W) (closed : Bool) : S :=
  o.entered.getD (if closed then scheme else o.cur)

/-- A key is read in the context that is in use, and its handler does not fail. -/
def Fine (x : Args S A W) (scheme : S) (o : Open S A W) (closed : Bool) (tok : Token) : Prop :=
  ∀ p ∈ looked_up o.cur o.expecting tok, in_use scheme o closed = o.cur ∧
    ∀ n, (find_arg x 100 o.w o.cur p.2).2.2 ≠ .fail n

/-- A `}` is read and no key after it. -/
def closed_after (entered : Option S) (closed : Bool) : Token → Bool
  | .key text quoted => text = "\x7d" ∧ quoted = false
  | .val text quoted => if text = "\x7b" ∧ quoted = false ∧ entered.isSome then false else closed
  | .error => closed

/-- Every key is fine, and at the end every context is closed unless `on_done()` fails. -/
def Clean (x : Args S A W) (scheme : S) (o : Open S A W) (closed : Bool) : List Token → Prop
  | [] => o.expecting = none → (x.on_done o.w (in_use scheme o closed)).2 = 0 →
      o.stack = [] ∧ (x.on_done o.w o.cur).2 = 0
  | tok :: toks => Fine x scheme o closed tok ∧
      ∀ o', stack_step x o tok = .ok o' → Clean x scheme o' (closed_after o.entered closed tok) toks

variable {x : Args S A W} {scheme : S} {o o' : Open S A W} {c c' : Vars S A W} {closed : Bool} {tok : Token}
  {toks : List Token}

/-- The variables say what the stack says, apart from the context that is in use; a key that has no value
yet was found in the innermost one. -/
structure Same (scheme : S) (o : Open S A W) (closed : Bool) (c : Vars S A W) : Prop where
  w : c.w = o.w
  level : c.level = o.stack.length
  expecting : c.expecting = o.expecting
  ax : c.ax = in_use scheme o closed
  found : o.expecting ≠ none → in_use scheme o closed = o.cur

/-- The two ways to take a step agree. -/
inductive Agree (scheme : S) (closed : Bool) :
    Except (W × Option Int) (Vars S A W) → Except (W × Stop) (Open S A W) → Prop
  | ok (c : Vars S A W) (o : Open S A W) (h : Same scheme o closed c) : Agree scheme closed (.ok c) (.ok o)
  | refused (w : W) (r : Option Int) (h : r ≠ some 0) :
      Agree scheme closed (.error (w,r)) (.error (w,.refused))
  | handler (w : W) (n : Int) (h : n ≠ 0) : Agree scheme closed (.error (w,some n)) (.error (w,.handler n))

theorem some_ne {n : {n : Int // n ≠ 0}} : some n.1 ≠ some 0 := fun h => n.2 (Option.some.inj h)

/-! ## A step -/

theorem agree_open (h : Same scheme o closed c) :
    Agree scheme (closed_after o.entered closed (.val "\x7b" false)) (conf_step x scheme c (.val "\x7b" false))
      (stack_step x o (.val "\x7b" false)) := by
  obtain ⟨hw,hlevel,hexp,hax,-⟩ := h
  unfold conf_step ffconf_obj_read stack_step
  simp only [hexp,hw,and_self,if_true]
  cases o.expecting with
  | some y => exact .refused _ _ some_ne
  | none =>
    refine .ok _ _ ⟨rfl,congrArg (· + 1) hlevel,rfl,?_,nofun⟩
    dsimp only
    rw [hax]
    cases hentered : o.entered <;> simp [in_use,closed_after,hentered]

theorem agree_close (h : Same scheme o closed c) :
    Agree scheme (closed_after o.entered closed (.key "\x7d" false)) (conf_step x scheme c (.key "\x7d" false))
      (stack_step x o (.key "\x7d" false)) := by
  obtain ⟨hw,hlevel,hexp,hax,-⟩ := h
  unfold conf_step ffconf_obj_read stack_step
  simp only [hexp,hw,hlevel,and_self,if_true]
  cases o.stack with
  | nil =>
    simp only [List.length_nil,if_true]
    exact .refused _ _ some_ne
  | cons s stack =>
    simp only [List.length_cons,Nat.add_one_ne_zero,if_false]
    cases o.expecting with
    | some y => exact .refused _ _ some_ne
    | none => exact .ok _ _ ⟨rfl,rfl,rfl,rfl,nofun⟩

/-- A value goes to the handler of its key, which is in use since the key was read. -/
theorem agree_val {text : String} {quoted : Bool} (hplain : ¬(text = "\x7b" ∧ quoted = false))
    (h : Same scheme o closed c) :
    Agree scheme closed (conf_step x scheme c (.val text quoted)) (stack_step x o (.val text quoted)) := by
  obtain ⟨hw,hlevel,hexp,hax,hfound⟩ := h
  unfold conf_step ffconf_obj_read stack_step
  simp only [hexp,hw,if_neg hplain]
  cases hexp' : o.expecting with
  | none => exact .refused _ _ some_ne
  | some y =>
    have hcur : c.ax = o.cur := hax.trans (hfound (by rw [hexp']; exact nofun))
    dsimp only
    rw [hcur]
    split
    · rename_i hn
      exact .handler _ _ hn
    · exact .ok _ _ ⟨rfl,hlevel,rfl,hcur.symm.trans hax,nofun⟩

/-- A key is looked up in the same context, and then that context is in use. -/
theorem agree_key {text : String} {quoted : Bool} (hplain : ¬(text = "\x7d" ∧ quoted = false))
    (hfine : Fine x scheme o closed (.key text quoted)) (h : Same scheme o closed c) :
    Agree scheme false (conf_step x scheme c (.key text quoted)) (stack_step x o (.key text quoted)) := by
  obtain ⟨hw,hlevel,hexp,hax,-⟩ := h
  unfold conf_step ffconf_obj_read stack_step
  simp only [hexp,hw,if_neg hplain]
  cases hexp' : o.expecting with
  | some y => exact .refused _ _ some_ne
  | none =>
    obtain ⟨hcur,hfail⟩ := hfine (o.cur,text) (by simp [looked_up,hplain,hexp'])
    dsimp only at hfail ⊢
    rw [hax,hcur]
    rcases hfound : find_arg x 100 o.w o.cur text with ⟨w,cur,found⟩
    rw [hfound] at hfail
    cases found with
    | not_found => exact .refused _ _ some_ne
    | done => exact .ok _ _ ⟨rfl,hlevel,rfl,rfl,nofun⟩
    | enter s => exact .ok _ _ ⟨rfl,hlevel,rfl,rfl,nofun⟩
    | value a => exact .ok _ _ ⟨rfl,hlevel,rfl,rfl,fun _ => rfl⟩
    | fail n => exact absurd rfl (hfail n)
    | assertion => exact .refused _ _ nofun

theorem step_agree (hfine : Fine x scheme o closed tok) (h : Same scheme o closed c) :
    Agree scheme (closed_after o.entered closed tok) (conf_step x scheme c tok) (stack_step x o tok) := by
  cases tok with
  | error =>
    obtain ⟨hw,-⟩ := h
    unfold conf_step ffconf_obj_read stack_step
    simp only [hw]
    exact .refused _ _ some_ne
  | val text quoted =>
    by_cases hopen : text = "\x7b" ∧ quoted = false
    · obtain ⟨rfl,rfl⟩ := hopen
      exact agree_open h
    · rw [closed_after,if_neg fun hh => hopen ⟨hh.1,hh.2.1⟩]
      exact agree_val hopen h
  | key text quoted =>
    by_cases hclose : text = "\x7d" ∧ quoted = false
    · obtain ⟨rfl,rfl⟩ := hclose
      exact agree_close h
    · rw [closed_after,decide_eq_false hclose]
      exact agree_key hclose hfine h

/-! ## A run -/

theorem looked_up_eq (hfine : Fine x scheme o closed tok) (h : Same scheme o closed c) :
    looked_up c.ax c.expecting tok = looked_up o.cur o.expecting tok := by
  rw [h.expecting]
  cases tok with
  | error => rfl
  | val text quoted => rfl
  | key text quoted =>
    simp only [looked_up]
    split
    · rfl
    · rename_i hplain
      have := (hfine (o.cur,text) (by simp only [looked_up,if_neg hplain]; exact List.mem_singleton_self _)).1
      rw [h.ax,this]

theorem meets_of_clean (hclean : Clean x scheme o closed toks) (h : Same scheme o closed c) :
    Meets (process x scheme c toks) (proper x o toks) := by
  induction toks generalizing o closed c with
  | nil =>
    refine ⟨rfl,?_⟩
    simp only [process,proper,conf_end,stack_end,h.expecting,h.w,h.ax]
    cases hexp : o.expecting with
    | some y => exact ⟨fun hr => absurd hr some_ne,nofun⟩
    | none =>
      constructor
      · intro hr
        obtain ⟨hstack,hdone⟩ := hclean hexp (Option.some.inj hr)
        rw [hstack]
        exact congrArg Stop.done hdone
      · cases o.stack <;> exact nofun
  | cons tok toks ih =>
    obtain ⟨hfine,hrest⟩ := hclean
    have hkeys := looked_up_eq hfine h
    have hagree := step_agree hfine h
    rw [process,proper,hkeys]
    generalize conf_step x scheme c tok = a at hagree ⊢
    generalize stack_step x o tok = b at hagree hrest ⊢
    cases hagree with
    | ok c' o' hsame =>
      obtain ⟨hall,hzero,hhandler⟩ := ih (hrest o' rfl) hsame
      exact ⟨congrArg _ hall,hzero,hhandler⟩
    | refused w r hr => exact ⟨rfl,fun hr' => absurd hr' hr,nofun⟩
    | handler w n hn =>
      refine ⟨rfl,fun hr => absurd (Option.some.inj hr) hn,fun m hm => ⟨rfl,?_⟩⟩
      rw [Stop.handler.inj hm]

theorem process_keys (x : Args S A W) (scheme : S) (c : Vars S A W) (tok : Token) (toks : List Token) :
    ∃ ks, (process x scheme c (tok :: toks)).keys = looked_up c.ax c.expecting tok ++ ks := by
  rw [process]
  rcases conf_step x scheme c tok with ⟨w,r⟩ | c'
  · exact ⟨[],(List.append_nil _).symm⟩
  · exact ⟨_,rfl⟩

theorem proper_keys (x : Args S A W) (o : Open S A W) (tok : Token) (toks : List Token) :
    ∃ ks, (proper x o (tok :: toks)).keys = looked_up o.cur o.expecting tok ++ ks := by
  rw [proper]
  rcases stack_step x o tok with ⟨w,r⟩ | o'
  · exact ⟨[],(List.append_nil _).symm⟩
  · exact ⟨_,rfl⟩

/-- The first key that is not fine is looked up elsewhere, or its error is lost. -/
theorem fine_of_meets (hr : c.r = 0) (h : Same scheme o closed c)
    (hmeets : Meets (process x scheme c (tok :: toks)) (proper x o (tok :: toks))) :
    Fine x scheme o closed tok := by
  rintro ⟨s,key⟩ hmem
  obtain ⟨ks,hks⟩ := process_keys x scheme c tok toks
  obtain ⟨ks',hks'⟩ := proper_keys x o tok toks
  have hkeys := hmeets.1
  rw [hks,hks',h.expecting] at hkeys
  cases tok with
  | error => cases hmem
  | val text quoted => cases hmem
  | key text quoted =>
    have hboth : ¬(text = "\x7d" ∧ quoted = false ∨ o.expecting.isSome) := by
      intro hor
      rw [looked_up,if_pos hor] at hmem
      cases hmem
    have hplain : ¬(text = "\x7d" ∧ quoted = false) := fun hh => hboth (.inl hh)
    have hexp : o.expecting = none := by
      cases hexp : o.expecting with
      | none => rfl
      | some y => exact absurd (.inr (by rw [hexp]; rfl)) hboth
    simp only [looked_up,if_neg hboth,List.cons_append] at hmem hkeys
    obtain ⟨rfl,rfl⟩ := Prod.mk.inj (List.mem_singleton.mp hmem)
    have hcur : c.ax = o.cur := (Prod.mk.inj (List.cons.inj hkeys).1).1
    refine ⟨h.ax.symm.trans hcur,fun n hn => n.2 ?_⟩
    rcases hfound : find_arg x 100 o.w o.cur key with ⟨w,s,found⟩
    obtain rfl : found = .fail n := by rw [hfound] at hn; exact hn
    have hconf : conf_step x scheme c (.key key quoted) = .error (w,some c.r) := by
      unfold conf_step ffconf_obj_read
      simp only [if_neg hplain,h.expecting,hexp,h.w,hcur,hfound]
    have hstack : stack_step x o (.key key quoted) = .error (w,.handler n) := by
      simp only [stack_step,if_neg hplain,hexp,hfound]
    have hresult := hmeets.2.2
    simp only [process,proper,hconf,hstack,hr] at hresult
    exact (Option.some.inj (hresult n rfl).2).symm

/-- The outer `r` is `0` as long as the loop goes on. -/
theorem step_r (hr : c.r = 0) (h : conf_step x scheme c tok = .ok c') : c'.r = 0 := by
  simp only [conf_step] at h
  split at h
  · cases h
  · cases h
  · split at h
    · cases h
    · rename_i hn
      obtain rfl := Except.ok.inj h
      exact not_not.mp hn
  · cases h
  · obtain rfl := Except.ok.inj h
    exact hr
  · obtain rfl := Except.ok.inj h
    exact hr
  · split at h
    · cases h
    · obtain rfl := Except.ok.inj h
      exact hr
    · obtain rfl := Except.ok.inj h
      exact hr
    · obtain rfl := Except.ok.inj h
      exact hr
    · cases h
    · cases h

theorem clean_of_meets (hr : c.r = 0) (h : Same scheme o closed c)
    (hmeets : Meets (process x scheme c toks) (proper x o toks)) : Clean x scheme o closed toks := by
  induction toks generalizing o closed c with
  | nil =>
    intro hexp hdone
    have hzero := hmeets.2.1
    simp only [process,proper,conf_end,stack_end,h.expecting,h.w,h.ax,hexp] at hzero
    have hstop := hzero (congrArg some hdone)
    cases hstack : o.stack with
    | nil =>
      rw [hstack] at hstop
      exact ⟨rfl,Stop.done.inj hstop⟩
    | cons s stack =>
      rw [hstack] at hstop
      cases hstop
  | cons tok toks ih =>
    have hfine := fine_of_meets hr h hmeets
    refine ⟨hfine,fun o' ho' => ?_⟩
    have hagree := step_agree hfine h
    have hkeys := looked_up_eq hfine h
    rw [ho'] at hagree
    rw [process,proper,ho',hkeys] at hmeets
    have hstep : ∀ c', conf_step x scheme c tok = .ok c' → c'.r = 0 := fun c' => step_r hr
    generalize conf_step x scheme c tok = a at hagree hmeets hstep
    cases hagree with
    | ok c' _ hsame =>
      exact ih (hstep c' rfl) hsame ⟨List.append_cancel_left hmeets.1,hmeets.2⟩

/-! ## The whole text -/

/-- Processing starts in the context that is given. -/
def start (scheme : S) (w : W) : Open S A W := ⟨w,scheme,[],none,none⟩

/-- For whatever `r` has at first, a text is processed by stack discipline if and only if no key is read in a
context after an inner one was closed, nor after the key of a context that is not opened, no handler of a key
fails, and the text does not end inside a context, unless these contexts are the same or `on_done()` fails. -/
theorem process_conf_iff (x : Args S A W) (scheme : S) (w : W) (toks : List Token) :
    (∀ r, Meets (ffargs_process_conf x scheme w r toks) (proper x (start scheme w) toks)) ↔
      Clean x scheme (start scheme w) false toks := by
  have hsame (r : Int) : Same scheme (start scheme w) false (⟨w,scheme,0,r,none⟩ : Vars S A W) :=
    ⟨rfl,rfl,rfl,rfl,fun h => absurd rfl h⟩
  constructor
  · intro h
    exact clean_of_meets rfl (hsame 0) (h 0)
  · intro h r
    exact meets_of_clean h (hsame r)

/-- Contexts `0` to `2`, one in the other by `in`; `leaf` is a key of context `1`, and `bad` fails. -/
def nested : Args Nat String Unit where
  find s key := if key = "leaf" ∧ s ≠ 1 then none else some key
  arg _ s a _ := ((),if a = "in" then .enter (s + 1) else if a = "bad" then .fail ⟨1,by decide⟩ else .done)
  value _ _ _ _ _ := ((),0)
  on_done _ _ := ((),0)
  e_arg := ⟨-1,by decide⟩
  e_val := ⟨-2,by decide⟩

/-- A key after an inner context is looked up in the first one, the error of a handler is not returned, and a
context that is not closed is accepted. -/
theorem nested_fails :
    ¬Meets (ffargs_process_conf nested 0 () 0 [.key "in" false,.val "\x7b" false,.key "in" false,.val "\x7b" false,
        .key "\x7d" false,.key "leaf" false,.key "\x7d" false])
      (proper nested (start 0 ()) [.key "in" false,.val "\x7b" false,.key "in" false,.val "\x7b" false,
        .key "\x7d" false,.key "leaf" false,.key "\x7d" false]) ∧
    ¬Meets (ffargs_process_conf nested 0 () 0 [.key "bad" false])
      (proper nested (start 0 ()) [.key "bad" false]) ∧
    ¬Meets (ffargs_process_conf nested 0 () 0 [.key "in" false,.val "\x7b" false])
      (proper nested (start 0 ()) [.key "in" false,.val "\x7b" false]) := by
  refine ⟨fun h => ?_,fun h => ?_,fun h => ?_⟩
  · exact absurd h.1 (by decide)
  · exact absurd (h.2.2 1 rfl).2 (by decide)
  · exact absurd (h.2.1 rfl) nofun

end Phiola.ConfArgs
