import Phiola.Android.Calls

/-!
# The next item on Android

`trk_idx` is the item that is played and `curpos` the last one that was. A removal moves both, and after the
item that is played was removed, the one that followed it is at `curpos`. `clear()` resets both for whatever
list is shown, and with repetition the two ends of the list are not treated alike.
-/

namespace Phiola.Android.Queue

variable {U : Type}

/-! ## Next and previous -/

section Playing

variable [DecidableEq U]

/-- The index that `play_delta()` makes of `i` -/
def place (q : Queue U) (i : Int) : Int :=
  if q.setts.repeat_ then
    (if i > q.items.length then 0 else if i ≤ 0 then (q.items.length : Int) - 1 else i)
  else i

/-- The index `i`, with repetition modulo the length of the list -/
def wrapped (q : Queue U) (i : Int) : Int := if q.setts.repeat_ then i % q.items.length else i

/-- The item `i` is started. If there is none, what was played last stays so. -/
def Started (q q' : Queue U) (i : Int) : Prop :=
  0 < q'.items.length →
    if 0 ≤ i ∧ i < q'.items.length then
      q'.trk_idx = i ∧ q'.curpos = i ∧ q'.t.url = q'.items[i.toNat]?
    else q'.curpos = q.curpos ∧ q'.t.url = q.t.url

/-- The index that is made of `i` is that of the item `j`, or neither is in the list. -/
def Finds (q : Queue U) (i j : Int) : Prop :=
  q.place i = q.wrapped j ∨ (q.items.length ≤ q.place i ∧ q.items.length ≤ q.wrapped j)

theorem play_delta_ok {q q' : Queue U} {rnd : Nat} {delta : Int} (hr : q.setts.random = false)
    (h : q.play_delta rnd delta = .ok q') :
    (q.items = [] ∧ q' = q) ∨ q._play q.q_active (q.place (q.curpos + delta)) = .ok q' := by
  obtain ⟨l,hl,h⟩ := bind_ok h
  have hitems : q.items = urls l := items_of_get (get_ok hl)
  have hlen : l.entries.length = q.items.length := by rw [hitems,urls,List.length_map]
  dsimp only at h
  rw [hlen] at h
  split at h
  · rename_i hn
    left
    exact ⟨List.eq_nil_of_length_eq_zero hn,(Except.ok.inj h).symm⟩
  · right
    rw [hr,if_neg Bool.false_ne_true] at h
    exact h

theorem play_started {q q' : Queue U} {it : Int} (hc : q.Current) (hidle : Idle q)
    (hp : q.active = true → ¬ q.Pending) (h : q._play q.q_active it = .ok q') :
    q'.items = q.items ∧ q'.setts = q.setts ∧ Started q q' it := by
  obtain ⟨q₁,hs,hq⟩ := _play_ok hc hidle h
  obtain ⟨hsetts,hact,hcur,hurl⟩ := hs.fields
  have hat : q₁.items_at q.q_active = q.items := by
    rw [items,items_at,items_at,hs.queues hp]
  rw [hat] at hq
  rcases hq with ⟨hin,hst⟩ | ⟨hout,rfl⟩
  · have hitems : q'.items = q.items := hst.items.trans hat
    refine ⟨hitems,hst.setts.trans hsetts,fun _ => ?_⟩
    rw [hitems,if_pos hin]
    refine ⟨hst.trk_idx,hst.curpos,?_⟩
    rw [← hst.url,hat]
  · have hitems : q'.items = q.items := by
      rw [items,hact]
      exact hat
    refine ⟨hitems,hsetts,fun _ => ?_⟩
    rw [hitems,if_neg hout]
    exact ⟨hcur,hurl⟩

theorem play_delta_started {q q' : Queue U} {rnd : Nat} {delta j : Int} (hc : q.Current)
    (hidle : Idle q) (hp : q.active = true → ¬ q.Pending) (hr : q.setts.random = false)
    (hj : q.items = [] ∨ q.Finds (q.curpos + delta) j) (h : q.play_delta rnd delta = .ok q') :
    Started q q' (q'.wrapped j) := by
  intro hn
  rcases play_delta_ok hr h with ⟨hnil,rfl⟩ | h
  · rw [hnil] at hn
    exact absurd hn (Nat.lt_irrefl 0)
  · obtain ⟨hitems,hsetts,hst⟩ := play_started hc hidle hp h
    have hst := hst hn
    have hw : q'.wrapped j = q.wrapped j := by
      rw [wrapped,wrapped,hsetts,hitems]
    rw [hw]
    rcases hj with hj | hj | ⟨hi,hj⟩
    · rw [hitems,hj] at hn
      exact absurd hn (Nat.lt_irrefl 0)
    · rw [← hj]
      exact hst
    · rw [if_neg (by rw [hitems]; omega)] at hst ⊢
      exact hst

theorem playcur_started {q q' : Queue U} (hc : q.Current) (hidle : Idle q)
    (hp : q.active = true → ¬ q.Pending) (hin : 0 ≤ q.curpos ∧ q.curpos < q.items.length)
    (h : q.playcur = .ok q') : Started q q' q.curpos := by
  obtain ⟨l,hl,h⟩ := bind_ok h
  have hitems : q.items = urls l := items_of_get (get_ok hl)
  have hlen : l.count = q.items.length := by rw [hitems,urls_count]
  rw [if_neg (by omega)] at h
  exact (play_started hc hidle hp h).2.2

end Playing

/-! ## The item that followed -/

/-- The player, and the present place of the item that followed one that was removed while it was played,
until another is started -/
structure Watch (U : Type) where
  q : Queue U
  next : Option Nat

/-- An entry that is gone with the end of its track was the one that was played. -/
def Watch.followed (w : Watch U) (q' : Queue U) : Option Nat :=
  if 0 ≤ q'.trk_idx then none
  else if q'.items.length < w.q.items.length then
    (some w.q.trk_idx.toNat).filter (· < q'.items.length)
  else w.next

def Watch.follow (w : Watch U) (q' : Queue U) : Act U → Option Nat
  | .remove pos =>
    (if pos = w.q.trk_idx then some pos.toNat
      else w.next.map fun f : Nat => if pos < f then f - 1 else f).filter (· < q'.items.length)
  | .clear => if w.q.selected = w.q.q_active then none else w.next
  | _ => w.followed q'

def Watch.step [DecidableEq U] (w : Watch U) (a : Act U) : Option (Watch U) :=
  (w.q.after a).map fun q' => ⟨q',w.follow q' a⟩

/-- What is known in between -/
structure Good (w : Watch U) : Prop where
  random : w.q.setts.random = false
  current : w.q.Current
  next : ∀ f ∈ w.next, w.q.trk_idx = -1 ∧ w.q.curpos = f ∧ f < w.q.items.length

theorem Good.followed {w : Watch U} {q' : Queue U} (h : Good w) (hr : q'.setts.random = false)
    (hc : q'.Current) (hcur : q'.trk_idx = -1 → q'.curpos = w.q.curpos)
    (hlen : q'.items.length < w.q.items.length → 0 ≤ w.q.trk_idx) : Good ⟨q',w.followed q'⟩ := by
  refine ⟨hr,hc,fun f hf => ?_⟩
  change f ∈ w.followed q' at hf
  rw [Watch.followed] at hf
  split at hf
  · cases hf
  · rename_i hneg
    have htrk : q'.trk_idx = -1 := hc.resolve_right fun hc => hneg hc.1
    refine ⟨htrk,?_⟩
    change q'.curpos = f ∧ f < q'.items.length
    rw [hcur htrk]
    split at hf
    · rename_i hshort
      obtain ⟨hf,hlt⟩ := Option.mem_filter_iff.mp hf
      have h0 := hlen hshort
      have hc := h.current
      rw [Current] at hc
      rw [← Option.mem_some.mp hf] at hlt ⊢
      exact ⟨by omega,of_decide_eq_true hlt⟩
    · obtain ⟨-,hf,hlt⟩ := h.next f hf
      exact ⟨hf,by omega⟩

theorem Good.keep {w : Watch U} {q' : Queue U} (h : Good w) (hr : q'.setts.random = false)
    (ht : q'.trk_idx = w.q.trk_idx) (hcur : q'.curpos = w.q.curpos) (hu : q'.t.url = w.q.t.url)
    (hi : w.q.items <+: q'.items) : Good ⟨q',w.followed q'⟩ := by
  refine h.followed hr ?_ (fun _ => hcur) fun hlt => absurd hi.length_le (Nat.not_le.mpr hlt)
  have hc := h.current
  rw [Current] at hc ⊢
  rw [ht,hcur,hu]
  refine hc.imp_right fun ⟨h0,h1,h2,h3⟩ => ⟨h0,h1,h2,?_⟩
  obtain ⟨u,hu⟩ := Option.isSome_iff_exists.mp h2
  rw [hu] at h3 ⊢
  obtain ⟨hlt,heq⟩ := List.getElem?_eq_some_iff.mp h3
  rw [← heq,hi.getElem hlt]
  exact List.getElem?_eq_getElem _

theorem Good.ended {w : Watch U} {q' : Queue U} (h : Good w) (he : Ended w.q q') (hd : Dropped w.q q') :
    Good ⟨q',w.followed q'⟩ := by
  refine h.followed ((congrArg Setts.random he.setts).trans h.random) (.inl he.trk_idx)
    (fun _ => he.curpos) fun hlt => ?_
  rcases hd with ⟨-,hq⟩ | ⟨hp,-⟩
  · rw [items,he.q_active,items_at,hq] at hlt
    exact absurd hlt (Nat.lt_irrefl _)
  · exact hp.1

section Watching

variable [DecidableEq U]

theorem Good.play {w : Watch U} {q' : Queue U} {iq : Nat} {it : Int} (h : Good w) (hidle : Idle w.q)
    (hplay : w.q._play iq it = .ok q') : Good ⟨q',w.followed q'⟩ := by
  obtain ⟨q₁,hs,hq⟩ := _play_ok h.current hidle hplay
  rcases hq with ⟨-,hst⟩ | ⟨-,rfl⟩
  · have hr : q'.setts.random = false := by
      rw [hst.setts,hs.fields.1]
      exact h.random
    have h0 : 0 ≤ q'.trk_idx := hst.trk_idx ▸ hst.pos
    refine ⟨hr,.inr ⟨h0,hst.curpos.trans hst.trk_idx.symm,hst.some,?_⟩,fun f hf => ?_⟩
    · change q'.items[q'.trk_idx.toNat]? = q'.t.url
      rw [hst.items,hst.trk_idx]
      exact hst.url
    · change f ∈ w.followed q' at hf
      rw [Watch.followed,if_pos h0] at hf
      cases hf
  · rcases hs with ⟨-,rfl⟩ | ⟨-,he,hd⟩
    · exact h.keep h.random rfl rfl rfl List.prefix_rfl
    · exact h.ended he hd

theorem Good.play_delta {w : Watch U} {q' : Queue U} {rnd : Nat} {delta : Int} (h : Good w)
    (hidle : Idle w.q) (hplay : w.q.play_delta rnd delta = .ok q') : Good ⟨q',w.followed q'⟩ := by
  rcases play_delta_ok h.random hplay with ⟨-,rfl⟩ | hplay
  · exact h.keep h.random rfl rfl rfl List.prefix_rfl
  · exact h.play hidle hplay

end Watching

theorem Good.remove {w : Watch U} {q' : Queue U} {pos : Int} (h : Good w) (hpos : 0 ≤ pos)
    (hrem : w.q.remove pos = .ok q') : Good ⟨q',w.follow q' (.remove pos)⟩ := by
  obtain ⟨ha,hi,hcur,htrk⟩ := remove_ok hpos hrem
  refine ⟨(congrArg Setts.random ha.setts).trans h.random,?_,fun f hf => ?_⟩
  · change q'.Current
    rcases h.current with hc | ⟨h0,h1,h2,h3⟩
    · left
      rw [htrk,hc]
      split
      · rfl
      · exact if_neg (by omega)
    · rw [Current,htrk,hcur,hi,ha.t]
      rcases lt_trichotomy pos w.q.trk_idx with hlt | heq | hgt
      · right
        rw [if_neg hlt.ne,if_pos hlt,h1,if_pos hlt]
        refine ⟨by omega,rfl,h2,?_⟩
        rw [List.getElem?_eraseIdx_of_ge (by omega),← h3]
        congr 1
        omega
      · left
        exact if_pos heq
      · right
        rw [if_neg hgt.ne',if_neg hgt.asymm,h1,if_neg hgt.asymm]
        refine ⟨h0,rfl,h2,?_⟩
        rw [List.getElem?_eraseIdx_of_lt (by omega)]
        exact h3
  · obtain ⟨hf,hlt⟩ := Option.mem_filter_iff.mp hf
    refine ⟨?_,?_,of_decide_eq_true hlt⟩
    · change q'.trk_idx = -1
      rw [htrk]
      split at hf
      · rename_i heq
        exact if_pos heq
      · rename_i hne
        obtain ⟨g,hg,-⟩ := Option.map_eq_some_iff.mp hf
        obtain ⟨hg,-,-⟩ := h.next g hg
        rw [if_neg hne,hg]
        exact if_neg (by omega)
    · change q'.curpos = f
      rw [hcur]
      split at hf
      · rename_i heq
        have hc := h.current
        rw [Current] at hc
        rw [← Option.mem_some.mp hf,if_neg (by omega)]
        omega
      · obtain ⟨g,hg,rfl⟩ := Option.map_eq_some_iff.mp hf
        obtain ⟨-,hg,-⟩ := h.next g hg
        rw [hg]
        split
        · omega
        · rfl

/-! ## The items that are due -/

/-- The track that is open failed, and its item goes when it is stopped. -/
def Failing (q : Queue U) : Prop := q.active = true ∧ q.Pending

instance (q : Queue U) : Decidable q.Failing := inferInstanceAs (Decidable (q.active = true ∧ q.Pending))

/-- The item that is next -/
def Watch.due (w : Watch U) : Int :=
  if w.q.Failing ∧ w.q.trk_idx + 1 < w.q.items.length then w.q.trk_idx
  else (w.next.map Int.ofNat).getD (w.q.curpos + 1)

/-- Next removes the item that is played. -/
def Removing (q : Queue U) : Prop :=
  q.active = true ∧ 0 ≤ q.trk_idx ∧ (q.setts.add_rm_on_next = true ∨ q.setts.rm_on_next = true)

instance (q : Queue U) : Decidable q.Removing :=
  inferInstanceAs (Decidable (q.active = true ∧ 0 ≤ q.trk_idx ∧
    (q.setts.add_rm_on_next = true ∨ q.setts.rm_on_next = true)))

/-- The item that Next starts -/
def Watch.due_next (w : Watch U) : Int :=
  if w.q.Removing ∧ w.q.trk_idx + 1 < w.q.items.length then w.q.trk_idx else w.due

/-- What is said of the next items -/
def Watch.Right (w : Watch U) (q' : Queue U) (a : Act U) : Prop :=
  q'.Current ∧
    match a with
    | .add _ | .addmany _ | .clear =>
      w.q.selected ≠ w.q.q_active → q'.trk_idx = w.q.trk_idx ∧ q'.curpos = w.q.curpos
    | .next_list_add_cur => q'.trk_idx = w.q.trk_idx ∧ q'.curpos = w.q.curpos
    | .order_next _ => Started w.q q' (q'.wrapped w.due_next)
    | .order_prev _ => Started w.q q' (q'.wrapped (w.q.curpos - 1))
    | .posted _ =>
      match w.q.posted with
      | [] => True
      | .playcur :: _ => ∀ f ∈ w.next, Started w.q q' (f : Nat)
      | .next :: _ => Started w.q q' (q'.wrapped w.due)
    | _ => True

/-- Every list is edited, with random off. -/
def Listed (q : Queue U) : Act U → Prop
  | .close_current_list | .sort _ => False
  | .switch_list i => i < q.queues.length
  | .remove pos => 0 ≤ pos
  | .setts s => s.random = false
  | _ => True

/-! ## Where the code finds them -/

/-- With repetition, the index `i` is one that `play_delta()` takes modulo the length. -/
def Wraps (q : Queue U) (i : Int) : Prop :=
  q.items = [] ∨
    (q.setts.repeat_ = true →
      (0 < i ∧ i < q.items.length) ∨ (i ≤ 0 ∧ i % q.items.length = q.items.length - 1) ∨
        (q.items.length < i ∧ i % q.items.length = 0))

/-- `order_next()` takes the item that is due. -/
def Watch.NextFair (w : Watch U) : Prop :=
  if w.q.Removing then
    w.q.setts.repeat_ = true →
      w.q.items.length = 1 ∨
        (w.q.trk_idx + 1 < w.q.items.length ∧ (0 < w.q.trk_idx ∨ w.q.items.length = 2))
  else
    ¬ w.q.Failing ∧
      (∀ f ∈ w.next, w.q.active = true ∧
        (w.q.setts.repeat_ = true → 0 < f ∨ w.q.items.length = 1)) ∧
      (w.next = none →
        if w.q.active = true ∧ w.q.trk_idx < 0 then
          w.q.items = [] ∨
            if w.q.setts.repeat_ = true then
              (w.q.curpos ≤ 0 ∧ (w.q.curpos + 1) % w.q.items.length = w.q.items.length - 1) ∨
                (w.q.items.length < w.q.curpos ∧ (w.q.curpos + 1) % w.q.items.length = 0)
            else w.q.items.length ≤ w.q.curpos
        else w.q.Wraps (w.q.curpos + 1))

/-- Another list is cleared before anything was played only, and Next and Previous are not asked for where
`play_delta()` does not find the item. -/
def Watch.Fair (w : Watch U) : Act U → Prop
  | .clear => w.q.selected = w.q.q_active ∨ (w.q.trk_idx = -1 ∧ w.q.curpos = -1)
  | .order_next _ => w.NextFair
  | .order_prev _ => ¬ w.q.Failing ∧ w.q.Wraps (w.q.curpos - 1)
  | .posted _ =>
    w.q.posted.head? = some .next →
      ¬ w.q.Failing ∧ w.next = none ∧ w.q.Wraps (w.q.curpos + 1)
  | _ => True

/-! ## The index that is found -/

theorem place_inside {q : Queue U} {i : Int} (h : 0 < i) (hn : i < q.items.length) : q.place i = i := by
  unfold place
  split
  · rw [if_neg (by omega),if_neg (by omega)]
  · rfl

theorem wrapped_inside {q : Queue U} {i : Int} (h : 0 ≤ i) (hn : i < q.items.length) :
    q.wrapped i = i := by
  unfold wrapped
  split
  · exact Int.emod_eq_of_lt h hn
  · rfl

theorem place_first {q : Queue U} {i : Int} (hr : q.setts.repeat_ = true) (h : i ≤ 0) :
    q.place i = q.items.length - 1 := by
  unfold place
  rw [if_pos hr,if_neg (by omega),if_pos h]

theorem place_past {q : Queue U} {i : Int} (hr : q.setts.repeat_ = true) (h : q.items.length < i) :
    q.place i = 0 := by
  unfold place
  rw [if_pos hr,if_pos h]

theorem finds_of_repeat {q : Queue U} {i j : Int} (hr : q.setts.repeat_ = true)
    (h : (i ≤ 0 ∧ j % q.items.length = q.items.length - 1) ∨
      (q.items.length < i ∧ j % q.items.length = 0)) : q.Finds i j := by
  left
  unfold wrapped
  rw [if_pos hr]
  rcases h with ⟨hi,hj⟩ | ⟨hi,hj⟩
  · rw [place_first hr hi,hj]
  · rw [place_past hr hi,hj]

theorem Wraps.finds {q : Queue U} {i : Int} (h : q.Wraps i) : q.items = [] ∨ q.Finds i i := by
  refine h.imp_right fun h => ?_
  by_cases hr : q.setts.repeat_ = true
  · rcases h hr with ⟨h0,hn⟩ | h
    · exact .inl ((place_inside h0 hn).trans (wrapped_inside h0.le hn).symm)
    · exact finds_of_repeat hr h
  · left
    unfold place wrapped
    rw [if_neg hr,if_neg hr]

/-- An item of the list is found, but for the first one with repetition. -/
theorem finds_inside {q : Queue U} {i : Int} (h0 : 0 ≤ i) (hn : i < q.items.length)
    (hrep : q.setts.repeat_ = true → 0 < i ∨ q.items.length = 1) : q.Finds i i := by
  left
  rw [wrapped_inside h0 hn]
  by_cases hpos : 0 < i
  · exact place_inside hpos hn
  · by_cases hr : q.setts.repeat_ = true
    · rw [place_first hr (by omega)]
      have := hrep hr
      omega
    · unfold place
      rw [if_neg hr]

theorem finds_past {q : Queue U} {i j : Int} (hr : ¬ q.setts.repeat_ = true) (hi : q.items.length ≤ i)
    (hj : q.items.length ≤ j) : q.Finds i j := by
  right
  unfold place wrapped
  rw [if_neg hr,if_neg hr]
  exact ⟨hi,hj⟩

theorem Current.inside {q : Queue U} (hc : q.Current) (h0 : 0 ≤ q.trk_idx) :
    q.curpos = q.trk_idx ∧ q.trk_idx < q.items.length := by
  rcases hc with hc | ⟨-,hcur,hsome,hurl⟩
  · omega
  · refine ⟨hcur,?_⟩
    rw [← hurl] at hsome
    obtain ⟨u,hu⟩ := Option.isSome_iff_exists.mp hsome
    have := (List.getElem?_eq_some_iff.mp hu).1
    omega

theorem Started.of_same {q q₂ q' : Queue U} {i : Int} (hcur : q₂.curpos = q.curpos)
    (ht : q₂.t = q.t) (h : Started q₂ q' i) : Started q q' i := by
  intro hn
  rw [← hcur,← ht]
  exact h hn

theorem Watch.due_none {w : Watch U} (hf : ¬ (w.q.Failing ∧ w.q.trk_idx + 1 < w.q.items.length))
    (h : w.next = none) : w.due = w.q.curpos + 1 := by
  unfold Watch.due
  rw [if_neg hf,h]
  rfl

theorem Watch.due_some {w : Watch U} {f : Nat} (ht : w.q.trk_idx = -1) (h : w.next = some f) :
    w.due = f := by
  unfold Watch.due
  have hf : ¬ (w.q.Failing ∧ w.q.trk_idx + 1 < w.q.items.length) := by
    intro hf
    have h0 : 0 ≤ w.q.trk_idx := hf.1.2.1
    omega
  rw [if_neg hf,h]
  rfl

/-! ## One step -/

section Steps

variable [DecidableEq U]

theorem play_delta_curpos {q q' : Queue U} {rnd : Nat} {delta : Int} (hc : q.Current) (hidle : Idle q)
    (hr : q.setts.random = false) (h : q.play_delta rnd delta = .ok q') (ht : q'.trk_idx = -1) :
    q'.curpos = q.curpos := by
  rcases play_delta_ok hr h with ⟨-,rfl⟩ | h
  · rfl
  · obtain ⟨q₁,hs,⟨-,hst⟩ | ⟨-,rfl⟩⟩ := _play_ok hc hidle h
    · have h0 := hst.pos
      rw [← hst.trk_idx] at h0
      omega
    · exact hs.fields.2.2.1

/-- The state in which Next looks for an item after it removed the one that was played. -/
structure Removed (q q₂ : Queue U) : Prop where
  setts : q₂.setts = q.setts
  t : q₂.t = q.t
  active : q₂.active = q.active
  trk_idx : q₂.trk_idx = -1
  curpos : q₂.curpos = q.trk_idx
  items : q₂.items = q.items.eraseIdx q.trk_idx.toNat

theorem order_next_removing {q q' : Queue U} {rnd : Nat} (hr : q.Removing) (hc : q.Current)
    (h : q.order_next rnd = .ok q') : ∃ q₂, Removed q q₂ ∧ q₂.play_delta rnd 0 = .ok q' := by
  obtain ⟨ha,h0,hset⟩ := hr
  unfold order_next at h
  rw [if_pos ha,if_neg (Int.not_lt.mpr h0),if_pos hset] at h
  obtain ⟨q₁,h₁,h⟩ := bind_ok h
  obtain ⟨q₂,h₂,h⟩ := bind_ok h
  have hadd : Alike q q₁ ∧ q₁.trk_idx = q.trk_idx ∧ q₁.curpos = q.curpos ∧ q₁.items = q.items := by
    split at h₁
    · obtain ⟨ha,ht,hcur,-⟩ := next_list_add_cur_ok h₁
      exact ⟨ha,ht,hcur,next_list_add_cur_items h₁⟩
    · obtain rfl := Except.ok.inj h₁
      exact ⟨⟨rfl,rfl,rfl,rfl,rfl,rfl⟩,rfl,rfl,rfl⟩
  obtain ⟨ha₁,ht₁,hc₁,hi₁⟩ := hadd
  obtain ⟨ha₂,hi₂,hc₂,ht₂⟩ := remove_ok (ht₁ ▸ h0) h₂
  refine ⟨q₂,⟨ha₂.setts.trans ha₁.setts,ha₂.t.trans ha₁.t,ha₂.active.trans ha₁.active,?_,?_,?_⟩,h⟩
  · rw [ht₂,if_pos rfl]
  · rw [Current] at hc
    rw [hc₂,ht₁,hc₁,if_neg (by omega)]
    omega
  · rw [hi₂,ht₁,hi₁]

theorem order_next_other {q q' : Queue U} {rnd : Nat} (hr : ¬ q.Removing)
    (h : q.order_next rnd = .ok q') :
    q.play_delta rnd (if q.active = true ∧ q.trk_idx < 0 then 0 else 1) = .ok q' := by
  unfold order_next at h
  by_cases ha : q.active = true
  · rw [if_pos ha] at h
    by_cases ht : q.trk_idx < 0
    · rw [if_pos ht] at h
      rw [if_pos ⟨ha,ht⟩]
      exact h
    · rw [if_neg ht,if_neg fun hset => hr ⟨ha,Int.not_lt.mp ht,hset⟩] at h
      rw [if_neg fun hh => ht hh.2]
      exact h
  · rw [if_neg ha] at h
    rw [if_neg fun hh => ha hh.1]
    exact h

theorem Good.order_next {w : Watch U} {q' : Queue U} {rnd : Nat} (h : Good w) (hidle : Idle w.q)
    (hnext : w.q.order_next rnd = .ok q') : Good ⟨q',w.followed q'⟩ := by
  by_cases hr : w.q.Removing
  · obtain ⟨q₂,hrem,hplay⟩ := order_next_removing hr h.current hnext
    have hcur := h.current
    rw [Current] at hcur
    have hgood : Good ⟨q₂,none⟩ :=
      ⟨(congrArg Setts.random hrem.setts).trans h.random,.inl hrem.trk_idx,fun f hf => by cases hf⟩
    have hidle₂ : Idle q₂ := by
      rw [Idle,hrem.t,hrem.active]
      exact hidle
    have hg := hgood.play_delta hidle₂ hplay
    refine h.followed hg.random hg.current (fun ht => ?_) fun _ => hr.2.1
    rw [play_delta_curpos hgood.current hidle₂ hgood.random hplay ht,hrem.curpos]
    have := hr.2.1
    omega
  · exact h.play_delta hidle (order_next_other hr hnext)

theorem Good.step {w : Watch U} {q' : Queue U} {a : Act U} (h : Good w) (hi : Inv w.q)
    (hl : Listed w.q a) (hf : w.Fair a) (hs : w.q.step a = .ok q') : Good ⟨q',w.follow q' a⟩ := by
  have hidle : Idle w.q := hi.2
  cases a with
  | new_list =>
    obtain rfl := Except.ok.inj hs
    refine h.keep h.random rfl rfl rfl ?_
    have hlt : w.q.q_active < w.q.queues.length := ids_length w.q ▸ hi.1.q_active
    have hget : w.q.new_list.queues[w.q.q_active]? = w.q.queues[w.q.q_active]? :=
      List.getElem?_append_left hlt
    have hitems : w.q.new_list.items = w.q.items := by
      change items_at w.q.new_list w.q.q_active = w.q.items
      rw [items_at,hget]
      rfl
    exact hitems.symm ▸ List.prefix_rfl
  | close_current_list => exact hl.elim
  | switch_list i =>
    obtain rfl := Except.ok.inj hs
    exact h.keep h.random rfl rfl rfl List.prefix_rfl
  | next_list_select =>
    obtain rfl := Except.ok.inj hs
    exact h.keep h.random rfl rfl rfl List.prefix_rfl
  | play index => exact h.play hidle hs
  | playcur =>
    obtain ⟨l,-,hs⟩ := bind_ok hs
    exact h.play hidle hs
  | order_next rnd => exact h.order_next hidle hs
  | order_prev rnd => exact h.play_delta hidle hs
  | posted rnd =>
    change w.q.run_posted rnd = .ok q' at hs
    unfold run_posted at hs
    split at hs
    · obtain rfl := Except.ok.inj hs
      exact h.keep h.random rfl rfl rfl List.prefix_rfl
    · rename_i rest _
      obtain ⟨l,-,hs⟩ := bind_ok hs
      have hw : Good ⟨{w.q with posted := rest},w.next⟩ := ⟨h.random,h.current,h.next⟩
      exact hw.play hidle hs
    · rename_i rest _
      have hw : Good ⟨{w.q with posted := rest},w.next⟩ := ⟨h.random,h.current,h.next⟩
      exact hw.play_delta hidle hs
  | opened =>
    obtain ⟨q₁,h₁,hs⟩ := bind_ok hs
    obtain rfl := Except.ok.inj hs
    unfold on_open at h₁
    dsimp only at h₁
    split at h₁
    · obtain rfl := Except.ok.inj h₁
      exact h.keep h.random rfl rfl rfl List.prefix_rfl
    · obtain ⟨ha,ht,hc,hit⟩ := on_list_ok (g := id) (f := fun l => {l with modified := true}) (fun _ => rfl) h₁
      have hat := ha.t
      have hurl : q₁.t.url = w.q.t.url := by rw [hat]
      refine h.keep ?_ ht hc hurl ?_
      · exact (congrArg Setts.random ha.setts).trans h.random
      · change w.q.items <+: q₁.items_at q₁.q_active
        rw [hit,ha.q_active,if_pos rfl]
        exact List.prefix_rfl
  | refused =>
    obtain ⟨he,hd⟩ := trk_close_ok (q := {w.q with t := {w.q.t with error := true}}) h.current hs
    have hw : Good ⟨{w.q with t := {w.q.t with error := true}},w.next⟩ := ⟨h.random,h.current,h.next⟩
    exact hw.ended he hd
  | error =>
    obtain rfl := Except.ok.inj hs
    exact h.keep h.random rfl rfl rfl List.prefix_rfl
  | complete =>
    change (if w.q.t.state = .NONE then pure w.q
      else trk_close {w.q with t := {w.q.t with stopped := false}}) = .ok q' at hs
    split at hs
    · obtain rfl := Except.ok.inj hs
      exact h.keep h.random rfl rfl rfl List.prefix_rfl
    · obtain ⟨he,hd⟩ := trk_close_ok (q := {w.q with t := {w.q.t with stopped := false}}) h.current hs
      have hw : Good ⟨{w.q with t := {w.q.t with stopped := false}},w.next⟩ :=
        ⟨h.random,h.current,h.next⟩
      exact hw.ended he hd
  | stop =>
    obtain ⟨he,hd⟩ := stop_ok h.current hs
    exact h.ended he hd
  | add url =>
    obtain ⟨ha,ht,hc,hit⟩ := add_ok [url] (urls_add · url) hs
    exact h.keep ((congrArg Setts.random ha.setts).trans h.random) ht hc
      (congrArg TrackHandle.url ha.t) hit
  | addmany urls =>
    obtain ⟨ha,ht,hc,hit⟩ := add_ok urls (urls_add_many · urls) hs
    exact h.keep ((congrArg Setts.random ha.setts).trans h.random) ht hc
      (congrArg TrackHandle.url ha.t) hit
  | next_list_add_cur =>
    obtain ⟨ha,ht,hc,hit⟩ := next_list_add_cur_ok hs
    exact h.keep ((congrArg Setts.random ha.setts).trans h.random) ht hc
      (congrArg TrackHandle.url ha.t) hit
  | remove pos => exact h.remove hl hs
  | clear =>
    obtain ⟨ha,hit,hc,ht⟩ := clear_ok hs
    refine ⟨(congrArg Setts.random ha.setts).trans h.random,.inl ht,fun f hnext => ?_⟩
    change f ∈ (if w.q.selected = w.q.q_active then none else w.next) at hnext
    split at hnext
    · cases hnext
    · rename_i hne
      obtain ⟨-,hcur,-⟩ := h.next f hnext
      have := (hf.resolve_left hne).2
      omega
  | sort order => exact hl.elim
  | filter shown =>
    obtain ⟨-,-,hs⟩ := bind_ok hs
    obtain rfl := Except.ok.inj hs
    exact h.keep h.random rfl rfl rfl List.prefix_rfl
  | setts s =>
    obtain rfl := Except.ok.inj hs
    exact h.keep hl rfl rfl rfl List.prefix_rfl
  | auto_stop =>
    obtain rfl := Except.ok.inj hs
    unfold auto_stop
    split
    · exact h.keep h.random rfl rfl rfl List.prefix_rfl
    · exact h.keep h.random rfl rfl rfl List.prefix_rfl
  | auto_stop_expired =>
    obtain rfl := Except.ok.inj hs
    split
    · exact h.keep h.random rfl rfl rfl List.prefix_rfl
    · exact h.keep h.random rfl rfl rfl List.prefix_rfl

/-! ## What a step starts -/

theorem removing_started {w : Watch U} {q' : Queue U} {rnd : Nat} (h : Good w) (hidle : Idle w.q)
    (hr : w.q.Removing)
    (hf : w.q.setts.repeat_ = true →
      w.q.items.length = 1 ∨
        (w.q.trk_idx + 1 < w.q.items.length ∧ (0 < w.q.trk_idx ∨ w.q.items.length = 2)))
    (hs : w.q.order_next rnd = .ok q') : Started w.q q' (q'.wrapped w.due_next) := by
  obtain ⟨q₂,hrem,hplay⟩ := order_next_removing hr h.current hs
  have h0 := hr.2.1
  obtain ⟨hcur,hlt⟩ := h.current.inside h0
  have hlen : (q₂.items.length : Int) = w.q.items.length - 1 := by
    rw [hrem.items,List.length_eraseIdx_of_lt (by omega)]
    omega
  have hidle₂ : Idle q₂ := by
    rw [Idle,hrem.t,hrem.active]
    exact hidle
  have hp : q₂.active = true → ¬ q₂.Pending := by
    intro _ hp
    have := hp.1
    have := hrem.trk_idx
    omega
  have hfinds : q₂.items = [] ∨ q₂.Finds (q₂.curpos + 0) w.due_next := by
    rw [hrem.curpos,Int.add_zero]
    unfold Watch.due_next
    by_cases hlast : w.q.trk_idx + 1 < w.q.items.length
    · rw [if_pos ⟨hr,hlast⟩]
      refine .inr (finds_inside h0 (by omega) fun hrep => ?_)
      have := hf (hrem.setts ▸ hrep)
      omega
    · rw [if_neg fun hh => hlast hh.2]
      by_cases hrep : q₂.setts.repeat_ = true
      · have := hf (hrem.setts ▸ hrep)
        exact .inl (List.eq_nil_of_length_eq_zero (by omega))
      · have hnone : w.next = none := by
          refine Option.eq_none_iff_forall_not_mem.mpr fun f hnext => ?_
          have := (h.next f hnext).1
          omega
        rw [w.due_none (fun hf => hlast hf.2) hnone]
        exact .inr (finds_past hrep (by omega) (by omega))
  exact .of_same (hrem.curpos.trans hcur.symm) hrem.t
    (play_delta_started (.inl hrem.trk_idx) hidle₂ hp ((congrArg Setts.random hrem.setts).trans h.random)
      hfinds hplay)

theorem order_next_started {w : Watch U} {q' : Queue U} {rnd : Nat} (h : Good w) (hidle : Idle w.q)
    (hf : w.NextFair) (hs : w.q.order_next rnd = .ok q') :
    Started w.q q' (q'.wrapped w.due_next) := by
  unfold Watch.NextFair at hf
  by_cases hr : w.q.Removing
  · rw [if_pos hr] at hf
    exact removing_started h hidle hr hf hs
  · rw [if_neg hr] at hf
    obtain ⟨hp,hsome,hnone⟩ := hf
    refine play_delta_started h.current hidle (fun ha hq => hp ⟨ha,hq⟩) h.random ?_
      (order_next_other hr hs)
    have hnext_due : w.due_next = w.due := if_neg fun hh => hr hh.1
    rw [hnext_due]
    cases hnext : w.next with
    | some f =>
      obtain ⟨ha,hf⟩ := hsome f hnext
      obtain ⟨ht,hcur,hlt⟩ := h.next f hnext
      rw [if_pos ⟨ha,by omega⟩,Int.add_zero,hcur,w.due_some ht hnext]
      exact .inr (finds_inside (by omega) (by omega) fun hrep => (hf hrep).imp_left (by omega))
    | none =>
      have hfair := hnone hnext
      rw [w.due_none (fun hf => hp hf.1) hnext]
      split
      · rename_i hact
        rw [if_pos hact] at hfair
        refine hfair.imp_right fun hfair => ?_
        rw [Int.add_zero]
        split at hfair
        · rename_i hrep
          exact finds_of_repeat hrep hfair
        · rename_i hrep
          exact finds_past hrep hfair (by omega)
      · rename_i hact
        rw [if_neg hact] at hfair
        exact hfair.finds

theorem Good.right {w : Watch U} {q' : Queue U} {a : Act U} (h : Good w) (hi : Inv w.q)
    (hl : Listed w.q a) (hf : w.Fair a) (hs : w.q.step a = .ok q') : w.Right q' a := by
  have hidle : Idle w.q := hi.2
  refine ⟨(h.step hi hl hf hs).current,?_⟩
  cases a with
  | order_next rnd => exact order_next_started h hidle hf hs
  | order_prev rnd =>
    exact play_delta_started h.current hidle (fun ha hp => hf.1 ⟨ha,hp⟩) h.random hf.2.finds hs
  | posted rnd =>
    change w.q.run_posted rnd = .ok q' at hs
    unfold run_posted at hs
    dsimp only
    split
    · trivial
    · rename_i rest hposted
      rw [hposted] at hs
      intro f hnext
      obtain ⟨ht,hcur,hlt⟩ := h.next f hnext
      have hp : w.q.active = true → ¬ ({w.q with posted := rest} : Queue U).Pending := by
        intro _ hp
        have h0 : 0 ≤ w.q.trk_idx := hp.1
        omega
      have hst := playcur_started (q := {w.q with posted := rest}) h.current hidle hp
        (by change 0 ≤ w.q.curpos ∧ w.q.curpos < w.q.items.length; omega) hs
      rw [← hcur]
      exact hst
    · rename_i rest hposted
      rw [hposted] at hs
      obtain ⟨hp,hnone,hw⟩ := hf (by rw [hposted]; rfl)
      have hdue := w.due_none (fun hf => hp hf.1) hnone
      rw [hdue]
      exact play_delta_started (q := {w.q with posted := rest}) h.current hidle
        (fun ha hq => hp ⟨ha,hq⟩) h.random hw.finds hs
  | add url =>
    obtain ⟨-,ht,hc,-⟩ := add_ok [url] (urls_add · url) hs
    exact fun _ => ⟨ht,hc⟩
  | addmany urls =>
    obtain ⟨-,ht,hc,-⟩ := add_ok urls (urls_add_many · urls) hs
    exact fun _ => ⟨ht,hc⟩
  | next_list_add_cur =>
    obtain ⟨-,ht,hc,-⟩ := next_list_add_cur_ok hs
    exact ⟨ht,hc⟩
  | clear =>
    obtain ⟨-,-,hc,ht⟩ := clear_ok hs
    intro hne
    obtain ⟨ht₀,hc₀⟩ := hf.resolve_left hne
    exact ⟨ht.trans ht₀.symm,hc.trans hc₀.symm⟩
  | new_list | close_current_list | switch_list | next_list_select | play | playcur | opened | refused
  | error | complete | stop | remove | sort | filter | setts | auto_stop | auto_stop_expired => trivial

/-! ## Every run -/

/-- In every run with random off in which the items are found, `trk_idx` is the item that is played, other
lists leave it, and the next item is the one that followed the one that was removed, or else the next one. -/
theorem next_items_right {list_active list_curpos : Nat} {setts : Setts}
    {files : List (Option (List (Entry U)))} {q₀ : Queue U} {as : List (Act U)}
    (hload : (new list_active list_curpos setts).load files = .ok q₀) (hrandom : setts.random = false)
    (has : Machine.AllSteps Watch.step (fun w a => Listed w.q a ∧ w.Fair a) ⟨q₀,none⟩ as) :
    Machine.AllSteps Watch.step (fun w a => ∀ q' ∈ w.q.after a, w.Right q' a) ⟨q₀,none⟩ as := by
  have hi : Inv q₀ := (load_within list_active list_curpos setts files).of_ok hload
  have hgood : Good ⟨q₀,none⟩ := by
    obtain ⟨q₁,h₁,h⟩ := bind_ok hload
    obtain rfl := Except.ok.inj h
    obtain ⟨hs,ht⟩ := load_lists_ok h₁
    exact ⟨(congrArg Setts.random hs).trans hrandom,.inl ht,fun f hf => by cases hf⟩
  refine has.of_invariant (I := fun w => Good w ∧ Inv w.q) ?_ ?_ ⟨hgood,hi⟩
  · intro w a w' ⟨hg,hi⟩ ⟨hl,hf⟩ hstep
    obtain ⟨q',hq,rfl⟩ := Option.map_eq_some_iff.mp hstep
    have hs := after_eq_some.mp hq
    have hexist : Existing w.q a := by
      cases a with
      | switch_list i => exact hl
      | _ => trivial
    have hbehind : ClosedBehind w.q a := by
      cases a with
      | close_current_list => exact hl.elim
      | _ => trivial
    exact ⟨hg.step hi hl hf hs,(step_within hi hexist).of_ok hs hbehind⟩
  · intro w a ⟨hg,hi⟩ ⟨hl,hf⟩ q' hq
    exact hg.right hi hl hf (after_eq_some.mp hq)

end Steps

/-! ## Two lists -/

instance (q : Queue U) (i : Int) : Decidable (q.Wraps i) :=
  inferInstanceAs (Decidable (q.items = [] ∨
    (q.setts.repeat_ = true →
      (0 < i ∧ i < q.items.length) ∨ (i ≤ 0 ∧ i % q.items.length = q.items.length - 1) ∨
        (q.items.length < i ∧ i % q.items.length = 0))))

instance (w : Watch U) : Decidable w.NextFair := by
  delta Watch.NextFair
  infer_instance

instance (w : Watch U) : ∀ a, Decidable (w.Fair a)
  | .clear =>
    inferInstanceAs (Decidable (w.q.selected = w.q.q_active ∨ (w.q.trk_idx = -1 ∧ w.q.curpos = -1)))
  | .order_next _ => inferInstanceAs (Decidable w.NextFair)
  | .order_prev _ =>
    inferInstanceAs (Decidable
      (¬ w.q.Failing ∧ w.q.Wraps (w.q.curpos - 1)))
  | .posted _ =>
    inferInstanceAs (Decidable (w.q.posted.head? = some .next →
      ¬ w.q.Failing ∧ w.next = none ∧ w.q.Wraps (w.q.curpos + 1)))
  | .new_list | .close_current_list | .switch_list _ | .next_list_select | .play _ | .playcur
  | .opened | .refused | .error | .complete | .stop | .add _ | .addmany _ | .next_list_add_cur
  | .remove _ | .sort _ | .filter _ | .setts _ | .auto_stop | .auto_stop_expired =>
    inferInstanceAs (Decidable True)

instance (q : Queue U) : ∀ a, Decidable (Listed q a)
  | .close_current_list | .sort _ => inferInstanceAs (Decidable False)
  | .switch_list i => inferInstanceAs (Decidable (i < q.queues.length))
  | .remove pos => inferInstanceAs (Decidable (0 ≤ pos))
  | .setts s => inferInstanceAs (Decidable (s.random = false))
  | .new_list | .next_list_select | .play _ | .playcur | .order_next _ | .order_prev _ | .posted _
  | .opened | .refused | .error | .complete | .stop | .add _ | .addmany _ | .next_list_add_cur
  | .clear | .filter _ | .auto_stop | .auto_stop_expired => inferInstanceAs (Decidable True)

section Tests

variable [DecidableEq U]

instance (q : Queue U) : Decidable q.Current :=
  inferInstanceAs (Decidable (q.trk_idx = -1 ∨
    (0 ≤ q.trk_idx ∧ q.curpos = q.trk_idx ∧ q.t.url.isSome = true ∧
      q.items[q.trk_idx.toNat]? = q.t.url)))

instance (q q' : Queue U) (i : Int) : Decidable (Started q q' i) :=
  inferInstanceAs (Decidable (0 < q'.items.length →
    if 0 ≤ i ∧ i < q'.items.length then
      q'.trk_idx = i ∧ q'.curpos = i ∧ q'.t.url = q'.items[i.toNat]?
    else q'.curpos = q.curpos ∧ q'.t.url = q.t.url))

instance (w : Watch U) (q' : Queue U) (a : Act U) : Decidable (w.Right q' a) := by
  delta Watch.Right
  refine @instDecidableAnd _ _ _ ?_
  cases a with
  | posted rnd =>
    dsimp only
    cases w.q.posted with
    | nil => exact inferInstanceAs (Decidable True)
    | cons p _ =>
      cases p with
      | playcur => exact inferInstanceAs (Decidable (∀ f ∈ w.next, Started w.q q' (f : Nat)))
      | next => exact inferInstanceAs (Decidable (Started w.q q' (q'.wrapped w.due)))
  | _ => dsimp only; infer_instance

end Tests

def two_new : Queue Nat := new 0 0 no_setts

/-- The list files -/
def two_files : List (Option (List (Entry Nat))) := [some [.new 10,.new 20,.new 30],some [.new 40]]

def two : Queue Nat := (two_new.load two_files).toOption.getD two_new

/-- The item that is played is removed, and others are added and cleared in between. -/
def removed : List (Act Nat) :=
  [.play 1,.opened,.remove 1,.order_next 0,.opened,.add 50,.order_prev 0,.opened,.remove 0,.complete,.posted 0,
    .opened,.switch_list 1,.add 60,.play 1,.opened,.clear,.order_next 0]

theorem next_items_right_removed :
    (Machine.run Watch.step ⟨two,none⟩ removed).isSome ∧
      Machine.AllSteps Watch.step (fun w a => ∀ q' ∈ w.q.after a, w.Right q' a) ⟨two,none⟩ removed :=
  ⟨by decide +kernel,@next_items_right Nat _ 0 0 no_setts two_files two removed (by decide +kernel) rfl
    (by decide +kernel)⟩

def repeated : Setts := {no_setts with repeat_ := true}

def rm_failing : Setts := {no_setts with rm_on_err := true}

/-- Next of the last item; Next after the first one was removed; the other list is cleared; Next after the item
that was played was removed and stopped; Next after it failed. -/
def lost : List (List (Act Nat)) :=
  [[.setts repeated,.play 2,.opened,.order_next 0],
    [.setts repeated,.play 0,.opened,.remove 0,.order_next 0],
    [.play 1,.opened,.switch_list 1,.clear],
    [.play 0,.opened,.remove 0,.stop,.order_next 0],
    [.setts rm_failing,.play 0,.opened,.error,.order_next 0]]

theorem next_items_lost :
    two_new.load two_files = .ok two ∧
      ∀ as ∈ lost,
        Machine.AllSteps Watch.step (fun w a => Listed w.q a) ⟨two,none⟩ as ∧
          ¬ Machine.AllSteps Watch.step (fun w a => ∀ q' ∈ w.q.after a, w.Right q' a) ⟨two,none⟩ as :=
  ⟨by decide +kernel,by decide +kernel⟩

end Phiola.Android.Queue
