import Phiola.Android.Active

/-!
# The calls of the Android player

What a call that returns does to the list that is played from, to `trk_idx` and to `curpos`. A track that is
closed may take its entry with it.
-/

namespace Phiola.Android.Queue

variable {U : Type}

/-! ## The list of an index -/

def urls (l : PhiolaQueue U) : List U := l.entries.map Entry.url

def items_at (q : Queue U) (i : Nat) : List U := ((q.queues[i]?).map urls).getD []

theorem urls_count (l : PhiolaQueue U) : l.count = (urls l).length := by
  rw [urls,List.length_map,PhiolaQueue.count]

theorem urls_add (l : PhiolaQueue U) (url : U) : urls (l.add url) = urls l ++ [url] := List.map_append

theorem urls_add_many (l : PhiolaQueue U) (new : List U) : urls (l.add_many new) = urls l ++ new := by
  simp [urls,PhiolaQueue.add_many,Entry.new,Function.comp_def]

/-- The list that is played from -/
def items (q : Queue U) : List U := q.items_at q.q_active

/-- The rest of the player that matters for the next item -/
structure Alike (q q' : Queue U) : Prop where
  q_active : q'.q_active = q.q_active
  selected : q'.selected = q.selected
  setts : q'.setts = q.setts
  t : q'.t = q.t
  active : q'.active = q.active
  posted : q'.posted = q.posted

theorem get_ok {q : Queue U} {i : Nat} {l : PhiolaQueue U} (h : q.get i = .ok l) : q.queues[i]? = some l := by
  unfold get at h
  split at h
  · rename_i l' hl
    rw [hl,Except.ok.inj h]
  · cases h

theorem bind_ok {α β : Type} {x : Except Fault α} {f : α → Except Fault β} {b : β} (h : (x >>= f) = .ok b) :
    ∃ a, x = .ok a ∧ f a = .ok b := by
  cases x with
  | ok a => exact ⟨a,rfl,h⟩
  | error e => cases h

theorem on_list_ok {q q' : Queue U} {i : Nat} {f : PhiolaQueue U → PhiolaQueue U} {g : List U → List U}
    (hg : ∀ l, urls (f l) = g (urls l)) (h : q.on_list i f = .ok q') :
    Alike q q' ∧ q'.trk_idx = q.trk_idx ∧ q'.curpos = q.curpos ∧
      ∀ j, q'.items_at j = if j = i then g (q.items_at i) else q.items_at j := by
  obtain ⟨l,hl,hq⟩ := bind_ok h
  obtain rfl := Except.ok.inj hq
  have hget := get_ok hl
  obtain ⟨hlt,heq⟩ := List.getElem?_eq_some_iff.mp hget
  refine ⟨⟨rfl,rfl,rfl,rfl,rfl,rfl⟩,rfl,rfl,fun j => ?_⟩
  by_cases hj : j = i
  · subst hj
    simp [items_at,hg,hlt,heq]
  · simp [items_at,hj,List.getElem?_set_ne (Ne.symm hj)]

/-! ## The operations -/

theorem add_ok {q q' : Queue U} {i : Nat} {f : PhiolaQueue U → PhiolaQueue U} (new : List U)
    (hf : ∀ l, urls (f l) = urls l ++ new) (h : q.filter_close.on_list i f = .ok q') :
    Alike q q' ∧ q'.trk_idx = q.trk_idx ∧ q'.curpos = q.curpos ∧ q.items <+: q'.items := by
  obtain ⟨ha,ht,hc,hi⟩ := on_list_ok (g := (· ++ new)) hf h
  refine ⟨⟨ha.q_active,ha.selected,ha.setts,ha.t,ha.active,ha.posted⟩,ht,hc,?_⟩
  have hi := hi q.q_active
  rw [items,items,ha.q_active]
  change q.items_at q.q_active <+: q'.items_at q.q_active
  rw [hi]
  split
  · rename_i hia
    rw [← hia]
    exact List.prefix_append ..
  · exact List.prefix_rfl

theorem next_list_add_cur_ok {q q' : Queue U} (h : q.next_list_add_cur = .ok q') :
    Alike q q' ∧ q'.trk_idx = q.trk_idx ∧ q'.curpos = q.curpos ∧ q.items <+: q'.items := by
  unfold next_list_add_cur at h
  split at h
  · obtain rfl := Except.ok.inj h
    exact ⟨⟨rfl,rfl,rfl,rfl,rfl,rfl⟩,rfl,rfl,List.prefix_rfl⟩
  · split at h
    · obtain rfl := Except.ok.inj h
      exact ⟨⟨rfl,rfl,rfl,rfl,rfl,rfl⟩,rfl,rfl,List.prefix_rfl⟩
    · rename_i url _
      exact add_ok [url] (urls_add · url) h

theorem next_list_add_cur_items {q q' : Queue U} (h : q.next_list_add_cur = .ok q') : q'.items = q.items := by
  unfold next_list_add_cur at h
  split at h
  · obtain rfl := Except.ok.inj h
    rfl
  · rename_i hone
    split at h
    · obtain rfl := Except.ok.inj h
      rfl
    · rename_i url _
      obtain ⟨ha,-,-,hi⟩ := on_list_ok (g := (· ++ [url])) (urls_add · url) h
      have hne : q.q_active ≠ q.index_next q.q_active := by
        unfold index_next
        split <;> omega
      rw [items,items,ha.q_active]
      exact (hi q.q_active).trans (if_neg hne)

theorem remove_ok {q q' : Queue U} {pos : Int} (hpos : 0 ≤ pos) (h : q.remove pos = .ok q') :
    Alike q q' ∧ q'.items = q.items.eraseIdx pos.toNat ∧
      q'.curpos = (if pos < q.curpos then q.curpos - 1 else q.curpos) ∧
      q'.trk_idx =
        (if pos = q.trk_idx then -1 else if pos < q.trk_idx then q.trk_idx - 1 else q.trk_idx) := by
  obtain ⟨q₁,h₁,h₂⟩ := bind_ok h
  obtain rfl := Except.ok.inj h₂
  obtain ⟨ha,ht,hc,hi⟩ := on_list_ok (g := fun l => l.eraseIdx pos.toNat) (fun l => by
    simp [urls,PhiolaQueue.remove,hpos,List.eraseIdx_map]) h₁
  refine ⟨⟨ha.q_active,ha.selected,ha.setts,ha.t,ha.active,ha.posted⟩,?_,?_,?_⟩
  · change q₁.items_at q₁.q_active = _
    rw [ha.q_active]
    exact (hi q.q_active).trans (if_pos rfl)
  · rw [hc]
    rfl
  · rw [ht]
    rfl

theorem clear_ok {q q' : Queue U} (h : q.clear = .ok q') :
    Alike q q' ∧ q'.items = (if q.q_active = q.selected then [] else q.items) ∧ q'.curpos = -1 ∧
      q'.trk_idx = -1 := by
  obtain ⟨q₁,h₁,h₂⟩ := bind_ok h
  obtain rfl := Except.ok.inj h₂
  obtain ⟨ha,-,-,hi⟩ := on_list_ok (g := fun _ => []) (fun _ => rfl) h₁
  refine ⟨⟨ha.q_active,ha.selected,ha.setts,ha.t,ha.active,ha.posted⟩,?_,rfl,rfl⟩
  change q₁.items_at q₁.q_active = _
  rw [ha.q_active]
  exact hi q.q_active

theorem load_lists_ok {q q' : Queue U} {i : Nat} {files : List (Option (List (Entry U)))}
    (h : q.load_lists i files = .ok q') : q'.setts = q.setts ∧ q'.trk_idx = q.trk_idx := by
  induction files generalizing q i with
  | nil =>
    obtain rfl := Except.ok.inj h
    exact ⟨rfl,rfl⟩
  | cons f files ih =>
    cases f with
    | none =>
      obtain rfl := Except.ok.inj h
      exact ⟨rfl,rfl⟩
    | some file =>
      obtain ⟨q₁,h₁,h⟩ := bind_ok h
      obtain ⟨ha,ht,-⟩ := on_list_ok (g := (· ++ file.map Entry.url)) (f := PhiolaQueue.load file)
        (fun _ => List.map_append) h₁
      obtain ⟨hs,hk⟩ := ih h
      rw [hs,hk,ha.setts,ht]
      split
      · exact ⟨rfl,rfl⟩
      · exact ⟨rfl,rfl⟩

/-! ## The end of a track -/

/-- What is played failed, and is to be removed at the end of the track. -/
def Pending (q : Queue U) : Prop := 0 ≤ q.trk_idx ∧ q.t.error = true ∧ q.setts.rm_on_err = true

instance (q : Queue U) : Decidable q.Pending :=
  inferInstanceAs (Decidable (0 ≤ q.trk_idx ∧ q.t.error = true ∧ q.setts.rm_on_err = true))

/-- `trk_idx` is -1 or the index of what is played, which is `curpos` too. -/
def Current (q : Queue U) : Prop :=
  q.trk_idx = -1 ∨ (0 ≤ q.trk_idx ∧ q.curpos = q.trk_idx ∧ q.t.url.isSome = true ∧
    q.items[q.trk_idx.toNat]? = q.t.url)

/-- The state after a track is closed -/
structure Ended (q q' : Queue U) : Prop where
  q_active : q'.q_active = q.q_active
  selected : q'.selected = q.selected
  setts : q'.setts = q.setts
  url : q'.t.url = q.t.url
  trk_idx : q'.trk_idx = -1
  active : q'.active = false
  state : q'.t.state = .NONE
  curpos : q'.curpos = q.curpos

theorem play_on_fields (q : Queue U) :
    q.play_on.q_active = q.q_active ∧ q.play_on.selected = q.selected ∧ q.play_on.setts = q.setts ∧
      q.play_on.t = q.t ∧ q.play_on.active = q.active ∧ q.play_on.curpos = q.curpos ∧
      q.play_on.queues = q.queues ∧ q.play_on.trk_idx = -1 := by
  unfold play_on auto_stop
  by_cases hs : q.auto_stop_active = true
  · by_cases ht : q.auto_stop_timer = true <;> simp [hs,ht]
  · simp [hs]

theorem url_ok {l : PhiolaQueue U} {i : Int} {u : U} (h : l.url i = .ok u) :
    0 ≤ i ∧ (urls l)[i.toNat]? = some u := by
  unfold PhiolaQueue.url at h
  split at h
  · rename_i v hv
    obtain rfl := Except.ok.inj h
    split at hv
    · rename_i hi
      exact ⟨hi,by rw [urls,List.getElem?_map,hv,Option.map_some]⟩
    · cases hv
  · cases h

theorem items_of_get {q : Queue U} {i : Nat} {l : PhiolaQueue U} (h : q.queues[i]? = some l) :
    q.items_at i = urls l := by
  rw [items_at,h]
  rfl

/-! ## A new track -/

/-- The item `it` of the list `iq` is started. -/
structure Starts (q q' : Queue U) (iq : Nat) (it : Int) : Prop where
  setts : q'.setts = q.setts
  trk_idx : q'.trk_idx = it
  curpos : q'.curpos = it
  items : q'.items = q.items_at iq
  pos : 0 ≤ it
  some : q'.t.url.isSome = true
  url : (q.items_at iq)[it.toNat]? = q'.t.url

theorem start_ok {q q' : Queue U} {iq : Nat} {it : Int} {l : PhiolaQueue U} {url : U}
    (hn : q.t.state = .NONE) (hl : q.queues[iq]? = some l) (hu : l.url it = .ok url)
    (h : start {q with q_active := iq, trk_idx := it, curpos := it} l.id url = .ok q') :
    Starts q q' iq it := by
  obtain ⟨hpos,hurl⟩ := url_ok hu
  have hq : ∃ infos, q' = { q with
      q_active := iq, trk_idx := it, curpos := it
      t := {q.t with url := some url}, started := some l.id, infos := infos } := by
    unfold start at h
    rw [if_neg (not_not.mpr hn)] at h
    split at h
    · exact ⟨_,(Except.ok.inj h).symm⟩
    · obtain ⟨-,-,h⟩ := bind_ok h
      exact ⟨_,(Except.ok.inj h).symm⟩
  obtain ⟨infos,rfl⟩ := hq
  exact ⟨rfl,rfl,rfl,rfl,hpos,rfl,(congrArg (·[it.toNat]?) (items_of_get hl)).trans hurl⟩

/-- What the end of a track does to the lists: an entry that failed may be removed. -/
def Dropped (q q' : Queue U) : Prop :=
  (¬ q.Pending ∧ q'.queues = q.queues) ∨ (q.Pending ∧ q'.items = q.items.eraseIdx q.trk_idx.toNat)

/-- What `_play()` does first: the track that is open is stopped. -/
def Stopped (q q₁ : Queue U) : Prop :=
  (q.active = false ∧ q₁ = q) ∨ (q.active = true ∧ Ended q q₁ ∧ Dropped q q₁)

theorem Stopped.fields {q q₁ : Queue U} (h : Stopped q q₁) :
    q₁.setts = q.setts ∧ q₁.q_active = q.q_active ∧ q₁.curpos = q.curpos ∧ q₁.t.url = q.t.url := by
  rcases h with ⟨-,rfl⟩ | ⟨-,he,-⟩
  · exact ⟨rfl,rfl,rfl,rfl⟩
  · exact ⟨he.setts,he.q_active,he.curpos,he.url⟩

theorem Stopped.queues {q q₁ : Queue U} (h : Stopped q q₁) (hp : q.active = true → ¬ q.Pending) :
    q₁.queues = q.queues := by
  rcases h with ⟨-,rfl⟩ | ⟨ha,-,hd⟩
  · rfl
  · exact (hd.resolve_right fun h => hp ha h.1).2

section Playing

variable [DecidableEq U]

theorem rm_failed_ok {q q' : Queue U} (hc : q.Current) (h : q.rm_failed = .ok q') :
    (¬ q.Pending ∧ q' = q) ∨ (q.Pending ∧ q.remove q.trk_idx = .ok q') := by
  unfold rm_failed at h
  by_cases hp : q.Pending
  · right
    have hp' : q.trk_idx ≥ 0 ∧ q.t.error = true ∧ q.setts.rm_on_err = true := hp
    rw [if_pos hp'] at h
    obtain ⟨l,hl,h⟩ := bind_ok h
    obtain ⟨url,hurl,h⟩ := bind_ok h
    have hitems : q.items = urls l := items_of_get (get_ok hl)
    rcases hc with hc | ⟨-,-,-,hc⟩
    · have := hp.1
      omega
    · rw [hitems,(url_ok hurl).2] at hc
      rw [if_pos hc] at h
      exact ⟨hp,h⟩
  · left
    have hp' : ¬ (q.trk_idx ≥ 0 ∧ q.t.error = true ∧ q.setts.rm_on_err = true) := hp
    rw [if_neg hp'] at h
    exact ⟨hp,(Except.ok.inj h).symm⟩

theorem trk_close_ok {q q' : Queue U} (hc : q.Current) (h : q.trk_close = .ok q') :
    Ended q q' ∧ Dropped q q' := by
  obtain ⟨q₃,h₃,h⟩ := bind_ok h
  obtain ⟨q₂,h₂,h₃⟩ := bind_ok h₃
  obtain rfl := Except.ok.inj h
  obtain rfl := Except.ok.inj h₃
  obtain ⟨p1,p2,p3,p4,p5,p6,p7,p8⟩ := play_on_fields q₂
  have hurl : q₂.play_on.t.url = q₂.t.url := congrArg TrackHandle.url p4
  have hstate : q₂.play_on.t.state = q₂.t.state := congrArg TrackHandle.state p4
  rcases rm_failed_ok (q := {q with t := {q.t with state := .NONE},active := false}) hc h₂ with
    ⟨hp,rfl⟩ | ⟨hp,hr⟩
  · exact ⟨⟨p1,p2,p3,hurl,p8,p5,hstate,p6⟩,.inl ⟨hp,p7⟩⟩
  · obtain ⟨ha,hi,hcur,-⟩ := remove_ok hp.1 hr
    have hcur' : q₂.curpos = q.curpos := by
      rw [hcur]
      rcases hc with hc | ⟨-,hc,-⟩
      · have h0 : 0 ≤ q.trk_idx := hp.1
        change q.trk_idx = -1 at hc
        omega
      · exact if_neg (Int.not_lt.mpr (le_of_eq hc))
    have hat := ha.t
    refine ⟨⟨p1.trans ha.q_active,p2.trans ha.selected,p3.trans ha.setts,?_,p8,p5.trans ha.active,
      ?_,p6.trans hcur'⟩,.inr ⟨hp,?_⟩⟩
    · change q₂.play_on.t.url = q.t.url
      rw [hurl,hat]
    · change q₂.play_on.t.state = State.NONE
      rw [hstate,hat]
    · refine Eq.trans ?_ hi
      change q₂.play_on.items_at q₂.play_on.q_active = q₂.items_at q₂.q_active
      rw [p1,items_at,p7]
      rfl

theorem stop_ok {q q' : Queue U} (hc : q.Current) (h : q.stop = .ok q') :
    Ended q q' ∧ Dropped q q' := by
  obtain ⟨he,hd⟩ := trk_close_ok (q := {q with t := {q.t with stopped := true}}) hc h
  exact ⟨⟨he.q_active,he.selected,he.setts,he.url,he.trk_idx,he.active,he.state,he.curpos⟩,hd⟩

theorem _play_ok {q q' : Queue U} {iq : Nat} {it : Int} (hc : q.Current) (hidle : Idle q)
    (h : q._play iq it = .ok q') :
    ∃ q₁, Stopped q q₁ ∧
      (((0 ≤ it ∧ it < (q₁.items_at iq).length) ∧ Starts q₁ q' iq it) ∨
        (¬ (0 ≤ it ∧ it < (q₁.items_at iq).length) ∧ q' = q₁)) := by
  obtain ⟨q₁,h₁,h⟩ := bind_ok h
  obtain ⟨l,hl,h⟩ := bind_ok h
  have hget := get_ok hl
  have hstop : Stopped q q₁ ∧ q₁.t.state = .NONE := by
    by_cases ha : q.active = true
    · rw [if_pos ha] at h₁
      obtain ⟨he,hd⟩ := stop_ok hc h₁
      exact ⟨.inr ⟨ha,he,hd⟩,he.state⟩
    · rw [if_neg ha] at h₁
      obtain rfl := Except.ok.inj h₁
      exact ⟨.inl ⟨Bool.eq_false_iff.mpr ha,rfl⟩,by_contra fun hne => ha (hidle hne)⟩
  have hlen : l.count = (q₁.items_at iq).length := by rw [items_of_get hget,urls_count]
  refine ⟨q₁,hstop.1,?_⟩
  rw [hlen] at h
  by_cases hit : it < 0 ∨ it ≥ (q₁.items_at iq).length
  · right
    rw [if_pos hit] at h
    exact ⟨by omega,(Except.ok.inj h).symm⟩
  · left
    rw [if_neg hit] at h
    obtain ⟨url,hurl,h⟩ := bind_ok h
    exact ⟨by omega,start_ok hstop.2 hget hurl h⟩

end Playing

end Phiola.Android.Queue
