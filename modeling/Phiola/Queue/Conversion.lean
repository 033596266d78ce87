import Phiola.Queue.Removal

/-!
# Completeness of a conversion queue

Several tracks of a conversion queue run at once, but the queue has one cursor. The entries before
the place where the queue goes on have been started and the ones behind it have not; each track
that ends moves the place on.
-/

namespace Phiola

namespace QueueMgr

/-- The queue goes on at position `n`: behind its cursor entry, or at `cursor_index` when the cursor
entry was removed. -/
def GoesOn (s : QueueMgr) (q n : Nat) : Prop :=
  (∃ c p : Nat, (s.queue q).cursor = some c ∧ (s.queue q).index[p]? = some c ∧
    (s.queue q).cursorIndex = p ∧ n = p + 1) ∨
  (s.queue q).cursorIndex = n ∧ ∀ c, (s.queue q).cursor = some c → (s.ent c).index = -1

theorem GoesOn.unref {s : QueueMgr} {q n e : Nat} (h : GoesOn s q n)
    (he : e ∉ (s.queue q).index) : GoesOn (s.qeUnref e) q n := by
  have hsame := sameOrder_unref s e
  obtain ⟨c,p,hcursor,hp,hplace,rfl⟩ | ⟨hplace,hgone⟩ := h
  · have hce : c ≠ e := fun heq => he (heq ▸ List.mem_of_getElem? hp)
    refine .inl ⟨c,p,?_,by rw [hsame.index]; exact hp,by rw [hsame.place]; exact hplace,rfl⟩
    rw [qeUnref_eq,setEnt_queue]
    by_cases hq : q = (s.ent e).q
    · subst hq
      rw [setQueue_self]
      simp [hcursor,hce]
    · rw [setQueue_of_ne _ hq]
      exact hcursor
  · refine .inr ⟨by rw [hsame.place]; exact hplace,fun c hc => ?_⟩
    rw [(hsame.ent c).2]
    exact hgone c (hsame.cursor_some hc)

/-- Nothing is different but the order, the counts and what is closed. -/
structure SameWork (s s' : QueueMgr) : Prop where
  nq : s'.nq = s.nq
  started : s'.started = s.started
  flags : ∀ q, (s'.queue q).conversion = (s.queue q).conversion ∧
    (s'.queue q).random = (s.queue q).random ∧ (s'.queue q).repeatAll = (s.queue q).repeatAll
  ent : ∀ e, (s'.ent e).expand = (s.ent e).expand ∧
    (s'.ent e).playNextOnClose = (s.ent e).playNextOnClose
  trk : ∀ t, (s'.trk t).qent = (s.trk t).qent ∧ (s'.trk t).expands = (s.trk t).expands ∧
    ((s'.trk t).removed = false → (s.trk t).removed = false ∧ (s'.trk t).quCur = (s.trk t).quCur)
  opened : ∀ t, s'.openTrk t → s.openTrk t

theorem SameWork.refl (s : QueueMgr) : SameWork s s :=
  ⟨rfl,rfl,fun _ => ⟨rfl,rfl,rfl⟩,fun _ => ⟨rfl,rfl⟩,fun _ => ⟨rfl,rfl,fun h => ⟨h,rfl⟩⟩,
    fun _ => id⟩

theorem SameWork.trans {s t u : QueueMgr} (h : SameWork s t) (h' : SameWork t u) :
    SameWork s u where
  nq := h'.nq.trans h.nq
  started := h'.started.trans h.started
  flags q := ⟨(h'.flags q).1.trans (h.flags q).1,(h'.flags q).2.1.trans (h.flags q).2.1,
    (h'.flags q).2.2.trans (h.flags q).2.2⟩
  ent e := ⟨(h'.ent e).1.trans (h.ent e).1,(h'.ent e).2.trans (h.ent e).2⟩
  trk t := ⟨(h'.trk t).1.trans (h.trk t).1,(h'.trk t).2.1.trans (h.trk t).2.1,fun hr =>
    ⟨((h.trk t).2.2 ((h'.trk t).2.2 hr).1).1,
      ((h'.trk t).2.2 hr).2.trans ((h.trk t).2.2 ((h'.trk t).2.2 hr).1).2⟩⟩
  opened t ht := h.opened t (h'.opened t ht)

/-- What is known about the entry and the reader of a track stays known. -/
theorem SameWork.track {s s' : QueueMgr} (h : SameWork s s') {t n : Nat}
    (ht : (s.trk t).qent < n ∧ ((s.trk t).expands.isSome → (s.ent (s.trk t).qent).expand = true) ∧
      ((s.trk t).removed = false → (s.trk t).quCur = (s.trk t).qent)) :
    (s'.trk t).qent < n ∧ ((s'.trk t).expands.isSome → (s'.ent (s'.trk t).qent).expand = true) ∧
      ((s'.trk t).removed = false → (s'.trk t).quCur = (s'.trk t).qent) := by
  obtain ⟨hq,he,hr⟩ := h.trk t
  rw [hq,he,(h.ent _).1]
  exact ⟨ht.1,ht.2.1,fun h' => (hr h').2.trans (ht.2.2 (hr h').1)⟩

theorem sameWork_setEnt (s : QueueMgr) (e : Nat) (x : QEntry) (hx : x.expand = (s.ent e).expand)
    (hp : x.playNextOnClose = (s.ent e).playNextOnClose) : SameWork s (s.setEnt e x) := by
  refine ⟨rfl,rfl,fun _ => ⟨rfl,rfl,rfl⟩,fun y => ?_,fun _ => ⟨rfl,rfl,fun h => ⟨h,rfl⟩⟩,
    fun _ => id⟩
  by_cases hy : y = e
  · subst hy
    rw [setEnt_self]
    exact ⟨hx,hp⟩
  · rw [setEnt_of_ne x hy]
    exact ⟨rfl,rfl⟩

theorem sameWork_setQueue (s : QueueMgr) (q : Nat) (v : PhiQueue)
    (hc : v.conversion = (s.queue q).conversion) (hr : v.random = (s.queue q).random)
    (ha : v.repeatAll = (s.queue q).repeatAll) : SameWork s (s.setQueue q v) := by
  refine ⟨rfl,rfl,fun y => ?_,fun _ => ⟨rfl,rfl⟩,fun _ => ⟨rfl,rfl,fun h => ⟨h,rfl⟩⟩,fun _ => id⟩
  by_cases hy : y = q
  · subst hy
    rw [setQueue_self]
    exact ⟨hc,hr,ha⟩
  · rw [setQueue_of_ne v hy]
    exact ⟨rfl,rfl,rfl⟩

theorem sameWork_setTrk (s : QueueMgr) (t : Nat) (x : QTrack) (hq : x.qent = (s.trk t).qent)
    (he : x.expands = (s.trk t).expands)
    (hr : x.removed = false → (s.trk t).removed = false ∧ x.quCur = (s.trk t).quCur)
    (hc : x.closed = false → (s.trk t).closed = false) : SameWork s (s.setTrk t x) := by
  refine ⟨rfl,rfl,fun _ => ⟨rfl,rfl,rfl⟩,fun _ => ⟨rfl,rfl⟩,fun y => ?_,fun y => ?_⟩
  · by_cases hy : y = t
    · subst hy
      rw [setTrk_self]
      exact ⟨hq,he,hr⟩
    · rw [setTrk_of_ne x hy]
      exact ⟨rfl,rfl,fun h => ⟨h,rfl⟩⟩
  · unfold openTrk
    by_cases hy : y = t
    · subst hy
      rw [setTrk_self]
      exact fun h => ⟨h.1,hc h.2⟩
    · rw [setTrk_of_ne x hy]
      exact id

theorem sameWork_qeIndex (s : QueueMgr) (e : Nat) : SameWork s (s.qeIndex e).1 := by
  rw [qeIndex_fst]
  exact sameWork_setEnt s e _ rfl rfl

theorem sameWork_unref (s : QueueMgr) (e : Nat) : SameWork s (s.qeUnref e) := by
  rw [qeUnref_eq]
  refine (sameWork_setQueue s _ _ ?_ ?_ ?_).trans (sameWork_setEnt _ e _ ?_ ?_) <;> rfl

theorem sameWork_removeAt (s : QueueMgr) (q : Nat) (pos : Int) :
    SameWork s (s.qRemoveAt q pos).1 := by
  unfold qRemoveAt
  dsimp only
  split
  · exact SameWork.refl s
  · rename_i e hg
    refine SameWork.trans ?_ (sameWork_unref _ e)
    refine (sameWork_setEnt s e _ ?_ ?_).trans (sameWork_setQueue _ q _ ?_ ?_ ?_) <;> rfl

theorem sameWork_closing (s : QueueMgr) (t : Nat) (tags : Meta) :
    SameWork s (s.closing t tags) := by
  have hforget : SameWork s (s.forgetTrack (s.trk t).qent t tags) := by
    rw [forgetTrack_eq]
    split
    · refine (sameWork_setEnt s _ _ ?_ ?_).trans (sameWork_setTrk _ t _ ?_ ?_ ?_ ?_)
      any_goals rfl
      · exact fun h => ⟨h,rfl⟩
      · exact id
    · exact SameWork.refl s
  refine hforget.trans ?_
  unfold closing
  dsimp only
  refine (sameWork_setQueue _ _ _ ?_ ?_ ?_).trans (sameWork_setTrk _ t _ ?_ ?_ ?_ ?_)
  any_goals rfl
  · exact fun h => ⟨h,rfl⟩
  · simp

/-- When track `t` ends `qe_close()` calls `q_play_next()`. -/
def Advances (s : QueueMgr) (t : Nat) : Prop :=
  s.openTrk t ∧ ((s.ent (s.trk t).qent).expand = false ∨
    (s.ent (s.trk t).qent).playNextOnClose = true)

instance (s : QueueMgr) (t : Nat) : Decidable (s.Advances t) :=
  inferInstanceAs (Decidable (_ ∧ _))

/-- A file stands at position `n` or behind it. -/
def Pending (s : QueueMgr) (q n : Nat) : Prop :=
  ∃ e ∈ (s.queue q).index.drop n, (s.ent e).expand = false

theorem pending_iff {s : QueueMgr} {q n : Nat} : Pending s q n ↔
    ∃ p e, n ≤ p ∧ (s.queue q).index[p]? = some e ∧ (s.ent e).expand = false := by
  unfold Pending
  constructor
  · rintro ⟨e,he,hx⟩
    obtain ⟨i,hi⟩ := List.mem_iff_getElem?.mp he
    rw [List.getElem?_drop] at hi
    exact ⟨n + i,e,by omega,hi,hx⟩
  · rintro ⟨p,e,hn,hp,hx⟩
    refine ⟨e,List.mem_iff_getElem?.mpr ⟨p - n,?_⟩,hx⟩
    rw [List.getElem?_drop,show n + (p - n) = p by omega]
    exact hp

/-- The two frames of `qe_play()`: the flags of the queues and the kind of the entries. -/
theorem qePlay_frame (s : QueueMgr) (e : Nat) (c : Bool) :
    (∀ q, ((s.qePlay e c).1.queue q).conversion = (s.queue q).conversion ∧
      ((s.qePlay e c).1.queue q).random = (s.queue q).random ∧
      ((s.qePlay e c).1.queue q).repeatAll = (s.queue q).repeatAll) ∧
    ∀ y, ((s.qePlay e c).1.ent y).expand = (s.ent y).expand := by
  have hent (x : QEntry) (hx : x.expand = (s.ent e).expand) (y : Nat) :
      ((s.setEnt e x).ent y).expand = (s.ent y).expand := by
    by_cases hy : y = e
    · subst hy; simpa using hx
    · rw [setEnt_of_ne x hy]
  unfold qePlay
  dsimp only
  split
  · exact ⟨fun _ => ⟨rfl,rfl,rfl⟩,hent _ rfl⟩
  · split
    · refine ⟨fun q => ?_,fun y => ?_⟩
      · by_cases hq : q = (s.ent e).q
        · subst hq
          simp [startTrack]
        · simp [startTrack,setQueue_of_ne _ hq]
      · exact hent { s.ent e with
          trk := some s.nt
          used := (s.ent e).used + 1
          expand := (s.ent e).expand || (none : Option ListKind).isSome } (by simp) y
    · exact ⟨fun _ => ⟨rfl,rfl,rfl⟩,fun _ => rfl⟩

/-- The tracks after `qe_play()`. -/
theorem qePlay_trk (s : QueueMgr) (e : Nat) (c : Bool) :
    if (s.ent e).expand = false ∧ c = true then
      (s.qePlay e c).1.nt = s.nt + 1 ∧ (s.qePlay e c).1.trk s.nt = ⟨e,none,e,false,false,false⟩ ∧
        ∀ t, t < s.nt → (s.qePlay e c).1.trk t = s.trk t
    else (s.qePlay e c).1.nt = s.nt ∧ (s.qePlay e c).1.trk = s.trk := by
  unfold qePlay
  dsimp only
  cases (s.ent e).expand with
  | true => simp
  | false =>
    cases c with
    | false => simp
    | true =>
      simp only [startTrack]
      refine ⟨rfl,by simp,fun t ht => ?_⟩
      have hne : t ≠ s.nt := by omega
      simp [setTrk_of_ne _ hne]

theorem qePlay_nq (s : QueueMgr) (e : Nat) (c : Bool) : (s.qePlay e c).1.nq = s.nq := by
  unfold qePlay
  dsimp only
  split
  · rfl
  · split <;> rfl

theorem qePlay_waits (s : QueueMgr) (e : Nat) (c : Bool) (y : Nat)
    (h : (s.ent y).playNextOnClose = true) :
    ((s.qePlay e c).1.ent y).playNextOnClose = true := by
  unfold qePlay
  dsimp only
  split
  · by_cases hy : y = e
    · subst hy; simp
    · simpa [setEnt_of_ne _ hy] using h
  · split
    · by_cases hy : y = e
      · subst hy; simpa [startTrack] using h
      · simpa [startTrack,setEnt_of_ne _ hy] using h
    · exact h

theorem sameWork_setCursor (s : QueueMgr) (q e : Nat) : SameWork s (s.setCursor q e) := by
  rw [setCursor_eq]
  refine (sameWork_setEnt s e _ ?_ ?_).trans (sameWork_setQueue _ q _ ?_ ?_ ?_) <;> rfl

theorem setCursor_trk (s : QueueMgr) (q e : Nat) :
    (s.setCursor q e).trk = s.trk ∧ (s.setCursor q e).nt = s.nt := by
  rw [setCursor_eq]
  exact ⟨rfl,rfl⟩

/-- The start of entry `e`: the tracks that advance the queue still do, and the new track does, or
the one that expands `e`. -/
theorem pick_advances (s : QueueMgr) (q e : Nat) :
    (∀ t, s.Advances t → ((s.setCursor q e).qePlay e true).1.Advances t) ∧
      ((s.ent e).expand = false → ((s.setCursor q e).qePlay e true).1.Advances s.nt) ∧
      ((s.ent e).expand = true → ∀ t, s.openTrk t → (s.trk t).qent = e →
        ((s.setCursor q e).qePlay e true).1.Advances t) := by
  obtain ⟨htrk,hnt⟩ := setCursor_trk s q e
  have hwork := sameWork_setCursor s q e
  have htracks := qePlay_trk (s.setCursor q e) e true
  have hkind (y : Nat) : (((s.setCursor q e).qePlay e true).1.ent y).expand = (s.ent y).expand :=
    ((qePlay_frame (s.setCursor q e) e true).2 y).trans (hwork.ent y).1
  have hwaits (y : Nat) (h : (s.ent y).playNextOnClose = true) :
      (((s.setCursor q e).qePlay e true).1.ent y).playNextOnClose = true :=
    qePlay_waits _ e true y ((hwork.ent y).2.trans h)
  have hpicked := (setCursor_qePlay s q e true).2.2.2
  rw [(hwork.ent e).1,htrk,hnt] at htracks
  generalize ((s.setCursor q e).qePlay e true).1 = r at *
  have hold (t : Nat) (ht : s.openTrk t) : r.openTrk t ∧ (r.trk t).qent = (s.trk t).qent := by
    unfold openTrk
    split at htracks
    · rw [htracks.2.2 t ht.1,htracks.1]
      exact ⟨⟨Nat.lt_succ_of_lt ht.1,ht.2⟩,rfl⟩
    · rw [htracks.2,htracks.1]
      exact ⟨ht,rfl⟩
  refine ⟨fun t ht => ?_,fun he => ?_,fun he t ht hq => ?_⟩
  · obtain ⟨hopen,hqent⟩ := hold t ht.1
    refine ⟨hopen,?_⟩
    rw [hqent,hkind]
    exact ht.2.imp_right (hwaits _)
  · rw [if_pos ⟨he,rfl⟩] at htracks
    unfold Advances openTrk
    rw [htracks.1,htracks.2.1,hkind]
    exact ⟨⟨Nat.lt_succ_self _,rfl⟩,.inl he⟩
  · obtain ⟨hopen,hqent⟩ := hold t ht
    refine ⟨hopen,.inr ?_⟩
    rw [hqent,hq]
    exact hpicked he

theorem advances_qeIndex (s : QueueMgr) (c t : Nat) : (s.qeIndex c).1.Advances t ↔ s.Advances t := by
  have hw := sameWork_qeIndex s c
  unfold Advances openTrk
  rw [qeIndex_trk,qeIndex_nt,(hw.ent _).1,(hw.ent _).2]

theorem pending_qeIndex (s : QueueMgr) (c q n : Nat) : Pending (s.qeIndex c).1 q n ↔ Pending s q n := by
  have hw := sameWork_qeIndex s c
  unfold Pending
  rw [qeIndex_queue]
  simp only [(hw.ent _).1]

/-- The entries of the one queue before position `n` are started once and the others are not. -/
structure Converted (s : QueueMgr) (q n : Nat) : Prop where
  only : ∀ y, y < s.nq → y = q
  ordered : Ordered s
  conversion : (s.queue q).conversion = true
  random : (s.queue q).random = false
  repeatAll : (s.queue q).repeatAll = false
  own : ∀ e, e < s.ne → (s.ent e).q = q
  cursor : ∀ c, (s.queue q).cursor = some c → c < s.ne
  goesOn : GoesOn s q n
  le : n ≤ (s.queue q).index.length
  done : ∀ p e, (s.queue q).index[p]? = some e → (s.ent e).expand = false →
    s.started.count e = if p < n then 1 else 0
  fresh : ∀ e, s.ne ≤ e → e ∉ s.started
  track : ∀ t, s.openTrk t → (s.trk t).qent < s.ne ∧
    ((s.trk t).expands.isSome → (s.ent (s.trk t).qent).expand = true) ∧
    ((s.trk t).removed = false → (s.trk t).quCur = (s.trk t).qent)

namespace Converted

variable {s s' : QueueMgr} {q n : Nat}

/-- An entry in a list is not freed, so the cursor on it is not lost. -/
theorem same (h : Converted s q n) (hw : SameWork s s') (ho : SameOrder s s') {x : List Nat}
    (hc : Counted s' x) : Converted s' q n := by
  have hcur {c : Nat} (h' : (s'.queue q).cursor = some c) : (s.queue q).cursor = some c :=
    ho.cursor_some h'
  refine ⟨hw.nq ▸ h.only,h.ordered.same ho,(hw.flags q).1.trans h.conversion,(hw.flags q).2.1.trans h.random,
    (hw.flags q).2.2.trans h.repeatAll,fun e he => ?_,fun c hc' => ?_,?_,?_,fun p e hp he => ?_,
    fun e he => ?_,fun t ht => ?_⟩
  · rw [(ho.ent e).1]
    exact h.own e (ho.ne ▸ he)
  · rw [ho.ne]
    exact h.cursor c (hcur hc')
  · obtain ⟨c,p,hcursor,hp,hplace,rfl⟩ | ⟨hplace,hgone⟩ := h.goesOn
    · refine .inl ⟨c,p,?_,by rw [ho.index]; exact hp,by rw [ho.place]; exact hplace,rfl⟩
      obtain heq | ⟨-,hfreed⟩ := ho.cursor q
      · exact heq.trans hcursor
      · have hlisted := hc.listed (q := q) (e := c) (by rw [ho.index]; exact List.mem_of_getElem? hp)
        exact absurd (hc.not_freed hlisted) (by simp [hfreed c hcursor])
    · refine .inr ⟨by rw [ho.place]; exact hplace,fun c h' => ?_⟩
      rw [(ho.ent c).2]
      exact hgone c (hcur h')
  · rw [ho.index]
    exact h.le
  · rw [ho.index] at hp
    rw [(hw.ent e).1] at he
    rw [hw.started]
    exact h.done p e hp he
  · rw [hw.started]
    exact h.fresh e (ho.ne ▸ he)
  · rw [ho.ne]
    exact hw.track (h.track t (hw.opened t ht))

theorem qeIndex (h : Converted s q n) (e : Nat) : Converted (s.qeIndex e).1 q n := by
  have hw := sameWork_qeIndex s e
  have hqueue := qeIndex_queue s e
  refine ⟨hw.nq ▸ h.only,h.ordered.qeIndex e,(hw.flags q).1.trans h.conversion,(hw.flags q).2.1.trans h.random,
    (hw.flags q).2.2.trans h.repeatAll,fun y hy => ?_,fun c hc => ?_,?_,?_,fun p y hp hy => ?_,
    fun y hy => ?_,fun t ht => ?_⟩
  · rw [(qeIndex_ent s e y).1]
    rw [qeIndex_ne] at hy
    exact h.own y hy
  · rw [qeIndex_ne]
    exact h.cursor c (hqueue ▸ hc)
  · obtain ⟨c,p,hcursor,hp,hplace,rfl⟩ | ⟨hplace,hgone⟩ := h.goesOn
    · exact .inl ⟨c,p,hqueue ▸ hcursor,hqueue ▸ hp,hqueue ▸ hplace,rfl⟩
    · refine .inr ⟨hqueue ▸ hplace,fun c hc => ?_⟩
      rw [hqueue] at hc
      have hc' := hgone c hc
      by_cases he : c = e
      · subst he
        rw [qeIndex_stored]
        refine qeIndex_unlisted fun hm => ?_
        have := (h.ordered.own hm).2.2
        omega
      · rw [(qeIndex_ent s e c).2 he]
        exact hc'
  · rw [hqueue]
    exact h.le
  · rw [hqueue] at hp
    rw [(hw.ent y).1] at hy
    rw [hw.started]
    exact h.done p y hp hy
  · rw [hw.started]
    exact h.fresh y (by rwa [qeIndex_ne] at hy)
  · rw [qeIndex_ne]
    exact hw.track (h.track t (hw.opened t ht))

theorem mem (h : Converted s q n) {p e : Nat} (hp : (s.queue q).index[p]? = some e) :
    e < s.ne ∧ (s.ent e).q = q :=
  ⟨(h.ordered.own (List.mem_of_getElem? hp)).1,(h.ordered.own (List.mem_of_getElem? hp)).2.1⟩

/-- `q_play()` picks the entry at position `n`. -/
theorem pick (h : Converted s q n) {e : Nat} (hp : (s.queue q).index[n]? = some e) :
    Converted ((s.setCursor q e).qePlay e true).1 q (n + 1) := by
  obtain ⟨hlt,hown⟩ := h.mem hp
  have hidx := h.ordered.qeIndex_at hp
  obtain ⟨hcursor,hstarted,-,-⟩ := setCursor_qePlay s q e true
  have hplay := sameOrder_qePlay (s.setCursor q e) e true
  obtain ⟨hflags,hkind⟩ := qePlay_frame (s.setCursor q e) e true
  have hkind' (y : Nat) : (((s.setCursor q e).qePlay e true).1.ent y).expand = (s.ent y).expand := by
    rw [hkind,setCursor_eq,setQueue_ent]
    by_cases hy : y = e
    · subst hy; simp
    · rw [setEnt_of_ne _ hy]
  have hindex : (((s.setCursor q e).qePlay e true).1.queue q).index = (s.queue q).index := by
    rw [hplay.index,setCursor_eq,setQueue_self]
  have hne : ((s.setCursor q e).qePlay e true).1.ne = s.ne := by
    rw [hplay.ne,setCursor_eq]
    rfl
  have hnq : ((s.setCursor q e).qePlay e true).1.nq = s.nq := by
    rw [qePlay_nq,setCursor_eq]
    rfl
  obtain ⟨hconv,hrandom,hrepeat⟩ := hflags q
  rw [setCursor_eq,setQueue_self] at hconv hrandom hrepeat
  refine ⟨hnq ▸ h.only,(h.ordered.setCursor q e).same hplay,?_,?_,?_,fun y hy => ?_,fun c hc => ?_,?_,?_,
    fun p y hp' hy => ?_,fun y hy => ?_,fun t ht => ?_⟩
  · rw [setCursor_eq]
    exact hconv.trans h.conversion
  · rw [setCursor_eq]
    exact hrandom.trans h.random
  · rw [setCursor_eq]
    exact hrepeat.trans h.repeatAll
  · rw [(hplay.ent y).1,setCursor_eq,setQueue_ent]
    have hq := h.own y (hne ▸ hy)
    by_cases hye : y = e
    · subst hye; simpa using hq
    · rwa [setEnt_of_ne _ hye]
  · obtain rfl := Option.some.inj (hcursor.symm.trans hc)
    rw [hne]
    exact hlt
  · refine .inl ⟨e,n,hcursor,hindex ▸ hp,?_,rfl⟩
    rw [hplay.place,setCursor_eq,setQueue_self]
    exact hidx
  · rw [hindex]
    exact (List.getElem?_eq_some_iff.mp hp).1
  · rw [hindex] at hp'
    rw [hkind'] at hy
    rw [hstarted]
    have hold := h.done p y hp' hy
    by_cases hye : y = e
    · subst hye
      obtain rfl := (List.getElem?_inj (List.getElem?_eq_some_iff.mp hp).1 (h.ordered.nodup q)).mp
        (hp.trans hp'.symm)
      rw [if_pos ⟨hy,rfl⟩,if_pos (Nat.lt_succ_self _),List.count_append,hold]
      simp
    · have hpn : p ≠ n := fun heq => by
        subst heq
        exact hye (Option.some.inj (hp'.symm.trans hp))
      have hcount : (if (s.ent e).expand = false ∧ true = true then s.started ++ [e]
          else s.started).count y = s.started.count y := by
        split
        · simp [List.count_append,Ne.symm hye]
        · rfl
      rw [hcount,hold]
      by_cases hlt' : p < n
      · rw [if_pos hlt',if_pos (by omega)]
      · rw [if_neg hlt',if_neg (by omega)]
  · rw [hne] at hy
    rw [hstarted]
    have hold := h.fresh y hy
    split
    · simp only [List.mem_append,List.mem_singleton,not_or]
      exact ⟨hold,by omega⟩
    · exact hold
  · rw [hne,hkind']
    have htracks := qePlay_trk (s.setCursor q e) e true
    obtain ⟨htrk,hnt⟩ := setCursor_trk s q e
    rw [((sameWork_setCursor s q e).ent e).1,htrk,hnt] at htracks
    obtain ⟨hopen,hnclosed⟩ := ht
    split at htracks
    · rename_i hfile
      rw [htracks.1] at hopen
      by_cases htn : t = s.nt
      · subst htn
        rw [htracks.2.1]
        exact ⟨hlt,by simp,fun _ => rfl⟩
      · rw [htracks.2.2 t (by omega)] at hnclosed ⊢
        exact h.track t ⟨by omega,hnclosed⟩
    · rw [htracks.1] at hopen
      rw [htracks.2] at hnclosed ⊢
      exact h.track t ⟨hopen,hnclosed⟩

theorem pick_order (h : Converted s q n) {e : Nat} (hp : (s.queue q).index[n]? = some e) :
    (((s.setCursor q e).qePlay e true).1.queue q).index = (s.queue q).index ∧
      (((s.setCursor q e).qePlay e true).1.ent e).index = n ∧
      ∀ y, (((s.setCursor q e).qePlay e true).1.ent y).expand = (s.ent y).expand := by
  have hplay := sameOrder_qePlay (s.setCursor q e) e true
  refine ⟨?_,?_,fun y => ?_⟩
  · rw [hplay.index,setCursor_eq,setQueue_self]
  · rw [(hplay.ent e).2,setCursor_eq,setQueue_ent,setEnt_self]
    exact h.ordered.qeIndex_at hp
  · rw [(qePlay_frame _ e true).2,((sameWork_setCursor s q e).ent y).1]

/-- `q_play()` from the entry at position `n` on. A list at position `n` has an open track that
will advance the queue, or another track will, or no file is behind it. -/
theorem loop {e : Nat} {ans : List Answer} {r : QueueMgr × Int} (h : Converted s q n)
    (hp : (s.queue q).index[n]? = some e) (hc : ∀ a ∈ ans, a.created = true)
    (hgo : (s.ent e).expand = true → (∃ t, s.openTrk t ∧ (s.trk t).qent = e) ∨
      (∃ t, s.Advances t) ∨ ¬Pending s q (n + 1))
    (hr : s.playLoop q e ans = some r) :
    ∃ n', Converted r.1 q n' ∧ (Pending r.1 q n' → ∃ t, r.1.Advances t) := by
  induction ans generalizing s n e with
  | nil => cases hr
  | cons a rest ih =>
    have hpick := h.pick hp
    obtain ⟨hindex,hstored,hkind⟩ := h.pick_order hp
    obtain ⟨hmono,hfile,hlist⟩ := pick_advances s q e
    have hcode := (setCursor_qePlay s q e true).2.2.1
    unfold playLoop at hr
    rw [hc a List.mem_cons_self] at hr
    dsimp only at hr
    generalize (s.setCursor q e).qePlay e true = u at *
    cases hx : (s.ent e).expand with
    | true =>
      rw [if_pos (by rw [ne_eq,hcode]; simp [hx])] at hr
      cases hr
      refine ⟨n + 1,hpick,fun hpend => ?_⟩
      obtain ⟨t,ht,hq⟩ | ⟨t,ht⟩ | hno := hgo hx
      · exact ⟨t,hlist hx t ht hq⟩
      · exact ⟨t,hmono t ht⟩
      · refine absurd ?_ hno
        obtain ⟨y,hy,hyx⟩ := hpend
        exact ⟨y,hindex ▸ hy,hkind y ▸ hyx⟩
    | false =>
      have hadv := hfile hx
      rw [if_neg (by simpa using hcode.mpr ⟨hx,rfl⟩)] at hr
      split at hr
      · cases hr
        exact ⟨n + 1,hpick,fun _ => ⟨_,hadv⟩⟩
      · rw [hstored] at hr
        split at hr
        · cases hr
          exact ⟨n + 1,hpick,fun _ => ⟨_,hadv⟩⟩
        · rename_i e' hg
          obtain ⟨p,hpn,hget⟩ := qGet_eq_some.mp hg
          obtain rfl : p = n + 1 := by omega
          exact ih hpick hget (fun b hb => hc b (List.mem_cons_of_mem a hb))
            (fun _ => .inr (.inl ⟨_,hadv⟩)) hr

end Converted

/-- The position at which the queue goes on. -/
def frontier (v : PhiQueue) : Int :=
  match v.cursor with
  | none => v.cursorIndex
  | some c => if qFind v c = -1 then v.cursorIndex else qFind v c + 1

/-- If the next entry is a list, its track is open and will advance the queue, or another track
will, or no file is left. -/
def CanGoOn (s : QueueMgr) (q : Nat) : Prop :=
  ∀ f ∈ qGet (s.queue q) (frontier (s.queue q)), (s.ent f).expand = true →
    (∃ t < s.nt, s.openTrk t ∧ (s.trk t).qent = f) ∨ (∃ t < s.nt, s.Advances t) ∨
      ¬Pending s q (frontier (s.queue q) + 1).toNat

theorem qGet_natCast (v : PhiQueue) (n : Nat) : qGet v n = v.index[n]? := by simp [qGet]

theorem lookup_forward {v : PhiQueue} (hv : v.repeatAll = false) (n : Nat) :
    lookup v n = v.index[n]? := by
  unfold lookup qGet
  simp [hv]

namespace Converted

variable {s : QueueMgr} {q n : Nat}

theorem unlisted (h : Converted s q n) {c : Nat} (hc : (s.ent c).index = -1) :
    c ∉ (s.queue q).index := fun hm => by
  have := (h.ordered.own hm).2.2
  omega

theorem frontier_eq (h : Converted s q n) : frontier (s.queue q) = n := by
  unfold frontier
  obtain ⟨c,p,hcursor,hp,-,rfl⟩ | ⟨hplace,hgone⟩ := h.goesOn
  · rw [hcursor]
    dsimp only
    rw [qFind_of_mem (h.ordered.nodup q) hp,if_neg (by omega)]
    rfl
  · split
    · exact hplace
    · rename_i c hc
      rw [qFind_of_not_mem (h.unlisted (hgone c hc)),if_pos rfl]
      exact hplace

/-- Where `q_play()` without an entry starts. -/
theorem play_eq (h : Converted s q n) (hplace : (s.queue q).cursorIndex = n) (rnd : Nat)
    (ans : List Answer) : s.qPlay q none rnd ans =
      match (s.queue q).index[n]? with
      | none => some (s,-1)
      | some e => s.playLoop q e ans := by
  have hget : s.qGetIndex q n rnd = some (s,(n : Int)) := by
    unfold qGetIndex
    simp [h.random,h.repeatAll]
  dsimp only [QueueMgr.qPlay]
  rw [hplace,hget]
  dsimp only
  rw [qGet_natCast]
  cases he : (s.queue q).index[n]? with
  | none => rfl
  | some e =>
    dsimp only
    unfold playEntry
    rw [(h.mem he).2,h.conversion,if_pos rfl]

theorem playAt_next (h : Converted s q n) (rnd : Nat) (ans : List Answer) : s.playAt q rnd n ans =
      match (s.queue q).index[n]? with
      | none => some (s,-1)
      | some e => s.playLoop q e ans := by
  rw [playAt_eq rnd ans h.random,lookup_forward h.repeatAll]
  cases he : (s.queue q).index[n]? with
  | none => rfl
  | some e =>
    dsimp only
    unfold playEntry
    rw [(h.mem he).2,h.conversion,if_pos rfl]

/-- Where `q_play_next()` starts. -/
theorem next_eq (h : Converted s q n) (rnd : Nat) (ans : List Answer) :
    ∃ u, (u = s ∨ ∃ c, u = (s.qeIndex c).1) ∧ s.qPlayNext q rnd ans =
      match (u.queue q).index[n]? with
      | none => some (u,-1)
      | some e => u.playLoop q e ans := by
  obtain ⟨c,p,hcursor,hp,-,rfl⟩ | ⟨hplace,hgone⟩ := h.goesOn
  · refine ⟨(s.qeIndex c).1,.inr ⟨c,rfl⟩,?_⟩
    have hidx := (h.ordered.own (List.mem_of_getElem? hp)).2.2
    unfold qPlayNext
    rw [playFrom_eq rnd ans hcursor,if_pos (by omega)]
    dsimp only
    rw [h.ordered.qeIndex_at hp]
    exact (h.qeIndex c).playAt_next rnd ans
  · refine ⟨s,.inl rfl,?_⟩
    cases hc : (s.queue q).cursor with
    | none =>
      unfold qPlayNext playFrom
      rw [hc]
      exact h.play_eq hplace rnd ans
    | some c =>
      unfold qPlayNext
      rw [playFrom_eq rnd ans hc,if_neg (by simp [hgone c hc]),hplace]
      exact h.playAt_next rnd ans

theorem loop_guard (h : Converted s q n) (hgo : CanGoOn s q) {e : Nat}
    (hp : (s.queue q).index[n]? = some e) (he : (s.ent e).expand = true) :
    (∃ t, s.openTrk t ∧ (s.trk t).qent = e) ∨ (∃ t, s.Advances t) ∨ ¬Pending s q (n + 1) := by
  have hget : e ∈ qGet (s.queue q) (frontier (s.queue q)) := by
    rw [h.frontier_eq,qGet_natCast]
    exact hp
  have hgo := hgo e hget he
  rw [h.frontier_eq] at hgo
  obtain ⟨t,-,ht⟩ | ⟨t,-,ht⟩ | hno := hgo
  · exact .inl ⟨t,ht⟩
  · exact .inr (.inl ⟨t,ht⟩)
  · exact .inr (.inr hno)

theorem canGoOn_qeIndex (hgo : CanGoOn s q) (c : Nat) : CanGoOn (s.qeIndex c).1 q := by
  intro f hf he
  rw [qeIndex_queue] at hf
  rw [((sameWork_qeIndex s c).ent f).1] at he
  simp only [openTrk,qeIndex_queue,qeIndex_trk,qeIndex_nt,advances_qeIndex,pending_qeIndex]
  exact hgo f hf he

/-- Whatever `q_play()` finds at position `n`, a file that is left has a track that will get there. -/
theorem goOn {ans : List Answer} {r : QueueMgr × Int} (h : Converted s q n)
    (hc : ∀ a ∈ ans, a.created = true) (hgo : CanGoOn s q)
    (hr : (match (s.queue q).index[n]? with
      | none => some (s,-1)
      | some e => s.playLoop q e ans) = some r) :
    ∃ n', Converted r.1 q n' ∧ (Pending r.1 q n' → ∃ t, r.1.Advances t) := by
  cases hn : (s.queue q).index[n]? with
  | none =>
    rw [hn] at hr
    cases hr
    refine ⟨n,h,fun hpend => ?_⟩
    obtain ⟨p,e,hle,hp,-⟩ := pending_iff.mp hpend
    dsimp only at hp
    have := List.getElem?_eq_none_iff.mp hn
    have := (List.getElem?_eq_some_iff.mp hp).1
    omega
  | some e =>
    rw [hn] at hr
    exact h.loop hn hc (h.loop_guard hgo hn) hr

theorem next {rnd : Nat} {ans : List Answer} {r : QueueMgr × Int} (h : Converted s q n)
    (hc : ∀ a ∈ ans, a.created = true) (hgo : CanGoOn s q)
    (hr : s.qPlayNext q rnd ans = some r) :
    ∃ n', Converted r.1 q n' ∧ (Pending r.1 q n' → ∃ t, r.1.Advances t) := by
  obtain ⟨u,hu,heq⟩ := h.next_eq rnd ans
  rw [heq] at hr
  obtain rfl | ⟨c,rfl⟩ := hu
  · exact h.goOn hc hgo hr
  · exact (h.qeIndex c).goOn hc (canGoOn_qeIndex hgo c) hr

theorem play {rnd : Nat} {ans : List Answer} {r : QueueMgr × Int} (h : Converted s q n)
    (hplace : (s.queue q).cursorIndex = n) (hc : ∀ a ∈ ans, a.created = true) (hgo : CanGoOn s q)
    (hr : s.qPlay q none rnd ans = some r) :
    ∃ n', Converted r.1 q n' ∧ (Pending r.1 q n' → ∃ t, r.1.Advances t) := by
  rw [h.play_eq hplace] at hr
  exact h.goOn hc hgo hr

/-- An entry is inserted at or behind position `n`. -/
theorem insert {i : Nat} {b : Bool} (h : Converted s q n) (hn : n ≤ i)
    (hpos : i ≤ (s.queue q).index.length) : Converted (s.qInsert q i b).1 q n := by
  have hqueue := qInsert_queue s q i b
  have hent {e : Nat} (he : e < s.ne) : (s.qInsert q i b).1.ent e = s.ent e := by
    simp [qInsert,setEnt_of_ne _ (show e ≠ s.ne by omega)]
  have hnew : (s.qInsert q i b).1.ent s.ne = ⟨q,none,i,1,[],b,false,false,false⟩ := by
    simp [qInsert]
  have hstarted : (s.qInsert q i b).1.started = s.started := rfl
  have hne : (s.qInsert q i b).1.ne = s.ne + 1 := rfl
  have hfresh := h.fresh s.ne (Nat.le_refl _)
  refine ⟨h.only,h.ordered.insert hpos,by rw [hqueue]; exact h.conversion,by rw [hqueue]; exact h.random,
    by rw [hqueue]; exact h.repeatAll,fun e he => ?_,fun c hc => ?_,?_,?_,fun p e hp he => ?_,
    fun e he => ?_,fun t ht => ?_⟩
  · rw [hne] at he
    by_cases hen : e = s.ne
    · subst hen
      rw [hnew]
    · rw [hent (by omega)]
      exact h.own e (by omega)
  · rw [hqueue] at hc
    exact Nat.lt_succ_of_lt (h.cursor c hc)
  · obtain ⟨c,p,hcursor,hp,hplace,rfl⟩ | ⟨hplace,hgone⟩ := h.goesOn
    · have hlt := (h.mem hp).1
      refine .inl ⟨c,p,by rw [hqueue]; exact hcursor,?_,by rw [hqueue]; exact hplace,rfl⟩
      rw [hqueue]
      exact (Positions.insertIdx_eq_some hpos (by omega)).mpr ⟨p,hp,by rw [if_pos (by omega)]⟩
    · refine .inr ⟨by rw [hqueue]; exact hplace,fun c hc => ?_⟩
      rw [hqueue] at hc
      rw [hent (h.cursor c hc)]
      exact hgone c hc
  · rw [hqueue]
    dsimp only
    rw [List.length_insertIdx_of_le_length hpos]
    have := h.le
    omega
  · rw [hqueue] at hp
    rw [hstarted]
    by_cases hen : e = s.ne
    · subst hen
      have hpp : p = i := by
        have hself : ((s.queue q).index.insertIdx i s.ne)[i]? = some s.ne := by
          rw [List.getElem?_insertIdx]
          simp [hpos]
        have hnodup := (h.ordered.insert (b := b) hpos).nodup q
        rw [hqueue] at hnodup
        exact (List.getElem?_inj (List.getElem?_eq_some_iff.mp hp).1 hnodup).mp (hp.trans hself.symm)
      rw [List.count_eq_zero.mpr hfresh,if_neg (by omega)]
    · obtain ⟨p0,hp0,rfl⟩ := (Positions.insertIdx_eq_some hpos hen).mp hp
      have hlt := (h.mem hp0).1
      rw [hent hlt] at he
      rw [h.done p0 e hp0 he]
      by_cases hlt : p0 < i
      · rw [if_pos hlt]
      · rw [if_neg hlt,if_neg (by omega),if_neg (by omega)]
  · rw [hne] at he
    exact h.fresh e (by omega)
  · have ht : s.openTrk t := ht
    have htrk : (s.qInsert q i b).1.trk = s.trk := rfl
    obtain ⟨hlt,hkind⟩ := h.track t ht
    rw [htrk,hent hlt,hne]
    exact ⟨by omega,hkind⟩

/-- What follows from the place at which the queue goes on after the removal of position `i`, if
no file changes sides. -/
theorem removed {i e n' : Nat} (h : Converted s q n) (hi : (s.queue q).index[i]? = some e)
    (hgoes : GoesOn ((s.setEnt e { s.ent e with index := -1 }).setQueue q { s.queue q with
      cursorIndex := cursorIndexAfterRemove (s.queue q) i
      index := (s.queue q).index.eraseIdx i }) q n')
    (hle : n' < (s.queue q).index.length)
    (hside : ∀ p y, p ≠ i → (s.queue q).index[p]? = some y → (s.ent y).expand = false →
      ((if p < i then p else p - 1) < n' ↔ p < n)) :
    Converted (s.qRemoveAt q i).1 q n' ∧ (Pending (s.qRemoveAt q i).1 q n' → Pending s q n) := by
  have hord := h.ordered.removeAt q i
  have hw := sameWork_removeAt s q i
  have heq : (s.qRemoveAt q i).1 = ((s.setEnt e { s.ent e with index := -1 }).setQueue q
      { s.queue q with
        cursorIndex := cursorIndexAfterRemove (s.queue q) i
        index := (s.queue q).index.eraseIdx i }).qeUnref e := by
    unfold qRemoveAt
    dsimp only
    rw [qGet_natCast,hi]
    rfl
  have hsame := heq ▸ sameOrder_unref ((s.setEnt e { s.ent e with index := -1 }).setQueue q
    { s.queue q with
      cursorIndex := cursorIndexAfterRemove (s.queue q) i
      index := (s.queue q).index.eraseIdx i }) e
  have hindex : ((s.qRemoveAt q i).1.queue q).index = (s.queue q).index.eraseIdx i := by
    rw [hsame.index,setQueue_self]
  have hne : (s.qRemoveAt q i).1.ne = s.ne := qRemoveAt_ne s q i
  have hgone : e ∉ (s.queue q).index.eraseIdx i := by
    obtain ⟨hlt,hget⟩ := List.getElem?_eq_some_iff.mp hi
    have hn := (List.getElem_cons_eraseIdx_perm hlt).nodup_iff.mpr (h.ordered.nodup q)
    rw [hget] at hn
    exact (List.nodup_cons.mp hn).1
  refine ⟨⟨hw.nq ▸ h.only,hord,(hw.flags q).1.trans h.conversion,(hw.flags q).2.1.trans h.random,
    (hw.flags q).2.2.trans h.repeatAll,fun y hy => ?_,fun c hc => ?_,?_,?_,fun p y hp hy => ?_,
    fun y hy => ?_,fun t ht => ?_⟩,fun hpend => ?_⟩
  · rw [(hsame.ent y).1,setQueue_ent]
    have hq := h.own y (hne ▸ hy)
    by_cases hye : y = e
    · subst hye; simpa using hq
    · rwa [setEnt_of_ne _ hye]
  · have hc' := hsame.cursor_some hc
    rw [setQueue_self] at hc'
    rw [hne]
    exact h.cursor c hc'
  · rw [heq]
    refine hgoes.unref ?_
    rw [setQueue_self]
    exact hgone
  · rw [hindex,List.length_eraseIdx_of_lt (List.getElem?_eq_some_iff.mp hi).1]
    omega
  · rw [hindex] at hp
    rw [(hw.ent y).1] at hy
    rw [hw.started]
    obtain ⟨p0,hpi,hp0,rfl⟩ := Positions.eraseIdx_eq_some.mp hp
    rw [h.done p0 y hp0 hy]
    exact if_congr (hside p0 y hpi hp0 hy).symm rfl rfl
  · rw [hw.started]
    exact h.fresh y (hne ▸ hy)
  · rw [hne]
    exact hw.track (h.track t (hw.opened t ht))
  · obtain ⟨p,y,hle',hp,hy⟩ := pending_iff.mp hpend
    rw [hindex] at hp
    rw [(hw.ent y).1] at hy
    obtain ⟨p0,hpi,hp0,rfl⟩ := Positions.eraseIdx_eq_some.mp hp
    have := hside p0 y hpi hp0 hy
    exact pending_iff.mpr ⟨p0,y,by omega,hp0,hy⟩

/-- A list is removed from position `i`. If it was the last entry and `cursor_index` stood there,
the queue steps back, which does no harm if a list is before it. -/
theorem removeAt {i e : Nat} (h : Converted s q n) (hi : (s.queue q).index[i]? = some e)
    (hback : (s.queue q).cursorIndex = i → i + 1 = (s.queue q).index.length → 0 < i →
      ∀ f, (s.queue q).index[i - 1]? = some f → (s.ent f).expand = true) :
    ∃ n' ≤ n, Converted (s.qRemoveAt q i).1 q n' ∧
      (Pending (s.qRemoveAt q i).1 q n' → Pending s q n) := by
  have hlen := (List.getElem?_eq_some_iff.mp hi).1
  have hself : (((s.setEnt e { s.ent e with index := -1 }).setQueue q { s.queue q with
      cursorIndex := cursorIndexAfterRemove (s.queue q) i
      index := (s.queue q).index.eraseIdx i }).queue q) = { s.queue q with
      cursorIndex := cursorIndexAfterRemove (s.queue q) i
      index := (s.queue q).index.eraseIdx i } := by simp
  have hplace := h.le
  -- a file may change sides only by a step back, and then a list is there
  have hstep {p y : Nat} (hp : (s.queue q).index[p]? = some y) (hy : (s.ent y).expand = false)
      (hc : (s.queue q).cursorIndex = i) (hlast : i + 1 = (s.queue q).index.length) (hpos : 0 < i) :
      p ≠ i - 1 := fun heq => by
    have := hback hc hlast hpos y (heq ▸ hp)
    simp [hy] at this
  obtain ⟨c,p,hcursor,hp,hcp,rfl⟩ | ⟨hcn,hgone⟩ := h.goesOn
  · by_cases hpi : p = i
    · subst hpi
      obtain rfl := Option.some.inj (hp.symm.trans hi)
      by_cases hlast : 0 < p ∧ p + 1 = (s.queue q).index.length
      · refine ⟨p - 1,by omega,h.removed hi (.inr ⟨?_,?_⟩) (by omega) fun p0 y hne hp0 hy => ?_⟩
        · rw [hself]
          unfold cursorIndexAfterRemove
          dsimp only
          rw [hcp,if_pos (by omega)]
          omega
        · intro c' hc'
          rw [hself] at hc'
          obtain rfl := Option.some.inj (hcursor.symm.trans hc')
          simp
        · have := hstep hp0 hy hcp hlast.2 hlast.1
          have := (List.getElem?_eq_some_iff.mp hp0).1
          split <;> omega
      · refine ⟨p,by omega,h.removed hi (.inr ⟨?_,?_⟩) hlen fun p0 y hne hp0 hy => ?_⟩
        · rw [hself]
          unfold cursorIndexAfterRemove
          dsimp only
          rw [hcp,if_neg (by omega)]
        · intro c' hc'
          rw [hself] at hc'
          obtain rfl := Option.some.inj (hcursor.symm.trans hc')
          simp
        · split <;> omega
    · refine ⟨(if p < i then p else p - 1) + 1,by split <;> omega,h.removed hi
        (.inl ⟨c,if p < i then p else p - 1,by rw [hself]; exact hcursor,?_,?_,rfl⟩) ?_
        fun p0 y hne hp0 hy => ?_⟩
      · rw [hself]
        exact Positions.eraseIdx_eq_some.mpr ⟨p,hpi,hp,rfl⟩
      · rw [hself]
        exact cursorIndexAfterRemove_eq hcp hpi
      · split <;> omega
      · split <;> split <;> omega
  · have hunlisted (c' : Nat) (hc' : (s.queue q).cursor = some c') :
        ((s.setEnt e { s.ent e with index := -1 }).ent c').index = -1 := by
      by_cases hce : c' = e
      · subst hce; simp
      · rw [setEnt_of_ne _ hce]
        exact hgone c' hc'
    by_cases hlast : n = i ∧ 0 < i ∧ i + 1 = (s.queue q).index.length
    · refine ⟨n - 1,by omega,h.removed hi (.inr ⟨?_,?_⟩) (by omega) fun p0 y hne hp0 hy => ?_⟩
      · rw [hself]
        unfold cursorIndexAfterRemove
        dsimp only
        rw [hcn,if_pos (by omega)]
        omega
      · rw [hself]
        exact hunlisted
      · have := hstep hp0 hy (by omega) hlast.2.2 hlast.2.1
        have := (List.getElem?_eq_some_iff.mp hp0).1
        split <;> omega
    · refine ⟨if i < n then n - 1 else n,by split <;> omega,h.removed hi (.inr ⟨?_,?_⟩) ?_
        fun p0 y hne hp0 hy => ?_⟩
      · rw [hself]
        unfold cursorIndexAfterRemove
        dsimp only
        rw [hcn]
        split <;> split <;> omega
      · rw [hself]
        exact hunlisted
      · split <;> omega
      · split <;> split <;> omega

end Converted

/-- The removal of entry `e` does not make the queue step back to a file: `e` is not the last entry,
or `cursor_index` does not stand on it, or a list is before it. -/
def NoStepBack (s : QueueMgr) (q e : Nat) : Prop :=
  qFind (s.queue q) e = (s.queue q).cursorIndex →
    qFind (s.queue q) e + 1 = (s.queue q).index.length → 0 < qFind (s.queue q) e →
      ∀ f ∈ qGet (s.queue q) (qFind (s.queue q) e - 1), (s.ent f).expand = true

theorem sameWork_remove (s : QueueMgr) (e : Nat) : SameWork s (s.qeRemove e).1 :=
  (sameWork_qeIndex s e).trans (sameWork_removeAt _ _ _)

theorem qeRemove_trk (s : QueueMgr) (e : Nat) : (s.qeRemove e).1.trk = s.trk ∧
    (s.qeRemove e).1.nt = s.nt ∧ (s.qeRemove e).1.ne = s.ne := by
  simp [qeRemove]

theorem SameWork.advances {s s' : QueueMgr} (h : SameWork s s') {t : Nat}
    (ht : s'.openTrk t ↔ s.openTrk t) : s'.Advances t ↔ s.Advances t := by
  unfold Advances
  rw [ht,(h.trk t).1,(h.ent _).1,(h.ent _).2]

namespace Converted

variable {s : QueueMgr} {q n : Nat}

theorem remove {e : Nat} (h : Converted s q n) (he : e < s.ne) (hback : NoStepBack s q e) :
    ∃ n' ≤ n, Converted (s.qeRemove e).1 q n' ∧
      (Pending (s.qeRemove e).1 q n' → Pending s q n) := by
  have hidx := h.qeIndex e
  unfold qeRemove
  dsimp only
  rw [h.own e he]
  by_cases hm : e ∈ (s.queue q).index
  · obtain ⟨i,hi⟩ := List.mem_iff_getElem?.mp hm
    rw [h.ordered.qeIndex_at hi]
    unfold NoStepBack at hback
    rw [qFind_of_mem (h.ordered.nodup q) hi] at hback
    obtain ⟨n',hle,hconv,hpend⟩ := hidx.removeAt (i := i) (e := e) (by rw [qeIndex_queue]; exact hi)
      (fun hc hlast hpos f hf => by
        rw [qeIndex_queue] at hc hlast hf
        rw [((sameWork_qeIndex s e).ent f).1]
        refine hback hc.symm (by omega) (by omega) f (qGet_eq_some.mpr ⟨i - 1,by omega,hf⟩))
    exact ⟨n',hle,hconv,fun hp => (pending_qeIndex s e q n).mp (hpend hp)⟩
  · rw [qeIndex_unlisted (by rw [h.own e he]; exact hm)]
    refine ⟨n,Nat.le_refl n,?_,fun hp => ?_⟩
    · have heq : ((s.qeIndex e).1.qRemoveAt q (-1)).1 = (s.qeIndex e).1 := by simp [qRemoveAt,qGet]
      rw [heq]
      exact hidx
    · have heq : ((s.qeIndex e).1.qRemoveAt q (-1)).1 = (s.qeIndex e).1 := by simp [qRemoveAt,qGet]
      rw [heq] at hp
      exact (pending_qeIndex s e q n).mp hp

/-- The reader of a list inserts an entry at or behind position `n`. -/
theorem readerInsert {t : Nat} {b : Bool} (h : Converted s q n) (hc : Counted s [])
    (ht : s.openTrk t) (hn : (n : Int) ≤ (s.qeIndex (s.trk t).quCur).2 + 1) :
    ∃ n' ≤ n, Converted (s.readerInsert t b) q n' := by
  have hlt := hc.reader t ht.1
  have hrange := qeIndex_range s (s.trk t).quCur
  have hown := h.own _ hlt
  rw [hown] at hrange
  have hins := (h.qeIndex (s.trk t).quCur).insert (b := b)
    (i := ((s.qeIndex (s.trk t).quCur).2 + 1).toNat) (by omega) (by rw [qeIndex_queue]; omega)
  have heq : (s.qeInsert (s.trk t).quCur b).1 = ((s.qeIndex (s.trk t).quCur).1.qInsert q
      ((s.qeIndex (s.trk t).quCur).2 + 1).toNat b).1 := by
    unfold qeInsert
    dsimp only
    rw [hown]
  have hcount := (hc.insertBehind (b := b) hlt).readsOn t
    (e := (s.qeInsert (s.trk t).quCur b).2) (Nat.lt_succ_self _)
  have htrk : (s.qeInsert (s.trk t).quCur b).1.trk = s.trk := by simp [qeInsert,qInsert]
  have hne : (s.qeInsert (s.trk t).quCur b).1.ne = s.ne + 1 := by simp [qeInsert,qInsert]
  have hread : Converted ((s.qeInsert (s.trk t).quCur b).1.setTrk t
      { (s.qeInsert (s.trk t).quCur b).1.trk t with
        quCur := (s.qeInsert (s.trk t).quCur b).2
        removed := true }) q n :=
    (heq ▸ hins).same (sameWork_setTrk _ t _ rfl rfl (by simp) id) (sameOrder_setTrk _ t _) hcount
  unfold QueueMgr.readerInsert
  dsimp only
  split
  · exact ⟨n,Nat.le_refl n,hread⟩
  · rename_i hrem
    obtain ⟨hqent,-,hfirst⟩ := h.track t ht
    have hcur : (s.trk t).quCur = (s.trk t).qent := hfirst (by simpa using hrem)
    have hlist : (((s.qeInsert (s.trk t).quCur b).1.setTrk t
        { (s.qeInsert (s.trk t).quCur b).1.trk t with
          quCur := (s.qeInsert (s.trk t).quCur b).2
          removed := true }).queue q).index =
        (s.queue q).index.insertIdx ((s.qeIndex (s.trk t).quCur).2 + 1).toNat s.ne := by
      rw [setTrk_queue,heq,qInsert_queue,qeIndex_queue,qeIndex_ne]
    have hback : NoStepBack ((s.qeInsert (s.trk t).quCur b).1.setTrk t
        { (s.qeInsert (s.trk t).quCur b).1.trk t with
          quCur := (s.qeInsert (s.trk t).quCur b).2
          removed := true }) q (s.trk t).qent := by
      intro _ hlast hpos
      -- the list stands before the entry that was inserted behind it
      by_cases hm : (s.trk t).qent ∈ (s.queue q).index
      · obtain ⟨i,hi⟩ := List.mem_iff_getElem?.mp hm
        have hilt := (List.getElem?_eq_some_iff.mp hi).1
        have hidx : (s.qeIndex (s.trk t).quCur).2 = i := by
          rw [hcur]
          exact h.ordered.qeIndex_at hi
        have hthere : (((s.qeInsert (s.trk t).quCur b).1.setTrk t
            { (s.qeInsert (s.trk t).quCur b).1.trk t with
              quCur := (s.qeInsert (s.trk t).quCur b).2
              removed := true }).queue q).index[i]? = some (s.trk t).qent := by
          rw [hlist,hidx]
          exact (Positions.insertIdx_eq_some (by omega) (by omega)).mpr
            ⟨i,hi,by rw [if_pos (by omega)]⟩
        rw [qFind_of_mem (hread.ordered.nodup q) hthere,hlist,
          List.length_insertIdx_of_le_length (by omega)] at hlast
        omega
      · have hno : (s.trk t).qent ∉ (((s.qeInsert (s.trk t).quCur b).1.setTrk t
            { (s.qeInsert (s.trk t).quCur b).1.trk t with
              quCur := (s.qeInsert (s.trk t).quCur b).2
              removed := true }).queue q).index := by
          rw [hlist]
          intro hmem
          obtain hnew | hold := (List.mem_insertIdx (by omega)).mp hmem
          · omega
          · exact hm hold
        rw [qFind_of_not_mem hno] at hpos
        omega
    obtain ⟨n',hle,hconv,-⟩ := hread.remove (by
      simp only [setTrk_ne,hne]
      omega) hback
    exact ⟨n',hle,hconv⟩

theorem advances_insertBehind (h : Converted s q n) (e : Nat) (um : Bool) (t : Nat) :
    (s.qeInsert e um).1.Advances t ↔ s.Advances t := by
  have htrk : (s.qeInsert e um).1.trk = s.trk := by simp [qeInsert,qInsert]
  have hnt : (s.qeInsert e um).1.nt = s.nt := by simp [qeInsert,qInsert]
  unfold Advances openTrk
  rw [htrk,hnt]
  refine and_congr_right fun ht => ?_
  have hne : (s.trk t).qent ≠ s.ne := by
    have := (h.track t ht).1
    omega
  have hent : (s.qeInsert e um).1.ent (s.trk t).qent = (s.qeIndex e).1.ent (s.trk t).qent := by
    simp [qeInsert,qInsert,setEnt_of_ne _ hne]
  have hw := (sameWork_qeIndex s e).ent (s.trk t).qent
  rw [hent,hw.1,hw.2]

theorem advances_readerInsert (h : Converted s q n) (t : Nat) (um : Bool) (t' : Nat) :
    (s.readerInsert t um).Advances t' ↔ s.Advances t' := by
  rw [← h.advances_insertBehind (s.trk t).quCur um t']
  unfold QueueMgr.readerInsert
  dsimp only
  generalize s.qeInsert (s.trk t).quCur um = p
  have hset := sameWork_setTrk p.1 t { p.1.trk t with quCur := p.2, removed := true } rfl rfl
    (by simp) id
  have hopen : (p.1.setTrk t { p.1.trk t with quCur := p.2, removed := true }).openTrk t' ↔
      p.1.openTrk t' := by
    unfold openTrk
    by_cases ht : t' = t
    · subst ht; simp
    · rw [setTrk_of_ne _ ht,setTrk_nt]
  split
  · exact hset.advances hopen
  · obtain ⟨htrk,hnt,-⟩ := qeRemove_trk
      (p.1.setTrk t { p.1.trk t with quCur := p.2, removed := true }) (s.trk t).qent
    refine (hset.trans (sameWork_remove _ (s.trk t).qent)).advances ?_
    unfold openTrk at hopen ⊢
    rw [htrk,hnt]
    exact hopen

/-- `m3u_close()` removes a list of which nothing was read. -/
theorem readerClose {t : Nat} (h : Converted s q n) (ht : s.openTrk t)
    (hback : (s.trk t).expands = some .m3u → (s.trk t).removed = false →
      NoStepBack s q (s.trk t).qent) :
    ∃ n' ≤ n, Converted (s.readerClose t) q n' ∧
      (Pending (s.readerClose t) q n' → Pending s q n) := by
  unfold QueueMgr.readerClose
  dsimp only
  split
  · rename_i hempty
    exact h.remove (h.track t ht).1 (hback hempty.1 hempty.2)
  · exact ⟨n,Nat.le_refl n,h,id⟩

end Converted

theorem readerClose_frame (s : QueueMgr) (t : Nat) : SameWork s (s.readerClose t) ∧
    (s.readerClose t).trk = s.trk ∧ (s.readerClose t).nt = s.nt ∧ (s.readerClose t).ne = s.ne := by
  unfold readerClose
  dsimp only
  split
  · exact ⟨sameWork_remove s _,qeRemove_trk s _⟩
  · exact ⟨SameWork.refl s,rfl,rfl,rfl⟩

theorem closing_trk (s : QueueMgr) (t : Nat) (tags : Meta) : (s.closing t tags).nt = s.nt ∧
    (∀ y, y ≠ t → (s.closing t tags).trk y = s.trk y) ∧
      ((s.closing t tags).trk t).closed = true := by
  have hforget (y : Nat) (hy : y ≠ t) : (s.forgetTrack (s.trk t).qent t tags).trk y = s.trk y := by
    rw [forgetTrack_eq]
    split
    · rw [setTrk_of_ne _ hy]
      rfl
    · rfl
  unfold closing
  dsimp only
  refine ⟨(forgetTrack_trk s (s.trk t).qent t tags t).2.2,fun y hy => ?_,by simp⟩
  rw [setTrk_of_ne _ hy]
  exact hforget y hy

theorem Counted.readerClose {s : QueueMgr} {x : List Nat} (h : Counted s x) (t : Nat) :
    Counted (s.readerClose t) x := by
  unfold QueueMgr.readerClose
  dsimp only
  split
  · exact h.remove
  · exact h

namespace Converted

variable {s s' : QueueMgr} {q n : Nat}

/-- The store when `qe_close()` of an open track comes to the call of `q_play_next()`. -/
theorem closing {t : Nat} (h : Converted s q n) (hc : Counted s []) (ht : s.openTrk t)
    (tags : Meta) : Converted (s.closing t tags) q n :=
  h.same (sameWork_closing s t tags) (sameOrder_closing s t tags) (hc.closing (m := tags) ht)

theorem advances_closing (t : Nat) (tags : Meta) {t' : Nat} (hne : t' ≠ t) :
    (s.closing t tags).Advances t' ↔ s.Advances t' := by
  obtain ⟨hnt,htrk,-⟩ := closing_trk s t tags
  refine (sameWork_closing s t tags).advances ?_
  unfold openTrk
  rw [htrk t' hne,hnt]

theorem advances_unref (e t : Nat) : (s.qeUnref e).Advances t ↔ s.Advances t := by
  refine (sameWork_unref s e).advances ?_
  unfold openTrk
  rw [qeUnref_trk,qeUnref_nt]

theorem advances_readerClose (t t' : Nat) : (s.readerClose t).Advances t' ↔ s.Advances t' := by
  obtain ⟨hw,htrk,hnt,-⟩ := readerClose_frame s t
  refine hw.advances ?_
  unfold openTrk
  rw [htrk,hnt]

theorem pending_same (hw : SameWork s s') (ho : SameOrder s s') :
    Pending s' q n ↔ Pending s q n := by
  unfold Pending
  rw [ho.index]
  simp only [(hw.ent _).1]

/-- What `qe_close()` of an open track does when the user did not stop the track. -/
theorem close_eq {t : Nat} {tags : Meta} {rnd : Nat} {ans : List Answer} (h : Converted s q n)
    (ht : s.openTrk t) : s.qeClose t false tags rnd ans =
      if s.Advances t then
        ((s.closing t tags).qPlayNext q rnd ans).map fun p => p.1.qeUnref (s.trk t).qent
      else some ((s.closing t tags).qeUnref (s.trk t).qent) := by
  have hw := (sameWork_closing s t tags).ent (s.trk t).qent
  have hq := ((sameOrder_closing s t tags).ent (s.trk t).qent).1
  rw [qeClose_eq]
  dsimp only
  rw [hw.1,hw.2,hq,h.own _ (h.track t ht).1]
  refine if_congr ?_ rfl rfl
  unfold Advances
  simp [ht]

theorem close_idle {t : Nat} {tags : Meta} {rnd : Nat} {ans : List Answer} (h : Converted s q n)
    (hc : Counted s []) (ht : s.openTrk t) (hadv : ¬s.Advances t)
    (hback : (s.trk t).expands = some .m3u → (s.trk t).removed = false →
      NoStepBack s q (s.trk t).qent)
    (hs : s.closeTrack t false tags rnd ans = some s') :
    ∃ n' ≤ n, Converted s' q n' ∧ (Pending s' q n' → Pending s q n) ∧
      ∀ t', s'.Advances t' ↔ s.Advances t' := by
  obtain ⟨n',hle,hr,hpend⟩ := h.readerClose ht hback
  obtain ⟨hwr,htrk,hnt,-⟩ := readerClose_frame s t
  have hopen : (s.readerClose t).openTrk t := by
    unfold openTrk
    rw [htrk,hnt]
    exact ht
  have hcount := hc.closeTrack ht hs
  unfold closeTrack at hs
  rw [hr.close_eq hopen,if_neg (mt (advances_readerClose t t).mp hadv)] at hs
  cases hs
  have hw := (sameWork_closing (s.readerClose t) t tags).trans
    (sameWork_unref _ ((s.readerClose t).trk t).qent)
  have ho := (sameOrder_closing (s.readerClose t) t tags).trans
    (sameOrder_unref _ ((s.readerClose t).trk t).qent)
  refine ⟨n',hle,hr.same hw ho hcount,fun hp => hpend ((pending_same hw ho).mp hp),fun t' => ?_⟩
  rw [advances_unref]
  by_cases hne : t' = t
  · subst hne
    refine iff_of_false (fun hx => ?_) hadv
    have := hx.1.2
    rw [(closing_trk (s.readerClose t') t' tags).2.2] at this
    cases this
  · rw [advances_closing t tags hne,advances_readerClose]

theorem close_advances {t : Nat} {tags : Meta} {rnd : Nat} {ans : List Answer}
    (h : Converted s q n) (hc : Counted s []) (hadv : s.Advances t)
    (hback : (s.trk t).expands = some .m3u → (s.trk t).removed = false →
      NoStepBack s q (s.trk t).qent) (hcreated : ∀ a ∈ ans, a.created = true)
    (hgo : CanGoOn ((s.readerClose t).closing t tags) q)
    (hs : s.closeTrack t false tags rnd ans = some s') :
    ∃ n', Converted s' q n' ∧ (Pending s' q n' → ∃ t', s'.Advances t') := by
  obtain ⟨n',-,hr,-⟩ := h.readerClose hadv.1 hback
  obtain ⟨-,htrk,hnt,-⟩ := readerClose_frame s t
  have hopen : (s.readerClose t).openTrk t := by
    unfold openTrk
    rw [htrk,hnt]
    exact hadv.1
  have hcount := hc.closeTrack hadv.1 hs
  have hclosing := hr.closing (hc.readerClose t) hopen tags
  unfold closeTrack at hs
  rw [hr.close_eq hopen,if_pos ((advances_readerClose t t).mpr hadv)] at hs
  obtain ⟨p,hp,rfl⟩ := Option.map_eq_some_iff.mp hs
  obtain ⟨m,hm,hrun⟩ := hclosing.next hcreated hgo hp
  have hw := sameWork_unref p.1 ((s.readerClose t).trk t).qent
  have ho := sameOrder_unref p.1 ((s.readerClose t).trk t).qent
  refine ⟨m,hm.same hw ho hcount,fun hpend => ?_⟩
  obtain ⟨t',ht'⟩ := hrun ((pending_same hw ho).mp hpend)
  exact ⟨t',(advances_unref _ t').mpr ht'⟩

/-- The expansion of entry `e` starts. -/
theorem expand {e : Nat} {k : ListKind} (h : Converted s q n) (he : e < s.ne)
    (hwait : (s.ent e).playNextOnClose = false) : Converted (s.startTrack e (some k)) q n ∧
      ∀ t, (s.startTrack e (some k)).Advances t → s.Advances t := by
  have ho := sameOrder_start s e (some k)
  have hent (y : Nat) : ((s.startTrack e (some k)).ent y).expand =
      (if y = e then true else (s.ent y).expand) ∧
      ((s.startTrack e (some k)).ent y).playNextOnClose = (s.ent y).playNextOnClose := by
    by_cases hy : y = e
    · subst hy; simp [startTrack]
    · simp [startTrack,setEnt_of_ne _ hy,hy]
  have hflags : ((s.startTrack e (some k)).queue q).conversion = (s.queue q).conversion ∧
      ((s.startTrack e (some k)).queue q).random = (s.queue q).random ∧
      ((s.startTrack e (some k)).queue q).repeatAll = (s.queue q).repeatAll ∧
      ((s.startTrack e (some k)).queue q).cursor = (s.queue q).cursor := by
    by_cases hq : q = (s.ent e).q
    · subst hq; simp [startTrack]
    · simp [startTrack,setQueue_of_ne _ hq]
  have hnew : (s.startTrack e (some k)).trk s.nt = ⟨e,some k,e,false,false,false⟩ := by
    simp [startTrack]
  have hold {t : Nat} (ht : t ≠ s.nt) : (s.startTrack e (some k)).trk t = s.trk t := by
    simp [startTrack,setTrk_of_ne _ ht]
  have hnt : (s.startTrack e (some k)).nt = s.nt + 1 := rfl
  have hstarted : (s.startTrack e (some k)).started = s.started := rfl
  obtain ⟨hconv,hrandom,hrepeat,hcursor⟩ := hflags
  refine ⟨⟨h.only,h.ordered.same ho,hconv.trans h.conversion,hrandom.trans h.random,
    hrepeat.trans h.repeatAll,fun y hy => ?_,fun c hc => ?_,?_,?_,fun p y hp hy => ?_,
    fun y hy => h.fresh y (ho.ne ▸ hy),fun t ht => ?_⟩,fun t ht => ?_⟩
  · rw [(ho.ent y).1]
    exact h.own y (ho.ne ▸ hy)
  · rw [ho.ne]
    exact h.cursor c (hcursor ▸ hc)
  · obtain ⟨c,p,hc,hp,hplace,rfl⟩ | ⟨hplace,hgone⟩ := h.goesOn
    · exact .inl ⟨c,p,hcursor.trans hc,by rw [ho.index]; exact hp,by rw [ho.place]; exact hplace,rfl⟩
    · refine .inr ⟨by rw [ho.place]; exact hplace,fun c hc => ?_⟩
      rw [(ho.ent c).2]
      exact hgone c (hcursor ▸ hc)
  · rw [ho.index]
    exact h.le
  · rw [ho.index] at hp
    rw [(hent y).1] at hy
    rw [hstarted]
    refine h.done p y hp ?_
    split at hy
    · cases hy
    · exact hy
  · obtain ⟨hlt,hopen⟩ := ht
    rw [ho.ne]
    by_cases htn : t = s.nt
    · subst htn
      rw [hnew]
      exact ⟨he,fun _ => by simp [(hent e).1],fun _ => rfl⟩
    · rw [hold htn] at hopen ⊢
      obtain ⟨hq,hkind,hcur⟩ := h.track t ⟨by rw [hnt] at hlt; omega,hopen⟩
      refine ⟨hq,fun hx => ?_,hcur⟩
      rw [(hent _).1]
      split
      · rfl
      · exact hkind hx
  · obtain ⟨⟨hlt,hopen⟩,hadv⟩ := ht
    rw [(hent _).1,(hent _).2] at hadv
    by_cases htn : t = s.nt
    · subst htn
      rw [hnew] at hadv
      simp [hwait] at hadv
    · rw [hold htn] at hopen hadv
      refine ⟨⟨by rw [hnt] at hlt; omega,hopen⟩,hadv.imp_left fun hx => ?_⟩
      split at hx
      · cases hx
      · exact hx

/-- `q_add()`, before anything is played. -/
theorem add {b : Bool} {l : Option ListKind} {c : Bool} (h : Converted s q 0)
    (hidle : ∀ t, ¬s.Advances t) :
    Converted (s.qAdd q b l c) q 0 ∧ ∀ t, ¬(s.qAdd q b l c).Advances t := by
  have hins := h.insert (b := b) (Nat.zero_le _) (Nat.le_refl (s.queue q).index.length)
  have hent {e : Nat} (he : e < s.ne) :
      (s.qInsert q (s.queue q).index.length b).1.ent e = s.ent e := by
    simp [qInsert,setEnt_of_ne _ (show e ≠ s.ne by omega)]
  have hidle' (t : Nat) : ¬(s.qInsert q (s.queue q).index.length b).1.Advances t := by
    rintro ⟨hopen,hadv⟩
    have hopen : s.openTrk t := hopen
    have hadv : _ := hadv
    rw [show (s.qInsert q (s.queue q).index.length b).1.trk = s.trk from rfl,
      hent (h.track t hopen).1] at hadv
    exact hidle t ⟨hopen,hadv⟩
  unfold QueueMgr.qAdd qeExpand
  dsimp only
  split
  · exact ⟨hins,hidle'⟩
  · rename_i k
    split
    · obtain ⟨hconv,hadv⟩ := hins.expand (e := s.ne) (k := k) (Nat.lt_succ_self _) (by simp [qInsert])
      exact ⟨hconv,fun t ht => hidle' t (hadv t ht)⟩
    · exact ⟨hins,hidle'⟩

end Converted

/-- Files and lists are added and lists are read, nothing is stopped. -/
def Op.fills : Op → Bool
  | .add _ _ _ _ | .readerInsert _ _ => true
  | .close _ fstop _ _ _ => !fstop
  | _ => false

/-- Lists are read and tracks end, nothing is stopped. -/
def Op.drains : Op → Bool
  | .readerInsert _ _ => true
  | .close _ fstop _ _ _ => !fstop
  | _ => false

/-- A conversion queue in which nothing was played. -/
structure Waiting (s : QueueMgr) : Prop where
  counted : Counted s []
  converted : Converted s 0 0
  idle : ∀ t, ¬s.Advances t

/-- A conversion queue that was played: a file that was not reached has a track that will get
there. -/
structure Working (s : QueueMgr) : Prop where
  counted : Counted s []
  reached : ∃ n, Converted s 0 n ∧ (Pending s 0 n → ∃ t, s.Advances t)

theorem waiting_create : Waiting (init.qCreate true false false) := by
  refine ⟨init_counted.qCreate,⟨fun y hy => ?_,?_,rfl,rfl,rfl,fun e he => ?_,fun c hc => ?_,
    .inr ⟨rfl,fun c hc => ?_⟩,Nat.zero_le _,fun p e hp => ?_,fun e _ he => ?_,fun t ht => ?_⟩,
    fun t ht => ?_⟩
  · have hy : y < 1 := hy
    omega
  · exact step_ordered init (.create true false false) _ init_ordered rfl rfl
  · exact absurd he (Nat.not_lt_zero e)
  · cases hc
  · cases hc
  · simp [qCreate,init] at hp
  · cases he
  · exact absurd ht.1 (Nat.not_lt_zero t)
  · exact absurd ht.1.1 (Nat.not_lt_zero t)

theorem Converted.noStepBack {s : QueueMgr} {q e : Nat} (h : Converted s q 0) :
    NoStepBack s q e := by
  intro hc _ hpos
  obtain ⟨c,p,-,-,-,hn⟩ | ⟨hplace,-⟩ := h.goesOn
  · omega
  · rw [hc,hplace] at hpos
    omega

theorem step_waiting (s : QueueMgr) (a : Op) (s' : QueueMgr) (h : Waiting s)
    (ha : a.fills = true) (hs : s.step a = some s') : Waiting s' := by
  have hc := step_counted s a s' h.counted hs
  cases a with
  | add y um kind created =>
    obtain ⟨z,-,hz,hs⟩ := onQueue_some hs
    cases hs
    obtain rfl := h.converted.only z hz.1
    obtain ⟨hconv,hidle⟩ := h.converted.add (b := um) (l := kind) (c := created) h.idle
    exact ⟨hc,hconv,hidle⟩
  | readerInsert t um =>
    simp only [step,Option.ite_none_right_eq_some,Option.some.injEq] at hs
    obtain ⟨⟨ht,-⟩,rfl⟩ := hs
    have hrange := qeIndex_range s (s.trk t).quCur
    obtain ⟨n,hn,hconv⟩ := h.converted.readerInsert (b := um) h.counted ht (by omega)
    obtain rfl : n = 0 := by omega
    exact ⟨hc,hconv,fun t' ht' => h.idle t' ((h.converted.advances_readerInsert t um t').mp ht')⟩
  | close t fstop tags rnd ans =>
    obtain rfl : fstop = false := by simpa [Op.fills] using ha
    simp only [step,Option.ite_none_right_eq_some] at hs
    obtain ⟨n,hn,hconv,-,hadv⟩ := h.converted.close_idle h.counted hs.1.1 (h.idle t)
      (fun _ _ => h.converted.noStepBack) hs.2
    obtain rfl : n = 0 := by omega
    exact ⟨hc,hconv,fun t' ht' => h.idle t' ((hadv t').mp ht')⟩
  | _ => cases ha

/-- The steps that a conversion queue takes without losing a file or starting one twice: every
track can be created; what a list inserts it inserts behind all that was reached, while some track
will advance the queue; an empty m3u list does not make the queue step back to a file; and the
queue is never left waiting for a list that is finished. -/
def Smooth (s : QueueMgr) : Op → Prop
  | .play _ _ _ ans => (∀ a ∈ ans, a.created = true) ∧ CanGoOn s 0
  | .readerInsert t _ => frontier (s.queue 0) ≤ (s.qeIndex (s.trk t).quCur).2 + 1 ∧
    ∃ t' < s.nt, s.Advances t'
  | .close t _ tags _ ans =>
    ((s.trk t).expands = some .m3u → (s.trk t).removed = false →
      NoStepBack s 0 (s.trk t).qent) ∧
    (s.Advances t → (∀ a ∈ ans, a.created = true) ∧
      CanGoOn ((s.readerClose t).closing t tags) 0)
  | _ => True

theorem step_play {s s' : QueueMgr} {y : Option Nat} {rnd : Nat} {ans : List Answer}
    (h : Waiting s) (ha : Smooth s (.play y none rnd ans))
    (hs : s.step (.play y none rnd ans) = some s') : Working s' := by
  have hc := step_counted s _ s' h.counted hs
  obtain ⟨z,-,hz,hs⟩ := onQueue_some hs
  obtain rfl := h.converted.only z hz.1
  obtain ⟨p,hp,rfl⟩ := Option.map_eq_some_iff.mp hs
  have hplace : (s.queue 0).cursorIndex = (0 : Nat) := by
    obtain ⟨c,p,-,-,-,hn⟩ | ⟨hplace,-⟩ := h.converted.goesOn
    · omega
    · exact hplace
  exact ⟨hc,h.converted.play hplace ha.1 ha.2 hp⟩

theorem step_working (s : QueueMgr) (a : Op) (s' : QueueMgr) (h : Working s)
    (ha : a.drains = true ∧ Smooth s a) (hs : s.step a = some s') : Working s' := by
  have hc := step_counted s a s' h.counted hs
  obtain ⟨n,hconv,hrun⟩ := h.reached
  obtain ⟨hdrains,hsmooth⟩ := ha
  cases a with
  | readerInsert t um =>
    simp only [step,Option.ite_none_right_eq_some,Option.some.injEq] at hs
    obtain ⟨⟨ht,-⟩,rfl⟩ := hs
    obtain ⟨hfront,t',-,hadv⟩ := hsmooth
    rw [hconv.frontier_eq] at hfront
    obtain ⟨n',-,hconv'⟩ := hconv.readerInsert (b := um) h.counted ht hfront
    exact ⟨hc,n',hconv',fun _ => ⟨t',(hconv.advances_readerInsert t um t').mpr hadv⟩⟩
  | close t fstop tags rnd ans =>
    obtain rfl : fstop = false := by simpa [Op.drains] using hdrains
    simp only [step,Option.ite_none_right_eq_some] at hs
    obtain ⟨hback,hgo⟩ := hsmooth
    by_cases hadv : s.Advances t
    · exact ⟨hc,hconv.close_advances h.counted hadv hback (hgo hadv).1 (hgo hadv).2 hs.2⟩
    · obtain ⟨n',-,hconv',hpend,hsame⟩ := hconv.close_idle h.counted hs.1.1 hadv hback hs.2
      refine ⟨hc,n',hconv',fun hp => ?_⟩
      obtain ⟨t',ht'⟩ := hrun (hpend hp)
      exact ⟨t',(hsame t').mpr ht'⟩
  | _ => cases hdrains

/-- A conversion queue is filled, played once, and left alone until no track is open. If each step
after the filling is smooth, every file in the queue was started exactly once. -/
theorem conversion_complete {fill drain : List Op} {y : Option Nat} {rnd : Nat} {ans : List Answer}
    {m s : QueueMgr} (hfill : ∀ a ∈ fill, a.fills = true) (hdrain : ∀ a ∈ drain, a.drains = true)
    (hm : Machine.run step init (.create true false false :: fill) = some m)
    (hs : Machine.run step m (.play y none rnd ans :: drain) = some s)
    (hsmooth : Machine.AllSteps step Smooth m (.play y none rnd ans :: drain))
    (hquiet : ∀ t < s.nt, (s.trk t).closed = true) :
    ∀ e ∈ (s.queue 0).index, (s.ent e).expand = false → s.started.count e = 1 := by
  obtain ⟨u,hu,hm⟩ := Machine.run_cons_eq_some.mp hm
  cases hu
  have hwait : Waiting m := Machine.guarded_invariant (C := fun _ a => a.fills = true) step_waiting
    (Machine.AllSteps.of_forall hfill) hm waiting_create
  obtain ⟨u,hu,hs⟩ := Machine.run_cons_eq_some.mp hs
  have hdrains : Machine.AllSteps step (fun _ a => a.drains = true) u drain :=
    Machine.AllSteps.of_forall hdrain
  have hwork := Machine.guarded_invariant step_working (hdrains.and (hsmooth.2 u hu)) hs
    (step_play hwait hsmooth.1 hu)
  obtain ⟨n,hconv,hrun⟩ := hwork.reached
  intro e he hfile
  obtain ⟨p,hp⟩ := List.mem_iff_getElem?.mp he
  rw [hconv.done p e hp hfile,if_pos]
  by_contra hle
  obtain ⟨t,ht⟩ := hrun (pending_iff.mpr ⟨p,e,by omega,hp,hfile⟩)
  have := hquiet t ht.1.1
  rw [ht.1.2] at this
  cases this

instance (s : QueueMgr) (q n : Nat) : Decidable (Pending s q n) :=
  inferInstanceAs (Decidable (∃ e ∈ (s.queue q).index.drop n, _))

instance (s : QueueMgr) (q : Nat) : Decidable (CanGoOn s q) := by
  unfold CanGoOn
  infer_instance

instance (s : QueueMgr) (q e : Nat) : Decidable (NoStepBack s q e) := by
  unfold NoStepBack
  infer_instance

instance (s : QueueMgr) (a : Op) : Decidable (Smooth s a) :=
  match a with
  | .play _ _ _ ans => inferInstanceAs (Decidable ((∀ a ∈ ans, a.created = true) ∧ CanGoOn s 0))
  | .readerInsert t _ => inferInstanceAs (Decidable
      (frontier (s.queue 0) ≤ (s.qeIndex (s.trk t).quCur).2 + 1 ∧ ∃ t' < s.nt, s.Advances t'))
  | .close t _ tags _ ans => inferInstanceAs (Decidable
      (((s.trk t).expands = some .m3u → (s.trk t).removed = false →
        NoStepBack s 0 (s.trk t).qent) ∧
      (s.Advances t → (∀ a ∈ ans, a.created = true) ∧
        CanGoOn ((s.readerClose t).closing t tags) 0)))
  | .destroy _ | .create _ _ _ | .select _ | .qselect _ | .conf _ _ _ _ | .add _ _ _ _
  | .insertAt _ _ _ | .insert _ _ | .clear _ | .filter _ _ | .playNext _ _ _
  | .playPrev _ _ _ | .ref _ _ | .unref _ | .removeAt _ _ | .remove _ | .sort _ _ => instDecidableTrue

/-- A file, a directory and another file. -/
def mixedList : List Op :=
  [.add none false none false,.add none false (some .dir) true,.add none false none false]

def workers (n : Nat) : List Answer := List.replicate n ⟨true,true⟩

/-- The directory is read before the first track ends. -/
def readFirst : List Op :=
  [.readerInsert 0 false,.close 0 false [] 0 (workers 3),.close 1 false [] 0 (workers 3),
    .close 3 false [] 0 (workers 3),.close 2 false [] 0 (workers 3)]

/-- The store when the list is complete, and the one at the end of `drain`. -/
def filled (fill : List Op) : QueueMgr :=
  (Machine.run step init (.create true false false :: fill)).getD init

def drained (fill drain : List Op) : QueueMgr :=
  (Machine.run step (filled fill) (.play none none 0 (workers 3) :: drain)).getD init

theorem conversion_complete_read_first :
    ((drained mixedList readFirst).queue 0).index = [0,3,2] ∧
      ∀ e ∈ ((drained mixedList readFirst).queue 0).index,
        ((drained mixedList readFirst).ent e).expand = false →
          (drained mixedList readFirst).started.count e = 1 :=
  have hfill : ∀ a ∈ mixedList, a.fills = true := by decide
  have hdrain : ∀ a ∈ readFirst, a.drains = true := by decide
  have hm : Machine.run step init (.create true false false :: mixedList) =
      some (filled mixedList) := Machine.run_eq_getD (by decide +kernel)
  have hs : Machine.run step (filled mixedList) (.play none none 0 (workers 3) :: readFirst) =
      some (drained mixedList readFirst) := Machine.run_eq_getD (by decide +kernel)
  ⟨by decide +kernel,conversion_complete hfill hdrain hm hs (by decide +kernel) (by decide +kernel)⟩

/-- The first track ends while the directory is read. -/
def readLate : List Op :=
  [.close 1 false [] 0 (workers 3),.readerInsert 0 false,.close 0 false [] 0 (workers 3),
    .close 2 false [] 0 (workers 3)]

/-- Then the file behind the directory is next, and what the directory holds is never converted. -/
theorem read_late_is_lost : ¬ ∀ (fill drain : List Op) y rnd ans m s,
    (∀ a ∈ fill, a.fills = true) → (∀ a ∈ drain, a.drains = true) →
    Machine.run step init (.create true false false :: fill) = some m →
    Machine.run step m (.play y none rnd ans :: drain) = some s →
    (∀ t < s.nt, (s.trk t).closed = true) →
    ∀ e ∈ (s.queue 0).index, (s.ent e).expand = false → s.started.count e = 1 := by
  intro h
  have hlost := h mixedList readLate none 0 (workers 3) (filled mixedList) (drained mixedList readLate)
    (by decide) (by decide) (Machine.run_eq_getD (by decide +kernel))
    (Machine.run_eq_getD (by decide +kernel)) (by decide +kernel) 3 (by decide +kernel)
    (by decide +kernel)
  exact absurd hlost (by decide +kernel)

end QueueMgr

end Phiola
