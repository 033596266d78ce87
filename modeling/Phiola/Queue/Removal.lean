import Phiola.Framework.Positions
import Phiola.Queue.Navigation

/-!
# Removal of the entry that plays

After the removal of the cursor entry only `cursor_index` tells where the queue goes on. `q_play()`
stores it and `q_remove_at()` moves it along; `q_insert()` and `q_sort()` leave it as it is.
-/

namespace Phiola

namespace QueueMgr

/-- `cursor_index` is the position of the cursor entry as long as that entry is listed. -/
structure InSync (s : QueueMgr) (q : Nat) : Prop where
  lt : ∀ c, (s.queue q).cursor = some c → c < s.ne
  place : ∀ c p : Nat, (s.queue q).cursor = some c → (s.queue q).index[p]? = some c →
    (s.queue q).cursorIndex = p

theorem SameOrder.cursor_some {s s' : QueueMgr} (h : SameOrder s s') {q c : Nat}
    (hc : (s'.queue q).cursor = some c) : (s.queue q).cursor = some c := by
  obtain heq | ⟨hn,-⟩ := h.cursor q
  · exact heq ▸ hc
  · exact absurd (hn.symm.trans hc) (by simp)

theorem InSync.same {s s' : QueueMgr} {q : Nat} (hi : InSync s q) (h : SameOrder s s') :
    InSync s' q where
  lt c hc := h.ne ▸ hi.lt c (h.cursor_some hc)
  place c p hc hp := by
    rw [h.place]
    exact hi.place c p (h.cursor_some hc) (h.index q ▸ hp)

/-- The parts of the store that `InSync` reads. -/
theorem InSync.congr {s u : QueueMgr} {q : Nat} (hi : InSync s q) (hne : s.ne ≤ u.ne)
    (hindex : (u.queue q).index = (s.queue q).index)
    (hcursor : (u.queue q).cursor = (s.queue q).cursor)
    (hplace : (u.queue q).cursorIndex = (s.queue q).cursorIndex) : InSync u q where
  lt c hc := Nat.lt_of_lt_of_le (hi.lt c (hcursor ▸ hc)) hne
  place c p hc hp := hplace ▸ hi.place c p (hcursor ▸ hc) (hindex ▸ hp)

theorem InSync.setQueue_other {s : QueueMgr} {q y : Nat} (hi : InSync s q) (v : PhiQueue)
    (hy : q ≠ y) : InSync (s.setQueue y v) q := by
  have hq := setQueue_of_ne (s := s) v hy
  exact hi.congr (Nat.le_refl _) (by rw [hq]) (by rw [hq]) (by rw [hq])

/-- `q_play()` stores the place of the entry that it is called for. -/
theorem InSync.setCursor {s : QueueMgr} {q : Nat} (h : Ordered s) (hi : InSync s q) {y e : Nat}
    (he : e < s.ne) : InSync (s.setCursor y e) q := by
  rw [setCursor_eq]
  by_cases hy : q = y
  · subst hy
    refine ⟨fun c hc => ?_,fun c p hc hp => ?_⟩
    · rw [setQueue_self] at hc
      obtain rfl := Option.some.inj hc
      exact he
    · rw [setQueue_self] at hc hp ⊢
      obtain rfl := Option.some.inj hc
      exact h.qeIndex_at hp
  · exact (hi.congr (u := s.setEnt e _) (Nat.le_refl _) rfl rfl rfl).setQueue_other _ hy

theorem inSync_rule (q : Nat) :
    PlayRule (fun s => Ordered s ∧ InSync s q) fun s e => e < s.ne where
  got h hg := (h.1.own (mem_of_qGet hg)).1
  index {s e} h := ⟨h.1.qeIndex e,h.2.congr (by simp) (by simp) (by simp) (by simp)⟩
  split {s y b} h := ⟨h.1.setQueue rfl,h.2.same (sameOrder_setQueue s y _ rfl rfl rfl)⟩
  stop {s c} h := ⟨⟨h.1.same (sameOrder_qeStop s c),h.2.same (sameOrder_qeStop s c)⟩,
    fun _ he => (sameOrder_qeStop s c).ne ▸ he⟩
  cursor {s y e} h he := ⟨⟨h.1.setCursor y e,h.2.setCursor h.1 he⟩,by
    rw [setCursor_eq]
    exact he⟩
  play {s e c} h _ := ⟨h.1.same (sameOrder_qePlay s e c),h.2.same (sameOrder_qePlay s e c)⟩

theorem qInsert_queue (s : QueueMgr) (q pos : Nat) (um : Bool) : (s.qInsert q pos um).1.queue q =
    { s.queue q with index := (s.queue q).index.insertIdx pos s.ne } := by simp [qInsert]

theorem InSync.insert {s : QueueMgr} {q y pos : Nat} {um : Bool} (hi : InSync s q)
    (hpos : pos ≤ (s.queue y).index.length)
    (hbehind : y = q → ∀ c p, (s.queue q).cursor = some c → (s.queue q).index[p]? = some c →
      p < pos) : InSync (s.qInsert y pos um).1 q := by
  by_cases hy : q = y
  · subst hy
    refine ⟨fun c hc => ?_,fun c p hc hp => ?_⟩
    · rw [qInsert_queue] at hc
      have := hi.lt c hc
      exact Nat.lt_succ_of_lt this
    · rw [qInsert_queue] at hc hp ⊢
      have hlt := hi.lt c hc
      obtain ⟨p0,hp0,rfl⟩ := (Positions.insertIdx_eq_some hpos (by omega)).mp hp
      rw [if_pos (hbehind rfl c p0 hc hp0)]
      exact hi.place c p0 hc hp0
  · have hq : (s.qInsert y pos um).1.queue q = s.queue q := by simp [qInsert,setQueue_of_ne _ hy]
    exact hi.congr (Nat.le_succ _) (by rw [hq]) (by rw [hq]) (by rw [hq])

/-- An insertion leaves the cursor in its place exactly if it is behind the cursor entry. -/
theorem inSync_insert_iff {s : QueueMgr} {q pos c p : Nat} {um : Bool} (h : Ordered s)
    (hi : InSync s q) (hpos : pos ≤ (s.queue q).index.length)
    (hcur : (s.queue q).cursor = some c) (hp : (s.queue q).index[p]? = some c) :
    InSync (s.qInsert q pos um).1 q ↔ p < pos := by
  have hplace := hi.place c p hcur hp
  have hlt := hi.lt c hcur
  constructor
  · intro hnew
    by_contra hle
    have hthere : ((s.qInsert q pos um).1.queue q).index[p + 1]? = some c := by
      rw [qInsert_queue]
      exact (Positions.insertIdx_eq_some hpos (by omega)).mpr ⟨p,hp,by rw [if_neg hle]⟩
    have hmoved := hnew.place c (p + 1) (by rw [qInsert_queue]; exact hcur) hthere
    rw [qInsert_queue] at hmoved
    dsimp only at hmoved
    omega
  · intro hbehind
    refine hi.insert hpos fun _ z p' hz hp' => ?_
    obtain rfl := Option.some.inj (hz.symm.trans hcur)
    have := (List.getElem?_inj (List.getElem?_eq_some_iff.mp hp).1 (h.nodup q)).mp (hp.trans hp'.symm)
    omega

/-- `q_remove_at()` moves `cursor_index` along. -/
theorem cursorIndexAfterRemove_eq {v : PhiQueue} {i p : Nat} (hplace : v.cursorIndex = p)
    (hne : p ≠ i) : cursorIndexAfterRemove v i = ((if p < i then p else p - 1 : Nat) : Int) := by
  unfold cursorIndexAfterRemove
  dsimp only
  rw [hplace]
  split <;> split <;> omega

theorem InSync.removeAt {s : QueueMgr} {q : Nat} (hi : InSync s q) (y : Nat) (pos : Int) :
    InSync (s.qRemoveAt y pos).1 q := by
  unfold qRemoveAt
  dsimp only
  split
  · exact hi
  · rename_i e hg
    obtain ⟨i,rfl,hp⟩ := qGet_eq_some.mp hg
    refine InSync.same ?_ (sameOrder_unref _ e)
    by_cases hy : q = y
    · subst hy
      refine ⟨fun c hc => ?_,fun c p hc hp' => ?_⟩
      · rw [setQueue_self] at hc
        exact hi.lt c hc
      · rw [setQueue_self] at hc hp' ⊢
        obtain ⟨p0,hne,hp0,rfl⟩ := Positions.eraseIdx_eq_some.mp hp'
        exact cursorIndexAfterRemove_eq (hi.place c p0 hc hp0) hne
    · exact (hi.congr (u := s.setEnt e _) (Nat.le_refl _) rfl rfl rfl).setQueue_other _ hy

theorem InSync.qeIndex {s : QueueMgr} {q : Nat} (hi : InSync s q) (e : Nat) :
    InSync (s.qeIndex e).1 q := hi.congr (by simp) (by simp) (by simp) (by simp)

theorem InSync.remove {s : QueueMgr} {q : Nat} (hi : InSync s q) (e : Nat) :
    InSync (s.qeRemove e).1 q := (hi.qeIndex e).removeAt _ _

theorem InSync.empty {s : QueueMgr} {q : Nat} (h : (s.queue q).index = [])
    (hlt : ∀ c, (s.queue q).cursor = some c → c < s.ne) : InSync s q :=
  ⟨hlt,fun c p _ hp => by simp [h] at hp⟩

/-- Where an operation inserts an entry. -/
def insertionAt (s : QueueMgr) : Op → Option (Nat × Nat)
  | .add q _ _ _ => (s.theQueue q).map fun q => (q,(s.queue q).index.length)
  | .insertAt q pos _ => some (q,pos)
  | .insert e _ => some ((s.ent e).q,((s.qeIndex e).2 + 1).toNat)
  | .readerInsert t _ =>
    some ((s.ent (s.trk t).quCur).q,((s.qeIndex (s.trk t).quCur).2 + 1).toNat)
  | _ => none

/-- The operation leaves entry `x` of queue `q` where it is, but for removals: it inserts behind
`x`, and a sort keeps `x` in its position. -/
def LeavesPlace (s : QueueMgr) (q x : Nat) (a : Op) : Prop :=
  (∀ y ∈ s.insertionAt a, y.1 = q → qFind (s.queue q) x < y.2) ∧
    match a with
    | .sort y l => s.theQueue y = some q →
      qFind { s.queue q with index := l } x = qFind (s.queue q) x
    | _ => True

/-- The operation leaves the cursor entry of queue `q` where it is. -/
def LeavesCursor (q : Nat) (s : QueueMgr) (a : Op) : Prop :=
  ∀ c ∈ (s.queue q).cursor, s.LeavesPlace q c a

theorem LeavesCursor.behind {q : Nat} {s : QueueMgr} {a : Op} (h : LeavesCursor q s a)
    (hn : (s.queue q).index.Nodup) {y pos : Nat} (ha : s.insertionAt a = some (y,pos)) (hy : y = q)
    (c p : Nat) (hc : (s.queue q).cursor = some c) (hp : (s.queue q).index[p]? = some c) :
    p < pos := by
  have hbehind := (h c hc).1 (y,pos) ha hy
  rw [qFind_of_mem hn hp] at hbehind
  dsimp only at hbehind
  omega

theorem InSync.insertBehind {s : QueueMgr} {q e : Nat} {um : Bool} {a : Op} (h : Ordered s)
    (hi : InSync s q) (hleave : LeavesCursor q s a)
    (ha : s.insertionAt a = some ((s.ent e).q,((s.qeIndex e).2 + 1).toNat)) :
    InSync (s.qeInsert e um).1 q := by
  have hrange := qeIndex_range s e
  refine (hi.qeIndex e).insert ?_ fun hy c p hc hp => ?_
  · rw [qeIndex_queue]
    omega
  · rw [qeIndex_queue] at hc hp
    exact hleave.behind (h.nodup q) ha hy c p hc hp

theorem InSync.qAdd {s : QueueMgr} {q y : Nat} {um : Bool} {kind : Option ListKind}
    {created : Bool} (hi : InSync s q) : InSync (s.qAdd y um kind created) q := by
  have hins : InSync (s.qInsert y (s.queue y).index.length um).1 q := by
    refine hi.insert (Nat.le_refl _) fun hy c p _ hp => ?_
    subst hy
    exact (List.getElem?_eq_some_iff.mp hp).1
  unfold QueueMgr.qAdd qeExpand
  dsimp only
  split
  · exact hins
  · split
    · exact hins.same (sameOrder_start _ _ _)
    · exact hins

theorem InSync.qDestroy {s : QueueMgr} {q : Nat} (hi : InSync s q) (y : Nat) :
    InSync (s.qDestroy y) q := by
  rw [qDestroy_eq]
  refine InSync.same ?_ (sameOrder_foldl_unref _ _)
  by_cases hq : q = y
  · subst hq
    exact InSync.empty (by simp [emptied]) fun c hc => hi.lt c (by simpa [emptied] using hc)
  · exact InSync.setQueue_other (s := { s with lists := s.lists.erase y }) ⟨hi.lt,hi.place⟩ _ hq

theorem InSync.qClear {s : QueueMgr} {q : Nat} (hi : InSync s q) (y : Nat) :
    InSync (s.qClear y) q := by
  have hfold (l : List Nat) (u : QueueMgr) (hu : InSync u q) :
      InSync (l.foldl (fun s e => (s.setEnt e { s.ent e with index := -1 }).qeUnref e) u) q := by
    induction l generalizing u with
    | nil => exact hu
    | cons e l ih =>
      exact ih _ ((hu.congr (u := u.setEnt e { u.ent e with index := -1 }) (Nat.le_refl _)
        rfl rfl rfl).same (sameOrder_unref _ e))
  refine hfold _ _ ?_
  by_cases hq : q = y
  · subst hq
    exact InSync.empty (by simp) fun c hc => hi.lt c (by simpa using hc)
  · exact hi.setQueue_other _ hq

theorem InSync.qSort {s : QueueMgr} {q y : Nat} {l : List Nat} (h : Ordered s) (hi : InSync s q)
    (hl : l.Perm (s.queue y).index) (hstay : y = q → ∀ c, (s.queue q).cursor = some c →
      qFind { s.queue q with index := l } c = qFind (s.queue q) c) : InSync (s.qSort y l) q := by
  by_cases hq : q = y
  · subst hq
    refine ⟨fun c hc => hi.lt c (by simpa [QueueMgr.qSort] using hc),fun c p hc hp => ?_⟩
    simp only [QueueMgr.qSort,setQueue_self] at hc hp ⊢
    obtain ⟨p0,hp0⟩ := List.mem_iff_getElem?.mp (hl.mem_iff.mp (List.mem_of_getElem? hp))
    have hfind := hstay rfl c hc
    rw [qFind_of_mem (v := { s.queue q with index := l }) (hl.nodup_iff.mpr (h.nodup q)) hp,
      qFind_of_mem (h.nodup q) hp0] at hfind
    rw [hi.place c p0 hc hp0]
    exact hfind.symm
  · exact hi.setQueue_other _ hq

theorem InSync.close {s s' : QueueMgr} {q t : Nat} {fstop : Bool} {tags : Meta} {rnd : Nat}
    {ans : List Answer} (h : Ordered s) (hi : InSync s q)
    (hs : s.closeTrack t fstop tags rnd ans = some s') : InSync s' q := by
  have hr : InSync (s.readerClose t) q := by
    unfold readerClose
    dsimp only
    split
    · exact hi.remove _
    · exact hi
  have hsame := sameOrder_closing (s.readerClose t) t tags
  obtain ⟨u,hu,rfl⟩ := (inSync_rule q).close ⟨(h.readerClose t).same hsame,hr.same hsame⟩ hs
  exact hu.2.same (sameOrder_unref _ _)

/-- Every operation that leaves the cursor entry where it is keeps `cursor_index` right. -/
theorem step_inSync (q : Nat) (s : QueueMgr) (a : Op) (s' : QueueMgr)
    (h : Ordered s ∧ InSync s q) (ha : a.filters = false ∧ LeavesCursor q s a)
    (hs : s.step a = some s') : Ordered s' ∧ InSync s' q := by
  obtain ⟨ho,hi⟩ := h
  obtain ⟨hfilter,hleave⟩ := ha
  refine ⟨step_ordered s a s' ho hfilter hs,?_⟩
  have hset (r : Nat → Nat) (l : List Nat) (n : Nat) :
      InSync { s with refs := r, lists := l, selected := n } q := ⟨hi.lt,hi.place⟩
  cases a with
  | create c r a =>
    cases hs
    by_cases hq : q = s.nq
    · subst hq
      refine InSync.empty ?_ fun c hc => ?_ <;> simp_all [qCreate]
    · exact (hi.setQueue_other (y := s.nq) _ hq).congr (Nat.le_refl _) rfl rfl rfl
  | destroy y =>
    obtain ⟨y,-,-,hs⟩ := onQueue_some hs
    cases hs
    exact hi.qDestroy y
  | select pos =>
    cases hs
    split
    · exact hset _ _ _
    · exact hi
  | qselect y =>
    cases hs
    split
    · exact hi
    · exact hset _ _ _
  | conf y c r a =>
    obtain ⟨y,-,-,hs⟩ := onQueue_some hs
    cases hs
    exact hi.same (sameOrder_setQueue s y _ rfl rfl rfl)
  | add y um kind created =>
    obtain ⟨y,-,-,hs⟩ := onQueue_some hs
    cases hs
    exact hi.qAdd
  | insertAt y pos um =>
    simp only [step] at hs
    obtain ⟨z,hz,-,hs⟩ := onQueue_some hs
    simp only [Option.ite_none_right_eq_some,Option.some.injEq] at hs
    obtain ⟨hpos,rfl⟩ := hs
    obtain rfl : y = z := Option.some.inj hz
    exact hi.insert hpos fun hy => hleave.behind (ho.nodup q) rfl hy
  | insert e um =>
    simp only [step,Option.ite_none_right_eq_some,Option.some.injEq] at hs
    obtain ⟨-,rfl⟩ := hs
    exact hi.insertBehind ho hleave rfl
  | clear y =>
    obtain ⟨y,-,-,hs⟩ := onQueue_some hs
    cases hs
    exact hi.qClear y
  | filter y keep => cases hfilter
  | play y e rnd ans =>
    cases e with
    | some e =>
      simp only [step,Option.ite_none_right_eq_some,Option.map_eq_some_iff] at hs
      obtain ⟨he,p,hp,rfl⟩ := hs
      exact ((inSync_rule q).qPlay ⟨ho,hi⟩ (fun z hz => by cases hz; exact he.1) hp).2
    | none =>
      obtain ⟨y,-,-,hs⟩ := onQueue_some hs
      obtain ⟨p,hp,rfl⟩ := Option.map_eq_some_iff.mp hs
      exact ((inSync_rule q).qPlay ⟨ho,hi⟩ (by simp) hp).2
  | playNext y rnd ans =>
    obtain ⟨y,-,-,hs⟩ := onQueue_some hs
    obtain ⟨p,hp,rfl⟩ := Option.map_eq_some_iff.mp hs
    exact ((inSync_rule q).next ⟨ho,hi⟩ hp).2
  | playPrev y rnd ans =>
    obtain ⟨y,-,-,hs⟩ := onQueue_some hs
    obtain ⟨p,hp,rfl⟩ := Option.map_eq_some_iff.mp hs
    exact ((inSync_rule q).prev ⟨ho,hi⟩ hp).2
  | ref y pos =>
    obtain ⟨y,-,-,hs⟩ := onQueue_some hs
    cases hs
    unfold qRef
    split
    · exact hi
    · rename_i e hg
      exact hi.congr (Nat.le_refl _) rfl rfl rfl
  | unref e =>
    simp only [step,Option.ite_none_right_eq_some,Option.some.injEq] at hs
    obtain ⟨-,rfl⟩ := hs
    exact (hset _ _ _).same (sameOrder_unref _ e)
  | removeAt y pos =>
    obtain ⟨y,-,-,hs⟩ := onQueue_some hs
    cases hs
    exact hi.removeAt y pos
  | remove e =>
    simp only [step,Option.ite_none_right_eq_some,Option.some.injEq] at hs
    obtain ⟨-,rfl⟩ := hs
    exact hi.remove e
  | sort y l =>
    obtain ⟨z,hz,-,hs⟩ := onQueue_some hs
    simp only [Option.ite_none_right_eq_some,Option.some.injEq] at hs
    obtain ⟨hl,rfl⟩ := hs
    exact hi.qSort ho hl fun hy c hc => (hleave c hc).2 (hy ▸ hz)
  | readerInsert t um =>
    simp only [step,Option.ite_none_right_eq_some,Option.some.injEq] at hs
    obtain ⟨-,rfl⟩ := hs
    have h1 : InSync (s.qeInsert (s.trk t).quCur um).1 q := hi.insertBehind ho hleave rfl
    unfold QueueMgr.readerInsert
    dsimp only
    have h2 := h1.same (sameOrder_setTrk _ t { (s.qeInsert (s.trk t).quCur um).1.trk t with
      quCur := (s.qeInsert (s.trk t).quCur um).2
      removed := true })
    split
    · exact h2
    · exact h2.remove _
  | close t fstop tags rnd ans =>
    simp only [step,Option.ite_none_right_eq_some] at hs
    exact hi.close ho hs.2

/-- Track `t` plays entry `c`. -/
def Plays (s : QueueMgr) (t c : Nat) : Prop :=
  s.openTrk t ∧ (s.trk t).qent = c ∧ (s.trk t).expands = none ∧ (s.ent c).expand = false

/-- The cursor entry `c` was removed from queue `q` while track `t` plays it, and `cursor_index` is
the position of entry `x`. -/
structure Awaits (s : QueueMgr) (q c x t : Nat) : Prop where
  ordered : Ordered s
  counted : Counted s []
  cursor : (s.queue q).cursor = some c
  gone : (s.ent c).index = -1
  own : (s.ent c).q = q
  plays : Plays s t c
  place : ∃ p : Nat, (s.queue q).index[p]? = some x ∧ (s.queue q).cursorIndex = p

namespace Awaits

variable {s : QueueMgr} {q c x t : Nat}

theorem lt (h : Awaits s q c x t) : c < s.ne := by
  have hused := h.counted.onTrack_used h.plays.1
  rw [h.plays.2.1] at hused
  exact h.counted.inUse hused

theorem unlisted (h : Awaits s q c x t) (y : Nat) : c ∉ (s.queue y).index := fun hm => by
  have := (h.ordered.own hm).2.2
  rw [h.gone] at this
  omega

theorem qeIndex (h : Awaits s q c x t) (e : Nat) : Awaits (s.qeIndex e).1 q c x t := by
  have hent : ((s.qeIndex e).1.ent c).index = -1 ∧ ((s.qeIndex e).1.ent c).q = q ∧
      ((s.qeIndex e).1.ent c).expand = false := by
    rw [qeIndex_fst]
    by_cases he : c = e
    · subst he
      rw [setEnt_self]
      exact ⟨qeIndex_unlisted (h.unlisted _),h.own,h.plays.2.2.2⟩
    · rw [setEnt_of_ne _ he]
      exact ⟨h.gone,h.own,h.plays.2.2.2⟩
  refine ⟨h.ordered.qeIndex e,h.counted.same (sameHolders_qeIndex s e),?_,hent.1,hent.2.1,?_,?_⟩
  · rw [qeIndex_queue]
    exact h.cursor
  · unfold Plays openTrk
    rw [qeIndex_trk,qeIndex_nt]
    exact ⟨h.plays.1,h.plays.2.1,h.plays.2.2.1,hent.2.2⟩
  · rw [qeIndex_queue]
    exact h.place

/-- The parts of the store that `Awaits` reads, after a step that keeps the order. -/
theorem of_same {u s' : QueueMgr} (hord : Ordered s') (hcount : Counted s' [])
    (hsame : SameOrder u s') (hplays : Plays s' t c) (hcur : (u.queue q).cursor = some c)
    (hgone : (u.ent c).index = -1) (hown : (u.ent c).q = q)
    (hplace : ∃ p : Nat, (u.queue q).index[p]? = some x ∧ (u.queue q).cursorIndex = p) :
    Awaits s' q c x t := by
  have hused := hcount.onTrack_used hplays.1
  rw [hplays.2.1] at hused
  refine ⟨hord,hcount,?_,by rw [(hsame.ent c).2,hgone],by rw [(hsame.ent c).1,hown],hplays,?_⟩
  · obtain heq | ⟨-,hfreed⟩ := hsame.cursor q
    · exact heq.trans hcur
    · exact absurd (hcount.not_freed hused) (by simp [hfreed c hcur])
  · rw [hsame.index,hsame.place]
    exact hplace

theorem unref_plays {u : QueueMgr} {e : Nat} (h : Plays u t c) : Plays (u.qeUnref e) t c := by
  refine ⟨?_,?_,?_,?_⟩
  · unfold openTrk
    rw [qeUnref_nt,qeUnref_trk]
    exact h.1
  · rw [qeUnref_trk]
    exact h.2.1
  · rw [qeUnref_trk]
    exact h.2.2.1
  · rw [qeUnref_eq]
    by_cases he : c = e
    · subst he; simpa using h.2.2.2
    · rw [setEnt_of_ne _ he]
      exact h.2.2.2

theorem start_plays {u : QueueMgr} {e : Nat} {k : Option ListKind} (h : Plays u t c) (hce : c ≠ e) :
    Plays (u.startTrack e k) t c := by
  obtain ⟨⟨hlt,hopen⟩,hqent,hexp,hplain⟩ := h
  have htrk : (u.startTrack e k).trk t = u.trk t := by
    simp [startTrack,setTrk_of_ne _ (Nat.ne_of_lt hlt)]
  have hent : (u.startTrack e k).ent c = u.ent c := by simp [startTrack,setEnt_of_ne _ hce]
  unfold Plays openTrk
  rw [htrk,hent]
  exact ⟨⟨Nat.lt_succ_of_lt hlt,hopen⟩,hqent,hexp,hplain⟩

theorem begin_ {p : Nat} (h : Ordered s) (hc : Counted s []) (hi : InSync s q)
    (hcur : (s.queue q).cursor = some c) (hp : (s.queue q).index[p]? = some c)
    (hx : (s.queue q).index[p + 1]? = some x) (hplays : Plays s t c) :
    Awaits (s.qRemoveAt q p).1 q c x t := by
  have hord := h.removeAt q p
  have hcount := hc.removeAt (q := q) (i := p)
  have hplace := hi.place c p hcur hp
  have hlen := (List.getElem?_eq_some_iff.mp hx).1
  unfold qRemoveAt at hord hcount ⊢
  dsimp only at hord hcount ⊢
  rw [qGet_eq_some.mpr ⟨p,rfl,hp⟩] at hord hcount ⊢
  refine of_same hord hcount (sameOrder_unref _ c) (unref_plays ?_) ?_ ?_ ?_ ⟨p,?_,?_⟩
  · exact ⟨hplays.1,hplays.2.1,hplays.2.2.1,by simpa using hplays.2.2.2⟩
  · rw [setQueue_self]
    exact hcur
  · simp
  · simpa using (h.own (List.mem_of_getElem? hp)).2.1
  · rw [setQueue_self]
    exact Positions.eraseIdx_eq_some.mpr ⟨p + 1,by simp,hx,by simp⟩
  · rw [setQueue_self]
    unfold cursorIndexAfterRemove
    dsimp only
    rw [hplace,if_neg (by omega)]

theorem insert (h : Awaits s q c x t) {y pos : Nat} {b : Bool} (hy : y < s.nq)
    (hpos : pos ≤ (s.queue y).index.length)
    (hbehind : y = q → ∀ p : Nat, (s.queue q).index[p]? = some x → p < pos) :
    Awaits (s.qInsert y pos b).1 q c x t := by
  have hne : c ≠ s.ne := by
    have := h.lt
    omega
  have hent : (s.qInsert y pos b).1.ent c = s.ent c := by simp [qInsert,setEnt_of_ne _ hne]
  obtain ⟨p,hp,hplace⟩ := h.place
  refine ⟨h.ordered.insert hpos,h.counted.insert hy hpos,?_,by rw [hent,h.gone],
    by rw [hent,h.own],?_,?_⟩
  · by_cases hq : q = y
    · subst hq
      rw [qInsert_queue]
      exact h.cursor
    · simpa [qInsert,setQueue_of_ne _ hq] using h.cursor
  · exact ⟨h.plays.1,h.plays.2.1,h.plays.2.2.1,by rw [hent]; exact h.plays.2.2.2⟩
  · refine ⟨p,?_⟩
    by_cases hq : q = y
    · subst hq
      rw [qInsert_queue]
      refine ⟨?_,hplace⟩
      have hxne : x ≠ s.ne := by
        have := (h.ordered.own (List.mem_of_getElem? hp)).1
        omega
      exact (Positions.insertIdx_eq_some hpos hxne).mpr ⟨p,hp,by rw [if_pos (hbehind rfl p hp)]⟩
    · simpa [qInsert,setQueue_of_ne _ hq] using And.intro hp hplace

theorem removeAt (h : Awaits s q c x t) {y : Nat} {pos : Int}
    (hx : qGet (s.queue y) pos ≠ some x) : Awaits (s.qRemoveAt y pos).1 q c x t := by
  have hord := h.ordered.removeAt y pos
  have hcount := h.counted.removeAt (q := y) (i := pos)
  unfold qRemoveAt at hord hcount ⊢
  dsimp only at hord hcount ⊢
  cases hg : qGet (s.queue y) pos with
  | none => exact h
  | some e =>
    rw [hg] at hord hcount
    obtain ⟨i,rfl,hget⟩ := qGet_eq_some.mp hg
    have hce : c ≠ e := fun heq => h.unlisted y (heq ▸ List.mem_of_getElem? hget)
    obtain ⟨p,hp,hplace⟩ := h.place
    refine of_same hord hcount (sameOrder_unref _ e) (unref_plays ?_) ?_ ?_ ?_ ?_
    · exact ⟨h.plays.1,h.plays.2.1,h.plays.2.2.1,by simpa [setEnt_of_ne _ hce] using h.plays.2.2.2⟩
    · by_cases hq : q = y
      · subst hq
        rw [setQueue_self]
        exact h.cursor
      · rw [setQueue_of_ne _ hq]
        exact h.cursor
    · rw [setQueue_ent,setEnt_of_ne _ hce]
      exact h.gone
    · rw [setQueue_ent,setEnt_of_ne _ hce]
      exact h.own
    · by_cases hq : q = y
      · subst hq
        have hpi : p ≠ i := fun heq => hx (qGet_eq_some.mpr ⟨p,by rw [heq],hp⟩)
        refine ⟨if p < i then p else p - 1,?_,?_⟩
        · rw [setQueue_self]
          exact Positions.eraseIdx_eq_some.mpr ⟨p,hpi,hp,rfl⟩
        · rw [setQueue_self]
          exact cursorIndexAfterRemove_eq hplace hpi
      · rw [setQueue_of_ne _ hq]
        exact ⟨p,hp,hplace⟩

theorem remove (h : Awaits s q c x t) {e : Nat} (he : e ≠ x) :
    Awaits (s.qeRemove e).1 q c x t := by
  refine (h.qeIndex e).removeAt ?_
  rw [qeIndex_queue]
  intro hg
  by_cases hm : e ∈ (s.queue (s.ent e).q).index
  · obtain ⟨p,hp⟩ := List.mem_iff_getElem?.mp hm
    rw [h.ordered.qeIndex_at hp] at hg
    obtain ⟨p',hpp,hget⟩ := qGet_eq_some.mp hg
    obtain rfl : p = p' := by omega
    exact he (Option.some.inj (hp.symm.trans hget))
  · rw [qeIndex_unlisted hm] at hg
    simp [qGet] at hg

theorem insertBehind (h : Awaits s q c x t) {e : Nat} {b : Bool} (he : e < s.ne)
    (hbehind : (s.ent e).q = q → qFind (s.queue q) x < ((s.qeIndex e).2 + 1).toNat) :
    Awaits (s.qeInsert e b).1 q c x t := by
  have hrange := qeIndex_range s e
  refine (h.qeIndex e).insert ?_ ?_ fun hq p hp => ?_
  · rw [qeIndex_nq]
    exact h.counted.own e he
  · rw [qeIndex_queue]
    omega
  · rw [qeIndex_queue] at hp
    have hfind := hbehind hq
    rw [qFind_of_mem (h.ordered.nodup q) hp] at hfind
    omega

theorem qAdd (h : Awaits s q c x t) {y : Nat} {um : Bool} {kind : Option ListKind} {created : Bool}
    (hy : y < s.nq) : Awaits (s.qAdd y um kind created) q c x t := by
  have hord := h.ordered.qAdd y um kind created
  have hcount := h.counted.qAdd (b := um) (l := kind) (c := created) hy
  have hins := h.insert (b := um) hy (Nat.le_refl (s.queue y).index.length) fun hq p hp =>
    hq ▸ (List.getElem?_eq_some_iff.mp hp).1
  unfold QueueMgr.qAdd qeExpand at hord hcount ⊢
  dsimp only at hord hcount ⊢
  cases kind with
  | none => exact hins
  | some k =>
    cases created with
    | false => exact hins
    | true =>
      simp only [if_true] at hord hcount ⊢
      refine of_same hord hcount (sameOrder_start _ _ _) ?_ hins.cursor hins.gone hins.own hins.place
      exact start_plays hins.plays (Nat.ne_of_lt h.lt)

theorem readerInsert (h : Awaits s q c x t) {t' : Nat} {um : Bool} (ht : s.openTrk t')
    (hbehind : (s.ent (s.trk t').quCur).q = q →
      qFind (s.queue q) x < ((s.qeIndex (s.trk t').quCur).2 + 1).toNat)
    (hx : (s.trk t').removed = false → (s.trk t').qent ≠ x) :
    Awaits (s.readerInsert t' um) q c x t := by
  have h1 := h.insertBehind (b := um) (h.counted.reader t' ht.1) hbehind
  have hnew : (s.qeInsert (s.trk t').quCur um).2 < (s.qeInsert (s.trk t').quCur um).1.ne :=
    Nat.lt_succ_self _
  unfold QueueMgr.readerInsert
  dsimp only
  generalize s.qeInsert (s.trk t').quCur um = p at *
  have htrk (y : Nat) : ((p.1.setTrk t' { p.1.trk t' with quCur := p.2, removed := true }).trk y).qent
      = (p.1.trk y).qent ∧
      ((p.1.setTrk t' { p.1.trk t' with quCur := p.2, removed := true }).trk y).closed =
        (p.1.trk y).closed ∧
      ((p.1.setTrk t' { p.1.trk t' with quCur := p.2, removed := true }).trk y).expands =
        (p.1.trk y).expands := by
    by_cases hy : y = t'
    · subst hy; simp
    · rw [setTrk_of_ne _ hy]
      exact ⟨rfl,rfl,rfl⟩
  have h2 : Awaits (p.1.setTrk t' { p.1.trk t' with quCur := p.2, removed := true }) q c x t := by
    refine ⟨h1.ordered.same (sameOrder_setTrk _ _ _),h1.counted.readsOn t' hnew,h1.cursor,h1.gone,
      h1.own,?_,h1.place⟩
    unfold Plays openTrk
    rw [(htrk t).1,(htrk t).2.1,(htrk t).2.2]
    exact h1.plays
  split
  · exact h2
  · rename_i hrem
    exact h2.remove (hx (by simpa using hrem))

end Awaits

/-- Insertions and removals. -/
def Op.edits : Op → Bool
  | .add _ _ _ _ | .insertAt _ _ _ | .insert _ _ | .removeAt _ _ | .remove _ | .readerInsert _ _ => true
  | _ => false

/-- The entry that an operation removes. -/
def removal (s : QueueMgr) : Op → Option Nat
  | .removeAt q pos => (s.theQueue q).bind fun q => qGet (s.queue q) pos
  | .remove e => some e
  | .readerInsert t _ => if (s.trk t).removed then none else some (s.trk t).qent
  | _ => none

/-- An insertion, or a removal of another entry than `x`. -/
def EditsOthers (x : Nat) (s : QueueMgr) (a : Op) : Prop := a.edits = true ∧ s.removal a ≠ some x

theorem step_awaits {q c x t : Nat} (s : QueueMgr) (a : Op) (s' : QueueMgr)
    (h : Awaits s q c x t) (ha : EditsOthers x s a ∧ s.LeavesPlace q x a)
    (hs : s.step a = some s') : Awaits s' q c x t := by
  obtain ⟨⟨hedit,hother⟩,hbehind,-⟩ := ha
  cases a with
  | add y um kind created =>
    obtain ⟨y,-,hy,hs⟩ := onQueue_some hs
    cases hs
    exact h.qAdd hy.1
  | insertAt y pos um =>
    simp only [step] at hs
    obtain ⟨z,hz,hlive,hs⟩ := onQueue_some hs
    simp only [Option.ite_none_right_eq_some,Option.some.injEq] at hs
    obtain ⟨hpos,rfl⟩ := hs
    obtain rfl : y = z := Option.some.inj hz
    refine h.insert hlive.1 hpos fun hy p hp => ?_
    have hfind := hbehind (y,pos) rfl hy
    rw [qFind_of_mem (h.ordered.nodup q) hp] at hfind
    dsimp only at hfind
    omega
  | insert e um =>
    simp only [step,Option.ite_none_right_eq_some,Option.some.injEq] at hs
    obtain ⟨he,rfl⟩ := hs
    exact h.insertBehind he.1 (hbehind _ rfl)
  | removeAt y pos =>
    obtain ⟨z,hz,-,hs⟩ := onQueue_some hs
    cases hs
    refine h.removeAt fun hg => hother ?_
    simp only [removal,hz,Option.bind_some]
    exact hg
  | remove e =>
    simp only [step,Option.ite_none_right_eq_some,Option.some.injEq] at hs
    obtain ⟨-,rfl⟩ := hs
    exact h.remove fun he => hother (by rw [he]; rfl)
  | readerInsert t' um =>
    simp only [step,Option.ite_none_right_eq_some,Option.some.injEq] at hs
    obtain ⟨⟨ht,-⟩,rfl⟩ := hs
    refine h.readerInsert ht (hbehind _ rfl) fun hrem hx => hother ?_
    simp [removal,hrem,hx]
  | _ => cases hedit

/-- The loop of `q_play()` ends at the end of the queue. -/
theorem playLoop_total {s : QueueMgr} {q e p : Nat} {ans : List Answer} (h : Ordered s)
    (hp : (s.queue q).index[p]? = some e) (hans : (s.queue q).index.length ≤ p + ans.length) :
    ∃ r, s.playLoop q e ans = some r := by
  have hlt := (List.getElem?_eq_some_iff.mp hp).1
  induction ans generalizing s e p with
  | nil => exact absurd hans (by simp; omega)
  | cons a rest ih =>
    have hord := h.setCursor q e
    have hplay := sameOrder_qePlay (s.setCursor q e) e a.created
    have hindex : (((s.setCursor q e).qePlay e a.created).1.queue q).index = (s.queue q).index := by
      rw [hplay.index,setCursor_eq,setQueue_self]
    have hstored : (((s.setCursor q e).qePlay e a.created).1.ent e).index = p := by
      rw [(hplay.ent e).2,setCursor_eq,setQueue_ent,setEnt_self]
      exact h.qeIndex_at hp
    unfold playLoop
    dsimp only
    split
    · exact ⟨_,rfl⟩
    · split
      · exact ⟨_,rfl⟩
      · split
        · exact ⟨_,rfl⟩
        · rename_i e' hg
          rw [hstored] at hg
          obtain ⟨p',hpp,hget⟩ := qGet_eq_some.mp hg
          obtain rfl : p' = p + 1 := by omega
          refine ih (hord.same hplay) hget ?_ (List.getElem?_eq_some_iff.mp hget).1
          rw [hindex]
          simp only [List.length_cons] at hans
          omega

theorem playEntry_total {s : QueueMgr} {q e p : Nat} {a : Answer} {l : List Answer}
    (h : Ordered s) (hp : (s.queue q).index[p]? = some e)
    (hans : (s.queue q).index.length ≤ p + (a :: l).length) :
    ∃ r, s.playEntry q e (a :: l) = some r := by
  unfold playEntry
  split
  · exact playLoop_total h hp hans
  · dsimp only
    split <;> exact ⟨_,rfl⟩

/-- `q_play_next()` goes on at `cursor_index` when the cursor entry was removed. -/
theorem next_at_place {s : QueueMgr} {q c x p n : Nat} {a : Answer} {l : List Answer}
    (h : Ordered s) (hrandom : (s.queue q).random = false) (hcur : (s.queue q).cursor = some c)
    (hgone : (s.ent c).index = -1) (hx : (s.queue q).index[p]? = some x)
    (hplace : (s.queue q).cursorIndex = p)
    (hans : (s.queue q).index.length ≤ l.length + 1) :
    ∃ r, s.qPlayNext q n (a :: l) = some r ∧ Starts s r.1 q x a.created := by
  have hlt := (List.getElem?_eq_some_iff.mp hx).1
  have hown := (h.own (List.mem_of_getElem? hx)).2.1
  have hlook : lookup (s.queue q) (s.queue q).cursorIndex = some x := by
    unfold lookup
    rw [hplace,if_neg (by omega)]
    exact qGet_eq_some.mpr ⟨p,rfl,hx⟩
  have hnext : s.qPlayNext q n (a :: l) = s.playEntry q x (a :: l) := by
    unfold qPlayNext
    rw [playFrom_eq n _ hcur,if_neg (by simp [hgone]),playAt_eq n _ hrandom,hlook]
    dsimp only
    rw [hown]
  obtain ⟨r,hr⟩ := playEntry_total (a := a) (l := l) h hx
    (by simp only [List.length_cons]; omega)
  exact ⟨r,hnext.trans hr,playEntry_starts hown hr⟩

theorem Starts.unref {s s' : QueueMgr} {q x c : Nat} {created : Bool}
    (h : Starts s s' q x created) (hne : x ≠ c) : Starts s (s'.qeUnref c) q x created := by
  have hcur (hc : (s'.queue q).cursor = some x) : ((s'.qeUnref c).queue q).cursor = some x := by
    rw [qeUnref_eq,setEnt_queue]
    by_cases hq : q = (s'.ent c).q
    · subst hq
      rw [setQueue_self]
      simp [hc,hne]
    · rw [setQueue_of_ne _ hq]
      exact hc
  have hent : (s'.qeUnref c).ent x = s'.ent x := by rw [qeUnref_eq,setEnt_of_ne _ hne]; rfl
  unfold Starts at h ⊢
  rw [qeUnref_started,hent]
  by_cases hok : (s.ent x).expand = false ∧ created = true
  · rw [if_pos hok] at h ⊢
    by_cases hconv : (s.queue q).conversion = true
    · rwa [if_pos hconv] at h ⊢
    · rw [if_neg hconv] at h ⊢
      exact ⟨hcur h.1,h.2⟩
  · rw [if_neg hok] at h ⊢
    exact ⟨hcur h.1,h.2⟩

theorem forgetTrack_ent (s : QueueMgr) (e t : Nat) (tags : Meta) (y : Nat) :
    ((s.forgetTrack e t tags).ent y).expand = (s.ent y).expand := by
  rw [forgetTrack_eq]
  split
  · by_cases hy : y = e
    · subst hy; simp
    · simp [setEnt_of_ne _ hy]
  · rfl

theorem forgetTrack_queue (s : QueueMgr) (e t : Nat) (tags : Meta) :
    (s.forgetTrack e t tags).queue = s.queue ∧ (s.forgetTrack e t tags).started = s.started := by
  rw [forgetTrack_eq]
  split <;> exact ⟨rfl,rfl⟩

/-- What `q_play_next()` finds at the end of a track. -/
theorem closing_frame (s : QueueMgr) (t : Nat) (tags : Meta) :
    (s.closing t tags).started = s.started ∧
      (∀ e, ((s.closing t tags).ent e).expand = (s.ent e).expand) ∧
      ∀ q, ((s.closing t tags).queue q).cursor = (s.queue q).cursor ∧
        ((s.closing t tags).queue q).random = (s.queue q).random ∧
        ((s.closing t tags).queue q).conversion = (s.queue q).conversion := by
  obtain ⟨hqueue,hstarted⟩ := forgetTrack_queue s (s.trk t).qent t tags
  refine ⟨hstarted,forgetTrack_ent s _ t tags,fun q => ?_⟩
  unfold closing
  dsimp only
  rw [setTrk_queue,hqueue]
  by_cases hq : q = ((s.forgetTrack (s.trk t).qent t tags).ent (s.trk t).qent).q
  · rw [← hq,setQueue_self]
    exact ⟨rfl,rfl,rfl⟩
  · rw [setQueue_of_ne _ hq,hqueue]
    exact ⟨rfl,rfl,rfl⟩

/-- The end of the track that plays an entry, not stopped by the user. -/
theorem closeTrack_plays {s : QueueMgr} {t c : Nat} (h : Plays s t c) (tags : Meta) (rnd : Nat)
    (ans : List Answer) : s.closeTrack t false tags rnd ans =
      ((s.closing t tags).qPlayNext (s.ent c).q rnd ans).map fun r => r.1.qeUnref c := by
  obtain ⟨-,hqent,hexpands,hplain⟩ := h
  have hreader : s.readerClose t = s := by simp [readerClose,hexpands]
  have hexp := (closing_frame s t tags).2.1 c
  unfold closeTrack
  rw [hreader,qeClose_eq,hqent]
  dsimp only
  rw [hexp,hplain,if_pos (by simp),((sameOrder_closing s t tags).ent c).1]

/-- The entry that stood behind a removed cursor entry is the next one to start, by
`q_play_next()` as well as at the end of the track. -/
theorem Awaits.starts {s : QueueMgr} {q c x t : Nat} {a : Answer} {rest : List Answer}
    (h : Awaits s q c x t) (hrandom : (s.queue q).random = false)
    (hans : (s.queue q).index.length ≤ rest.length + 1) :
    (∀ rnd, ∃ r, s.qPlayNext q rnd (a :: rest) = some r ∧ Starts s r.1 q x a.created) ∧
      ∀ tags rnd, ∃ s', s.closeTrack t false tags rnd (a :: rest) = some s' ∧
        Starts s s' q x a.created := by
  obtain ⟨p,hp,hplace⟩ := h.place
  constructor
  · intro rnd
    exact next_at_place h.ordered hrandom h.cursor h.gone hp hplace hans
  · intro tags rnd
    have hsame := sameOrder_closing s t tags
    obtain ⟨hstarted,hexp,hflags⟩ := closing_frame s t tags
    obtain ⟨hcur,hrand,hconv⟩ := hflags q
    obtain ⟨r,hr,hstart⟩ := next_at_place (n := rnd) (a := a) (l := rest)
      (h.ordered.same hsame) (hrand.trans hrandom) (hcur.trans h.cursor)
      ((hsame.ent c).2.trans h.gone) (by rw [hsame.index]; exact hp)
      (by rw [hsame.place]; exact hplace) (by rw [hsame.index]; exact hans)
    refine ⟨r.1.qeUnref c,?_,?_⟩
    · rw [closeTrack_plays h.plays,h.own,hr]
      rfl
    · refine Starts.unref ?_ fun hxc => h.unlisted q (hxc ▸ List.mem_of_getElem? hp)
      unfold Starts at hstart ⊢
      rwa [hexp,hconv,hstarted] at hstart

/-- `q_play()` makes `cursor_index` right, whatever it was. -/
theorem playEntry_inSync {s : QueueMgr} {q e : Nat} {ans : List Answer} {r : QueueMgr × Int}
    (h : Ordered s) (he : e < s.ne) (hr : s.playEntry q e ans = some r) : InSync r.1 q := by
  have hset (u : QueueMgr) (hu : Ordered u) (hlt : e < u.ne) : InSync (u.setCursor q e) q := by
    rw [setCursor_eq]
    refine ⟨fun c hc => ?_,fun c p hc hp => ?_⟩
    · rw [setQueue_self] at hc
      obtain rfl := Option.some.inj hc
      exact hlt
    · rw [setQueue_self] at hc hp ⊢
      obtain rfl := Option.some.inj hc
      exact hu.qeIndex_at hp
  have hplay (u : QueueMgr) (hu : Ordered u) (hlt : e < u.ne) (c : Bool) :
      Ordered ((u.setCursor q e).qePlay e c).1 ∧ InSync ((u.setCursor q e).qePlay e c).1 q :=
    ⟨(hu.setCursor q e).same (sameOrder_qePlay _ e c),(hset u hu hlt).same (sameOrder_qePlay _ e c)⟩
  unfold playEntry at hr
  split at hr
  · cases ans with
    | nil => cases hr
    | cons a rest =>
      have hfirst := hplay s h he a.created
      unfold playLoop at hr
      dsimp only at hr
      split at hr
      · cases hr; exact hfirst.2
      · split at hr
        · cases hr; exact hfirst.2
        · split at hr
          · cases hr; exact hfirst.2
          · rename_i hg
            exact ((inSync_rule q).loop hfirst ((inSync_rule q).got hfirst hg) hr).2
  · cases ans with
    | nil => cases hr
    | cons a rest =>
      have hstop : SameOrder s (s.stopCursor q) := by
        unfold stopCursor
        split
        · exact SameOrder.refl s
        · exact sameOrder_qeStop s _
      have hlast := hplay _ (h.same hstop) (hstop.ne ▸ he) a.created
      dsimp only at hr
      split at hr <;> cases hr <;> exact hlast.2

/-- The two ways to remove entry `c` of queue `q`, where it stands at position `p`. -/
def Removes (s : QueueMgr) (q c p : Nat) (a : Op) : Prop :=
  a = .remove c ∨ ∃ y, s.theQueue y = some q ∧ a = .removeAt y p

theorem step_removes {s s' : QueueMgr} {q c p : Nat} {a : Op} (h : Ordered s)
    (ha : Removes s q c p a) (hp : (s.queue q).index[p]? = some c) (hs : s.step a = some s') :
    s' = (s.qRemoveAt q p).1 ∨ s' = ((s.qeIndex c).1.qRemoveAt q p).1 := by
  obtain rfl | ⟨y,hy,rfl⟩ := ha
  · simp only [step,Option.ite_none_right_eq_some,Option.some.injEq] at hs
    obtain ⟨-,rfl⟩ := hs
    right
    unfold qeRemove
    dsimp only
    rw [h.qeIndex_at hp,(h.own (List.mem_of_getElem? hp)).2.1]
  · obtain ⟨z,hz,-,hs⟩ := onQueue_some hs
    obtain rfl : q = z := Option.some.inj (hy.symm.trans hz)
    cases hs
    exact .inl rfl

/-- From a state where `cursor_index` is right, entries are inserted only behind the cursor entry
and sorts leave it in its position, until it is removed while track `t` plays it; from then on
entries are inserted only behind its successor `x`, which is not removed. Then `x` is the next
entry to start. -/
theorem successor_starts {as as' bs : List Op} {rem : Op} {m s s1 s2 : QueueMgr} {q c x p t : Nat}
    (hfilter : ∀ a ∈ as ++ as', a.filters = false)
    (hm : Machine.run step init as = some m) (hsync : InSync m q)
    (hleave : Machine.AllSteps step (LeavesCursor q) m as')
    (hs : Machine.run step m as' = some s)
    (hcur : (s.queue q).cursor = some c) (hp : (s.queue q).index[p]? = some c)
    (hx : (s.queue q).index[p + 1]? = some x) (hplays : Plays s t c)
    (hrem : Removes s q c p rem) (hs1 : s.step rem = some s1)
    (hothers : Machine.AllSteps step (EditsOthers x) s1 bs)
    (hbehind : Machine.AllSteps step (fun s a => s.LeavesPlace q x a) s1 bs)
    (hs2 : Machine.run step s1 bs = some s2) (hrandom : (s2.queue q).random = false)
    (a : Answer) (rest : List Answer) (hans : (s2.queue q).index.length ≤ rest.length + 1) :
    (∀ rnd, ∃ r, s2.qPlayNext q rnd (a :: rest) = some r ∧ Starts s2 r.1 q x a.created) ∧
      ∀ tags rnd, ∃ s3, s2.closeTrack t false tags rnd (a :: rest) = some s3 ∧
        Starts s2 s3 q x a.created := by
  have hord := run_ordered (fun a ha => hfilter a (List.mem_append_left _ ha)) hm
  have hcount := run_counted (Machine.run_append_eq_some.mpr ⟨m,hm,hs⟩)
  have hfilters : Machine.AllSteps step (fun _ a => a.filters = false) m as' :=
    Machine.AllSteps.of_forall fun a ha => hfilter a (List.mem_append_right _ ha)
  obtain ⟨ho,hi⟩ := Machine.guarded_invariant (step_inSync q) (hfilters.and hleave) hs ⟨hord,hsync⟩
  have hbegin : Awaits s1 q c x t := by
    obtain rfl | rfl := step_removes ho hrem hp hs1
    · exact Awaits.begin_ ho hcount hi hcur hp hx hplays
    · have hqueue := qeIndex_queue s c
      have hplays' : Plays (s.qeIndex c).1 t c := by
        unfold Plays openTrk
        rw [qeIndex_trk,qeIndex_nt,qeIndex_fst,setEnt_self]
        exact hplays
      exact Awaits.begin_ (ho.qeIndex c) (hcount.same (sameHolders_qeIndex s c)) (hi.qeIndex c)
        (hqueue ▸ hcur) (hqueue ▸ hp) (hqueue ▸ hx) hplays'
  exact (Machine.guarded_invariant step_awaits (hothers.and hbehind) hs2 hbegin).starts hrandom hans

theorem init_inSync (q : Nat) : InSync init q := InSync.empty rfl fun c hc => by cases hc

instance (s : QueueMgr) (q x : Nat) (a : Op) : Decidable (s.LeavesPlace q x a) :=
  @instDecidableAnd _ _ inferInstance (
    match a with
    | .sort y l => inferInstanceAs (Decidable (s.theQueue y = some q →
        qFind { s.queue q with index := l } x = qFind (s.queue q) x))
    | .destroy _ | .create _ _ _ | .select _ | .qselect _ | .conf _ _ _ _ | .add _ _ _ _
    | .insertAt _ _ _ | .insert _ _ | .clear _ | .filter _ _ | .play _ _ _ _ | .playNext _ _ _
    | .playPrev _ _ _ | .ref _ _ | .unref _ | .removeAt _ _ | .remove _ | .readerInsert _ _
    | .close _ _ _ _ _ => instDecidableTrue)

instance (q : Nat) (s : QueueMgr) (a : Op) : Decidable (LeavesCursor q s a) :=
  inferInstanceAs (Decidable (∀ c ∈ (s.queue q).cursor, _))

instance (x : Nat) (s : QueueMgr) (a : Op) : Decidable (EditsOthers x s a) :=
  inferInstanceAs (Decidable (_ ∧ _))

instance (s : QueueMgr) (t c : Nat) : Decidable (Plays s t c) := inferInstanceAs (Decidable (_ ∧ _))

/-- Four files, the second one plays, and the first one is removed. -/
def fourFiles : List Op :=
  [.create false false false,.add none false none false,.add none false none false,
    .add none false none false,.add none false none false,.play none (some 1) 0 [⟨true,true⟩],
    .removeAt none 0]

/-- The store with the four files, and the one after the removal of the file that plays. -/
def fourPlaying : QueueMgr := (Machine.run step init fourFiles).getD init

def threeLeft : QueueMgr := (step fourPlaying (.remove 1)).getD init

theorem successor_starts_four_files : ∃ s1 s2 r,
    Machine.run step init (fourFiles ++ [Op.remove 1]) = some s1 ∧
      Machine.run step s1 [.insert 2 false,.removeAt none 2] = some s2 ∧
      s2.qPlayNext 0 0 [⟨true,true⟩,⟨true,true⟩] = some r ∧ Starts s2 r.1 0 2 true := by
  have hempty : Machine.run step init [] = some init := rfl
  have hfour : Machine.run step init fourFiles = some fourPlaying := rfl
  have hremove : step fourPlaying (.remove 1) = some threeLeft := rfl
  have hedits : Machine.run step threeLeft [.insert 2 false,.removeAt none 2] = some _ := rfl
  have hstarts := successor_starts (q := 0) (c := 1) (x := 2) (p := 0) (t := 0)
    (by decide) hempty (init_inSync 0) (by decide) hfour rfl rfl rfl (by decide) (.inl rfl) hremove
    (by decide) (by decide) hedits rfl ⟨true,true⟩ [⟨true,true⟩] (by decide)
  obtain ⟨r,hr,hs⟩ := hstarts.1 0
  exact ⟨_,_,r,rfl,rfl,hr,hs⟩

/-- A file is inserted before the one that plays, which is then removed: the new file is next. -/
theorem insertion_before_cursor : ¬ ∀ as rem bs s s1 s2 q c x p t a rest,
    (∀ a ∈ as, a.filters = false) → Machine.run step init as = some s →
    (s.queue q).cursor = some c → (s.queue q).index[p]? = some c →
    (s.queue q).index[p + 1]? = some x → Plays s t c → Removes s q c p rem →
    s.step rem = some s1 → Machine.AllSteps step (EditsOthers x) s1 bs →
    Machine.run step s1 bs = some s2 → (s2.queue q).random = false →
    (s2.queue q).index.length ≤ rest.length + 1 →
    ∃ r, s2.qPlayNext q 0 (a :: rest) = some r ∧ Starts s2 r.1 q x a.created := by
  intro h
  have hfilter : ∀ a ∈ fourFiles ++ [Op.play none (some 2) 0 [⟨true,true⟩],Op.insert 1 false],
    a.filters = false := by decide
  obtain ⟨r,hr,hs⟩ := h _ (.remove 2) [] _ _ _ 0 2 3 2 1 ⟨true,true⟩ [⟨true,true⟩,⟨true,true⟩] hfilter
    rfl rfl rfl rfl (by decide) (.inl rfl) rfl trivial rfl rfl (by decide)
  cases hr
  exact absurd (hs.cursor rfl) (by decide)

end QueueMgr

end Phiola
