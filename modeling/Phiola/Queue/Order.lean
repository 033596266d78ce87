import Phiola.Queue.RefCount

/-!
# The order of a queue

Without filtered queues an entry stands in one queue only, the one that it points to, and there
only once. Its stored index is a guess that `qe_index()` corrects; it is `~0U` only after the entry
was removed.
-/

namespace Phiola

namespace QueueMgr

/-- Every entry stands once and in its own queue, and has an index while it stands there. -/
structure Ordered (s : QueueMgr) : Prop where
  nodup : ∀ q, (s.queue q).index.Nodup
  own : ∀ {q e}, e ∈ (s.queue q).index → e < s.ne ∧ (s.ent e).q = q ∧ 0 ≤ (s.ent e).index

/-- The lists, the places of the cursors and the stored indexes are the same; a cursor may have
been lost with its entry. -/
structure SameOrder (s s' : QueueMgr) : Prop where
  ne : s'.ne = s.ne
  index : ∀ q, (s'.queue q).index = (s.queue q).index
  place : ∀ q, (s'.queue q).cursorIndex = (s.queue q).cursorIndex
  cursor : ∀ q, (s'.queue q).cursor = (s.queue q).cursor ∨ (s'.queue q).cursor = none ∧
    ∀ c, (s.queue q).cursor = some c → (s'.ent c).freed = true
  ent : ∀ e, (s'.ent e).q = (s.ent e).q ∧ (s'.ent e).index = (s.ent e).index
  freed : ∀ e, (s.ent e).freed = true → (s'.ent e).freed = true

theorem SameOrder.refl (s : QueueMgr) : SameOrder s s :=
  ⟨rfl,fun _ => rfl,fun _ => rfl,fun _ => .inl rfl,fun _ => ⟨rfl,rfl⟩,fun _ => id⟩

theorem SameOrder.trans {s t u : QueueMgr} (h : SameOrder s t) (h' : SameOrder t u) :
    SameOrder s u where
  ne := h'.ne.trans h.ne
  index q := (h'.index q).trans (h.index q)
  place q := (h'.place q).trans (h.place q)
  cursor q := by
    obtain hs | ⟨hn,hs⟩ := h.cursor q <;> obtain ht | ⟨hm,ht⟩ := h'.cursor q
    · exact .inl (ht.trans hs)
    · exact .inr ⟨hm,fun c hc => ht c (hs.trans hc)⟩
    · exact .inr ⟨ht.trans hn,fun c hc => h'.freed c (hs c hc)⟩
    · exact .inr ⟨hm,fun c hc => h'.freed c (hs c hc)⟩
  ent e := ⟨(h'.ent e).1.trans (h.ent e).1,(h'.ent e).2.trans (h.ent e).2⟩
  freed e he := h'.freed e (h.freed e he)

theorem Ordered.same {s s' : QueueMgr} (ho : Ordered s) (h : SameOrder s s') : Ordered s' where
  nodup q := h.index q ▸ ho.nodup q
  own {q e} he := by
    rw [h.ne,(h.ent e).1,(h.ent e).2]
    exact ho.own (h.index q ▸ he)

theorem sameOrder_setQueue (s : QueueMgr) (q : Nat) (v : PhiQueue)
    (hi : v.index = (s.queue q).index) (hp : v.cursorIndex = (s.queue q).cursorIndex)
    (hc : v.cursor = (s.queue q).cursor) : SameOrder s (s.setQueue q v) := by
  refine ⟨rfl,fun y => ?_,fun y => ?_,fun y => .inl ?_,fun _ => ⟨rfl,rfl⟩,fun _ => id⟩
  all_goals
    by_cases hy : y = q
    · subst hy
      rw [setQueue_self]
      assumption
    · rw [setQueue_of_ne v hy]

theorem sameOrder_setEnt (s : QueueMgr) (e : Nat) (x : QEntry) (hq : x.q = (s.ent e).q)
    (hi : x.index = (s.ent e).index) (hf : (s.ent e).freed = true → x.freed = true) :
    SameOrder s (s.setEnt e x) := by
  refine ⟨rfl,fun _ => rfl,fun _ => rfl,fun _ => .inl rfl,fun y => ?_,fun y => ?_⟩
  all_goals
    by_cases hy : y = e
    · subst hy
      rw [setEnt_self]
      first | exact ⟨hq,hi⟩ | exact hf
    · rw [setEnt_of_ne x hy]
      first | exact ⟨rfl,rfl⟩ | exact id

theorem sameOrder_setTrk (s : QueueMgr) (t : Nat) (x : QTrack) : SameOrder s (s.setTrk t x) :=
  ⟨rfl,fun _ => rfl,fun _ => rfl,fun _ => .inl rfl,fun _ => ⟨rfl,rfl⟩,fun _ => id⟩

theorem sameOrder_unref (s : QueueMgr) (e : Nat) : SameOrder s (s.qeUnref e) := by
  rw [qeUnref_eq]
  have hent := sameOrder_setEnt s e { s.ent e with
    used := (s.ent e).used - 1
    freed := (s.ent e).freed || (s.ent e).used - 1 == 0 } rfl rfl (by simp +contextual)
  refine ⟨rfl,fun y => ?_,fun y => ?_,fun y => ?_,hent.ent,hent.freed⟩
  · by_cases hy : y = (s.ent e).q
    · subst hy; simp
    · rw [setEnt_queue,setQueue_of_ne _ hy]
  · by_cases hy : y = (s.ent e).q
    · subst hy; simp
    · rw [setEnt_queue,setQueue_of_ne _ hy]
  · by_cases hy : y = (s.ent e).q
    · subst hy
      simp only [setEnt_queue,setQueue_self]
      split
      · rename_i hlost
        refine .inr ⟨rfl,fun c hc => ?_⟩
        obtain rfl : e = c := Option.some.inj (hlost.2.symm.trans hc)
        simp [hlost.1]
      · exact .inl rfl
    · rw [setEnt_queue,setQueue_of_ne _ hy]
      exact .inl rfl

theorem sameOrder_foldl_unref (l : List Nat) (s : QueueMgr) : SameOrder s (l.foldl qeUnref s) := by
  induction l generalizing s with
  | nil => exact SameOrder.refl s
  | cons e l ih => exact (sameOrder_unref s e).trans (ih _)

theorem sameOrder_qeStop (s : QueueMgr) (e : Nat) : SameOrder s (s.qeStop e) := by
  unfold qeStop
  split
  · exact SameOrder.refl s
  · exact sameOrder_setTrk s _ _

theorem sameOrder_start (s : QueueMgr) (e : Nat) (k : Option ListKind) :
    SameOrder s (s.startTrack e k) := by
  have hset := sameOrder_setEnt s e { s.ent e with
    trk := some s.nt
    used := (s.ent e).used + 1
    expand := (s.ent e).expand || k.isSome } rfl rfl id
  have hq := hset.trans (sameOrder_setQueue _ (s.ent e).q { s.queue (s.ent e).q with
    activeN := (s.queue (s.ent e).q).activeN + 1 } rfl rfl rfl)
  exact ⟨hq.ne,hq.index,hq.place,hq.cursor,hq.ent,hq.freed⟩

theorem sameOrder_qePlay (s : QueueMgr) (e : Nat) (c : Bool) : SameOrder s (s.qePlay e c).1 := by
  unfold qePlay
  dsimp only
  split
  · exact sameOrder_setEnt s e _ rfl rfl id
  · split
    · have h := sameOrder_start s e none
      exact ⟨h.ne,h.index,h.place,h.cursor,h.ent,h.freed⟩
    · exact SameOrder.refl s

theorem sameOrder_forgetTrack (s : QueueMgr) (e t : Nat) (tags : Meta) :
    SameOrder s (s.forgetTrack e t tags) := by
  rw [forgetTrack_eq]
  split
  · refine (sameOrder_setEnt s e _ ?_ ?_ ?_).trans (sameOrder_setTrk _ t _)
    · rfl
    · rfl
    · exact id
  · exact SameOrder.refl s

theorem sameOrder_closing (s : QueueMgr) (t : Nat) (tags : Meta) :
    SameOrder s (s.closing t tags) := by
  refine (sameOrder_forgetTrack s (s.trk t).qent t tags).trans ?_
  refine (sameOrder_setQueue _ _ _ ?_ ?_ ?_).trans (sameOrder_setTrk _ t _) <;> rfl

theorem qGet_eq_some {v : PhiQueue} {i : Int} {e : Nat} :
    qGet v i = some e ↔ ∃ p : Nat, i = p ∧ v.index[p]? = some e := by
  unfold qGet
  constructor
  · intro h
    split at h
    · exact ⟨i.toNat,by omega,h⟩
    · cases h
  · rintro ⟨p,rfl,h⟩
    rw [if_pos (Int.natCast_nonneg p)]
    simpa using h

theorem qFind_of_mem {v : PhiQueue} {e p : Nat} (hn : v.index.Nodup)
    (hp : v.index[p]? = some e) : qFind v e = p := by
  obtain ⟨hlt,hget⟩ := List.getElem?_eq_some_iff.mp hp
  have hidx : v.index.idxOf? e = some p := by
    refine List.idxOf?_eq_some_iff.mpr ⟨hlt,by simp [hget],fun j hj => ?_⟩
    intro heq
    have := (List.Nodup.getElem_inj_iff hn).mp (heq.trans hget.symm)
    omega
  unfold qFind
  rw [hidx]

theorem qFind_of_not_mem {v : PhiQueue} {e : Nat} (he : e ∉ v.index) : qFind v e = -1 := by
  unfold qFind
  rw [List.idxOf?_eq_none_iff.mpr he]

/-- `qe_index()` finds an entry where it stands. -/
theorem qeIndex_listed {s : QueueMgr} {q e p : Nat} (hq : (s.ent e).q = q)
    (hn : (s.queue q).index.Nodup) (hp : (s.queue q).index[p]? = some e) :
    (s.qeIndex e).2 = p := by
  have hfind := qFind_of_mem hn hp
  unfold qeIndex
  dsimp only
  rw [hq]
  split
  · rename_i hg
    obtain ⟨i,hi,hget⟩ := qGet_eq_some.mp hg
    dsimp only
    rw [hi]
    have hlt := (List.getElem?_eq_some_iff.mp hget).1
    rw [(List.getElem?_inj hlt hn).mp (hget.trans hp.symm)]
  · exact hfind

theorem Ordered.qeIndex_at {s : QueueMgr} (h : Ordered s) {q e p : Nat}
    (hp : (s.queue q).index[p]? = some e) : (s.qeIndex e).2 = p :=
  qeIndex_listed (h.own (List.mem_of_getElem? hp)).2.1 (h.nodup q) hp

theorem qeIndex_unlisted {s : QueueMgr} {e : Nat} (he : e ∉ (s.queue (s.ent e).q).index) :
    (s.qeIndex e).2 = -1 := by
  unfold qeIndex
  dsimp only
  split
  · rename_i hg
    exact absurd (mem_of_qGet hg) he
  · exact qFind_of_not_mem he

/-- `qe_index()` stores what it returns. -/
theorem qeIndex_stored (s : QueueMgr) (e : Nat) :
    ((s.qeIndex e).1.ent e).index = (s.qeIndex e).2 := by
  unfold qeIndex
  dsimp only
  split
  · rfl
  · simp

theorem qeIndex_ent (s : QueueMgr) (e y : Nat) : ((s.qeIndex e).1.ent y).q = (s.ent y).q ∧
    (y ≠ e → (s.qeIndex e).1.ent y = s.ent y) := by
  unfold qeIndex
  dsimp only
  split
  · exact ⟨rfl,fun _ => rfl⟩
  · by_cases hy : y = e
    · subst hy; simp
    · simp [setEnt_of_ne _ hy]

/-- `qe_index()` as one record update. -/
theorem qeIndex_fst (s : QueueMgr) (e : Nat) :
    (s.qeIndex e).1 = s.setEnt e { s.ent e with index := (s.qeIndex e).2 } := by
  unfold qeIndex
  dsimp only
  split
  · simp [setEnt,Function.update_eq_self]
  · rfl

theorem qeIndex_setQueue (s : QueueMgr) (q e : Nat) (v : PhiQueue)
    (hv : v.index = (s.queue q).index) : ((s.setQueue q v).qeIndex e).2 = (s.qeIndex e).2 := by
  have hlist : ((s.setQueue q v).queue (s.ent e).q).index = (s.queue (s.ent e).q).index := by
    by_cases hq : (s.ent e).q = q
    · rw [hq]; simpa using hv
    · rw [setQueue_of_ne v hq]
  have hget (i : Int) : qGet ((s.setQueue q v).queue (s.ent e).q) i =
      qGet (s.queue (s.ent e).q) i := by
    unfold qGet
    rw [hlist]
  have hfind : qFind ((s.setQueue q v).queue (s.ent e).q) e = qFind (s.queue (s.ent e).q) e := by
    unfold qFind
    rw [hlist]
  unfold qeIndex
  dsimp only
  rw [setQueue_ent,hget,hfind]
  split <;> rfl

/-- The move of the cursor as one record update of the entry and one of the queue. -/
theorem setCursor_eq (s : QueueMgr) (q e : Nat) : s.setCursor q e =
    (s.setEnt e { s.ent e with index := (s.qeIndex e).2 }).setQueue q { s.queue q with
      cursor := some e
      cursorIndex := (s.qeIndex e).2 } := by
  have hidx := qeIndex_setQueue s q e { s.queue q with cursor := some e } rfl
  unfold setCursor
  dsimp only
  rw [qeIndex_queue,setQueue_self,qeIndex_fst,hidx]
  simp [setQueue,setEnt]

theorem Ordered.qeIndex {s : QueueMgr} (h : Ordered s) (e : Nat) : Ordered (s.qeIndex e).1 := by
  refine ⟨fun q => by rw [qeIndex_queue]; exact h.nodup q,fun {q y} hy => ?_⟩
  rw [qeIndex_queue] at hy
  rw [qeIndex_ne,(qeIndex_ent s e y).1]
  obtain ⟨hlt,hq,hpos⟩ := h.own hy
  refine ⟨hlt,hq,?_⟩
  by_cases he : y = e
  · subst he
    obtain ⟨p,hp⟩ := List.mem_iff_getElem?.mp hy
    rw [qeIndex_stored,h.qeIndex_at hp]
    omega
  · rw [(qeIndex_ent s e y).2 he]
    exact hpos

theorem Ordered.setQueue {s : QueueMgr} (h : Ordered s) {q : Nat} {v : PhiQueue}
    (hv : v.index = (s.queue q).index) : Ordered (s.setQueue q v) := by
  have hlist (y : Nat) : ((s.setQueue q v).queue y).index = (s.queue y).index := by
    by_cases hy : y = q
    · subst hy; simpa using hv
    · rw [setQueue_of_ne v hy]
  refine ⟨fun y => hlist y ▸ h.nodup y,fun {y e} he => ?_⟩
  rw [hlist] at he
  exact h.own he

theorem Ordered.setCursor {s : QueueMgr} (h : Ordered s) (q e : Nat) : Ordered (s.setCursor q e) :=
  Ordered.setQueue (v := { ((s.setQueue q { s.queue q with cursor := some e }).qeIndex e).1.queue q
    with cursorIndex := ((s.setQueue q { s.queue q with cursor := some e }).qeIndex e).2 })
    ((h.setQueue (v := { s.queue q with cursor := some e }) rfl).qeIndex e) rfl

theorem ordered_rule : PlayRule Ordered fun _ _ => True where
  got _ _ := trivial
  index h := h.qeIndex _
  split h := h.setQueue rfl
  stop h := ⟨h.same (sameOrder_qeStop _ _),fun _ _ => trivial⟩
  cursor h _ := ⟨h.setCursor _ _,trivial⟩
  play h _ := h.same (sameOrder_qePlay _ _ _)

/-- `q_insert()` lists an entry that was in no list. -/
theorem Ordered.insert {s : QueueMgr} (h : Ordered s) {q pos : Nat} {b : Bool}
    (hpos : pos ≤ (s.queue q).index.length) : Ordered (s.qInsert q pos b).1 := by
  have hperm := List.perm_insertIdx s.ne (s.queue q).index hpos
  have hnew (y : Nat) : s.ne ∉ (s.queue y).index := fun hm => by
    have := (h.own hm).1
    omega
  have hq : ((s.qInsert q pos b).1.queue q).index = (s.queue q).index.insertIdx pos s.ne := by
    simp [qInsert]
  have hother {y : Nat} (hy : y ≠ q) : (s.qInsert q pos b).1.queue y = s.queue y := by
    simp [qInsert,setQueue_of_ne _ hy]
  refine ⟨fun y => ?_,fun {y e} he => ?_⟩
  · by_cases hy : y = q
    · subst hy
      rw [hq,hperm.nodup_iff]
      exact List.nodup_cons.mpr ⟨hnew y,h.nodup y⟩
    · rw [hother hy]
      exact h.nodup y
  · have hmem : e = s.ne ∧ y = q ∨ e ∈ (s.queue y).index := by
      by_cases hy : y = q
      · subst hy
        rw [hq,hperm.mem_iff,List.mem_cons] at he
        exact he.imp_left fun h => ⟨h,rfl⟩
      · exact .inr (hother hy ▸ he)
    obtain ⟨rfl,rfl⟩ | hold := hmem
    · simp [qInsert]
    · have hne : e ≠ s.ne := fun heq => hnew y (heq ▸ hold)
      obtain ⟨hlt,hown,hidx⟩ := h.own hold
      simp only [qInsert,setQueue_ent,setEnt_of_ne _ hne]
      exact ⟨by omega,hown,hidx⟩

theorem Ordered.setEnt {s : QueueMgr} (h : Ordered s) {e : Nat} (x : QEntry)
    (he : ∀ q, e ∉ (s.queue q).index) : Ordered (s.setEnt e x) := by
  refine ⟨h.nodup,fun {q y} hy => ?_⟩
  have hy : y ∈ (s.queue q).index := hy
  have hne : y ≠ e := fun heq => he q (heq ▸ hy)
  rw [setEnt_of_ne x hne]
  exact h.own hy

/-- Some of the entries of queue `q`, in any order. -/
theorem Ordered.subperm {s : QueueMgr} (h : Ordered s) {q : Nat} {v : PhiQueue}
    (hv : v.index.Subperm (s.queue q).index) : Ordered (s.setQueue q v) := by
  refine ⟨fun y => ?_,fun {y e} he => ?_⟩
  · by_cases hy : y = q
    · subst hy
      rw [setQueue_self]
      obtain ⟨l,hperm,hsub⟩ := hv
      exact hperm.nodup_iff.mp ((h.nodup y).sublist hsub)
    · rw [setQueue_of_ne v hy]
      exact h.nodup y
  · by_cases hy : y = q
    · subst hy
      rw [setQueue_self] at he
      exact h.own (hv.subset he)
    · rw [setQueue_of_ne v hy] at he
      exact h.own he

theorem Ordered.removeAt {s : QueueMgr} (h : Ordered s) (q : Nat) (pos : Int) :
    Ordered (s.qRemoveAt q pos).1 := by
  unfold qRemoveAt
  dsimp only
  split
  · exact h
  · rename_i e hg
    obtain ⟨p,rfl,hp⟩ := qGet_eq_some.mp hg
    obtain ⟨hlt,hget⟩ := List.getElem?_eq_some_iff.mp hp
    refine Ordered.same ?_ (sameOrder_unref _ e)
    have hgone : e ∉ (s.queue q).index.eraseIdx p := by
      have hn := (List.getElem_cons_eraseIdx_perm hlt).nodup_iff.mpr (h.nodup q)
      rw [hget] at hn
      exact (List.nodup_cons.mp hn).1
    have hsub := h.subperm (q := q) (v := { s.queue q with
      cursorIndex := cursorIndexAfterRemove (s.queue q) p
      index := (s.queue q).index.eraseIdx p }) (List.eraseIdx_sublist _ _).subperm
    refine hsub.setEnt { s.ent e with index := -1 } fun y hy => ?_
    by_cases hyq : y = q
    · subst hyq
      rw [setQueue_self] at hy
      exact hgone hy
    · rw [setQueue_of_ne _ hyq] at hy
      exact hyq ((h.own hy).2.1.symm.trans (h.own (List.mem_of_getElem? hp)).2.1)

theorem Ordered.remove {s : QueueMgr} (h : Ordered s) (e : Nat) : Ordered (s.qeRemove e).1 :=
  (h.qeIndex e).removeAt _ _

theorem Ordered.insertBehind {s : QueueMgr} (h : Ordered s) (e : Nat) (um : Bool) :
    Ordered (s.qeInsert e um).1 := by
  have hi := qeIndex_range s e
  refine (h.qeIndex e).insert ?_
  rw [qeIndex_queue]
  omega

theorem Ordered.qAdd {s : QueueMgr} (h : Ordered s) (q : Nat) (um : Bool) (kind : Option ListKind)
    (created : Bool) : Ordered (s.qAdd q um kind created) := by
  have hins := h.insert (b := um) (Nat.le_refl (s.queue q).index.length)
  unfold QueueMgr.qAdd qeExpand
  dsimp only
  split
  · exact hins
  · split
    · exact hins.same (sameOrder_start _ _ _)
    · exact hins

theorem Ordered.qClear {s : QueueMgr} (h : Ordered s) (q : Nat) : Ordered (s.qClear q) := by
  have hfold (l : List Nat) (u : QueueMgr) (hu : Ordered u)
      (hl : ∀ e ∈ l, ∀ y, e ∉ (u.queue y).index) :
      Ordered (l.foldl (fun s e => (s.setEnt e { s.ent e with index := -1 }).qeUnref e) u) := by
    induction l generalizing u with
    | nil => exact hu
    | cons e l ih =>
      have hset := hu.setEnt { u.ent e with index := -1 } (hl e List.mem_cons_self)
      have hsame := sameOrder_unref (u.setEnt e { u.ent e with index := -1 }) e
      refine ih _ (hset.same hsame) fun z hz y => ?_
      rw [hsame.index]
      exact hl z (List.mem_cons_of_mem e hz) y
  refine hfold _ _ (h.subperm (List.nil_subperm)) fun e he y hy => ?_
  by_cases hyq : y = q
  · subst hyq; simp at hy
  · rw [setQueue_of_ne _ hyq] at hy
    exact hyq ((h.own hy).2.1.symm.trans (h.own he).2.1)

theorem Ordered.qDestroy {s : QueueMgr} (h : Ordered s) (q : Nat) : Ordered (s.qDestroy q) := by
  have h1 : Ordered { s with lists := s.lists.erase q } := ⟨h.nodup,h.own⟩
  rw [qDestroy_eq]
  exact (h1.subperm List.nil_subperm).same (sameOrder_foldl_unref _ _)

theorem Ordered.readerInsert {s : QueueMgr} (h : Ordered s) (t : Nat) (um : Bool) :
    Ordered (s.readerInsert t um) := by
  have h1 := h.insertBehind (s.trk t).quCur um
  have h2 := h1.same (sameOrder_setTrk _ t { (s.qeInsert (s.trk t).quCur um).1.trk t with
    quCur := (s.qeInsert (s.trk t).quCur um).2
    removed := true })
  unfold QueueMgr.readerInsert
  dsimp only
  split
  · exact h2
  · exact h2.remove _

theorem Ordered.readerClose {s : QueueMgr} (h : Ordered s) (t : Nat) :
    Ordered (s.readerClose t) := by
  unfold QueueMgr.readerClose
  dsimp only
  split
  · exact h.remove _
  · exact h

theorem Ordered.close {s s' : QueueMgr} {t : Nat} {fstop : Bool} {tags : Meta} {rnd : Nat}
    {ans : List Answer} (h : Ordered s) (hs : s.closeTrack t fstop tags rnd ans = some s') :
    Ordered s' := by
  obtain ⟨u,hu,rfl⟩ := ordered_rule.close ((h.readerClose t).same (sameOrder_closing _ t tags)) hs
  exact hu.same (sameOrder_unref _ _)

/-- A filtered queue is made. -/
def Op.filters : Op → Bool
  | .filter _ _ => true
  | _ => false

theorem step_ordered (s : QueueMgr) (a : Op) (s' : QueueMgr) (h : Ordered s)
    (ha : a.filters = false) (hs : s.step a = some s') : Ordered s' := by
  have hset (r : Nat → Nat) (l : List Nat) (n : Nat) :
      Ordered { s with refs := r, lists := l, selected := n } := ⟨h.nodup,h.own⟩
  cases a with
  | create c r a =>
    cases hs
    have hnew := h.subperm (q := s.nq) (v := ⟨c,r,a,[],none,0,0,false,false⟩)
      List.nil_subperm
    exact ⟨hnew.nodup,hnew.own⟩
  | destroy q =>
    obtain ⟨y,-,-,hs⟩ := onQueue_some hs
    cases hs
    exact h.qDestroy y
  | select pos =>
    cases hs
    split
    · exact hset _ _ _
    · exact h
  | qselect q =>
    cases hs
    split
    · exact h
    · exact hset _ _ _
  | conf q c r a =>
    obtain ⟨y,-,-,hs⟩ := onQueue_some hs
    cases hs
    exact h.setQueue rfl
  | add q um kind created =>
    obtain ⟨y,-,-,hs⟩ := onQueue_some hs
    cases hs
    exact h.qAdd y um kind created
  | insertAt q pos um =>
    simp only [step] at hs
    obtain ⟨y,-,-,hs⟩ := onQueue_some hs
    simp only [Option.ite_none_right_eq_some,Option.some.injEq] at hs
    obtain ⟨hpos,rfl⟩ := hs
    exact h.insert hpos
  | insert e um =>
    simp only [step,Option.ite_none_right_eq_some,Option.some.injEq] at hs
    obtain ⟨-,rfl⟩ := hs
    exact h.insertBehind e um
  | clear q =>
    obtain ⟨y,-,-,hs⟩ := onQueue_some hs
    cases hs
    exact h.qClear y
  | filter q keep => cases ha
  | play q e rnd ans =>
    cases e with
    | some e =>
      simp only [step,Option.ite_none_right_eq_some,Option.map_eq_some_iff] at hs
      obtain ⟨-,p,hp,rfl⟩ := hs
      exact ordered_rule.qPlay h (fun _ _ => trivial) hp
    | none =>
      obtain ⟨y,-,-,hs⟩ := onQueue_some hs
      obtain ⟨p,hp,rfl⟩ := Option.map_eq_some_iff.mp hs
      exact ordered_rule.qPlay h (by simp) hp
  | playNext q rnd ans =>
    obtain ⟨y,-,-,hs⟩ := onQueue_some hs
    obtain ⟨p,hp,rfl⟩ := Option.map_eq_some_iff.mp hs
    exact ordered_rule.next h hp
  | playPrev q rnd ans =>
    obtain ⟨y,-,-,hs⟩ := onQueue_some hs
    obtain ⟨p,hp,rfl⟩ := Option.map_eq_some_iff.mp hs
    exact ordered_rule.prev h hp
  | ref q pos =>
    obtain ⟨y,-,-,hs⟩ := onQueue_some hs
    cases hs
    unfold qRef
    split
    · exact h
    · rename_i e hg
      have hr := h.same (sameOrder_setEnt s e { s.ent e with used := (s.ent e).used + 1 } rfl rfl id)
      exact ⟨hr.nodup,hr.own⟩
  | unref e =>
    simp only [step,Option.ite_none_right_eq_some,Option.some.injEq] at hs
    obtain ⟨-,rfl⟩ := hs
    exact (hset _ _ _).same (sameOrder_unref _ e)
  | removeAt q pos =>
    obtain ⟨y,-,-,hs⟩ := onQueue_some hs
    cases hs
    exact h.removeAt y pos
  | remove e =>
    simp only [step,Option.ite_none_right_eq_some,Option.some.injEq] at hs
    obtain ⟨-,rfl⟩ := hs
    exact h.remove e
  | sort q l =>
    obtain ⟨y,-,-,hs⟩ := onQueue_some hs
    simp only [Option.ite_none_right_eq_some,Option.some.injEq] at hs
    obtain ⟨hl,rfl⟩ := hs
    exact h.subperm hl.subperm
  | readerInsert t um =>
    simp only [step,Option.ite_none_right_eq_some,Option.some.injEq] at hs
    obtain ⟨-,rfl⟩ := hs
    exact h.readerInsert t um
  | close t fstop tags rnd ans =>
    simp only [step,Option.ite_none_right_eq_some] at hs
    exact h.close hs.2

theorem init_ordered : Ordered init := by
  refine ⟨fun q => List.nodup_nil,fun {q e} he => ?_⟩
  cases he

theorem run_ordered {as : List Op} {s : QueueMgr} (hfilter : ∀ a ∈ as, a.filters = false)
    (hrun : Machine.run step init as = some s) : Ordered s :=
  Machine.guarded_invariant (C := fun _ a => a.filters = false) step_ordered
    (Machine.AllSteps.of_forall hfilter) hrun init_ordered

end QueueMgr

end Phiola
