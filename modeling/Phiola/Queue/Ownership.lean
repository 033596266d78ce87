import Phiola.Queue.RefCount

/-!
# Entries and the queue they belong to

The pointer from an entry to its queue is not counted: `q_free()` frees the queue whatever still
holds its entries. As long as no queue is destroyed under such an entry, an entry that is in use
belongs to a queue that is in use.
-/

namespace Phiola

namespace QueueMgr

open Finset

/-- Every entry in use belongs to a queue in use, and the reader of a list stays in the queue of
the entry that it expands. -/
structure Owned (s : QueueMgr) : Prop where
  queue : ∀ e, e < s.ne → (s.ent e).freed = false → (s.queue (s.ent e).q).freed = false
  reader : ∀ t, s.openTrk t → (s.ent (s.trk t).quCur).q = (s.ent (s.trk t).qent).q

/-- What `Owned` speaks of is the same, but for entries that were freed. -/
structure KeepsOwner (s s' : QueueMgr) : Prop where
  ne : s'.ne = s.ne
  nt : s'.nt = s.nt
  queue : ∀ q, (s'.queue q).freed = (s.queue q).freed
  q : ∀ e, (s'.ent e).q = (s.ent e).q
  freed : ∀ e, (s'.ent e).freed = false → (s.ent e).freed = false
  trk : ∀ t, (s'.trk t).quCur = (s.trk t).quCur ∧ (s'.trk t).qent = (s.trk t).qent
  closed : ∀ t, (s'.trk t).closed = false → (s.trk t).closed = false

theorem KeepsOwner.refl (s : QueueMgr) : KeepsOwner s s :=
  ⟨rfl,rfl,fun _ => rfl,fun _ => rfl,fun _ => id,fun _ => ⟨rfl,rfl⟩,fun _ => id⟩

theorem KeepsOwner.trans {s t u : QueueMgr} (h : KeepsOwner s t) (h' : KeepsOwner t u) :
    KeepsOwner s u where
  ne := h'.ne.trans h.ne
  nt := h'.nt.trans h.nt
  queue q := (h'.queue q).trans (h.queue q)
  q e := (h'.q e).trans (h.q e)
  freed e he := h.freed e (h'.freed e he)
  trk t := ⟨(h'.trk t).1.trans (h.trk t).1,(h'.trk t).2.trans (h.trk t).2⟩
  closed t ht := h.closed t (h'.closed t ht)

theorem Owned.keeps {s s' : QueueMgr} (ho : Owned s) (h : KeepsOwner s s') : Owned s' where
  queue e he hf := by
    rw [h.queue,h.q]
    exact ho.queue e (h.ne ▸ he) (h.freed e hf)
  reader t ht := by
    rw [(h.trk t).1,(h.trk t).2,h.q,h.q]
    exact ho.reader t ⟨h.nt ▸ ht.1,h.closed t ht.2⟩

theorem keepsOwner_setQueue (s : QueueMgr) (q : Nat) (v : PhiQueue)
    (h : v.freed = (s.queue q).freed) : KeepsOwner s (s.setQueue q v) := by
  refine ⟨rfl,rfl,fun y => ?_,fun _ => rfl,fun _ => id,fun _ => ⟨rfl,rfl⟩,fun _ => id⟩
  by_cases hy : y = q
  · subst hy; simpa using h
  · rw [setQueue_of_ne v hy]

theorem keepsOwner_setEnt (s : QueueMgr) (e : Nat) (x : QEntry) (hq : x.q = (s.ent e).q)
    (hf : x.freed = false → (s.ent e).freed = false) : KeepsOwner s (s.setEnt e x) := by
  refine ⟨rfl,rfl,fun _ => rfl,fun y => ?_,fun y => ?_,fun _ => ⟨rfl,rfl⟩,fun _ => id⟩
  · by_cases hy : y = e
    · subst hy; simpa using hq
    · rw [setEnt_of_ne x hy]
  · by_cases hy : y = e
    · subst hy; simpa using hf
    · rw [setEnt_of_ne x hy]; exact id

theorem keepsOwner_setTrk (s : QueueMgr) (t : Nat) (x : QTrack) (hc : x.quCur = (s.trk t).quCur)
    (he : x.qent = (s.trk t).qent) (hx : x.closed = false → (s.trk t).closed = false) :
    KeepsOwner s (s.setTrk t x) := by
  refine ⟨rfl,rfl,fun _ => rfl,fun _ => rfl,fun _ => id,fun y => ?_,fun y => ?_⟩
  · by_cases hy : y = t
    · subst hy; simpa using ⟨hc,he⟩
    · rw [setTrk_of_ne x hy]; exact ⟨rfl,rfl⟩
  · by_cases hy : y = t
    · subst hy; simpa using hx
    · rw [setTrk_of_ne x hy]; exact id

theorem keepsOwner_unref (s : QueueMgr) (e : Nat) : KeepsOwner s (s.qeUnref e) := by
  rw [qeUnref_eq]
  refine (keepsOwner_setQueue s _ _ ?_).trans (keepsOwner_setEnt _ e _ ?_ ?_)
  · rfl
  · rfl
  · simp only [Bool.or_eq_false_iff,setQueue_ent]
    exact And.left

theorem keepsOwner_qeIndex (s : QueueMgr) (e : Nat) : KeepsOwner s (s.qeIndex e).1 := by
  unfold qeIndex
  dsimp only
  split
  · exact KeepsOwner.refl s
  · exact keepsOwner_setEnt s e _ rfl id

theorem keepsOwner_setCursor (s : QueueMgr) (q e : Nat) : KeepsOwner s (s.setCursor q e) := by
  unfold setCursor
  dsimp only
  refine (keepsOwner_setQueue s q { s.queue q with cursor := some e } rfl).trans ?_
  refine (keepsOwner_qeIndex _ e).trans ?_
  exact keepsOwner_setQueue _ q _ rfl

theorem keepsOwner_qeStop (s : QueueMgr) (e : Nat) : KeepsOwner s (s.qeStop e) := by
  unfold qeStop
  split
  · exact KeepsOwner.refl s
  · exact keepsOwner_setTrk s _ _ rfl rfl id

theorem keepsOwner_removeAt (s : QueueMgr) (q : Nat) (pos : Int) :
    KeepsOwner s (s.qRemoveAt q pos).1 := by
  unfold qRemoveAt
  dsimp only
  split
  · exact KeepsOwner.refl s
  · rename_i e hg
    refine (keepsOwner_setEnt s e { s.ent e with index := -1 } rfl id).trans ?_
    refine KeepsOwner.trans ?_ (keepsOwner_unref _ e)
    exact keepsOwner_setQueue _ q _ rfl

theorem keepsOwner_forgetTrack (s : QueueMgr) (e t : Nat) (tags : Meta) :
    KeepsOwner s (s.forgetTrack e t tags) := by
  rw [forgetTrack_eq]
  split
  · refine (keepsOwner_setEnt s e _ ?_ ?_).trans (keepsOwner_setTrk _ t _ ?_ ?_ ?_) <;>
      first | rfl | exact id
  · exact KeepsOwner.refl s

theorem Owned.track {s : QueueMgr} {y : QTrack} (h : Owned s) (hy : y.quCur = y.qent) :
    Owned { s.setTrk s.nt y with nt := s.nt + 1 } := by
  refine ⟨h.queue,fun t ht => ?_⟩
  obtain ⟨hlt,hopen⟩ := ht
  by_cases he : t = s.nt
  · subst he; simp [hy]
  · simp only [setTrk_of_ne y he,setTrk_ent] at hopen ⊢
    exact h.reader t ⟨by dsimp only at hlt; omega,hopen⟩

theorem Owned.start {s : QueueMgr} (h : Owned s) (e : Nat) (k : Option ListKind) :
    Owned (s.startTrack e k) := by
  have hset := h.keeps (keepsOwner_setEnt s e { s.ent e with
    trk := some s.nt
    used := (s.ent e).used + 1
    expand := (s.ent e).expand || k.isSome } rfl id)
  have hq := hset.keeps (keepsOwner_setQueue _ (s.ent e).q { s.queue (s.ent e).q with
    activeN := (s.queue (s.ent e).q).activeN + 1 } rfl)
  exact hq.track (y := ⟨e,k,e,false,false,false⟩) rfl

theorem Owned.qePlay {s : QueueMgr} (h : Owned s) (e : Nat) (c : Bool) :
    Owned (s.qePlay e c).1 := by
  unfold QueueMgr.qePlay
  dsimp only
  split
  · exact h.keeps (keepsOwner_setEnt s e _ rfl id)
  · split
    · have hs := h.start e none
      exact ⟨hs.queue,hs.reader⟩
    · exact h

theorem owned_rule : PlayRule Owned fun _ _ => True where
  got _ _ := trivial
  index h := h.keeps (keepsOwner_qeIndex _ _)
  split h := h.keeps (keepsOwner_setQueue _ _ _ rfl)
  stop h := ⟨h.keeps (keepsOwner_qeStop _ _),fun _ _ => trivial⟩
  cursor h _ := ⟨h.keeps (keepsOwner_setCursor _ _ _),trivial⟩
  play h _ := h.qePlay _ _

theorem Owned.insert {s : QueueMgr} {q i : Nat} {b : Bool} (h : Owned s) (hc : Counted s [])
    (hq : (s.queue q).freed = false) : Owned (s.qInsert q i b).1 := by
  have hqueue (y : Nat) : ((s.qInsert q i b).1.queue y).freed = (s.queue y).freed := by
    by_cases hy : y = q
    · subst hy; simp [qInsert]
    · simp [qInsert,setQueue_of_ne _ hy]
  have hent {e : Nat} (he : e < s.ne) : (s.qInsert q i b).1.ent e = s.ent e := by
    simp [qInsert,setEnt_of_ne _ (show e ≠ s.ne by omega)]
  refine ⟨fun e he hf => ?_,fun t ht => ?_⟩
  · rw [hqueue]
    have he : e < s.ne + 1 := he
    by_cases hn : e = s.ne
    · subst hn; simpa [qInsert] using hq
    · have hlt : e < s.ne := by omega
      rw [hent hlt] at hf ⊢
      exact h.queue e hlt hf
  · have ht : s.openTrk t := ht
    change ((s.qInsert q i b).1.ent (s.trk t).quCur).q = ((s.qInsert q i b).1.ent (s.trk t).qent).q
    rw [hent (hc.reader t ht.1),hent (hc.inUse (hc.onTrack_used ht))]
    exact h.reader t ht

theorem Owned.insertBehind {s : QueueMgr} {e : Nat} {b : Bool} (h : Owned s) (hc : Counted s [])
    (hq : (s.queue (s.ent e).q).freed = false) : Owned (s.qeInsert e b).1 := by
  refine (h.keeps (keepsOwner_qeIndex s e)).insert (hc.same (sameHolders_qeIndex s e)) ?_
  rw [qeIndex_queue]
  exact hq

theorem Owned.qAdd {s : QueueMgr} {q : Nat} {um : Bool} {kind : Option ListKind} {created : Bool}
    (h : Owned s) (hc : Counted s []) (hq : (s.queue q).freed = false) :
    Owned (s.qAdd q um kind created) := by
  have hins := h.insert (i := (s.queue q).index.length) (b := um) hc hq
  unfold QueueMgr.qAdd qeExpand
  dsimp only
  split
  · exact hins
  · split
    · exact hins.start _ _
    · exact hins

theorem Owned.newQueue {s : QueueMgr} {q n : Nat} {v : PhiQueue} (h : Owned s)
    (hv : v.freed = false) (lists : List Nat) :
    Owned { s.setQueue q v with nq := n, lists := lists } := by
  refine ⟨fun e he hf => ?_,h.reader⟩
  by_cases hq : (s.ent e).q = q
  · simpa [hq] using hv
  · simpa [setQueue_of_ne v hq] using h.queue e he hf

theorem keepsOwner_foldl {f : QueueMgr → Nat → QueueMgr} (hf : ∀ s e, KeepsOwner s (f s e))
    (l : List Nat) (s : QueueMgr) : KeepsOwner s (l.foldl f s) := by
  induction l generalizing s with
  | nil => exact KeepsOwner.refl s
  | cons e l ih => exact (hf s e).trans (ih (f s e))

theorem keepsOwner_qClear (s : QueueMgr) (q : Nat) : KeepsOwner s (s.qClear q) := by
  refine (keepsOwner_setQueue s q { s.queue q with index := [] } rfl).trans ?_
  exact keepsOwner_foldl (fun u e => (keepsOwner_setEnt u e { u.ent e with index := -1 } rfl id).trans
    (keepsOwner_unref _ e)) _ _

theorem Owned.qFilter {s : QueueMgr} {q : Nat} {keep : Nat → Bool} (h : Owned s) :
    Owned (s.qFilter q keep) := by
  have hfold := keepsOwner_foldl (f := qeRef) (fun u e => keepsOwner_setEnt u e _ rfl id)
    ((s.queue q).index.filter keep) s
  exact (h.keeps hfold).newQueue rfl _

theorem keepsOwner_qeRemove (s : QueueMgr) (e : Nat) : KeepsOwner s (s.qeRemove e).1 :=
  (keepsOwner_qeIndex s e).trans (keepsOwner_removeAt _ _ _)

theorem qeInsert_new (s : QueueMgr) (e : Nat) (um : Bool) : (s.qeInsert e um).2 = s.ne ∧
    ((s.qeInsert e um).1.ent s.ne).q = (s.ent e).q ∧ (s.qeInsert e um).1.nt = s.nt ∧
    (s.qeInsert e um).1.trk = s.trk ∧
    ∀ y, y < s.ne → ((s.qeInsert e um).1.ent y).q = (s.ent y).q := by
  refine ⟨by simp [qeInsert,qInsert],by simp [qeInsert,qInsert],by simp [qeInsert,qInsert],
    by simp [qeInsert,qInsert],fun y hy => ?_⟩
  have hne : y ≠ s.ne := by omega
  simp [qeInsert,qInsert,setEnt_of_ne _ hne,(keepsOwner_qeIndex s e).q]

/-- The reader of a list lists its entries in the queue of the list. -/
theorem Owned.readerInsert {s : QueueMgr} {t : Nat} {um : Bool} (h : Owned s) (hc : Counted s [])
    (ht : s.openTrk t) : Owned (s.readerInsert t um) := by
  have hreader := h.reader t ht
  have hused := hc.onTrack_used ht
  have hlt := hc.inUse hused
  have hq := h.queue _ hlt (hc.not_freed hused)
  have h1 := h.insertBehind (b := um) hc (hreader ▸ hq)
  obtain ⟨hnew,hentNew,hnt,htrk,hold⟩ := qeInsert_new s (s.trk t).quCur um
  unfold QueueMgr.readerInsert
  dsimp only
  generalize s.qeInsert (s.trk t).quCur um = p at *
  have h2 : Owned (p.1.setTrk t { p.1.trk t with quCur := p.2, removed := true }) := by
    refine ⟨h1.queue,fun y hy => ?_⟩
    obtain ⟨hylt,hopen⟩ := hy
    by_cases he : y = t
    · subst he
      simp only [setTrk_self,setTrk_ent,hnew,hentNew,htrk,hold _ hlt]
      exact hreader
    · simp only [setTrk_of_ne _ he,setTrk_ent,setTrk_nt] at hopen hylt ⊢
      exact h1.reader y ⟨hylt,hopen⟩
  split
  · exact h2
  · exact h2.keeps (keepsOwner_qeRemove _ _)

theorem keepsOwner_closing (s : QueueMgr) (t : Nat) (tags : Meta) :
    KeepsOwner s (s.closing t tags) := by
  refine (keepsOwner_forgetTrack s (s.trk t).qent t tags).trans ?_
  refine (keepsOwner_setQueue _ _ _ ?_).trans (keepsOwner_setTrk _ t _ ?_ ?_ ?_)
  · rfl
  · rfl
  · rfl
  · simp

theorem Owned.close {s s' : QueueMgr} {t : Nat} {fstop : Bool} {tags : Meta} {rnd : Nat}
    {ans : List Answer} (h : Owned s) (hs : s.closeTrack t fstop tags rnd ans = some s') :
    Owned s' := by
  have hr : Owned (s.readerClose t) := by
    unfold readerClose
    dsimp only
    split
    · exact h.keeps (keepsOwner_qeRemove _ _)
    · exact h
  obtain ⟨u,hu,rfl⟩ := owned_rule.close (hr.keeps (keepsOwner_closing _ t tags)) hs
  exact hu.keeps (keepsOwner_unref _ _)

/-- A queue is destroyed only when it alone holds the entries that point to it. -/
def DestroysAlone (s : QueueMgr) : Op → Prop
  | .destroy q => ∀ y ∈ s.theQueue q, ∀ e < s.ne, (s.ent e).freed = false → (s.ent e).q = y →
      s.holders e = (s.queue y).index.count e
  | _ => True

instance (s : QueueMgr) (a : Op) : Decidable (DestroysAlone s a) := by
  unfold DestroysAlone
  split <;> infer_instance

theorem unref_index (s : QueueMgr) (e q : Nat) :
    ((s.qeUnref e).queue q).index = (s.queue q).index := by
  rw [qeUnref_eq,setEnt_queue]
  by_cases hq : q = (s.ent e).q
  · subst hq; simp
  · rw [setQueue_of_ne _ hq]

theorem foldl_unref_holders (l : List Nat) (s : QueueMgr) (e : Nat) :
    (l.foldl qeUnref s).holders e = s.holders e := by
  induction l generalizing s with
  | nil => rfl
  | cons y l ih =>
    rw [List.foldl_cons,ih]
    simp only [holders,inQueues,onTracks,unref_index,qeUnref_nq,qeUnref_nt,qeUnref_trk,qeUnref_refs]

/-- `q_destroy()` takes away the places of its list. -/
theorem qDestroy_holders {s : QueueMgr} {q : Nat} (hq : q < s.nq) (e : Nat) :
    (s.qDestroy q).holders e + (s.queue q).index.count e = s.holders e := by
  rw [qDestroy_eq,foldl_unref_holders]
  have hsum := Cells.sum_change hq (f := fun q => (s.queue q).index.count e)
    (g := fun y => ((s.emptied q).queue y).index.count e)
    (fun y hy => by simp [emptied,setQueue_of_ne _ hy])
  have hempty : ((s.emptied q).queue q).index.count e = 0 := by simp [emptied]
  rw [hempty] at hsum
  have hin : ({ s with lists := s.lists.erase q }.emptied q).inQueues e =
      ∑ y ∈ range s.nq, ((s.emptied q).queue y).index.count e := rfl
  have hon : ({ s with lists := s.lists.erase q }.emptied q).onTracks e = s.onTracks e := rfl
  have href : ({ s with lists := s.lists.erase q }.emptied q).refs = s.refs := rfl
  simp only [holders,hin,hon,href]
  simp only [inQueues]
  omega

/-- A queue may be destroyed exactly when it alone holds the entries that point to it. -/
theorem Owned.destroy {s : QueueMgr} {q : Nat} (h : Owned s) (hc : Counted s []) (hq : q < s.nq) :
    Owned (s.qDestroy q) ↔ ∀ e < s.ne, (s.ent e).freed = false → (s.ent e).q = q →
      s.holders e = (s.queue q).index.count e := by
  have hk := keepsOwner_foldl keepsOwner_unref (s.queue q).index
    ({ s with lists := s.lists.erase q }.emptied q)
  rw [← qDestroy_eq] at hk
  have hcd := hc.qDestroy hq
  have hhold (e : Nat) := qDestroy_holders hq e
  have hfreed (e : Nat) (he : e < s.ne) : ((s.qDestroy q).ent e).freed = true ↔
      (s.qDestroy q).holders e = 0 := by
    rw [hcd.freed,hcd.used,List.count_nil,Nat.add_zero]
    exact and_iff_right (hk.ne ▸ he)
  constructor
  · intro ho e he hf heq
    by_contra hne
    have hpos : (s.qDestroy q).holders e ≠ 0 := by
      have := hhold e
      omega
    have hlive : ((s.qDestroy q).ent e).freed = false := by
      rw [← Bool.not_eq_true,hfreed e he]
      exact hpos
    have hown := ho.queue e (hk.ne ▸ he) hlive
    rw [hk.q e,hk.queue] at hown
    have hq' : ((s.emptied q).queue q).freed = true := by simp [emptied]
    have hent : (({ s with lists := s.lists.erase q }.emptied q).ent e).q = q := heq
    rw [hent] at hown
    exact Bool.noConfusion (hown.symm.trans hq')
  · intro halone
    refine ⟨fun e he hf => ?_,fun t ht => ?_⟩
    · have he : e < s.ne := hk.ne ▸ he
      have hold : (s.ent e).freed = false := hk.freed e hf
      have hqe : ((s.qDestroy q).ent e).q = (s.ent e).q := hk.q e
      rw [hqe,hk.queue]
      by_cases heq : (s.ent e).q = q
      · have hcount := halone e he hold heq
        have := hhold e
        have hzero := (hfreed e he).mpr (by omega)
        rw [hf] at hzero
        cases hzero
      · have := h.queue e he hold
        simpa [emptied,setQueue_of_ne _ heq] using this
    · have htrk := hk.trk t
      rw [htrk.1,htrk.2,hk.q,hk.q]
      exact h.reader t ⟨hk.nt ▸ ht.1,hk.closed t ht.2⟩

/-- Every operation keeps the owners when a queue is not destroyed under its entries. -/
theorem step_owned (s : QueueMgr) (a : Op) (s' : QueueMgr) (h : Counted s [] ∧ Owned s)
    (ha : DestroysAlone s a) (hs : s.step a = some s') : Counted s' [] ∧ Owned s' := by
  obtain ⟨hc,ho⟩ := h
  refine ⟨step_counted s a s' hc hs,?_⟩
  have hset (r : Nat → Nat) (l : List Nat) (n : Nat) :
      Owned { s with refs := r, lists := l, selected := n } := ⟨ho.queue,ho.reader⟩
  cases a with
  | create c r a =>
    cases hs
    exact ho.newQueue (v := ⟨c,r,a,[],none,0,0,false,false⟩) rfl _
  | destroy q =>
    obtain ⟨y,hq,hy,hs⟩ := onQueue_some hs
    cases hs
    exact (ho.destroy hc hy.1).mpr (ha y hq)
  | select pos =>
    cases hs
    split
    · exact hset _ _ _
    · exact ho
  | qselect q =>
    cases hs
    split
    · exact ho
    · exact hset _ _ _
  | conf q c r a =>
    obtain ⟨y,-,hy,hs⟩ := onQueue_some hs
    cases hs
    exact ho.keeps (keepsOwner_setQueue s y _ rfl)
  | add q um kind created =>
    obtain ⟨y,-,hy,hs⟩ := onQueue_some hs
    cases hs
    exact ho.qAdd hc hy.2
  | insertAt q pos um =>
    simp only [step] at hs
    obtain ⟨y,-,hy,hs⟩ := onQueue_some hs
    simp only [Option.ite_none_right_eq_some,Option.some.injEq] at hs
    obtain ⟨hpos,rfl⟩ := hs
    exact ho.insert hc hy.2
  | insert e um =>
    simp only [step,Option.ite_none_right_eq_some,Option.some.injEq] at hs
    obtain ⟨he,rfl⟩ := hs
    exact ho.insertBehind hc (ho.queue e he.1 he.2)
  | clear q =>
    obtain ⟨y,-,hy,hs⟩ := onQueue_some hs
    cases hs
    exact ho.keeps (keepsOwner_qClear s y)
  | filter q keep =>
    obtain ⟨y,-,-,hs⟩ := onQueue_some hs
    cases hs
    exact ho.qFilter
  | play q e rnd ans =>
    cases e with
    | some e =>
      simp only [step,Option.ite_none_right_eq_some,Option.map_eq_some_iff] at hs
      obtain ⟨he,p,hp,rfl⟩ := hs
      exact owned_rule.qPlay ho (fun _ _ => trivial) hp
    | none =>
      obtain ⟨y,-,-,hs⟩ := onQueue_some hs
      obtain ⟨p,hp,rfl⟩ := Option.map_eq_some_iff.mp hs
      exact owned_rule.qPlay ho (by simp) hp
  | playNext q rnd ans =>
    obtain ⟨y,-,-,hs⟩ := onQueue_some hs
    obtain ⟨p,hp,rfl⟩ := Option.map_eq_some_iff.mp hs
    exact owned_rule.next ho hp
  | playPrev q rnd ans =>
    obtain ⟨y,-,-,hs⟩ := onQueue_some hs
    obtain ⟨p,hp,rfl⟩ := Option.map_eq_some_iff.mp hs
    exact owned_rule.prev ho hp
  | ref q pos =>
    obtain ⟨y,-,-,hs⟩ := onQueue_some hs
    cases hs
    unfold qRef
    split
    · exact ho
    · rename_i e hg
      have hr := ho.keeps (keepsOwner_setEnt s e { s.ent e with used := (s.ent e).used + 1 } rfl id)
      exact ⟨hr.queue,hr.reader⟩
  | unref e =>
    simp only [step,Option.ite_none_right_eq_some,Option.some.injEq] at hs
    obtain ⟨he,rfl⟩ := hs
    exact (hset _ _ _).keeps (keepsOwner_unref _ e)
  | removeAt q pos =>
    obtain ⟨y,-,-,hs⟩ := onQueue_some hs
    cases hs
    exact ho.keeps (keepsOwner_removeAt s y pos)
  | remove e =>
    simp only [step,Option.ite_none_right_eq_some,Option.some.injEq] at hs
    obtain ⟨-,rfl⟩ := hs
    exact ho.keeps (keepsOwner_qeRemove s e)
  | sort q l =>
    obtain ⟨y,-,-,hs⟩ := onQueue_some hs
    simp only [Option.ite_none_right_eq_some,Option.some.injEq] at hs
    obtain ⟨hl,rfl⟩ := hs
    exact ho.keeps (keepsOwner_setQueue s y _ rfl)
  | readerInsert t um =>
    simp only [step,Option.ite_none_right_eq_some,Option.some.injEq] at hs
    obtain ⟨⟨ht,-⟩,rfl⟩ := hs
    exact ho.readerInsert hc ht
  | close t fstop tags rnd ans =>
    simp only [step,Option.ite_none_right_eq_some] at hs
    exact ho.close hs.2

theorem init_owned : Owned init := by
  refine ⟨fun e he => ?_,fun t ht => ?_⟩
  · simp [init] at he
  · simp [init,openTrk] at ht

/-- In every run that destroys a queue only when nothing else holds its entries, an entry is
freed exactly when it has no holder, and the queue of an entry in use is in use. -/
theorem entry_lifetime {as : List Op} {s : QueueMgr}
    (halone : Machine.AllSteps step DestroysAlone init as)
    (hrun : Machine.run step init as = some s) (e : Nat) (he : e < s.ne) :
    ((s.ent e).freed = true ↔ s.holders e = 0) ∧
      ((s.ent e).freed = false → (s.queue (s.ent e).q).freed = false) := by
  obtain ⟨hc,ho⟩ := Machine.guarded_invariant step_owned halone hrun ⟨init_counted,init_owned⟩
  refine ⟨?_,ho.queue e he⟩
  rw [hc.freed,hc.used,List.count_nil,Nat.add_zero]
  exact and_iff_right he

/-- Play, filter, drop the filter, let the track end, drop the queue. -/
def playAndDrop : List Op :=
  [.create false false false,.add none false none false,.play none none 0 [⟨true,true⟩],
    .filter none fun _ => true,.destroy (some 1),.close 0 false [] 0 [⟨true,true⟩],
    .destroy (some 0)]

theorem entry_lifetime_play_and_drop : ∃ s, Machine.run step init playAndDrop = some s ∧
    (s.ent 0).freed = true ∧ ((s.ent 0).freed = true ↔ s.holders 0 = 0) ∧
      ((s.ent 0).freed = false → (s.queue (s.ent 0).q).freed = false) :=
  have halone : Machine.AllSteps step DestroysAlone init playAndDrop := by decide
  ⟨_,rfl,by decide,entry_lifetime halone rfl 0 (by decide)⟩

/-- A list is closed while its track plays: the entry outlives the queue that it points to. -/
theorem destroy_under_track : ¬ ∀ as s, Machine.run step init as = some s → ∀ e < s.ne,
    ((s.ent e).freed = true ↔ s.holders e = 0) ∧
      ((s.ent e).freed = false → (s.queue (s.ent e).q).freed = false) := by
  intro h
  have hend := h [.create false false false,.add none false none false,
    .play none none 0 [⟨true,true⟩],.destroy none] _ rfl 0 (by decide)
  exact absurd (hend.2 (by decide)) (by decide)

end QueueMgr

end Phiola
