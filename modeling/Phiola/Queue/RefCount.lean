import Phiola.Framework.Cells
import Phiola.Queue.Rule

/-!
# Reference counting of entries

`used` counts the places that hold an entry: the queues that list it, the open tracks on it and
the users of `ref()`. While an operation is under way it also counts the references that the
operation has in hand, a list here.
-/

namespace Phiola

namespace QueueMgr

open Finset

/-- How many lists name the entry. -/
def inQueues (s : QueueMgr) (e : Nat) : Nat := ∑ q ∈ range s.nq, (s.queue q).index.count e

def onTrack (x : QTrack) (e : Nat) : Nat := if x.closed = false ∧ x.qent = e then 1 else 0

/-- How many open tracks are on the entry. -/
def onTracks (s : QueueMgr) (e : Nat) : Nat := ∑ t ∈ range s.nt, onTrack (s.trk t) e

/-- The holders of an entry: its own queue, the filtered queues, the tracks and the users. -/
def holders (s : QueueMgr) (e : Nat) : Nat := s.inQueues e + s.onTracks e + s.refs e

/-- The counts are right while the references `x` are in hand. -/
structure Counted (s : QueueMgr) (x : List Nat) : Prop where
  used : ∀ e, (s.ent e).used = s.holders e + x.count e
  freed : ∀ e, (s.ent e).freed = true ↔ e < s.ne ∧ (s.ent e).used = 0
  above : ∀ e, s.ne ≤ e → (s.ent e).used = 0
  own : ∀ e, e < s.ne → (s.ent e).q < s.nq
  unused : ∀ q, s.nq ≤ q → (s.queue q).index = []
  reader : ∀ t, t < s.nt → (s.trk t).quCur < s.ne

/-- The two stores agree on all that the counts are about. -/
structure SameHolders (s s' : QueueMgr) : Prop where
  nq : s'.nq = s.nq
  ne : s'.ne = s.ne
  nt : s'.nt = s.nt
  refs : s'.refs = s.refs
  index : ∀ q e, (s'.queue q).index.count e = (s.queue q).index.count e
  track : ∀ t e, onTrack (s'.trk t) e = onTrack (s.trk t) e
  reader : ∀ t, (s'.trk t).quCur = (s.trk t).quCur
  ent : ∀ e, (s'.ent e).used = (s.ent e).used ∧ (s'.ent e).freed = (s.ent e).freed ∧
    (s'.ent e).q = (s.ent e).q

theorem SameHolders.refl (s : QueueMgr) : SameHolders s s :=
  ⟨rfl,rfl,rfl,rfl,fun _ _ => rfl,fun _ _ => rfl,fun _ => rfl,fun _ => ⟨rfl,rfl,rfl⟩⟩

theorem SameHolders.trans {s t u : QueueMgr} (h : SameHolders s t) (h' : SameHolders t u) :
    SameHolders s u where
  nq := h'.nq.trans h.nq
  ne := h'.ne.trans h.ne
  nt := h'.nt.trans h.nt
  refs := h'.refs.trans h.refs
  index q e := (h'.index q e).trans (h.index q e)
  track t e := (h'.track t e).trans (h.track t e)
  reader t := (h'.reader t).trans (h.reader t)
  ent e := ⟨(h'.ent e).1.trans (h.ent e).1,(h'.ent e).2.1.trans (h.ent e).2.1,
    (h'.ent e).2.2.trans (h.ent e).2.2⟩

theorem SameHolders.holders {s s' : QueueMgr} (h : SameHolders s s') (e : Nat) :
    s'.holders e = s.holders e := by
  simp only [QueueMgr.holders,inQueues,onTracks,h.nq,h.nt,h.refs,h.index,h.track]

theorem Counted.same {s s' : QueueMgr} {x : List Nat} (hc : Counted s x) (h : SameHolders s s') :
    Counted s' x where
  used e := by rw [(h.ent e).1,h.holders,hc.used]
  freed e := by rw [(h.ent e).2.1,(h.ent e).1,h.ne,hc.freed]
  above e he := by rw [(h.ent e).1]; exact hc.above e (h.ne ▸ he)
  own e he := by rw [(h.ent e).2.2,h.nq]; exact hc.own e (h.ne ▸ he)
  unused q hq := by
    refine List.eq_nil_iff_forall_not_mem.mpr fun e he => ?_
    have hpos := List.count_pos_iff.mpr he
    rw [h.index,hc.unused q (h.nq ▸ hq)] at hpos
    simp at hpos
  reader t ht := by rw [h.reader,h.ne]; exact hc.reader t (h.nt ▸ ht)

theorem sameHolders_setEnt (s : QueueMgr) (e : Nat) (x : QEntry) (hu : x.used = (s.ent e).used)
    (hf : x.freed = (s.ent e).freed) (hq : x.q = (s.ent e).q) : SameHolders s (s.setEnt e x) := by
  refine ⟨rfl,rfl,rfl,rfl,fun _ _ => rfl,fun _ _ => rfl,fun _ => rfl,fun y => ?_⟩
  by_cases hy : y = e
  · subst hy; simp [setEnt,hu,hf,hq]
  · simp [setEnt,hy]

theorem sameHolders_setQueue (s : QueueMgr) (q : Nat) (v : PhiQueue)
    (h : ∀ e, v.index.count e = (s.queue q).index.count e) : SameHolders s (s.setQueue q v) := by
  refine ⟨rfl,rfl,rfl,rfl,fun y e => ?_,fun _ _ => rfl,fun _ => rfl,fun _ => ⟨rfl,rfl,rfl⟩⟩
  by_cases hy : y = q
  · subst hy; simp [setQueue,h]
  · simp [setQueue,hy]

theorem sameHolders_setTrk (s : QueueMgr) (t : Nat) (x : QTrack)
    (h : ∀ e, onTrack x e = onTrack (s.trk t) e) (hr : x.quCur = (s.trk t).quCur) :
    SameHolders s (s.setTrk t x) := by
  refine ⟨rfl,rfl,rfl,rfl,fun _ _ => rfl,fun y e => ?_,fun y => ?_,fun _ => ⟨rfl,rfl,rfl⟩⟩
  · by_cases hy : y = t
    · subst hy; simp [setTrk,h]
    · simp [setTrk,hy]
  · by_cases hy : y = t
    · subst hy; simp [setTrk,hr]
    · simp [setTrk,hy]

theorem Counted.listed {s : QueueMgr} {x : List Nat} (h : Counted s x) {q e : Nat}
    (he : e ∈ (s.queue q).index) : 0 < (s.ent e).used := by
  have hq : q < s.nq := by
    by_contra hlt
    rw [h.unused q (by omega)] at he
    cases he
  have hc : 0 < (s.queue q).index.count e := List.count_pos_iff.mpr he
  have hs := Cells.le_sum hq fun q => (s.queue q).index.count e
  have hu := h.used e
  simp only [holders,inQueues] at hu
  omega

theorem Counted.inUse {s : QueueMgr} {x : List Nat} (h : Counted s x) {e : Nat}
    (he : 0 < (s.ent e).used) : e < s.ne := by
  by_contra hlt
  have := h.above e (by omega)
  omega

/-- Another list of queue `q`: the references that it gains or loses are in hand. -/
theorem Counted.setQueue {s : QueueMgr} {x w : List Nat} {q : Nat} {v : PhiQueue}
    (h : Counted s x) (hq : q < s.nq)
    (hx : ∀ e, v.index.count e + w.count e = (s.queue q).index.count e + x.count e) :
    Counted (s.setQueue q v) w := by
  refine ⟨fun e => ?_,h.freed,h.above,h.own,fun y hy => ?_,h.reader⟩
  rotate_left
  · have hy : s.nq ≤ y := hy
    rw [setQueue_of_ne v (by omega)]
    exact h.unused y hy
  have hsum := Cells.sum_change hq (f := fun q => (s.queue q).index.count e)
    (g := fun y => ((s.setQueue q v).queue y).index.count e)
    (fun y hy => by simp [QueueMgr.setQueue,hy])
  have hv : ((s.setQueue q v).queue q).index = v.index := by simp [QueueMgr.setQueue]
  have hu := h.used e
  have he := hx e
  simp only [holders,inQueues,hv] at hu hsum ⊢
  have hrest : (s.setQueue q v).onTracks e = s.onTracks e := rfl
  have hnq : (s.setQueue q v).nq = s.nq := rfl
  have hent : ((s.setQueue q v).ent e).used = (s.ent e).used := rfl
  have hrefs : (s.setQueue q v).refs e = s.refs e := rfl
  rw [hrest,hnq,hent,hrefs]
  omega

/-- Another record of entry `e`: the references in hand account for its new count. -/
theorem Counted.setEnt {s : QueueMgr} {x w : List Nat} {e : Nat} {y : QEntry} (h : Counted s x)
    (he : e < s.ne) (hu : y.used = s.holders e + w.count e)
    (hx : ∀ z, z ≠ e → w.count z = x.count z) (hf : y.freed = true ↔ y.used = 0)
    (hq : y.q = (s.ent e).q) : Counted (s.setEnt e y) w := by
  have hhold (z : Nat) : (s.setEnt e y).holders z = s.holders z := rfl
  refine ⟨fun z => ?_,fun z => ?_,fun z hz => ?_,fun z hz => ?_,h.unused,h.reader⟩
  · rw [hhold]
    by_cases hze : z = e
    · subst hze; rwa [setEnt_self]
    · rw [setEnt_of_ne y hze,hx z hze]
      exact h.used z
  · by_cases hze : z = e
    · subst hze
      rw [setEnt_self,hf]
      exact (and_iff_right he).symm
    · rw [setEnt_of_ne y hze]
      exact h.freed z
  · have hz : s.ne ≤ z := hz
    rw [setEnt_of_ne y (by omega)]
    exact h.above z hz
  · by_cases hze : z = e
    · subst hze
      rw [setEnt_self,hq]
      exact h.own z hz
    · rw [setEnt_of_ne y hze]
      exact h.own z hz

/-- `qe_free()` but for the mark: the cursor of the queue of `e` if it stands on `e`. -/
theorem qeFree_eq (s : QueueMgr) (e : Nat) : ∃ s', SameHolders s s' ∧ s'.ent = s.ent ∧
    s.qeFree e = s'.setEnt e { s.ent e with freed := true } := by
  unfold qeFree
  dsimp only
  split
  · exact ⟨s.setQueue _ { s.queue (s.ent e).q with cursor := none },
      sameHolders_setQueue s _ _ (fun _ => rfl),rfl,rfl⟩
  · exact ⟨s,SameHolders.refl s,rfl,rfl⟩

/-- `qe_unref()` drops a reference that is in hand. -/
theorem Counted.unref {s : QueueMgr} {x : List Nat} {e : Nat} (h : Counted s (e :: x)) :
    Counted (s.qeUnref e) x := by
  have hu := h.used e
  simp only [List.count_cons_self] at hu
  have hne : e < s.ne := h.inUse (by omega)
  have hx (z : Nat) (hz : z ≠ e) : x.count z = (e :: x).count z := by
    rw [List.count_cons_of_ne (Ne.symm hz)]
  have hfr := h.freed e
  unfold qeUnref
  dsimp only
  rw [setEnt_self]
  split
  · rename_i hpos
    refine h.setEnt hne (by dsimp only; omega) hx ?_ rfl
    dsimp only at hpos ⊢
    rw [hfr]
    omega
  · rename_i hzero
    obtain ⟨s',hsame,hent,hfree⟩ :=
      qeFree_eq (s.setEnt e { s.ent e with used := (s.ent e).used - 1 }) e
    have hs : SameHolders s (s'.setEnt e (s.ent e)) := by
      refine ⟨hsame.nq,hsame.ne,hsame.nt,hsame.refs,hsame.index,hsame.track,
        hsame.reader,fun z => ?_⟩
      by_cases hz : z = e
      · subst hz; simp
      · rw [setEnt_of_ne _ hz,hent,setEnt_of_ne _ hz]
        exact ⟨rfl,rfl,rfl⟩
    have hc := (h.same hs).setEnt (e := e) (w := x)
      (y := { s.ent e with used := (s.ent e).used - 1, freed := true }) (hsame.ne.symm ▸ hne)
      (by rw [hs.holders]; dsimp only; omega) hx (by dsimp only at hzero ⊢; simp; omega) (by simp)
    have hupd : (s'.setEnt e (s.ent e)).setEnt e
        { s.ent e with used := (s.ent e).used - 1, freed := true } =
        s'.setEnt e { s.ent e with used := (s.ent e).used - 1, freed := true } := by
      simp [QueueMgr.setEnt]
    rw [hfree,setEnt_self]
    rwa [hupd] at hc

/-- `qe_ref()` of an entry in use takes a reference in hand. -/
theorem Counted.ref {s : QueueMgr} {x : List Nat} {e : Nat} (h : Counted s x)
    (he : 0 < (s.ent e).used) : Counted (s.qeRef e) (e :: x) := by
  have hu := h.used e
  have hfr := h.freed e
  have hx (z : Nat) (hz : z ≠ e) : (e :: x).count z = x.count z := by
    rw [List.count_cons_of_ne (Ne.symm hz)]
  refine h.setEnt (h.inUse he) ?_ hx ?_ rfl
  · dsimp only
    rw [List.count_cons_self]
    omega
  · dsimp only
    rw [hfr]
    omega

theorem Counted.fresh {s : QueueMgr} {x : List Nat} {y : QEntry} (h : Counted s x)
    (hu : y.used = 1) (hf : y.freed = false) (hq : y.q < s.nq) :
    Counted { s.setEnt s.ne y with ne := s.ne + 1 } (s.ne :: x) := by
  have hzero := h.above s.ne (Nat.le_refl _)
  have hcount := h.used s.ne
  refine ⟨fun z => ?_,fun z => ?_,fun z hz => ?_,fun z hz => ?_,h.unused,
    fun t ht => Nat.lt_succ_of_lt (h.reader t ht)⟩
  · change _ = s.holders z + _
    by_cases hz : z = s.ne
    · subst hz
      simp only [setEnt_self,List.count_cons_self]
      omega
    · rw [List.count_cons_of_ne (Ne.symm hz)]
      simpa only [setEnt_of_ne y hz] using h.used z
  · by_cases hz : z = s.ne
    · subst hz
      simp [hu,hf]
    · have := h.freed z
      simp only [setEnt_of_ne y hz]
      rw [this]
      omega
  · have hz : s.ne + 1 ≤ z := hz
    simpa only [setEnt_of_ne y (show z ≠ s.ne by omega)] using h.above z (by omega)
  · have hz : z < s.ne + 1 := hz
    by_cases he : z = s.ne
    · subst he
      simpa using hq
    · simp only [setEnt_of_ne y he,setEnt_nq]
      exact h.own z (by omega)

/-- `q_insert()` lists the new entry. -/
theorem Counted.insert {s : QueueMgr} {x : List Nat} {q pos : Nat} {b : Bool} (h : Counted s x)
    (hq : q < s.nq) (hpos : pos ≤ (s.queue q).index.length) :
    Counted (s.qInsert q pos b).1 x := by
  have hfresh := h.fresh (y := ⟨q,none,pos,1,[],b,false,false,false⟩) rfl rfl hq
  refine hfresh.setQueue (q := q)
    (v := { s.queue q with index := (s.queue q).index.insertIdx pos s.ne }) hq fun z => ?_
  have hp := (List.perm_insertIdx s.ne (s.queue q).index hpos).count_eq z
  have hc : (s.ne :: (s.queue q).index).count z + x.count z =
      (s.queue q).index.count z + (s.ne :: x).count z := by
    simp only [List.count_cons]
    omega
  dsimp only at hp ⊢
  rw [hp]
  exact hc

theorem onTrack_self (t : QTrack) (h : t.closed = false) (e : Nat) :
    onTrack t e = if t.qent = e then 1 else 0 := by simp [onTrack,h]

theorem Counted.track {s : QueueMgr} {x : List Nat} {e : Nat} {y : QTrack}
    (h : Counted s (e :: x)) (hc : y.closed = false) (he : y.qent = e) (hr : y.quCur < s.ne) :
    Counted { s.setTrk s.nt y with nt := s.nt + 1 } x := by
  refine ⟨fun z => ?_,h.freed,h.above,h.own,h.unused,fun t ht => ?_⟩
  rotate_left
  · have ht : t < s.nt + 1 := ht
    by_cases he : t = s.nt
    · subst he; simpa using hr
    · simp only [setTrk_of_ne y he]
      exact h.reader t (by omega)
  have hu := h.used z
  have hsum : ∑ t ∈ range s.nt, onTrack ((s.setTrk s.nt y).trk t) z =
      ∑ t ∈ range s.nt, onTrack (s.trk t) z := by
    refine sum_congr rfl fun t ht => ?_
    rw [setTrk_of_ne y (by have := mem_range.mp ht; omega)]
  have hnew : onTrack ((s.setTrk s.nt y).trk s.nt) z = if e = z then 1 else 0 := by
    rw [setTrk_self,onTrack_self y hc,he]
  simp only [holders,inQueues,onTracks,sum_range_succ,List.count_cons,beq_iff_eq] at hu ⊢
  simp only [hsum,hnew,setTrk_ent,setTrk_queue,setTrk_nq,setTrk_refs]
  omega

/-- `qe_play()` and `qe_expand()`: the track holds the entry. -/
theorem Counted.start {s : QueueMgr} {x : List Nat} {e : Nat} (h : Counted s x)
    (he : 0 < (s.ent e).used) (k : Option ListKind) : Counted (s.startTrack e k) x := by
  have hne := h.inUse he
  have hu := h.used e
  have hfr := h.freed e
  have hx (z : Nat) (hz : z ≠ e) : (e :: x).count z = x.count z := by
    rw [List.count_cons_of_ne (Ne.symm hz)]
  have hset : Counted (s.setEnt e { s.ent e with
      trk := some s.nt
      used := (s.ent e).used + 1
      expand := (s.ent e).expand || k.isSome }) (e :: x) := by
    refine h.setEnt hne ?_ hx ?_ rfl
    · dsimp only
      rw [List.count_cons_self]
      omega
    · dsimp only
      rw [hfr]
      omega
  have hqueue := hset.same (sameHolders_setQueue _ (s.ent e).q
    { s.queue (s.ent e).q with activeN := (s.queue (s.ent e).q).activeN + 1 } (fun _ => rfl))
  exact hqueue.track (y := ⟨e,k,e,false,false,false⟩) rfl rfl hne

theorem Counted.onTrack_used {s : QueueMgr} {x : List Nat} (h : Counted s x) {t : Nat}
    (ht : s.openTrk t) : 0 < (s.ent (s.trk t).qent).used := by
  have hu := h.used (s.trk t).qent
  have hle := Cells.le_sum ht.1 fun t' => onTrack (s.trk t') (s.trk t).qent
  have hone := onTrack_self (s.trk t) ht.2 (s.trk t).qent
  simp only [holders,onTracks,if_true] at hu hone hle
  omega

theorem Counted.not_freed {s : QueueMgr} {x : List Nat} (h : Counted s x) {e : Nat}
    (he : 0 < (s.ent e).used) : (s.ent e).freed = false := by
  by_contra hf
  have := ((h.freed e).mp (by simpa using hf)).2
  omega

theorem Counted.closed {s : QueueMgr} {x : List Nat} {t : Nat} (h : Counted s x) (ht : s.openTrk t) :
    Counted (s.setTrk t { s.trk t with closed := true }) ((s.trk t).qent :: x) := by
  refine ⟨fun z => ?_,h.freed,h.above,h.own,h.unused,fun y hy => ?_⟩
  rotate_left
  · by_cases he : y = t
    · subst he; simpa using h.reader y hy
    · simpa only [setTrk_of_ne _ he,setTrk_ne] using h.reader y hy
  have hu := h.used z
  have hsum := Cells.sum_change ht.1 (f := fun t => onTrack (s.trk t) z)
    (g := fun y => onTrack ((s.setTrk t { s.trk t with closed := true }).trk y) z)
    (fun y hy => by simp only [setTrk_of_ne _ hy])
  have hold : onTrack (s.trk t) z = if (s.trk t).qent = z then 1 else 0 := onTrack_self _ ht.2 z
  have hnew : onTrack { s.trk t with closed := true } z = 0 := by simp [onTrack]
  simp only [setTrk_self,hold,hnew] at hsum
  simp only [holders,inQueues,onTracks,List.count_cons,beq_iff_eq,setTrk_ent,setTrk_queue,
    setTrk_nq,setTrk_nt,setTrk_refs] at hu ⊢
  omega

theorem sameHolders_qeIndex (s : QueueMgr) (e : Nat) : SameHolders s (s.qeIndex e).1 := by
  unfold qeIndex
  dsimp only
  split
  · exact SameHolders.refl s
  · exact sameHolders_setEnt s e _ rfl rfl rfl

theorem sameHolders_setCursor (s : QueueMgr) (q e : Nat) : SameHolders s (s.setCursor q e) := by
  unfold setCursor
  dsimp only
  refine (sameHolders_setQueue s q { s.queue q with cursor := some e } fun _ => rfl).trans ?_
  refine (sameHolders_qeIndex _ e).trans ?_
  exact sameHolders_setQueue _ q _ fun _ => rfl

theorem sameHolders_qeStop (s : QueueMgr) (e : Nat) : SameHolders s (s.qeStop e) := by
  unfold qeStop
  split
  · exact SameHolders.refl s
  · exact sameHolders_setTrk s _ _ (fun _ => rfl) rfl

theorem sameHolders_forgetTrack (s : QueueMgr) (e t : Nat) (tags : Meta) :
    SameHolders s (s.forgetTrack e t tags) := by
  rw [forgetTrack_eq]
  split
  · refine (sameHolders_setEnt s e _ ?_ ?_ ?_).trans
      (sameHolders_setTrk _ t _ (fun _ => ?_) ?_) <;> rfl
  · exact SameHolders.refl s

theorem mem_of_qGet {v : PhiQueue} {i : Int} {e : Nat} (h : qGet v i = some e) : e ∈ v.index := by
  unfold qGet at h
  split at h
  · exact List.mem_of_getElem? h
  · cases h

/-- What `q_get()` finds is in use. -/
theorem Counted.got {s : QueueMgr} {x : List Nat} (h : Counted s x) {q e : Nat} {i : Int}
    (he : qGet (s.queue q) i = some e) : 0 < (s.ent e).used :=
  h.listed (mem_of_qGet he)

theorem Counted.started {s : QueueMgr} {x : List Nat} (h : Counted s x) (l : List Nat) :
    Counted { s with started := l } x := ⟨h.used,h.freed,h.above,h.own,h.unused,h.reader⟩

theorem Counted.qePlay {s : QueueMgr} {x : List Nat} {e : Nat} {c : Bool} (h : Counted s x)
    (he : 0 < (s.ent e).used) : Counted (s.qePlay e c).1 x := by
  unfold QueueMgr.qePlay
  dsimp only
  split
  · exact h.same (sameHolders_setEnt s e _ rfl rfl rfl)
  · split
    · exact (h.start he none).started _
    · exact h

theorem SameHolders.used_pos {s s' : QueueMgr} (h : SameHolders s s') {e : Nat}
    (he : 0 < (s.ent e).used) : 0 < (s'.ent e).used := by rwa [(h.ent e).1]

theorem counted_rule (x : List Nat) :
    PlayRule (fun s => Counted s x) fun s e => 0 < (s.ent e).used where
  got h hg := h.got hg
  index h := h.same (sameHolders_qeIndex _ _)
  split h := h.same (sameHolders_setQueue _ _ _ fun _ => rfl)
  stop h := ⟨h.same (sameHolders_qeStop _ _),fun _ he => (sameHolders_qeStop _ _).used_pos he⟩
  cursor h he := ⟨h.same (sameHolders_setCursor _ _ _),(sameHolders_setCursor _ _ _).used_pos he⟩
  play h he := h.qePlay he

theorem forgetTrack_trk (s : QueueMgr) (e t : Nat) (tags : Meta) (y : Nat) :
    ((s.forgetTrack e t tags).trk y).qent = (s.trk y).qent ∧
      ((s.forgetTrack e t tags).trk y).closed = (s.trk y).closed ∧
      (s.forgetTrack e t tags).nt = s.nt := by
  rw [forgetTrack_eq]
  split
  · by_cases hy : y = t
    · subst hy; simp
    · simp [setTrk_of_ne _ hy]
  · exact ⟨rfl,rfl,rfl⟩

theorem Counted.closing {s : QueueMgr} {x : List Nat} {t : Nat} {m : Meta} (h : Counted s x)
    (ht : s.openTrk t) : Counted (s.closing t m) ((s.trk t).qent :: x) := by
  have hf := forgetTrack_trk s (s.trk t).qent t m t
  have h1 := h.same (sameHolders_forgetTrack s (s.trk t).qent t m)
  unfold QueueMgr.closing
  dsimp only
  generalize s.forgetTrack (s.trk t).qent t m = s1 at *
  have h2 := h1.same (sameHolders_setQueue s1 (s1.ent (s.trk t).qent).q
    { s1.queue (s1.ent (s.trk t).qent).q with
      activeN := (s1.queue (s1.ent (s.trk t).qent).q).activeN - 1 } fun _ => rfl)
  have h3 := h2.closed (t := t) ⟨by simpa [hf.2.2] using ht.1,by simpa [hf.2.1] using ht.2⟩
  rwa [setQueue_trk,hf.1] at h3

/-- `qe_close()` drops the reference of its track. -/
theorem Counted.close {s s' : QueueMgr} {x : List Nat} {t : Nat} {fstop : Bool} {tags : Meta}
    {rnd : Nat} {ans : List Answer} (h : Counted s x) (ht : s.openTrk t)
    (hs : s.qeClose t fstop tags rnd ans = some s') : Counted s' x := by
  obtain ⟨u,hu,rfl⟩ := (counted_rule ((s.trk t).qent :: x)).close (h.closing ht) hs
  exact hu.unref

/-- `qe_index()` gives a position in the list of the queue of the entry, or `-1`. -/
theorem qeIndex_range (s : QueueMgr) (e : Nat) :
    -1 ≤ (s.qeIndex e).2 ∧ (s.qeIndex e).2 < (s.queue (s.ent e).q).index.length := by
  unfold qeIndex
  dsimp only
  split
  · rename_i hg
    unfold qGet at hg
    split at hg
    · have := (List.getElem?_eq_some_iff.mp hg).1
      dsimp only
      omega
    · cases hg
  · dsimp only
    unfold qFind
    split
    · rename_i i hi
      have := (List.idxOf?_eq_some_iff.mp hi).1
      omega
    · omega

theorem Counted.insertBehind {s : QueueMgr} {x : List Nat} {e : Nat} {b : Bool} (h : Counted s x)
    (he : e < s.ne) : Counted (s.qeInsert e b).1 x := by
  have hi := qeIndex_range s e
  refine (h.same (sameHolders_qeIndex s e)).insert ?_ ?_
  · rw [(sameHolders_qeIndex s e).nq]
    exact h.own e he
  · rw [qeIndex_queue]
    omega

theorem Counted.takeOut {s : QueueMgr} {x : List Nat} {q e : Nat} {i : Int} {v : PhiQueue}
    (h : Counted s x) (hg : qGet (s.queue q) i = some e)
    (hv : v.index = (s.queue q).index.eraseIdx i.toNat) :
    Counted ((s.setEnt e { s.ent e with index := -1 }).setQueue q v) (e :: x) := by
  unfold qGet at hg
  split at hg
  · obtain ⟨hlt,hget⟩ := List.getElem?_eq_some_iff.mp hg
    have hq : q < s.nq := by
      by_contra hle
      rw [h.unused q (by omega)] at hlt
      simp at hlt
    have h1 := h.same (sameHolders_setEnt s e { s.ent e with index := -1 } rfl rfl rfl)
    refine h1.setQueue (q := q) hq fun y => ?_
    have hp := (List.getElem_cons_eraseIdx_perm hlt).count_eq y
    rw [hget] at hp
    rw [hv]
    simp only [List.count_cons,setEnt_queue] at hp ⊢
    omega
  · cases hg

theorem Counted.removeAt {s : QueueMgr} {x : List Nat} {q : Nat} {i : Int} (h : Counted s x) :
    Counted (s.qRemoveAt q i).1 x := by
  unfold qRemoveAt
  dsimp only
  split
  · exact h
  · rename_i e hg
    exact (h.takeOut hg rfl).unref

theorem Counted.remove {s : QueueMgr} {x : List Nat} {e : Nat} (h : Counted s x) :
    Counted (s.qeRemove e).1 x := (h.same (sameHolders_qeIndex s e)).removeAt

/-- The queue as `q_free()` leaves it. -/
def emptied (s : QueueMgr) (q : Nat) : QueueMgr :=
  s.setQueue q { s.queue q with index := [], freed := true }

/-- `qe_unref()` does not read the lists. -/
theorem unref_emptied (s : QueueMgr) (q e : Nat) :
    (s.emptied q).qeUnref e = (s.qeUnref e).emptied q := by
  have hcur : ((s.emptied q).queue (s.ent e).q).cursor = (s.queue (s.ent e).q).cursor := by
    unfold emptied
    by_cases hq : (s.ent e).q = q
    · rw [hq,setQueue_self]
    · rw [setQueue_of_ne _ hq]
  unfold qeUnref
  dsimp only
  rw [setEnt_self,setEnt_self]
  have hent : (s.emptied q).ent = s.ent := rfl
  rw [hent]
  split
  · rfl
  · unfold qeFree
    simp only [setEnt_self,setEnt_queue,hcur]
    split
    · by_cases hq : (s.ent e).q = q
      · subst hq
        simp [emptied,setQueue,setEnt]
      · have hq' : q ≠ (s.ent e).q := Ne.symm hq
        simp [emptied,setQueue,setEnt,hq,hq',Function.update_comm hq]
    · simp [emptied,setQueue,setEnt]

theorem foldl_unref_emptied (l : List Nat) (s : QueueMgr) (q : Nat) :
    (l.foldl qeUnref s).emptied q = l.foldl qeUnref (s.emptied q) := by
  induction l generalizing s with
  | nil => rfl
  | cons e l ih => rw [List.foldl_cons,List.foldl_cons,ih,unref_emptied]

theorem qDestroy_eq (s : QueueMgr) (q : Nat) : s.qDestroy q =
    (s.queue q).index.foldl qeUnref ({ s with lists := s.lists.erase q }.emptied q) :=
  foldl_unref_emptied (s.queue q).index { s with lists := s.lists.erase q } q

theorem Counted.foldl_unref {l x : List Nat} {s : QueueMgr} (h : Counted s (l ++ x)) :
    Counted (l.foldl qeUnref s) x := by
  induction l generalizing s with
  | nil => exact h
  | cons e l ih => exact ih (Counted.unref h)

/-- `q_free()` drops what the queue lists. -/
theorem Counted.qFree {s : QueueMgr} {x : List Nat} {q : Nat} (h : Counted s x) (hq : q < s.nq) :
    Counted (s.qFree q) x := by
  have heq : s.qFree q = (s.queue q).index.foldl qeUnref (s.emptied q) :=
    foldl_unref_emptied (s.queue q).index s q
  rw [heq]
  exact (h.setQueue (w := (s.queue q).index ++ x) hq (by simp)).foldl_unref

theorem Counted.qDestroy {s : QueueMgr} {x : List Nat} {q : Nat} (h : Counted s x)
    (hq : q < s.nq) : Counted (s.qDestroy q) x := by
  have h1 : Counted { s with lists := s.lists.erase q } x :=
    ⟨h.used,h.freed,h.above,h.own,h.unused,h.reader⟩
  exact h1.qFree hq

/-- `q_clear()` drops what the queue lists. -/
theorem Counted.qClear {s : QueueMgr} {x : List Nat} {q : Nat} (h : Counted s x) (hq : q < s.nq) :
    Counted (s.qClear q) x := by
  have hfold (l : List Nat) (u : QueueMgr) (hu : Counted u (l ++ x)) :
      Counted (l.foldl (fun s e => (s.setEnt e { s.ent e with index := -1 }).qeUnref e) u) x := by
    induction l generalizing u with
    | nil => exact hu
    | cons e l ih =>
      exact ih _ ((hu.same (sameHolders_setEnt u e { u.ent e with index := -1 } rfl rfl rfl)).unref)
  exact hfold _ _ (h.setQueue (w := (s.queue q).index ++ x) hq (by simp))

theorem qeRef_lists (l : List Nat) (s : QueueMgr) :
    (l.foldl qeRef s).nq = s.nq ∧ (l.foldl qeRef s).queue = s.queue := by
  induction l generalizing s with
  | nil => exact ⟨rfl,rfl⟩
  | cons e l ih => exact ih (s.qeRef e)

theorem Counted.newQueue {s : QueueMgr} {l x : List Nat} {v : PhiQueue} (h : Counted s (l ++ x))
    (hv : v.index = l) (lists : List Nat) :
    Counted { s.setQueue s.nq v with nq := s.nq + 1, lists := lists } x := by
  refine ⟨fun e => ?_,h.freed,h.above,fun e he => Nat.lt_succ_of_lt (h.own e he),fun q hq => ?_,
    h.reader⟩
  · have hu := h.used e
    have hsum : ∑ q ∈ range s.nq, ((s.setQueue s.nq v).queue q).index.count e =
        ∑ q ∈ range s.nq, (s.queue q).index.count e := by
      refine sum_congr rfl fun q hq => ?_
      rw [setQueue_of_ne v (by have := mem_range.mp hq; omega)]
    simp only [holders,inQueues,onTracks,sum_range_succ,List.count_append] at hu ⊢
    simp only [hsum,setQueue_self,setQueue_ent,setQueue_trk,setQueue_nt,setQueue_refs,hv]
    omega
  · have hq : s.nq + 1 ≤ q := hq
    simpa only [setQueue_of_ne v (show q ≠ s.nq by omega)] using h.unused q (by omega)

theorem Counted.qFilter {s : QueueMgr} {x : List Nat} {q : Nat} {keep : Nat → Bool}
    (h : Counted s x) : Counted (s.qFilter q keep) x := by
  have hfold (l : List Nat) (u : QueueMgr) (y : List Nat) (hu : Counted u y)
      (hl : ∀ e ∈ l, 0 < (u.ent e).used) : Counted (l.foldl qeRef u) (l ++ y) := by
    induction l generalizing u y with
    | nil => exact hu
    | cons e l ih =>
      have href := hu.ref (hl e List.mem_cons_self)
      have hnext := ih (u.qeRef e) (e :: y) href fun z hz => by
        by_cases hze : z = e
        · subst hze; simp [qeRef]
        · simpa [qeRef,setEnt_of_ne _ hze] using hl z (List.mem_cons_of_mem e hz)
      refine ⟨fun z => ?_,hnext.freed,hnext.above,hnext.own,hnext.unused,hnext.reader⟩
      have hz := hnext.used z
      simp only [List.count_append,List.count_cons,List.foldl_cons] at hz ⊢
      omega
  have hl := hfold ((s.queue q).index.filter keep) s x h fun e he =>
    h.listed (List.mem_of_mem_filter he)
  have hn := (qeRef_lists ((s.queue q).index.filter keep) s).1
  have hnew := hl.newQueue (v := ⟨(s.queue q).conversion,(s.queue q).random,(s.queue q).repeatAll,
    (s.queue q).index.filter keep,none,0,0,false,false⟩) rfl
    ((((s.queue q).index.filter keep).foldl qeRef s).lists ++ [s.nq])
  rw [hn] at hnew
  exact hnew

theorem Counted.qCreate {s : QueueMgr} {x : List Nat} {c r a : Bool} (h : Counted s x) :
    Counted (s.qCreate c r a) x :=
  h.newQueue (l := []) (v := ⟨c,r,a,[],none,0,0,false,false⟩) rfl (s.lists ++ [s.nq])

/-- The users of `ref()` hold what is in hand. -/
theorem Counted.setRefs {s : QueueMgr} {x x' : List Nat} {r : Nat → Nat} (h : Counted s x)
    (hr : ∀ e, r e + x'.count e = s.refs e + x.count e) : Counted { s with refs := r } x' := by
  refine ⟨fun e => ?_,h.freed,h.above,h.own,h.unused,h.reader⟩
  have hu := h.used e
  have he := hr e
  have hq : ({ s with refs := r } : QueueMgr).inQueues e = s.inQueues e := rfl
  have ht : ({ s with refs := r } : QueueMgr).onTracks e = s.onTracks e := rfl
  simp only [holders,hq,ht] at hu ⊢
  omega

theorem Counted.qRef {s : QueueMgr} {x : List Nat} {q pos : Nat} (h : Counted s x) :
    Counted (s.qRef q pos) x := by
  unfold QueueMgr.qRef
  split
  · exact h
  · rename_i e hg
    refine (h.ref (h.got hg)).setRefs fun y => ?_
    by_cases hy : y = e
    · subst hy
      simp only [Function.update_self,List.count_cons_self,qeRef,setEnt_refs]
      omega
    · simp [hy,Ne.symm hy,qeRef]

theorem Counted.userUnref {s : QueueMgr} {x : List Nat} {e : Nat} (h : Counted s x)
    (he : 0 < s.refs e) :
    Counted ({ s with refs := Function.update s.refs e (s.refs e - 1) }.qeUnref e) x := by
  refine Counted.unref (h.setRefs fun y => ?_)
  by_cases hy : y = e
  · subst hy
    simp only [Function.update_self,List.count_cons_self]
    omega
  · simp [hy,Ne.symm hy]

theorem Counted.qAdd {s : QueueMgr} {x : List Nat} {q : Nat} {b : Bool} {l : Option ListKind}
    {c : Bool} (h : Counted s x) (hq : q < s.nq) : Counted (s.qAdd q b l c) x := by
  have hins := h.insert (b := b) hq (Nat.le_refl _)
  have hpos : 0 < ((s.qInsert q (s.queue q).index.length b).1.ent s.ne).used := by
    simp [qInsert]
  unfold QueueMgr.qAdd qeExpand
  dsimp only
  split
  · exact hins
  · split
    · exact hins.start hpos _
    · exact hins

/-- The reader of a list moves on to entry `e`. -/
theorem Counted.readsOn {s : QueueMgr} {x : List Nat} (h : Counted s x) (t : Nat) {e : Nat}
    (he : e < s.ne) :
    Counted (s.setTrk t { s.trk t with quCur := e, removed := true }) x := by
  have hon (y z : Nat) : onTrack ((s.setTrk t
      { s.trk t with quCur := e, removed := true }).trk y) z = onTrack (s.trk y) z := by
    by_cases hy : y = t
    · subst hy; simp [onTrack]
    · rw [setTrk_of_ne _ hy]
  refine ⟨fun z => ?_,h.freed,h.above,h.own,h.unused,fun y hy => ?_⟩
  · have hu := h.used z
    simp only [holders,onTracks,hon] at hu ⊢
    exact hu
  · by_cases hyt : y = t
    · subst hyt; simpa using he
    · simpa only [setTrk_of_ne _ hyt,setTrk_ne] using h.reader y hy

theorem Counted.readerInsert {s : QueueMgr} {x : List Nat} {t : Nat} {um : Bool} (h : Counted s x)
    (ht : s.openTrk t) : Counted (s.readerInsert t um) x := by
  have h1 := h.insertBehind (b := um) (h.reader t ht.1)
  have h2 := h1.readsOn t (e := (s.qeInsert (s.trk t).quCur um).2) (Nat.lt_succ_self _)
  unfold QueueMgr.readerInsert
  dsimp only
  split
  · exact h2
  · exact h2.remove

theorem Counted.closeTrack {s s' : QueueMgr} {x : List Nat} {t : Nat} {fstop : Bool} {tags : Meta}
    {rnd : Nat} {ans : List Answer} (h : Counted s x) (ht : s.openTrk t)
    (hs : s.closeTrack t fstop tags rnd ans = some s') : Counted s' x := by
  unfold QueueMgr.closeTrack QueueMgr.readerClose at hs
  dsimp only at hs
  split at hs
  · refine h.remove.close ?_ hs
    exact ⟨by simpa [qeRemove] using ht.1,by simpa [qeRemove] using ht.2⟩
  · exact h.close ht hs

theorem onQueue_some {s s' : QueueMgr} {q : Option Nat} {f : Nat → Option QueueMgr}
    (h : s.onQueue q f = some s') :
    ∃ y, s.theQueue q = some y ∧ s.liveQueue y ∧ f y = some s' := by
  unfold onQueue at h
  split at h
  · cases h
  · rename_i y hy
    split at h
    · exact ⟨y,hy,by assumption,h⟩
    · cases h

theorem step_counted (s : QueueMgr) (a : Op) (s' : QueueMgr) (h : Counted s [])
    (hs : s.step a = some s') : Counted s' [] := by
  have hlive {e : Nat} (he : s.liveEnt e) : 0 < (s.ent e).used := by
    have hf := h.freed e
    rw [he.2] at hf
    simp only [Bool.false_eq_true,false_iff,not_and] at hf
    exact Nat.pos_of_ne_zero (hf he.1)
  cases a with
  | create c r a =>
    cases hs
    exact h.qCreate
  | destroy q =>
    obtain ⟨y,-,hy,hs⟩ := onQueue_some hs
    cases hs
    exact h.qDestroy hy.1
  | select pos =>
    cases hs
    split
    · exact ⟨h.used,h.freed,h.above,h.own,h.unused,h.reader⟩
    · exact h
  | qselect q =>
    cases hs
    split
    · exact h
    · exact ⟨h.used,h.freed,h.above,h.own,h.unused,h.reader⟩
  | conf q c r a =>
    obtain ⟨y,-,-,hs⟩ := onQueue_some hs
    cases hs
    exact h.same (sameHolders_setQueue s y _ fun _ => rfl)
  | add q um kind created =>
    obtain ⟨y,-,hy,hs⟩ := onQueue_some hs
    cases hs
    exact h.qAdd hy.1
  | insertAt q pos um =>
    simp only [step] at hs
    obtain ⟨y,-,hy,hs⟩ := onQueue_some hs
    simp only [Option.ite_none_right_eq_some,Option.some.injEq] at hs
    obtain ⟨hpos,rfl⟩ := hs
    exact h.insert hy.1 hpos
  | insert e um =>
    simp only [step,Option.ite_none_right_eq_some,Option.some.injEq] at hs
    obtain ⟨he,rfl⟩ := hs
    exact h.insertBehind he.1
  | clear q =>
    obtain ⟨y,-,hy,hs⟩ := onQueue_some hs
    cases hs
    exact h.qClear hy.1
  | filter q keep =>
    obtain ⟨y,-,-,hs⟩ := onQueue_some hs
    cases hs
    exact h.qFilter
  | play q e rnd ans =>
    cases e with
    | some e =>
      simp only [step,Option.ite_none_right_eq_some,Option.map_eq_some_iff] at hs
      obtain ⟨he,p,hp,rfl⟩ := hs
      exact (counted_rule []).qPlay h (fun z hz => by cases hz; exact hlive he) hp
    | none =>
      obtain ⟨y,-,-,hs⟩ := onQueue_some hs
      obtain ⟨p,hp,rfl⟩ := Option.map_eq_some_iff.mp hs
      exact (counted_rule []).qPlay h (by simp) hp
  | playNext q rnd ans =>
    obtain ⟨y,-,-,hs⟩ := onQueue_some hs
    obtain ⟨p,hp,rfl⟩ := Option.map_eq_some_iff.mp hs
    exact (counted_rule []).next h hp
  | playPrev q rnd ans =>
    obtain ⟨y,-,-,hs⟩ := onQueue_some hs
    obtain ⟨p,hp,rfl⟩ := Option.map_eq_some_iff.mp hs
    exact (counted_rule []).prev h hp
  | ref q pos =>
    obtain ⟨y,-,-,hs⟩ := onQueue_some hs
    cases hs
    exact h.qRef
  | unref e =>
    simp only [step,Option.ite_none_right_eq_some,Option.some.injEq] at hs
    obtain ⟨he,rfl⟩ := hs
    exact h.userUnref he
  | removeAt q pos =>
    obtain ⟨y,-,-,hs⟩ := onQueue_some hs
    cases hs
    exact h.removeAt
  | remove e =>
    simp only [step,Option.ite_none_right_eq_some,Option.some.injEq] at hs
    obtain ⟨-,rfl⟩ := hs
    exact h.remove
  | sort q l =>
    obtain ⟨y,-,-,hs⟩ := onQueue_some hs
    simp only [Option.ite_none_right_eq_some,Option.some.injEq] at hs
    obtain ⟨hl,rfl⟩ := hs
    exact h.same (sameHolders_setQueue s y _ fun e => hl.count_eq e)
  | readerInsert t um =>
    simp only [step,Option.ite_none_right_eq_some,Option.some.injEq] at hs
    obtain ⟨⟨ht,-⟩,rfl⟩ := hs
    exact h.readerInsert ht
  | close t fstop tags rnd ans =>
    simp only [step,Option.ite_none_right_eq_some] at hs
    exact h.closeTrack hs.1.1 hs.2

theorem init_counted : Counted init [] where
  used e := by simp [init,holders,inQueues,onTracks,default]
  freed e := by simp [init,default]
  above e _ := rfl
  own e he := by simp [init] at he
  unused q _ := rfl
  reader t ht := by simp [init] at ht

theorem run_counted {as : List Op} {s : QueueMgr} (hrun : Machine.run step init as = some s) :
    Counted s [] := Machine.run_invariant step_counted hrun init_counted

end QueueMgr

end Phiola
