import Phiola.Queue.Choice
import Phiola.Queue.Ownership

/-!
# Track accounting

`active_n` goes up when `qe_play()` or `qe_expand()` starts a track and down in `qe_close()`, and an
entry points to the track that was started last on it, until that track is closed.
-/

namespace Phiola

namespace QueueMgr

open Finset

/-- `Q_PLAYING` -/
def qPlaying : Nat := 1

/-- `q_status()` -/
def qStatus (s : QueueMgr) (q : Nat) : Nat := if (s.queue q).activeN ≠ 0 then qPlaying else 0

/-- Whether the open track is on an entry of queue `q`, as a number. -/
def onEntryOf (s : QueueMgr) (q t : Nat) : Nat :=
  if (s.trk t).closed = false ∧ (s.ent (s.trk t).qent).q = q then 1 else 0

/-- How many open tracks are on entries of queue `q`. -/
def openOn (s : QueueMgr) (q : Nat) : Nat := ∑ t ∈ range s.nt, s.onEntryOf q t

/-- `active_n` counts the open tracks, and an entry points to an open track of its own. -/
structure Accounts (s : QueueMgr) : Prop where
  count : ∀ q, (s.queue q).activeN = s.openOn q
  pointer : ∀ e t, (s.ent e).trk = some t → s.openTrk t ∧ (s.trk t).qent = e

/-- The two stores agree on all that the accounts are about. -/
structure SameTracks (s s' : QueueMgr) : Prop where
  nt : s'.nt = s.nt
  active : ∀ q, (s'.queue q).activeN = (s.queue q).activeN
  ent : ∀ e, (s'.ent e).trk = (s.ent e).trk ∧ (s'.ent e).q = (s.ent e).q
  trk : ∀ t, (s'.trk t).closed = (s.trk t).closed ∧ (s'.trk t).qent = (s.trk t).qent
  stopped : ∀ t, (s'.trk t).stopped = (s.trk t).stopped

/-- The tracks of `s` are as open as they were, those started since are open, and what was stopped
since is open. -/
structure Opened (s s' : QueueMgr) : Prop where
  nt : s.nt ≤ s'.nt
  old : ∀ t, t < s.nt → (s'.trk t).closed = (s.trk t).closed
  new : ∀ t, s.nt ≤ t → t < s'.nt → (s'.trk t).closed = false
  stopped : ∀ t, t < s.nt → (s'.trk t).stopped = true → (s.trk t).stopped = true ∨ s.openTrk t

theorem Opened.refl (s : QueueMgr) : Opened s s :=
  ⟨Nat.le_refl _,fun _ _ => rfl,fun _ h h' => absurd h' (Nat.not_lt.mpr h),fun _ _ => .inl⟩

theorem Opened.of_trk {s u : QueueMgr} (hnt : u.nt = s.nt) (htrk : u.trk = s.trk) : Opened s u :=
  ⟨Nat.le_of_eq hnt.symm,fun _ _ => by rw [htrk],fun _ h h' => by omega,
    fun _ _ h => .inl (htrk ▸ h)⟩

theorem Opened.same {s₀ s s' : QueueMgr} (h : Opened s₀ s) (hs : SameTracks s s') : Opened s₀ s' where
  nt := hs.nt ▸ h.nt
  old t ht := (hs.trk t).1.trans (h.old t ht)
  new t ht ht' := (hs.trk t).1.trans (h.new t ht (hs.nt ▸ ht'))
  stopped t ht hst := h.stopped t ht ((hs.stopped t).symm.trans hst)

theorem Opened.of_same {s u s' : QueueMgr} (hs : SameTracks s u) (h : Opened u s') : Opened s s' where
  nt := hs.nt ▸ h.nt
  old t ht := (h.old t (hs.nt ▸ ht)).trans (hs.trk t).1
  new t ht ht' := h.new t (hs.nt ▸ ht) ht'
  stopped t ht hst := by
    rcases h.stopped t (hs.nt ▸ ht) hst with hold | hopen
    · exact .inl ((hs.stopped t).symm.trans hold)
    · exact .inr ⟨ht,(hs.trk t).1.symm.trans hopen.2⟩

theorem Opened.startTrack {s₀ s : QueueMgr} (h : Opened s₀ s) (e : Nat) (k : Option ListKind) :
    Opened s₀ (s.startTrack e k) := by
  have htrk (t : Nat) (ht : t ≠ s.nt) : (s.startTrack e k).trk t = s.trk t :=
    setTrk_of_ne _ ht
  refine ⟨Nat.le_succ_of_le h.nt,fun t ht => ?_,fun t ht ht' => ?_,fun t ht => ?_⟩
  · rw [htrk t (Nat.ne_of_lt (Nat.lt_of_lt_of_le ht h.nt))]
    exact h.old t ht
  · by_cases hnew : t = s.nt
    · subst hnew
      change ((setTrk _ s.nt _).trk s.nt).closed = false
      rw [setTrk_self]
    · rw [htrk t hnew]
      have hlt : t < s.nt + 1 := ht'
      exact h.new t ht (by omega)
  · rw [htrk t (Nat.ne_of_lt (Nat.lt_of_lt_of_le ht h.nt))]
    exact h.stopped t ht

theorem Opened.qePlay {s₀ s : QueueMgr} (h : Opened s₀ s) (e : Nat) (c : Bool) :
    Opened s₀ (s.qePlay e c).1 := by
  unfold QueueMgr.qePlay
  dsimp only
  split
  · exact ⟨h.nt,h.old,h.new,h.stopped⟩
  · split
    · have hs := h.startTrack e none
      exact ⟨hs.nt,hs.old,hs.new,hs.stopped⟩
    · exact h

theorem Opened.expand {s₀ s : QueueMgr} (h : Opened s₀ s) (e : Nat) (k : Option ListKind)
    (c : Bool) : Opened s₀ (s.qeExpand e k c).1 := by
  unfold qeExpand
  split
  · exact h
  · split
    · exact h.startTrack e _
    · exact h

/-- `qe_stop()` addresses an open track. -/
theorem Opened.qeStop {s₀ s : QueueMgr} (h : Opened s₀ s) (ha : Accounts s) (e : Nat) :
    Opened s₀ (s.qeStop e) := by
  unfold QueueMgr.qeStop
  split
  · exact h
  · rename_i t ht
    have hopen := (ha.pointer e t ht).1
    have hclosed (y : Nat) :
        ((s.setTrk t { s.trk t with stopped := true }).trk y).closed = (s.trk y).closed := by
      by_cases hy : y = t
      · subst hy
        rw [setTrk_self]
      · rw [setTrk_of_ne _ hy]
    refine ⟨h.nt,fun y hy => ?_,fun y hy hy' => ?_,fun y hy hst => ?_⟩
    · rw [hclosed]
      exact h.old y hy
    · rw [hclosed]
      exact h.new y hy hy'
    · by_cases hyt : y = t
      · subst hyt
        exact .inr ⟨hy,(h.old y hy).symm.trans hopen.2⟩
      · rw [setTrk_of_ne _ hyt] at hst
        exact h.stopped y hy hst

namespace SameTracks

theorem refl (s : QueueMgr) : SameTracks s s :=
  ⟨rfl,fun _ => rfl,fun _ => ⟨rfl,rfl⟩,fun _ => ⟨rfl,rfl⟩,fun _ => rfl⟩

theorem trans {s t u : QueueMgr} (h : SameTracks s t) (h' : SameTracks t u) : SameTracks s u where
  nt := h'.nt.trans h.nt
  active q := (h'.active q).trans (h.active q)
  ent e := ⟨(h'.ent e).1.trans (h.ent e).1,(h'.ent e).2.trans (h.ent e).2⟩
  trk t := ⟨(h'.trk t).1.trans (h.trk t).1,(h'.trk t).2.trans (h.trk t).2⟩
  stopped t := (h'.stopped t).trans (h.stopped t)

theorem setQueue (s : QueueMgr) (q : Nat) {v : PhiQueue} (hv : v.activeN = (s.queue q).activeN) :
    SameTracks s (s.setQueue q v) := by
  refine ⟨rfl,fun y => ?_,fun _ => ⟨rfl,rfl⟩,fun _ => ⟨rfl,rfl⟩,fun _ => rfl⟩
  by_cases hy : y = q
  · subst hy
    rw [setQueue_self]
    exact hv
  · rw [setQueue_of_ne v hy]

theorem setEnt (s : QueueMgr) (e : Nat) {x : QEntry} (ht : x.trk = (s.ent e).trk)
    (hq : x.q = (s.ent e).q) : SameTracks s (s.setEnt e x) := by
  refine ⟨rfl,fun _ => rfl,fun y => ?_,fun _ => ⟨rfl,rfl⟩,fun _ => rfl⟩
  by_cases hy : y = e
  · subst hy
    rw [setEnt_self]
    exact ⟨ht,hq⟩
  · rw [setEnt_of_ne x hy]
    exact ⟨rfl,rfl⟩

theorem setTrk (s : QueueMgr) (t : Nat) {x : QTrack} (hc : x.closed = (s.trk t).closed)
    (he : x.qent = (s.trk t).qent) (hs : x.stopped = (s.trk t).stopped) :
    SameTracks s (s.setTrk t x) := by
  refine ⟨rfl,fun _ => rfl,fun _ => ⟨rfl,rfl⟩,fun y => ?_,fun y => ?_⟩
  · by_cases hy : y = t
    · subst hy
      rw [setTrk_self]
      exact ⟨hc,he⟩
    · rw [setTrk_of_ne x hy]
      exact ⟨rfl,rfl⟩
  · by_cases hy : y = t
    · subst hy
      rw [setTrk_self]
      exact hs
    · rw [setTrk_of_ne x hy]

theorem unref (s : QueueMgr) (e : Nat) : SameTracks s (s.qeUnref e) := by
  rw [qeUnref_eq]
  apply (setQueue s _ ?_).trans (setEnt _ e ?_ ?_) <;> rfl

theorem foldl {f : QueueMgr → Nat → QueueMgr} (hf : ∀ s e, SameTracks s (f s e)) (l : List Nat)
    (s : QueueMgr) : SameTracks s (l.foldl f s) := by
  induction l generalizing s with
  | nil => exact refl s
  | cons e l ih => exact (hf s e).trans (ih (f s e))

theorem qeIndex (s : QueueMgr) (e : Nat) : SameTracks s (s.qeIndex e).1 := by
  rw [qeIndex_fst]
  apply setEnt <;> rfl

theorem setCursor (s : QueueMgr) (q e : Nat) : SameTracks s (s.setCursor q e) := by
  rw [setCursor_eq]
  apply (setEnt s e _ _).trans
  · apply setQueue
    rfl
  · rfl
  · rfl

theorem removeAt (s : QueueMgr) (q : Nat) (pos : Int) : SameTracks s (s.qRemoveAt q pos).1 := by
  unfold qRemoveAt
  dsimp only
  split
  · exact refl s
  · rename_i e hg
    apply trans _ (unref _ _)
    apply (setEnt s e _ _).trans
    · apply setQueue
      rfl
    · rfl
    · rfl

theorem remove (s : QueueMgr) (e : Nat) : SameTracks s (s.qeRemove e).1 :=
  (qeIndex s e).trans (removeAt _ _ _)

theorem destroy (s : QueueMgr) (q : Nat) : SameTracks s (s.qDestroy q) := by
  have hfold := foldl unref (s.queue q).index { s with lists := s.lists.erase q }
  have hset := hfold.trans (setQueue _ q (v := { (List.foldl qeUnref
    { s with lists := s.lists.erase q } (s.queue q).index).queue q with
      index := [], freed := true }) rfl)
  exact ⟨hset.nt,hset.active,hset.ent,hset.trk,hset.stopped⟩

theorem clear (s : QueueMgr) (q : Nat) : SameTracks s (s.qClear q) := by
  apply (setQueue s q (v := { s.queue q with index := [] }) rfl).trans
  apply foldl
  intro u e
  apply (setEnt u e _ _).trans (unref _ _) <;> rfl

theorem ref (s : QueueMgr) (q pos : Nat) : SameTracks s (s.qRef q pos) := by
  unfold qRef
  split
  · exact refl s
  · rename_i e hg
    have hset := setEnt s e (x := { s.ent e with used := (s.ent e).used + 1 }) rfl rfl
    exact ⟨hset.nt,hset.active,hset.ent,hset.trk,hset.stopped⟩

theorem readerClose (s : QueueMgr) (t : Nat) : SameTracks s (s.readerClose t) := by
  unfold QueueMgr.readerClose
  dsimp only
  split
  · apply remove
  · exact refl s

end SameTracks

namespace Accounts

theorem same {s s' : QueueMgr} (h : Accounts s) (hs : SameTracks s s') : Accounts s' where
  count q := by
    rw [hs.active,h.count]
    simp only [openOn,onEntryOf,hs.nt,(hs.trk _).1,(hs.trk _).2,(hs.ent _).2]
  pointer e t ht := by
    rw [(hs.ent e).1] at ht
    obtain ⟨⟨hlt,hopen⟩,hqent⟩ := h.pointer e t ht
    exact ⟨⟨hs.nt ▸ hlt,(hs.trk t).1.trans hopen⟩,(hs.trk t).2.trans hqent⟩

theorem qeStop {s : QueueMgr} (h : Accounts s) (e : Nat) : Accounts (s.qeStop e) := by
  unfold QueueMgr.qeStop
  split
  · exact h
  · rename_i t ht
    have htrk (y : Nat) : ((s.setTrk t { s.trk t with stopped := true }).trk y).closed =
        (s.trk y).closed ∧
          ((s.setTrk t { s.trk t with stopped := true }).trk y).qent = (s.trk y).qent := by
      by_cases hy : y = t
      · subst hy
        simp
      · simp [setTrk_of_ne _ hy]
    refine ⟨fun q => ?_,fun e y hy => ?_⟩
    · rw [setTrk_queue,h.count]
      simp only [openOn,onEntryOf,(htrk _).1,(htrk _).2,setTrk_nt,setTrk_ent]
    · rw [openTrk,(htrk y).1,(htrk y).2]
      exact h.pointer e y hy

theorem startTrack {s : QueueMgr} (h : Accounts s) (e : Nat) (k : Option ListKind) :
    Accounts (s.startTrack e k) := by
  have hq (y : Nat) : ((s.startTrack e k).ent y).q = (s.ent y).q := by
    by_cases hy : y = e
    · subst hy
      simp [QueueMgr.startTrack]
    · simp [QueueMgr.startTrack,setEnt_of_ne _ hy]
  have htrk (t : Nat) (ht : t ≠ s.nt) : (s.startTrack e k).trk t = s.trk t :=
    setTrk_of_ne _ ht
  have hnew : (s.startTrack e k).trk s.nt = ⟨e,k,e,false,false,false⟩ := setTrk_self _ _ _
  refine ⟨fun q => ?_,fun y t hy => ?_⟩
  · have hsum : ∑ t ∈ range s.nt, (s.startTrack e k).onEntryOf q t = s.openOn q := by
      apply sum_congr rfl
      intro t ht
      unfold onEntryOf
      rw [htrk t (Nat.ne_of_lt (mem_range.mp ht)),hq]
    have hlast : (s.startTrack e k).onEntryOf q s.nt = if (s.ent e).q = q then 1 else 0 := by
      unfold onEntryOf
      rw [hnew,hq]
      simp
    have hopen : (s.startTrack e k).openOn q = s.openOn q + if (s.ent e).q = q then 1 else 0 := by
      rw [← hlast,← hsum]
      exact sum_range_succ _ _
    have hactive : ((s.startTrack e k).queue q).activeN =
        (s.queue q).activeN + if (s.ent e).q = q then 1 else 0 := by
      by_cases hqe : q = (s.ent e).q
      · subst hqe
        simp [QueueMgr.startTrack]
      · simp [QueueMgr.startTrack,setQueue_of_ne _ hqe,Ne.symm hqe]
    rw [hactive,hopen,h.count]
    split <;> simp
  · by_cases hye : y = e
    · subst hye
      have ht : t = s.nt := by
        simpa [QueueMgr.startTrack,eq_comm] using hy
      subst ht
      rw [openTrk,hnew]
      exact ⟨⟨Nat.lt_succ_self _,rfl⟩,rfl⟩
    · have hold : ((s.startTrack e k).ent y).trk = (s.ent y).trk := by
        simp [QueueMgr.startTrack,setEnt_of_ne _ hye]
      obtain ⟨⟨hlt,hopen⟩,hqent⟩ := h.pointer y t (hold ▸ hy)
      rw [openTrk,htrk t (Nat.ne_of_lt hlt)]
      exact ⟨⟨Nat.lt_succ_of_lt hlt,hopen⟩,hqent⟩

theorem qePlay {s : QueueMgr} (h : Accounts s) (e : Nat) (c : Bool) : Accounts (s.qePlay e c).1 := by
  unfold QueueMgr.qePlay
  dsimp only
  split
  · exact h.same (SameTracks.setEnt s e rfl rfl)
  · split
    · have hs := h.startTrack e none
      exact ⟨hs.count,hs.pointer⟩
    · exact h

theorem expand {s : QueueMgr} (h : Accounts s) (e : Nat) (k : Option ListKind) (c : Bool) :
    Accounts (s.qeExpand e k c).1 := by
  unfold qeExpand
  split
  · exact h
  · split
    · exact h.startTrack e _
    · exact h

theorem insert {s : QueueMgr} {x : List Nat} (h : Accounts s) (hc : Counted s x) (q pos : Nat)
    (um : Bool) : Accounts (s.qInsert q pos um).1 := by
  have hent (y : Nat) (hy : y ≠ s.ne) : (s.qInsert q pos um).1.ent y = s.ent y := setEnt_of_ne _ hy
  have hqent {t : Nat} (ht : s.openTrk t) : (s.trk t).qent ≠ s.ne :=
    Nat.ne_of_lt (hc.inUse (hc.onTrack_used ht))
  refine ⟨fun y => ?_,fun y t hy => ?_⟩
  · have hactive : ((s.qInsert q pos um).1.queue y).activeN = (s.queue y).activeN := by
      by_cases hyq : y = q
      · subst hyq
        simp [qInsert]
      · simp [qInsert,setQueue_of_ne _ hyq]
    rw [hactive,h.count]
    congr 1
    apply sum_congr rfl
    intro t ht
    unfold onEntryOf
    change _ = if (s.trk t).closed = false ∧
      ((s.qInsert q pos um).1.ent (s.trk t).qent).q = y then 1 else 0
    cases hclosed : (s.trk t).closed with
    | true => simp
    | false => rw [hent _ (hqent ⟨mem_range.mp ht,hclosed⟩)]
  · by_cases hye : y = s.ne
    · subst hye
      simp [qInsert] at hy
    · rw [hent y hye] at hy
      exact h.pointer y t hy

theorem newQueue {s : QueueMgr} (h : Accounts s)
    (hown : ∀ t, s.openTrk t → (s.ent (s.trk t).qent).q < s.nq) {v : PhiQueue}
    (hv : v.activeN = 0) (l : List Nat) :
    Accounts { s.setQueue s.nq v with nq := s.nq + 1, lists := l } := by
  refine ⟨fun y => ?_,h.pointer⟩
  change ((s.setQueue s.nq v).queue y).activeN = s.openOn y
  by_cases hy : y = s.nq
  · subst hy
    have hzero : s.openOn s.nq = 0 := by
      apply sum_eq_zero
      intro t ht
      apply if_neg
      rintro ⟨hopen,hq⟩
      have hlt := hown t ⟨mem_range.mp ht,hopen⟩
      omega
    rw [setQueue_self,hv,hzero]
    rfl
  · rw [setQueue_of_ne v hy]
    exact h.count y

theorem closing {s : QueueMgr} (h : Accounts s) {t : Nat} (ht : s.openTrk t) (tags : Meta) :
    Accounts (s.closing t tags) := by
  obtain ⟨hqueue,-⟩ := forgetTrack_queue s (s.trk t).qent t tags
  have htrk := forgetTrack_trk s (s.trk t).qent t tags
  have hent (y : Nat) : ((s.forgetTrack (s.trk t).qent t tags).ent y).q = (s.ent y).q ∧
      ∀ x, ((s.forgetTrack (s.trk t).qent t tags).ent y).trk = some x →
        (s.ent y).trk = some x ∧ (y = (s.trk t).qent → x ≠ t) := by
    rw [forgetTrack_eq]
    split
    · by_cases hy : y = (s.trk t).qent
      · subst hy
        simp
      · simp [setEnt_of_ne _ hy,hy]
    · rename_i hother
      refine ⟨rfl,fun x hx => ⟨hx,?_⟩⟩
      rintro rfl rfl
      exact hother hx
  unfold QueueMgr.closing
  dsimp only
  generalize s.forgetTrack (s.trk t).qent t tags = u at *
  have hclosed : ((u.setQueue (u.ent (s.trk t).qent).q { u.queue (u.ent (s.trk t).qent).q with
      activeN := (u.queue (u.ent (s.trk t).qent).q).activeN - 1 }).trk t) = u.trk t := rfl
  rw [hclosed]
  refine ⟨fun q => ?_,fun y x hy => ?_⟩
  · have hactive : ((u.setQueue (u.ent (s.trk t).qent).q { u.queue (u.ent (s.trk t).qent).q with
        activeN := (u.queue (u.ent (s.trk t).qent).q).activeN - 1 }).queue q).activeN =
          (s.queue q).activeN - if (s.ent (s.trk t).qent).q = q then 1 else 0 := by
      rw [(hent _).1,← hqueue]
      by_cases hq : q = (s.ent (s.trk t).qent).q
      · subst hq
        simp
      · simp [setQueue_of_ne _ hq,Ne.symm hq]
    have hone : u.onEntryOf q t = if (s.ent (s.trk t).qent).q = q then 1 else 0 := by
      unfold onEntryOf
      rw [(htrk t).1,(htrk t).2.1,(hent _).1,ht.2]
      simp
    have hsum : u.openOn q = s.openOn q := by
      simp only [openOn,onEntryOf,(htrk _).1,(htrk _).2.1,(htrk t).2.2,(hent _).1]
    have hchange := Cells.sum_change (n := u.nt) (i := t) (by rw [(htrk t).2.2]; exact ht.1)
      (f := u.onEntryOf q) (g := (u.setTrk t { u.trk t with closed := true }).onEntryOf q)
      (fun y hy => by simp only [onEntryOf,setTrk_of_ne _ hy,setTrk_ent])
    have hzero : (u.setTrk t { u.trk t with closed := true }).onEntryOf q t = 0 := by
      simp [onEntryOf]
    rw [hzero,hone,Nat.add_zero] at hchange
    change (_ : Int) = (∑ y ∈ range u.nt, (u.setTrk t { u.trk t with closed := true }).onEntryOf q y : Nat)
    rw [setTrk_queue,hactive,h.count,← hsum]
    unfold openOn
    rw [← hchange]
    split <;> simp
  · obtain ⟨hx,hother⟩ := (hent y).2 x hy
    obtain ⟨⟨hlt,hopen⟩,hqent⟩ := h.pointer y x hx
    have hne : x ≠ t := by
      rintro rfl
      exact hother hqent.symm rfl
    rw [openTrk,setTrk_of_ne _ hne]
    exact ⟨⟨by simpa [(htrk t).2.2] using hlt,(htrk x).2.1.trans hopen⟩,(htrk x).1.trans hqent⟩

theorem rule (s₀ : QueueMgr) : PlayRule (fun s => Accounts s ∧ Opened s₀ s) fun _ _ => True where
  got _ _ := trivial
  index h := ⟨h.1.same (.qeIndex _ _),h.2.same (.qeIndex _ _)⟩
  split h := ⟨h.1.same (.setQueue _ _ rfl),h.2.same (.setQueue _ _ rfl)⟩
  stop h := ⟨⟨h.1.qeStop _,h.2.qeStop h.1 _⟩,fun _ _ => trivial⟩
  cursor h _ := ⟨⟨h.1.same (.setCursor _ _ _),h.2.same (.setCursor _ _ _)⟩,trivial⟩
  play h _ := ⟨h.1.qePlay _ _,h.2.qePlay _ _⟩

theorem readerInsert {s : QueueMgr} (h : Accounts s) (hc : Counted s []) (t : Nat) (um : Bool) :
    Accounts (s.readerInsert t um) ∧ Opened s (s.readerInsert t um) := by
  have hindex := SameTracks.qeIndex s (s.trk t).quCur
  have hinsert := (h.same hindex).insert (hc.same (sameHolders_qeIndex s _)) (s.ent (s.trk t).quCur).q
    ((s.qeIndex (s.trk t).quCur).2 + 1).toNat um
  have hnew := qeInsert_new s (s.trk t).quCur um
  have hopened : Opened s (s.qeInsert (s.trk t).quCur um).1 := .of_trk hnew.2.2.1 hnew.2.2.2.1
  unfold QueueMgr.readerInsert
  dsimp only
  change Accounts (s.qeInsert (s.trk t).quCur um).1 at hinsert
  generalize s.qeInsert (s.trk t).quCur um = p at *
  have hset : SameTracks p.1
      (p.1.setTrk t { p.1.trk t with quCur := p.2, removed := true }) := .setTrk _ _ rfl rfl rfl
  split
  · exact ⟨hinsert.same hset,hopened.same hset⟩
  · have hremove := hset.trans (.remove _ (s.trk t).qent)
    exact ⟨hinsert.same hremove,hopened.same hremove⟩

theorem closeTrack {s s' : QueueMgr} (h : Accounts s) {t : Nat} (ht : s.openTrk t) {fstop : Bool}
    {tags : Meta} {rnd : Nat} {ans : List Answer} (hs : s.closeTrack t fstop tags rnd ans = some s') :
    Accounts s' ∧ Opened (s.setTrk t { s.trk t with closed := true, stopped := true }) s' := by
  have hreader := SameTracks.readerClose s t
  have hacc := h.same hreader
  have ht' : (s.readerClose t).openTrk t := ⟨hreader.nt ▸ ht.1,(hreader.trk t).1.trans ht.2⟩
  obtain ⟨u,⟨hu,hopened⟩,rfl⟩ := (rule ((s.readerClose t).closing t tags)).close
    ⟨hacc.closing ht' tags,Opened.refl _⟩ hs
  have hforget := forgetTrack_trk (s.readerClose t) ((s.readerClose t).trk t).qent t tags
  have hnt : ((s.readerClose t).closing t tags).nt = s.nt := (hforget t).2.2.trans hreader.nt
  have hself : (((s.readerClose t).closing t tags).trk t).closed = true := by
    unfold QueueMgr.closing
    dsimp only
    rw [setTrk_self]
  have hother (y : Nat) (hy : y ≠ t) :
      ((s.readerClose t).closing t tags).trk y = (s.readerClose t).trk y := by
    unfold QueueMgr.closing
    dsimp only
    rw [setTrk_of_ne _ hy,setQueue_trk,forgetTrack_eq]
    split
    · rw [setTrk_of_ne _ hy,setEnt_trk]
    · rfl
  have hopened' := hopened.same (.unref u ((s.readerClose t).trk t).qent)
  refine ⟨hu.same (.unref _ _),⟨hnt ▸ hopened'.nt,fun y hy => ?_,fun y hy => ?_,fun y hy hst => ?_⟩⟩
  · rw [hopened'.old y (hnt ▸ hy)]
    by_cases hyt : y = t
    · subst hyt
      rw [hself,setTrk_self]
    · rw [hother y hyt,setTrk_of_ne _ hyt]
      exact (hreader.trk y).1
  · exact hopened'.new y (hnt ▸ hy)
  · by_cases hyt : y = t
    · subst hyt
      exact .inl (by rw [setTrk_self])
    · rw [openTrk,setTrk_of_ne _ hyt]
      rcases hopened'.stopped y (hnt ▸ hy) hst with hold | ⟨-,hopen⟩
      · rw [hother y hyt,hreader.stopped] at hold
        exact .inl hold
      · rw [hother y hyt,(hreader.trk y).1] at hopen
        exact .inr ⟨hy,hopen⟩

end Accounts

theorem init_accounts : Accounts init := ⟨fun _ => rfl,fun _ _ h => by cases h⟩

/-- The end of a track. -/
def Op.closesTrack : Op → Bool
  | .close _ _ _ _ _ => true
  | _ => false

theorem step_accounts {s s' : QueueMgr} {a : Op} (hc : Counted s []) (h : Accounts s)
    (ha : a.closesTrack = false) (hs : s.step a = some s') : Accounts s' ∧ Opened s s' := by
  have hsame {u : QueueMgr} (hu : SameTracks s u) : Accounts u ∧ Opened s u :=
    ⟨h.same hu,(Opened.refl s).same hu⟩
  have hrule := Accounts.rule s
  have hstart : Accounts s ∧ Opened s s := ⟨h,.refl s⟩
  have hown (t : Nat) (ht : s.openTrk t) : (s.ent (s.trk t).qent).q < s.nq :=
    hc.own _ (hc.inUse (hc.onTrack_used ht))
  cases a with
  | create c r a =>
    cases hs
    exact ⟨h.newQueue hown rfl _,.of_trk rfl rfl⟩
  | destroy y =>
    obtain ⟨z,-,-,hs⟩ := onQueue_some hs
    cases hs
    exact hsame (.destroy s z)
  | select pos =>
    cases hs
    split
    · exact ⟨⟨h.count,h.pointer⟩,.of_trk rfl rfl⟩
    · exact hstart
  | qselect y =>
    cases hs
    split
    · exact hstart
    · exact ⟨⟨h.count,h.pointer⟩,.of_trk rfl rfl⟩
  | conf y c r a =>
    obtain ⟨z,-,-,hs⟩ := onQueue_some hs
    cases hs
    exact hsame (.setQueue s z rfl)
  | add y um kind created =>
    obtain ⟨z,-,-,hs⟩ := onQueue_some hs
    cases hs
    have hinsert := h.insert hc z (s.queue z).index.length um
    have hopened : Opened s (s.qInsert z (s.queue z).index.length um).1 := .of_trk rfl rfl
    exact ⟨hinsert.expand _ kind created,hopened.expand _ kind created⟩
  | insertAt y pos um =>
    simp only [step] at hs
    obtain ⟨z,-,-,hs⟩ := onQueue_some hs
    simp only [Option.ite_none_right_eq_some,Option.some.injEq] at hs
    obtain ⟨-,rfl⟩ := hs
    exact ⟨h.insert hc z pos um,.of_trk rfl rfl⟩
  | insert e um =>
    simp only [step,Option.ite_none_right_eq_some,Option.some.injEq] at hs
    obtain ⟨-,rfl⟩ := hs
    have hindex := SameTracks.qeIndex s e
    have hnew := qeInsert_new s e um
    exact ⟨(h.same hindex).insert (hc.same (sameHolders_qeIndex s e)) _ _ um,
      .of_trk hnew.2.2.1 hnew.2.2.2.1⟩
  | clear y =>
    obtain ⟨z,-,-,hs⟩ := onQueue_some hs
    cases hs
    exact hsame (.clear s z)
  | filter y keep =>
    obtain ⟨z,-,-,hs⟩ := onQueue_some hs
    cases hs
    have href := SameTracks.foldl (f := qeRef) (fun u e => .setEnt u e rfl rfl)
      ((s.queue z).index.filter keep) s
    have hnq := (qeRef_lists ((s.queue z).index.filter keep) s).1
    have hnew := (h.same href).newQueue (v := ⟨(s.queue z).conversion,(s.queue z).random,
      (s.queue z).repeatAll,(s.queue z).index.filter keep,none,0,0,false,false⟩) (fun t ht => by
        rw [(href.trk t).2,(href.ent _).2,hnq]
        exact hown t ⟨href.nt ▸ ht.1,(href.trk t).1.symm.trans ht.2⟩) rfl
      ((((s.queue z).index.filter keep).foldl qeRef s).lists ++ [s.nq])
    rw [hnq] at hnew
    exact ⟨hnew,.of_same href (.of_trk rfl rfl)⟩
  | play y e rnd ans =>
    cases e with
    | some e =>
      simp only [step,Option.ite_none_right_eq_some,Option.map_eq_some_iff] at hs
      obtain ⟨-,p,hp,rfl⟩ := hs
      exact hrule.qPlay hstart (fun _ _ => trivial) hp
    | none =>
      obtain ⟨z,-,-,hs⟩ := onQueue_some hs
      obtain ⟨p,hp,rfl⟩ := Option.map_eq_some_iff.mp hs
      exact hrule.qPlay hstart (by simp) hp
  | playNext y rnd ans =>
    obtain ⟨z,-,-,hs⟩ := onQueue_some hs
    obtain ⟨p,hp,rfl⟩ := Option.map_eq_some_iff.mp hs
    exact hrule.next hstart hp
  | playPrev y rnd ans =>
    obtain ⟨z,-,-,hs⟩ := onQueue_some hs
    obtain ⟨p,hp,rfl⟩ := Option.map_eq_some_iff.mp hs
    exact hrule.prev hstart hp
  | ref y pos =>
    obtain ⟨z,-,-,hs⟩ := onQueue_some hs
    cases hs
    exact hsame (.ref s z pos)
  | unref e =>
    simp only [step,Option.ite_none_right_eq_some,Option.some.injEq] at hs
    obtain ⟨-,rfl⟩ := hs
    have hunref := SameTracks.unref { s with refs := Function.update s.refs e (s.refs e - 1) } e
    exact hsame ⟨hunref.nt,hunref.active,hunref.ent,hunref.trk,hunref.stopped⟩
  | removeAt y pos =>
    obtain ⟨z,-,-,hs⟩ := onQueue_some hs
    cases hs
    exact hsame (.removeAt s z pos)
  | remove e =>
    simp only [step,Option.ite_none_right_eq_some,Option.some.injEq] at hs
    obtain ⟨-,rfl⟩ := hs
    exact hsame (.remove s e)
  | sort y l =>
    obtain ⟨z,-,-,hs⟩ := onQueue_some hs
    simp only [Option.ite_none_right_eq_some,Option.some.injEq] at hs
    obtain ⟨-,rfl⟩ := hs
    exact hsame (.setQueue s z rfl)
  | readerInsert t um =>
    simp only [step,Option.ite_none_right_eq_some,Option.some.injEq] at hs
    obtain ⟨-,rfl⟩ := hs
    exact h.readerInsert hc t um
  | close => cases ha

end QueueMgr

end Phiola
