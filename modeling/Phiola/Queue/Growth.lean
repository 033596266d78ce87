import Phiola.Queue.Accounts

/-!
# What the store of the queue manager gains

An operation makes at most one new entry. It brings no entry back that was freed, and a track that it
doesn't start stays the track of its entry.
-/

namespace Phiola

namespace QueueMgr

/-- `s'` has `n` more entries than `s`, and otherwise only newer tracks. -/
structure Grows (n : Nat) (s s' : QueueMgr) : Prop where
  ne : s'.ne = s.ne + n
  freed : ∀ e, e < s.ne → (s'.ent e).freed = false → (s.ent e).freed = false
  nt : s.nt ≤ s'.nt
  qent : ∀ t, t < s.nt → (s'.trk t).qent = (s.trk t).qent

namespace Grows

theorem refl (s : QueueMgr) : Grows 0 s s := ⟨rfl,fun _ _ => id,Nat.le_refl _,fun _ _ => rfl⟩

theorem trans {n k : Nat} {s t u : QueueMgr} (h : Grows n s t) (h' : Grows k t u) :
    Grows (n + k) s u where
  ne := by rw [h'.ne,h.ne,Nat.add_assoc]
  freed e he hf := h.freed e he (h'.freed e (h.ne ▸ Nat.lt_add_right n he) hf)
  nt := h.nt.trans h'.nt
  qent t ht := (h'.qent t (Nat.lt_of_lt_of_le ht h.nt)).trans (h.qent t ht)

theorem keeps {n : Nat} {s t u : QueueMgr} (h : Grows n s t) (hk : KeepsOwner t u) : Grows n s u :=
  h.trans (k := 0) ⟨hk.ne,fun e _ => hk.freed e,Nat.le_of_eq hk.nt.symm,fun t _ => (hk.trk t).2⟩

theorem startTrack {n : Nat} {s u : QueueMgr} (h : Grows n s u) (e : Nat) (k : Option ListKind) :
    Grows n s (u.startTrack e k) := by
  have hent := h.keeps (keepsOwner_setEnt u e { u.ent e with
    trk := some u.nt
    used := (u.ent e).used + 1
    expand := (u.ent e).expand || k.isSome } rfl id)
  refine ⟨hent.ne,hent.freed,Nat.le_succ_of_le h.nt,fun t ht => ?_⟩
  have hne : t ≠ u.nt := Nat.ne_of_lt (Nat.lt_of_lt_of_le ht h.nt)
  have htrk : (u.startTrack e k).trk t = u.trk t := setTrk_of_ne _ hne
  rw [htrk]
  exact h.qent t ht

theorem qePlay {n : Nat} {s u : QueueMgr} (h : Grows n s u) (e : Nat) (c : Bool) :
    Grows n s (u.qePlay e c).1 := by
  unfold QueueMgr.qePlay
  dsimp only
  split
  · exact h.keeps (keepsOwner_setEnt u e _ rfl id)
  · split
    · have hs := h.startTrack e none
      exact ⟨hs.ne,hs.freed,hs.nt,hs.qent⟩
    · exact h

theorem expand {n : Nat} {s u : QueueMgr} (h : Grows n s u) (e : Nat) (k : Option ListKind)
    (c : Bool) : Grows n s (u.qeExpand e k c).1 := by
  unfold qeExpand
  split
  · exact h
  · split
    · exact h.startTrack e _
    · exact h

theorem rule (n : Nat) (s : QueueMgr) : PlayRule (Grows n s) fun _ _ => True where
  got _ _ := trivial
  index h := h.keeps (keepsOwner_qeIndex _ _)
  split h := h.keeps (keepsOwner_setQueue _ _ _ rfl)
  stop h := ⟨h.keeps (keepsOwner_qeStop _ _),fun _ _ => trivial⟩
  cursor h _ := ⟨h.keeps (keepsOwner_setCursor _ _ _),trivial⟩
  play h _ := h.qePlay _ _

theorem insert (s : QueueMgr) (q pos : Nat) (um : Bool) : Grows 1 s (s.qInsert q pos um).1 := by
  refine ⟨rfl,fun e he hf => ?_,Nat.le_refl _,fun _ _ => rfl⟩
  simpa [qInsert,setEnt_of_ne _ (Nat.ne_of_lt he)] using hf

theorem insertBehind (s : QueueMgr) (e : Nat) (um : Bool) : Grows 1 s (s.qeInsert e um).1 :=
  ((refl s).keeps (keepsOwner_qeIndex s e)).trans (insert _ _ _ um)

theorem readerInsert (s : QueueMgr) (t : Nat) (um : Bool) : Grows 1 s (s.readerInsert t um) := by
  have hinsert := insertBehind s (s.trk t).quCur um
  unfold QueueMgr.readerInsert
  dsimp only
  generalize s.qeInsert (s.trk t).quCur um = p at hinsert
  have hset : Grows 1 s (p.1.setTrk t { p.1.trk t with quCur := p.2, removed := true }) := by
    refine ⟨hinsert.ne,hinsert.freed,hinsert.nt,fun y hy => ?_⟩
    by_cases hyt : y = t
    · subst hyt
      rw [setTrk_self]
      exact hinsert.qent y hy
    · rw [setTrk_of_ne _ hyt]
      exact hinsert.qent y hy
  split
  · exact hset
  · exact hset.keeps (keepsOwner_qeRemove _ _)

theorem closeTrack {s s' : QueueMgr} {t : Nat} {fstop : Bool} {tags : Meta} {rnd : Nat}
    {ans : List Answer} (hs : s.closeTrack t fstop tags rnd ans = some s') : Grows 0 s s' := by
  have hreader : Grows 0 s (s.readerClose t) := by
    unfold QueueMgr.readerClose
    dsimp only
    split
    · exact (refl s).keeps (keepsOwner_qeRemove _ _)
    · exact refl s
  obtain ⟨u,hu,rfl⟩ := (rule 0 s).close (hreader.keeps (keepsOwner_closing _ t tags)) hs
  exact hu.keeps (keepsOwner_unref _ _)

end Grows

/-- The entries that an operation makes. -/
def Op.inserts : Op → Nat
  | .add _ _ _ _ | .insertAt _ _ _ | .insert _ _ | .readerInsert _ _ => 1
  | _ => 0

theorem step_grows {s s' : QueueMgr} {a : Op} (hs : s.step a = some s') : Grows a.inserts s s' := by
  have hrule := Grows.rule 0 s
  have hstart := Grows.refl s
  have hkeeps {u : QueueMgr} (hu : KeepsOwner s u) : Grows 0 s u := hstart.keeps hu
  cases a with
  | create c r a =>
    cases hs
    exact ⟨rfl,fun _ _ => id,Nat.le_refl _,fun _ _ => rfl⟩
  | destroy y =>
    obtain ⟨z,-,-,hs⟩ := onQueue_some hs
    cases hs
    have hfold := keepsOwner_foldl keepsOwner_unref (s.queue z).index { s with lists := s.lists.erase z }
    have hgrow : Grows 0 s ((s.queue z).index.foldl qeUnref { s with lists := s.lists.erase z }) :=
      ⟨hfold.ne,fun e _ => hfold.freed e,Nat.le_of_eq hfold.nt.symm,fun t _ => (hfold.trk t).2⟩
    exact ⟨hgrow.ne,hgrow.freed,hgrow.nt,hgrow.qent⟩
  | select pos =>
    cases hs
    split
    · exact ⟨rfl,fun _ _ => id,Nat.le_refl _,fun _ _ => rfl⟩
    · exact hstart
  | qselect y =>
    cases hs
    split
    · exact hstart
    · exact ⟨rfl,fun _ _ => id,Nat.le_refl _,fun _ _ => rfl⟩
  | conf y c r a =>
    obtain ⟨z,-,-,hs⟩ := onQueue_some hs
    cases hs
    exact hkeeps (keepsOwner_setQueue s z _ rfl)
  | add y um kind created =>
    obtain ⟨z,-,-,hs⟩ := onQueue_some hs
    cases hs
    exact (Grows.insert s z (s.queue z).index.length um).expand _ kind created
  | insertAt y pos um =>
    simp only [step] at hs
    obtain ⟨z,-,-,hs⟩ := onQueue_some hs
    simp only [Option.ite_none_right_eq_some,Option.some.injEq] at hs
    obtain ⟨-,rfl⟩ := hs
    exact Grows.insert s z pos um
  | insert e um =>
    simp only [step,Option.ite_none_right_eq_some,Option.some.injEq] at hs
    obtain ⟨-,rfl⟩ := hs
    exact Grows.insertBehind s e um
  | clear y =>
    obtain ⟨z,-,-,hs⟩ := onQueue_some hs
    cases hs
    exact hkeeps (keepsOwner_qClear s z)
  | filter y keep =>
    obtain ⟨z,-,-,hs⟩ := onQueue_some hs
    cases hs
    have hfold := keepsOwner_foldl (f := qeRef) (fun u e => keepsOwner_setEnt u e _ rfl id)
      ((s.queue z).index.filter keep) s
    have hgrow := hkeeps hfold
    exact ⟨hgrow.ne,hgrow.freed,hgrow.nt,hgrow.qent⟩
  | play y e rnd ans =>
    cases e with
    | some e =>
      simp only [step,Option.ite_none_right_eq_some,Option.map_eq_some_iff] at hs
      obtain ⟨-,p,hp,rfl⟩ := hs
      exact hrule.qPlay hstart (fun _ _ => trivial) hp
    | none =>
      obtain ⟨z,-,-,hs⟩ := onQueue_some hs
      obtain ⟨p,hp,rfl⟩ := Option.map_eq_some_iff.mp hs
      exact hrule.qPlay hstart (by simp) hp
  | playNext y rnd ans =>
    obtain ⟨z,-,-,hs⟩ := onQueue_some hs
    obtain ⟨p,hp,rfl⟩ := Option.map_eq_some_iff.mp hs
    exact hrule.next hstart hp
  | playPrev y rnd ans =>
    obtain ⟨z,-,-,hs⟩ := onQueue_some hs
    obtain ⟨p,hp,rfl⟩ := Option.map_eq_some_iff.mp hs
    exact hrule.prev hstart hp
  | ref y pos =>
    obtain ⟨z,-,-,hs⟩ := onQueue_some hs
    cases hs
    unfold qRef
    split
    · exact hstart
    · rename_i e hg
      have hr := hkeeps (keepsOwner_setEnt s e { s.ent e with used := (s.ent e).used + 1 } rfl id)
      exact ⟨hr.ne,hr.freed,hr.nt,hr.qent⟩
  | unref e =>
    simp only [step,Option.ite_none_right_eq_some,Option.some.injEq] at hs
    obtain ⟨-,rfl⟩ := hs
    have hk := keepsOwner_unref { s with refs := Function.update s.refs e (s.refs e - 1) } e
    exact ⟨hk.ne,fun e _ => hk.freed e,Nat.le_of_eq hk.nt.symm,fun t _ => (hk.trk t).2⟩
  | removeAt y pos =>
    obtain ⟨z,-,-,hs⟩ := onQueue_some hs
    cases hs
    exact hkeeps (keepsOwner_removeAt s z pos)
  | remove e =>
    simp only [step,Option.ite_none_right_eq_some,Option.some.injEq] at hs
    obtain ⟨-,rfl⟩ := hs
    exact hkeeps (keepsOwner_qeRemove s e)
  | sort y l =>
    obtain ⟨z,-,-,hs⟩ := onQueue_some hs
    simp only [Option.ite_none_right_eq_some,Option.some.injEq] at hs
    obtain ⟨-,rfl⟩ := hs
    exact hkeeps (keepsOwner_setQueue s z _ rfl)
  | readerInsert t um =>
    simp only [step,Option.ite_none_right_eq_some,Option.some.injEq] at hs
    obtain ⟨-,rfl⟩ := hs
    exact Grows.readerInsert s t um
  | close t fstop tags rnd ans =>
    simp only [step,Option.ite_none_right_eq_some] at hs
    exact Grows.closeTrack hs.2

end QueueMgr

end Phiola
