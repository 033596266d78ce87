import Phiola.Queue.Order
import Phiola.Queue.Ownership

/-!
# Where an entry is listed

With filtered queues as well a list names no entry twice, and an entry in use that is not in the list
of its own queue has the index `~0U`.
-/

namespace Phiola

namespace QueueMgr

/-- `x` are the entries that were taken out of their list and did not lose their index yet. -/
structure Placed (s : QueueMgr) (x : List Nat) : Prop where
  nodup : ∀ q, (s.queue q).index.Nodup
  lost : ∀ e, e < s.ne → (s.ent e).freed = false → e ∉ (s.queue (s.ent e).q).index → e ∉ x →
    (s.ent e).index = -1

namespace Placed

variable {s s' : QueueMgr} {x : List Nat}

theorem same (h : Placed s x) (hs : SameOrder s s') : Placed s' x where
  nodup q := hs.index q ▸ h.nodup q
  lost e he hf hm hx := by
    rw [(hs.ent e).1,hs.index] at hm
    rw [(hs.ent e).2]
    refine h.lost e (hs.ne ▸ he) (Bool.eq_false_iff.mpr fun hfreed => ?_) hm hx
    rw [hs.freed e hfreed] at hf
    cases hf

/-- The list of queue `q` is another one. -/
theorem setList {x' : List Nat} (h : Placed s x) {q : Nat} {v : PhiQueue} (hn : v.index.Nodup)
    (hx : ∀ e ∈ x, e ∈ x')
    (hout : ∀ e ∈ (s.queue q).index, e ∉ v.index → e ∈ x' ∨ (s.ent e).index = -1) :
    Placed (s.setQueue q v) x' := by
  refine ⟨fun y => ?_,fun e he hf hm hx' => ?_⟩
  · by_cases hy : y = q
    · subst hy
      rw [setQueue_self]
      exact hn
    · rw [setQueue_of_ne v hy]
      exact h.nodup y
  · rw [setQueue_ent] at hm hf ⊢
    have hold (hnot : e ∉ (s.queue (s.ent e).q).index) : (s.ent e).index = -1 :=
      h.lost e he hf hnot fun hmem => hx' (hx e hmem)
    by_cases hq : (s.ent e).q = q
    · rw [hq,setQueue_self] at hm
      by_cases hmem : e ∈ (s.queue q).index
      · exact (hout e hmem hm).resolve_left hx'
      · exact hold (hq ▸ hmem)
    · rw [setQueue_of_ne v hq] at hm
      exact hold hm

theorem setQueue (h : Placed s x) {q : Nat} {v : PhiQueue} (hv : v.index = (s.queue q).index) :
    Placed (s.setQueue q v) x :=
  h.setList (hv ▸ h.nodup q) (fun _ => id) fun _ he hm => absurd (hv ▸ he) hm

theorem setIndex (h : Placed s x) {e : Nat} {i : Int}
    (hi : e ∉ (s.queue (s.ent e).q).index → i = -1) :
    Placed (s.setEnt e { s.ent e with index := i }) x := by
  refine ⟨h.nodup,fun y hy hf hm hx => ?_⟩
  by_cases hye : y = e
  · subst hye
    rw [setEnt_self] at hm ⊢
    exact hi hm
  · rw [setEnt_of_ne _ hye] at hm hf ⊢
    exact h.lost y hy hf hm hx

theorem qeIndex (h : Placed s x) (e : Nat) : Placed (s.qeIndex e).1 x := by
  rw [qeIndex_fst]
  exact h.setIndex qeIndex_unlisted

theorem setCursor (h : Placed s x) (q e : Nat) : Placed (s.setCursor q e) x := by
  rw [setCursor_eq]
  apply setQueue _ _
  · exact h.setIndex qeIndex_unlisted
  · rfl

theorem rule (x : List Nat) : PlayRule (fun s => Placed s x) fun _ _ => True where
  got _ _ := trivial
  index h := h.qeIndex _
  split h := h.setQueue rfl
  stop h := ⟨h.same (sameOrder_qeStop _ _),fun _ _ => trivial⟩
  cursor h _ := ⟨h.setCursor _ _,trivial⟩
  play h _ := h.same (sameOrder_qePlay _ _ _)

theorem insert (h : Placed s []) (hc : Counted s []) {q pos : Nat} (um : Bool)
    (hpos : pos ≤ (s.queue q).index.length) : Placed (s.qInsert q pos um).1 [] := by
  have hperm := List.perm_insertIdx s.ne (s.queue q).index hpos
  have hnew : s.ne ∉ (s.queue q).index := fun hm => by
    have := hc.inUse (hc.listed hm)
    omega
  have hq : ((s.qInsert q pos um).1.queue q).index = (s.queue q).index.insertIdx pos s.ne := by
    simp [qInsert]
  have hother {y : Nat} (hy : y ≠ q) : (s.qInsert q pos um).1.queue y = s.queue y := by
    simp [qInsert,setQueue_of_ne _ hy]
  have hent {y : Nat} (hy : y ≠ s.ne) : (s.qInsert q pos um).1.ent y = s.ent y :=
    setEnt_of_ne _ hy
  refine ⟨fun y => ?_,fun e he hf hm hx => ?_⟩
  · by_cases hy : y = q
    · subst hy
      rw [hq,hperm.nodup_iff]
      exact List.nodup_cons.mpr ⟨hnew,h.nodup y⟩
    · rw [hother hy]
      exact h.nodup y
  · by_cases hne : e = s.ne
    · subst hne
      have hown : ((s.qInsert q pos um).1.ent s.ne).q = q := by simp [qInsert]
      rw [hown,hq,hperm.mem_iff] at hm
      exact absurd List.mem_cons_self hm
    · have hlt : e < s.ne + 1 := he
      rw [hent hne] at hm hf ⊢
      refine h.lost e (by omega) hf (fun hold => hm ?_) hx
      by_cases hown : (s.ent e).q = q
      · rw [hown] at hold ⊢
        rw [hq,hperm.mem_iff]
        exact List.mem_cons_of_mem _ hold
      · rwa [hother hown]

theorem insertBehind (h : Placed s []) (hc : Counted s []) (e : Nat) (um : Bool) :
    Placed (s.qeInsert e um).1 [] := by
  have hrange := qeIndex_range s e
  apply (h.qeIndex e).insert (hc.same (sameHolders_qeIndex s e)) um
  rw [qeIndex_queue]
  omega

/-- The entry that `q_remove_at()` takes out has lost its index. -/
theorem removeAt (h : Placed s x) (q : Nat) (pos : Int) : Placed (s.qRemoveAt q pos).1 x := by
  unfold qRemoveAt
  dsimp only
  split
  · exact h
  · rename_i e hg
    obtain ⟨p,rfl,hp⟩ := qGet_eq_some.mp hg
    obtain ⟨hlt,hget⟩ := List.getElem?_eq_some_iff.mp hp
    apply same _ (sameOrder_unref _ e)
    apply (h.setIndex fun _ => rfl).setList
    · exact (h.nodup q).sublist (List.eraseIdx_sublist _ _)
    · exact fun _ => id
    · intro y hy hgone
      right
      have hperm := List.getElem_cons_eraseIdx_perm hlt
      have hye : y = e := by
        have hmem := hperm.mem_iff.mpr (show y ∈ (s.queue q).index from hy)
        rw [hget] at hmem
        exact (List.mem_cons.mp hmem).resolve_right hgone
      rw [hye,setEnt_self]

theorem remove (h : Placed s x) (e : Nat) : Placed (s.qeRemove e).1 x :=
  (h.qeIndex e).removeAt _ _

theorem clear (h : Placed s []) (q : Nat) : Placed (s.qClear q) [] := by
  have hfold (l : List Nat) (u : QueueMgr) (hu : Placed u l) :
      Placed (l.foldl (fun s e => (s.setEnt e { s.ent e with index := -1 }).qeUnref e) u) [] := by
    induction l generalizing u with
    | nil => exact hu
    | cons e l ih =>
      have hset := hu.setIndex (e := e) (i := -1) fun _ => rfl
      apply ih
      apply same _ (sameOrder_unref _ e)
      refine ⟨hset.nodup,fun y hy hf hm hx => ?_⟩
      by_cases hye : y = e
      · subst hye
        rw [setEnt_self]
      · exact hset.lost y hy hf hm (by simp [hye,hx])
  apply hfold
  exact h.setList List.nodup_nil (by simp) fun e he _ => .inl he

theorem newQueue (h : Placed s x) {v : PhiQueue} (hempty : (s.queue s.nq).index = [])
    (hn : v.index.Nodup) (l : List Nat) (n : Nat) :
    Placed { s.setQueue s.nq v with nq := n, lists := l } x := by
  have hset := h.setList (q := s.nq) hn (fun _ => id) fun e he => by
    rw [hempty] at he
    cases he
  exact ⟨hset.nodup,hset.lost⟩

theorem filter (h : Placed s []) (hc : Counted s []) (q : Nat) (keep : Nat → Bool) :
    Placed (s.qFilter q keep) [] := by
  have hfold (l : List Nat) (u : QueueMgr) : SameOrder u (l.foldl qeRef u) := by
    induction l generalizing u with
    | nil => exact SameOrder.refl u
    | cons e l ih =>
      have href := sameOrder_setEnt u e { u.ent e with used := (u.ent e).used + 1 } rfl rfl id
      exact href.trans (ih (u.qeRef e))
  have hsame := hfold ((s.queue q).index.filter keep) s
  have hnq := (qeRef_lists ((s.queue q).index.filter keep) s).1
  have hnew := (h.same hsame).newQueue (v := ⟨(s.queue q).conversion,(s.queue q).random,
    (s.queue q).repeatAll,(s.queue q).index.filter keep,none,0,0,false,false⟩)
    (by rw [hsame.index,hnq]; exact hc.unused s.nq (Nat.le_refl _)) ((h.nodup q).filter _)
    ((((s.queue q).index.filter keep).foldl qeRef s).lists ++ [s.nq]) (s.nq + 1)
  rw [hnq] at hnew
  exact hnew

/-- The list that goes with its queue is the list of no entry in use. -/
theorem destroy (h : Placed s []) {q : Nat} (ho : Owned (s.qDestroy q)) :
    Placed (s.qDestroy q) [] := by
  have hsame : SameOrder (emptied { s with lists := s.lists.erase q } q) (s.qDestroy q) := by
    rw [qDestroy_eq]
    exact sameOrder_foldl_unref _ _
  have hfreed : ((s.qDestroy q).queue q).freed = true := by
    unfold qDestroy qFree
    dsimp only
    rw [setQueue_self]
  have hother (y : Nat) (hy : y ≠ q) : ((s.qDestroy q).queue y).index = (s.queue y).index := by
    rw [hsame.index]
    unfold emptied
    rw [setQueue_of_ne _ hy]
  refine ⟨fun y => ?_,fun e he hf hm hx => ?_⟩
  · rw [hsame.index]
    unfold emptied
    by_cases hy : y = q
    · subst hy
      rw [setQueue_self]
      exact List.nodup_nil
    · rw [setQueue_of_ne _ hy]
      exact h.nodup y
  · have hent : ((s.qDestroy q).ent e).q = (s.ent e).q ∧
        ((s.qDestroy q).ent e).index = (s.ent e).index := hsame.ent e
    have hne : (s.ent e).q ≠ q := by
      intro heq
      have hlive := ho.queue e he hf
      rw [hent.1,heq,hfreed] at hlive
      cases hlive
    rw [hent.1,hother _ hne] at hm
    rw [hent.2]
    refine h.lost e (hsame.ne ▸ he) (Bool.eq_false_iff.mpr fun hfr => ?_) hm hx
    rw [hsame.freed e hfr] at hf
    cases hf

theorem readerInsert (h : Placed s []) (hc : Counted s []) (t : Nat) (um : Bool) :
    Placed (s.readerInsert t um) [] := by
  have hins := h.insertBehind hc (s.trk t).quCur um
  have hset := hins.same (sameOrder_setTrk _ t { (s.qeInsert (s.trk t).quCur um).1.trk t with
    quCur := (s.qeInsert (s.trk t).quCur um).2
    removed := true })
  unfold QueueMgr.readerInsert
  dsimp only
  split
  · exact hset
  · exact hset.remove _

theorem readerClose (h : Placed s x) (t : Nat) : Placed (s.readerClose t) x := by
  unfold QueueMgr.readerClose
  dsimp only
  split
  · exact h.remove _
  · exact h

theorem close {t : Nat} {fstop : Bool} {tags : Meta} {rnd : Nat} {ans : List Answer}
    (h : Placed s x) (hs : s.closeTrack t fstop tags rnd ans = some s') : Placed s' x := by
  obtain ⟨u,hu,rfl⟩ := (rule x).close ((h.readerClose t).same (sameOrder_closing _ t tags)) hs
  exact hu.same (sameOrder_unref _ _)

end Placed

/-- Every operation keeps the places, as long as no queue is destroyed under its entries. -/
theorem step_placed (s : QueueMgr) (a : Op) (s' : QueueMgr)
    (h : (Counted s [] ∧ Owned s) ∧ Placed s []) (ha : DestroysAlone s a)
    (hs : s.step a = some s') : (Counted s' [] ∧ Owned s') ∧ Placed s' [] := by
  have hown := step_owned s a s' h.1 ha hs
  refine ⟨hown,?_⟩
  obtain ⟨⟨hc,-⟩,h⟩ := h
  have hset (r : Nat → Nat) (l : List Nat) (n : Nat) :
      Placed { s with refs := r, lists := l, selected := n } [] := ⟨h.nodup,h.lost⟩
  have hrule := Placed.rule []
  cases a with
  | create c r a =>
    cases hs
    exact h.newQueue (v := ⟨c,r,a,[],none,0,0,false,false⟩) (hc.unused s.nq (Nat.le_refl _))
      List.nodup_nil _ _
  | destroy q =>
    obtain ⟨y,-,-,hs⟩ := onQueue_some hs
    cases hs
    exact h.destroy hown.2
  | select pos =>
    cases hs
    split
    · exact hset _ _ _
    · exact h
  | qselect q =>
    cases hs
    split
    · exact h
    · exact hset _ _ _
  | conf q c r a =>
    obtain ⟨y,-,-,hs⟩ := onQueue_some hs
    cases hs
    exact h.setQueue rfl
  | add q um kind created =>
    obtain ⟨y,-,-,hs⟩ := onQueue_some hs
    cases hs
    have hins := h.insert hc um (Nat.le_refl (s.queue y).index.length)
    unfold qAdd qeExpand
    dsimp only
    split
    · exact hins
    · split
      · exact hins.same (sameOrder_start _ _ _)
      · exact hins
  | insertAt q pos um =>
    simp only [step] at hs
    obtain ⟨y,-,-,hs⟩ := onQueue_some hs
    simp only [Option.ite_none_right_eq_some,Option.some.injEq] at hs
    obtain ⟨hpos,rfl⟩ := hs
    exact h.insert hc um hpos
  | insert e um =>
    simp only [step,Option.ite_none_right_eq_some,Option.some.injEq] at hs
    obtain ⟨-,rfl⟩ := hs
    exact h.insertBehind hc e um
  | clear q =>
    obtain ⟨y,-,-,hs⟩ := onQueue_some hs
    cases hs
    exact h.clear y
  | filter q keep =>
    obtain ⟨y,-,-,hs⟩ := onQueue_some hs
    cases hs
    exact h.filter hc y keep
  | play q e rnd ans =>
    cases e with
    | some e =>
      simp only [step,Option.ite_none_right_eq_some,Option.map_eq_some_iff] at hs
      obtain ⟨-,p,hp,rfl⟩ := hs
      exact hrule.qPlay h (fun _ _ => trivial) hp
    | none =>
      obtain ⟨y,-,-,hs⟩ := onQueue_some hs
      obtain ⟨p,hp,rfl⟩ := Option.map_eq_some_iff.mp hs
      exact hrule.qPlay h (by simp) hp
  | playNext q rnd ans =>
    obtain ⟨y,-,-,hs⟩ := onQueue_some hs
    obtain ⟨p,hp,rfl⟩ := Option.map_eq_some_iff.mp hs
    exact hrule.next h hp
  | playPrev q rnd ans =>
    obtain ⟨y,-,-,hs⟩ := onQueue_some hs
    obtain ⟨p,hp,rfl⟩ := Option.map_eq_some_iff.mp hs
    exact hrule.prev h hp
  | ref q pos =>
    obtain ⟨y,-,-,hs⟩ := onQueue_some hs
    cases hs
    unfold qRef
    split
    · exact h
    · rename_i e hg
      have hr := h.same (sameOrder_setEnt s e { s.ent e with used := (s.ent e).used + 1 } rfl rfl id)
      exact ⟨hr.nodup,hr.lost⟩
  | unref e =>
    simp only [step,Option.ite_none_right_eq_some,Option.some.injEq] at hs
    obtain ⟨-,rfl⟩ := hs
    exact (hset _ _ _).same (sameOrder_unref _ e)
  | removeAt q pos =>
    obtain ⟨y,-,-,hs⟩ := onQueue_some hs
    cases hs
    exact h.removeAt y pos
  | remove e =>
    simp only [step,Option.ite_none_right_eq_some,Option.some.injEq] at hs
    obtain ⟨-,rfl⟩ := hs
    exact h.remove e
  | sort q l =>
    obtain ⟨y,-,-,hs⟩ := onQueue_some hs
    simp only [Option.ite_none_right_eq_some,Option.some.injEq] at hs
    obtain ⟨hl,rfl⟩ := hs
    exact h.setList (hl.nodup_iff.mpr (h.nodup y)) (fun _ => id)
      fun e he hm => absurd (hl.mem_iff.mpr he) hm
  | readerInsert t um =>
    simp only [step,Option.ite_none_right_eq_some,Option.some.injEq] at hs
    obtain ⟨-,rfl⟩ := hs
    exact h.readerInsert hc t um
  | close t fstop tags rnd ans =>
    simp only [step,Option.ite_none_right_eq_some] at hs
    exact h.close hs.2

theorem init_placed : Placed init [] where
  nodup _ := List.nodup_nil
  lost e he := by cases he

end QueueMgr

end Phiola
