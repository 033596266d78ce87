import Mathlib.Data.List.Chain
import Phiola.Queue.Removal

/-!
# The choice of the entry to play

`q_get_index()` passes an index on, wraps it around, or replaces it by a random one. In random mode
one bit says in which half of the queue the next pick lies.
-/

namespace Phiola

namespace QueueMgr

/-- The calls that pick an entry themselves. -/
inductive Pick
  | play
  | next
  | prev
  deriving DecidableEq, Repr

def Pick.call (k : Pick) (s : QueueMgr) (q rnd : Nat) (ans : List Answer) :
    Option (QueueMgr × Int) :=
  match k with
  | .play => s.qPlay q none rnd ans
  | .next => s.qPlayNext q rnd ans
  | .prev => s.qPlayPrev q rnd ans

theorem qRandom_some {v : PhiQueue} (hne : v.index ≠ []) (rnd : Nat) :
    ∃ i : Nat, ∃ half, qRandom v rnd = some ((i : Int), half) ∧ i < v.index.length := by
  have hpos := List.length_pos_of_ne_nil hne
  unfold qRandom
  dsimp only
  by_cases hone : v.index.length = 1
  · rw [if_pos hone]
    exact ⟨0,_,rfl,by omega⟩
  · rw [if_neg hone]
    cases v.randomSplit with
    | false =>
      have hlow : rnd % (v.index.length / 2) < v.index.length / 2 := Nat.mod_lt _ (by omega)
      rw [if_neg (by simp),if_neg (by omega)]
      exact ⟨_,_,rfl,by omega⟩
    | true =>
      have hhigh : rnd % (v.index.length - v.index.length / 2) <
        v.index.length - v.index.length / 2 := Nat.mod_lt _ (by omega)
      rw [if_pos rfl,if_neg (by omega)]
      exact ⟨_,_,rfl,by omega⟩

/-- A pick over an empty queue in random mode has no result: it divides by zero. -/
theorem qRandom_empty {v : PhiQueue} (h : v.index = []) (rnd : Nat) : qRandom v rnd = none := by
  unfold qRandom
  rw [h]
  cases v.randomSplit <;> rfl

/-- The position that a pick in queue `q` gives in random mode, with the length of the queue. -/
def randomPick (s : QueueMgr) (q rnd : Nat) : Option (Nat × Nat) :=
  if (s.queue q).random then
    (qRandom (s.queue q) rnd).map fun p => (p.1.toNat,(s.queue q).index.length)
  else none

theorem qGetIndex_some {s : QueueMgr} {q n : Nat} {i : Int}
    (hne : (s.queue q).random = true → (s.queue q).index ≠ []) :
    ∃ half j, s.qGetIndex q i n =
      some (s.setQueue q { s.queue q with randomSplit := half }, j) ∧
        ∀ p, s.randomPick q n = some p → j = p.1 := by
  have hsame : s.setQueue q { s.queue q with randomSplit := (s.queue q).randomSplit } = s := by
    simp [setQueue,Function.update_eq_self]
  unfold qGetIndex randomPick
  dsimp only
  split
  · rename_i hrandom
    obtain ⟨j,half,hj,-⟩ := qRandom_some (hne hrandom) n
    rw [hj]
    refine ⟨half,_,rfl,fun p hp => ?_⟩
    cases hp
    rfl
  · split
    · exact ⟨(s.queue q).randomSplit,_,by rw [hsame],by simp⟩
    · exact ⟨(s.queue q).randomSplit,_,by rw [hsame],by simp⟩

/-- An entry of the queue is picked, in random mode the one at the random position, or the call
returns -1 and nothing is different. -/
def Chooses (s s' : QueueMgr) (q rnd : Nat) (code : Int) (created : Bool) : Prop :=
  (∃ e ∈ (s.queue q).index, Starts s s' q e created ∧
    (¬((s.ent e).expand = false ∧ created = true) → code = -1) ∧
    ∀ p, s.randomPick q rnd = some p → (s.queue q).index[p.1]? = some e) ∨
  code = -1 ∧ StartsNothing s s' q ∧ (s'.queue q).cursorIndex = (s.queue q).cursorIndex

theorem Chooses.of_same {s u s' : QueueMgr} {q n : Nat} {code : Int} {created : Bool}
    (hqueue : u.queue = s.queue) (hstarted : u.started = s.started)
    (hent : ∀ e, (u.ent e).expand = (s.ent e).expand) (h : Chooses u s' q n code created) :
    Chooses s s' q n code created := by
  unfold Chooses Starts StartsNothing randomPick at *
  simp only [hqueue,hstarted,hent] at h
  exact h

/-- The code that `q_play()` returns for an entry that it cannot start. -/
theorem playEntry_code {s : QueueMgr} {q e : Nat} {a : Answer} {l : List Answer}
    {r : QueueMgr × Int} (hr : s.playEntry q e (a :: l) = some r)
    (hnot : ¬((s.ent e).expand = false ∧ a.created = true)) : r.2 = -1 := by
  have hstop (c : Nat) : ((s.stopCursor c).ent e).expand = (s.ent e).expand := by
    unfold stopCursor qeStop
    split
    · rfl
    · split <;> rfl
  unfold playEntry at hr
  split at hr
  · have hcode := (setCursor_qePlay s q e a.created).2.2.1
    unfold playLoop at hr
    dsimp only at hr
    rw [if_pos (mt hcode.mp hnot)] at hr
    cases hr
    rfl
  · have hcode := (setCursor_qePlay (s.stopCursor q) q e a.created).2.2.1
    rw [hstop] at hcode
    dsimp only at hr
    rw [if_pos (mt hcode.mp hnot)] at hr
    cases hr
    rfl

theorem playAt_chooses {s : QueueMgr} {q n : Nat} {i : Int} {a : Answer} {l : List Answer}
    (h : Ordered s) (hne : (s.queue q).random = true → (s.queue q).index ≠ [])
    (hans : (s.queue q).index.length ≤ l.length + 1) :
    ∃ r, s.playAt q n i (a :: l) = some r ∧ Chooses s r.1 q n r.2 a.created := by
  obtain ⟨half,j,hj,hrandom⟩ := qGetIndex_some (i := i) (n := n) hne
  unfold playAt
  rw [hj]
  dsimp only
  generalize hu : s.setQueue q { s.queue q with randomSplit := half } = u
  have hord : Ordered u := by
    rw [← hu]
    exact ordered_rule.split h
  have hindex : (u.queue q).index = (s.queue q).index := by rw [← hu]; simp
  have hent : u.ent = s.ent := by rw [← hu]; rfl
  cases hg : qGet (u.queue q) j with
  | none =>
    refine ⟨_,rfl,.inr ⟨rfl,⟨?_,?_⟩,?_⟩⟩ <;> rw [← hu]
    · simp
    · rfl
    · simp
  | some e =>
    obtain ⟨p,hjp,hp⟩ := qGet_eq_some.mp hg
    have hmem := List.mem_of_getElem? hp
    have hown := (hord.own hmem).2.1
    obtain ⟨r,hr⟩ := playEntry_total (a := a) (l := l) hord hp (by
      rw [hindex]
      simp only [List.length_cons]
      omega)
    have hstarts := playEntry_starts hown hr
    refine ⟨r,?_,.inl ⟨e,hindex ▸ hmem,?_,fun hnot => ?_,fun x hx => ?_⟩⟩
    · change u.playEntry (u.ent e).q e (a :: l) = some r
      rw [hown]
      exact hr
    · unfold Starts at hstarts ⊢
      rw [hent] at hstarts
      rw [← hu] at hstarts
      simpa using hstarts
    · exact playEntry_code hr (hent ▸ hnot)
    · have hpos : x.1 = p := by
        have := hrandom x hx
        omega
      rw [hpos,← hindex]
      exact hp

/-- `q_play()` with no entry looks up `cursor_index`. -/
theorem qPlay_none {s : QueueMgr} {q n : Nat} {ans : List Answer} (h : Ordered s) :
    s.qPlay q none n ans = s.playAt q n (s.queue q).cursorIndex ans := by
  unfold qPlay playAt
  cases hi : s.qGetIndex q (s.queue q).cursorIndex n with
  | none => rfl
  | some p =>
    obtain ⟨u,j⟩ := p
    have hord : Ordered u := ordered_rule.getIndex h hi
    dsimp only
    cases hg : qGet (u.queue q) j with
    | none => rfl
    | some e =>
      dsimp only
      change u.playEntry q e ans = u.playEntry (u.ent e).q e ans
      rw [(hord.own (mem_of_qGet hg)).2.1]

/-- Each of the calls is a lookup, after the cursor entry was asked for its index or not. -/
theorem call_chooses {s : QueueMgr} {q n : Nat} {a : Answer} {l : List Answer} (k : Pick)
    (h : Ordered s) (hne : (s.queue q).random = true → (s.queue q).index ≠ [])
    (hans : (s.queue q).index.length ≤ l.length + 1) :
    ∃ r, k.call s q n (a :: l) = some r ∧ Chooses s r.1 q n r.2 a.created := by
  have hplay (hcur : (s.queue q).cursor = none) (index : QueueMgr → Nat → QueueMgr × Int) :
      playFrom index s q n (a :: l) = s.playAt q n (s.queue q).cursorIndex (a :: l) := by
    unfold playFrom
    rw [hcur]
    exact qPlay_none h
  cases k with
  | play =>
    change ∃ r, s.qPlay q none n (a :: l) = some r ∧ _
    rw [qPlay_none h]
    exact playAt_chooses h hne hans
  | next =>
    change ∃ r, s.qPlayNext q n (a :: l) = some r ∧ _
    unfold qPlayNext
    cases hcur : (s.queue q).cursor with
    | none =>
      rw [hplay hcur]
      exact playAt_chooses h hne hans
    | some c =>
      rw [playFrom_eq n _ hcur]
      split
      · have hqueue := qeIndex_queue s c
        obtain ⟨r,hr,hc⟩ := playAt_chooses (i := (s.qeIndex c).2 + 1) (n := n) (a := a) (l := l)
          (h.qeIndex c) (q := q) (hqueue ▸ hne) (hqueue ▸ hans)
        have hsame := samePlay_qeIndex s c
        exact ⟨r,hr,hc.of_same hsame.queue hsame.started fun e => (hsame.ent e).1⟩
      · exact playAt_chooses h hne hans
  | prev =>
    change ∃ r, s.qPlayPrev q n (a :: l) = some r ∧ _
    unfold qPlayPrev
    cases hcur : (s.queue q).cursor with
    | none =>
      rw [hplay hcur]
      exact playAt_chooses h hne hans
    | some c =>
      rw [playFrom_eq n _ hcur]
      split
      · exact playAt_chooses h hne hans
      · exact playAt_chooses h hne hans

theorem call_divides {s : QueueMgr} {q : Nat} (k : Pick) (hrandom : (s.queue q).random = true)
    (hempty : (s.queue q).index = []) (rnd : Nat) (ans : List Answer) :
    k.call s q rnd ans = none := by
  have hget (u : QueueMgr) (hu : u.queue = s.queue) (i : Int) : u.qGetIndex q i rnd = none := by
    unfold qGetIndex
    rw [hu]
    dsimp only
    rw [if_pos hrandom,qRandom_empty hempty]
  have hplay : s.qPlay q none rnd ans = none := by
    unfold qPlay
    dsimp only
    rw [hget s rfl]
  have hfrom (f : QueueMgr → Nat → QueueMgr × Int) (hf : ∀ c, (f s c).1.queue = s.queue) :
      playFrom f s q rnd ans = none := by
    unfold playFrom
    split
    · exact hplay
    · rename_i c hc
      dsimp only
      have hqueue : (if (s.ent c).index ≠ -1 then f s c else
          (s,(s.queue q).cursorIndex)).1.queue = s.queue := by
        split
        · exact hf c
        · rfl
      rw [hget _ hqueue]
  cases k with
  | play => exact hplay
  | next =>
    exact hfrom (fun s c => ((s.qeIndex c).1,(s.qeIndex c).2 + 1)) fun c => qeIndex_queue s c
  | prev => exact hfrom (fun s c => (s,(s.ent c).index - 1)) fun _ => rfl

/-- The list of queues is the same, and the bits of the next half. -/
structure Steady (s s' : QueueMgr) : Prop where
  nq : s'.nq = s.nq
  lists : s'.lists = s.lists
  selected : s'.selected = s.selected
  split : ∀ q, (s'.queue q).randomSplit = (s.queue q).randomSplit

namespace Steady

theorem refl (s : QueueMgr) : Steady s s := ⟨rfl,rfl,rfl,fun _ => rfl⟩

theorem trans {s t u : QueueMgr} (h : Steady s t) (h' : Steady t u) : Steady s u :=
  ⟨h'.nq.trans h.nq,h'.lists.trans h.lists,h'.selected.trans h.selected,
    fun q => (h'.split q).trans (h.split q)⟩

theorem setQueue (s : QueueMgr) (q : Nat) {v : PhiQueue}
    (hv : v.randomSplit = (s.queue q).randomSplit) : Steady s (s.setQueue q v) := by
  refine ⟨rfl,rfl,rfl,fun y => ?_⟩
  by_cases hy : y = q
  · subst hy
    rw [setQueue_self]
    exact hv
  · rw [setQueue_of_ne v hy]

theorem setEnt (s : QueueMgr) (e : Nat) (x : QEntry) : Steady s (s.setEnt e x) :=
  ⟨rfl,rfl,rfl,fun _ => rfl⟩

theorem setTrk (s : QueueMgr) (t : Nat) (x : QTrack) : Steady s (s.setTrk t x) :=
  ⟨rfl,rfl,rfl,fun _ => rfl⟩

theorem unref (s : QueueMgr) (e : Nat) : Steady s (s.qeUnref e) := by
  rw [qeUnref_eq]
  apply trans _ (setEnt _ _ _)
  apply setQueue
  rfl

theorem foldl_unref (l : List Nat) (s : QueueMgr) : Steady s (l.foldl qeUnref s) := by
  induction l generalizing s with
  | nil => exact refl s
  | cons e l ih => exact (unref s e).trans (ih _)

theorem qeIndex (s : QueueMgr) (e : Nat) : Steady s (s.qeIndex e).1 := by
  rw [qeIndex_fst]
  apply setEnt

theorem setCursor (s : QueueMgr) (q e : Nat) : Steady s (s.setCursor q e) := by
  rw [setCursor_eq]
  apply (setEnt s _ _).trans
  apply setQueue
  rfl

theorem stopCursor (s : QueueMgr) (q : Nat) : Steady s (s.stopCursor q) := by
  unfold QueueMgr.stopCursor qeStop
  split
  · exact refl s
  · split
    · exact refl s
    · apply setTrk

theorem startTrack (s : QueueMgr) (e : Nat) (k : Option ListKind) :
    Steady s (s.startTrack e k) := by
  unfold QueueMgr.startTrack
  have hent := setEnt s e { s.ent e with
    trk := some s.nt
    used := (s.ent e).used + 1
    expand := (s.ent e).expand || k.isSome }
  have hqueue := hent.trans (setQueue _ (s.ent e).q
    (v := { s.queue (s.ent e).q with activeN := (s.queue (s.ent e).q).activeN + 1 }) rfl)
  have htrk := hqueue.trans (setTrk _ s.nt ⟨e,k,e,false,false,false⟩)
  exact ⟨htrk.nq,htrk.lists,htrk.selected,htrk.split⟩

theorem qePlay (s : QueueMgr) (e : Nat) (c : Bool) : Steady s (s.qePlay e c).1 := by
  unfold QueueMgr.qePlay
  dsimp only
  split
  · apply setEnt
  · split
    · have hstart := startTrack s e none
      exact ⟨hstart.nq,hstart.lists,hstart.selected,hstart.split⟩
    · exact refl s

theorem playLoop {s : QueueMgr} {q e : Nat} {ans : List Answer} {r : QueueMgr × Int}
    (hr : s.playLoop q e ans = some r) : Steady s r.1 := by
  induction ans generalizing s e with
  | nil => cases hr
  | cons a rest ih =>
    have hplay := (setCursor s q e).trans (qePlay _ e a.created)
    unfold QueueMgr.playLoop at hr
    dsimp only at hr
    split at hr
    · cases hr; exact hplay
    · split at hr
      · cases hr; exact hplay
      · split at hr
        · cases hr; exact hplay
        · exact hplay.trans (ih hr)

theorem playEntry {s : QueueMgr} {q e : Nat} {ans : List Answer} {r : QueueMgr × Int}
    (hr : s.playEntry q e ans = some r) : Steady s r.1 := by
  unfold QueueMgr.playEntry at hr
  split at hr
  · exact playLoop hr
  · cases ans with
    | nil => cases hr
    | cons a rest =>
      have hplay := ((stopCursor s q).trans (setCursor _ q e)).trans (qePlay _ e a.created)
      dsimp only at hr
      split at hr <;> cases hr <;> exact hplay

theorem insert (s : QueueMgr) (q pos : Nat) (um : Bool) : Steady s (s.qInsert q pos um).1 := by
  have hent := setEnt s s.ne ⟨q,none,pos,1,[],um,false,false,false⟩
  have hqueue := hent.trans (setQueue _ q
    (v := { s.queue q with index := (s.queue q).index.insertIdx pos s.ne }) rfl)
  exact ⟨hqueue.nq,hqueue.lists,hqueue.selected,hqueue.split⟩

theorem insertBehind (s : QueueMgr) (e : Nat) (um : Bool) : Steady s (s.qeInsert e um).1 := by
  apply (qeIndex s e).trans
  apply insert

theorem expand (s : QueueMgr) (e : Nat) (k : Option ListKind) (c : Bool) :
    Steady s (s.qeExpand e k c).1 := by
  unfold qeExpand
  split
  · exact refl s
  · split
    · apply startTrack
    · exact refl s

theorem removeAt (s : QueueMgr) (q : Nat) (pos : Int) : Steady s (s.qRemoveAt q pos).1 := by
  unfold qRemoveAt
  dsimp only
  split
  · exact refl s
  · apply trans _ (unref _ _)
    apply (setEnt s _ _).trans
    apply setQueue
    rfl

theorem remove (s : QueueMgr) (e : Nat) : Steady s (s.qeRemove e).1 :=
  (qeIndex s e).trans (removeAt _ _ _)

theorem clear (s : QueueMgr) (q : Nat) : Steady s (s.qClear q) := by
  have hfold (l : List Nat) (u : QueueMgr) :
      Steady u (l.foldl (fun s e => (s.setEnt e { s.ent e with index := -1 }).qeUnref e) u) := by
    induction l generalizing u with
    | nil => exact refl u
    | cons e l ih => exact ((setEnt u e _).trans (unref _ e)).trans (ih _)
  have hqueue := setQueue s q (v := { s.queue q with index := [] }) rfl
  exact hqueue.trans (hfold (s.queue q).index _)

theorem readerInsert (s : QueueMgr) (t : Nat) (um : Bool) : Steady s (s.readerInsert t um) := by
  have hinsert := insertBehind s (s.trk t).quCur um
  unfold QueueMgr.readerInsert
  dsimp only
  split
  · exact hinsert.trans (setTrk _ _ _)
  · exact (hinsert.trans (setTrk _ _ _)).trans (remove _ _)

theorem readerClose (s : QueueMgr) (t : Nat) : Steady s (s.readerClose t) := by
  unfold QueueMgr.readerClose
  dsimp only
  split
  · apply remove
  · exact refl s

theorem closing (s : QueueMgr) (t : Nat) (tags : Meta) : Steady s (s.closing t tags) := by
  have hforget : Steady s (s.forgetTrack (s.trk t).qent t tags) := by
    rw [forgetTrack_eq]
    split
    · exact (setEnt s _ _).trans (setTrk _ _ _)
    · exact refl s
  apply hforget.trans
  apply trans _ (setTrk _ _ _)
  apply setQueue
  rfl

end Steady

/-- What operation `a` picks in queue `q`. -/
def Op.picks (q : Nat) (s : QueueMgr) : Op → Option (Nat × Nat)
  | .play y none rnd _ | .playNext y rnd _ | .playPrev y rnd _ =>
    if s.theQueue y = some q then s.randomPick q rnd else none
  | .close t fstop tags rnd _ =>
    let u := (s.readerClose t).closing t tags
    let x := u.ent ((s.readerClose t).trk t).qent
    if fstop = false ∧ (x.expand = false ∨ x.playNextOnClose = true) ∧ x.q = q then
      u.randomPick q rnd
    else none
  | _ => none

/-- The bit of the next half after a pick. -/
def Flips (s s' : QueueMgr) (q : Nat) : Option (Nat × Nat) → Prop
  | none => (s'.queue q).randomSplit = (s.queue q).randomSplit
  | some (i,n) => i < n ∧ (2 ≤ n → (s.queue q).randomSplit = decide (n / 2 ≤ i) ∧
    (s'.queue q).randomSplit = !(s.queue q).randomSplit)

theorem Flips.of_same {s u v s' : QueueMgr} {q : Nat} {o : Option (Nat × Nat)}
    (h : Flips u v q o) (hu : (u.queue q).randomSplit = (s.queue q).randomSplit)
    (hv : (s'.queue q).randomSplit = (v.queue q).randomSplit) : Flips s s' q o := by
  unfold Flips at *
  cases o with
  | none => exact hv.trans (h.trans hu)
  | some p =>
    dsimp only at h ⊢
    rw [hu] at h
    rw [hv]
    exact h

theorem qRandom_half {v : PhiQueue} {rnd : Nat} {i : Int} {half : Bool}
    (h : qRandom v rnd = some (i,half)) : i.toNat < v.index.length ∧ (2 ≤ v.index.length →
      v.randomSplit = decide (v.index.length / 2 ≤ i.toNat) ∧ half = !v.randomSplit) := by
  unfold qRandom at h
  dsimp only at h
  split at h
  · cases h
    simp only [Int.toNat_zero]
    omega
  · cases hs : v.randomSplit with
    | false =>
      rw [hs] at h
      simp only [Bool.false_eq_true,if_false] at h
      split at h
      · cases h
      · cases h
        have hlow := Nat.mod_lt rnd (show 0 < v.index.length / 2 by omega)
        simp only [Int.toNat_natCast]
        refine ⟨by omega,fun _ => ⟨?_,rfl⟩⟩
        rw [eq_comm,decide_eq_false_iff_not]
        omega
    | true =>
      rw [hs] at h
      simp only [if_true] at h
      split at h
      · cases h
      · cases h
        have hhigh := Nat.mod_lt rnd (show 0 < v.index.length - v.index.length / 2 by omega)
        simp only [Int.toNat_natCast]
        refine ⟨by omega,fun _ => ⟨?_,rfl⟩⟩
        rw [eq_comm,decide_eq_true_iff]
        omega

/-- A lookup in queue `y`, seen from queue `q`. -/
theorem qGetIndex_flips {s : QueueMgr} {y rnd : Nat} {i : Int} {p : QueueMgr × Int} (q : Nat)
    (hp : s.qGetIndex y i rnd = some p) :
    Flips s p.1 q (if y = q then s.randomPick q rnd else none) := by
  have hother (hy : y ≠ q) : (p.1.queue q).randomSplit = (s.queue q).randomSplit := by
    unfold qGetIndex at hp
    dsimp only at hp
    split at hp
    · split at hp
      · cases hp
      · cases hp
        rw [setQueue_of_ne _ (Ne.symm hy)]
    · split at hp <;> cases hp <;> rfl
  by_cases hy : y = q
  · subst hy
    rw [if_pos rfl]
    unfold qGetIndex at hp
    unfold randomPick
    dsimp only at hp
    split at hp
    · rename_i hrandom
      rw [if_pos hrandom]
      split at hp
      · cases hp
      · rename_i j half hj
        cases hp
        rw [hj]
        obtain ⟨hlt,hhalf⟩ := qRandom_half hj
        refine ⟨hlt,fun hn => ⟨(hhalf hn).1,?_⟩⟩
        rw [setQueue_self]
        exact (hhalf hn).2
    · rename_i hrandom
      rw [if_neg hrandom]
      split at hp <;> cases hp <;> rfl
  · rw [if_neg hy]
    exact hother hy

theorem playAt_flips {s : QueueMgr} {y rnd : Nat} {i : Int} {ans : List Answer}
    {r : QueueMgr × Int} (q : Nat) (hr : s.playAt y rnd i ans = some r) :
    Flips s r.1 q (if y = q then s.randomPick q rnd else none) := by
  unfold playAt at hr
  split at hr
  · cases hr
  · rename_i u j hp
    have hflips := qGetIndex_flips q hp
    split at hr
    · cases hr
      exact hflips
    · exact hflips.of_same rfl ((Steady.playEntry hr).split q)

theorem qPlay_none_flips {s : QueueMgr} {y rnd : Nat} {ans : List Answer} {r : QueueMgr × Int}
    (q : Nat) (hr : s.qPlay y none rnd ans = some r) :
    Flips s r.1 q (if y = q then s.randomPick q rnd else none) := by
  unfold qPlay at hr
  dsimp only at hr
  split at hr
  · cases hr
  · rename_i u j hp
    have hflips := qGetIndex_flips q hp
    split at hr
    · cases hr
      exact hflips
    · exact hflips.of_same rfl ((Steady.playEntry hr).split q)

theorem playFrom_flips {f : QueueMgr → Nat → QueueMgr × Int} {s : QueueMgr} {y rnd : Nat}
    {ans : List Answer} {r : QueueMgr × Int} (q : Nat)
    (hf : ∀ c, (f s c).1.queue = s.queue) (hr : playFrom f s y rnd ans = some r) :
    Flips s r.1 q (if y = q then s.randomPick q rnd else none) := by
  cases hcur : (s.queue y).cursor with
  | none =>
    unfold playFrom at hr
    rw [hcur] at hr
    exact qPlay_none_flips q hr
  | some c =>
    rw [playFrom_eq rnd ans hcur] at hr
    split at hr
    · have hflips := playAt_flips q hr
      have hsame : (f s c).1.randomPick q rnd = s.randomPick q rnd := by
        unfold randomPick
        rw [hf]
      rw [hsame] at hflips
      exact hflips.of_same (by rw [hf]) rfl
    · exact playAt_flips q hr

theorem lists_rule (l : List Nat) (k n : Nat) :
    PlayRule (fun s => s.lists = l ∧ s.selected = k ∧ s.nq = n) fun _ _ => True where
  got _ _ := trivial
  index {s e} h := by simpa using h
  split h := h
  stop {s c} h := by
    refine ⟨?_,fun _ _ => trivial⟩
    unfold qeStop
    split <;> exact h
  cursor {s q e} h _ := by
    refine ⟨?_,trivial⟩
    rw [setCursor_eq]
    exact h
  play {s e c} h _ := by
    have hplay := Steady.qePlay s e c
    rw [hplay.lists,hplay.selected,hplay.nq]
    exact h

/-- The operations that neither change the list of queues nor pick an entry. -/
def Op.plain : Op → Bool
  | .create _ _ _ | .destroy _ | .select _ | .qselect _ | .filter _ _ => false
  | .play _ none _ _ | .playNext _ _ _ | .playPrev _ _ _ | .close _ _ _ _ _ => false
  | _ => true

theorem step_plain {s s' : QueueMgr} {a : Op} (ha : a.plain = true) (hs : s.step a = some s') :
    Steady s s' := by
  cases a with
  | conf y c r a =>
    obtain ⟨z,-,-,hs⟩ := onQueue_some hs
    cases hs
    exact Steady.setQueue s z rfl
  | add y um kind created =>
    obtain ⟨z,-,-,hs⟩ := onQueue_some hs
    cases hs
    exact (Steady.insert s z _ um).trans (Steady.expand _ _ kind created)
  | insertAt y pos um =>
    simp only [step] at hs
    obtain ⟨z,-,-,hs⟩ := onQueue_some hs
    simp only [Option.ite_none_right_eq_some,Option.some.injEq] at hs
    obtain ⟨-,rfl⟩ := hs
    exact Steady.insert s z pos um
  | insert e um =>
    simp only [step,Option.ite_none_right_eq_some,Option.some.injEq] at hs
    obtain ⟨-,rfl⟩ := hs
    exact Steady.insertBehind s e um
  | clear y =>
    obtain ⟨z,-,-,hs⟩ := onQueue_some hs
    cases hs
    exact Steady.clear s z
  | play y e rnd ans =>
    cases e with
    | some e =>
      simp only [step,Option.ite_none_right_eq_some,Option.map_eq_some_iff] at hs
      obtain ⟨-,p,hp,rfl⟩ := hs
      exact Steady.playEntry hp
    | none => cases ha
  | ref y pos =>
    obtain ⟨z,-,-,hs⟩ := onQueue_some hs
    cases hs
    unfold qRef
    split
    · exact Steady.refl s
    · exact ⟨rfl,rfl,rfl,fun _ => rfl⟩
  | unref e =>
    simp only [step,Option.ite_none_right_eq_some,Option.some.injEq] at hs
    obtain ⟨-,rfl⟩ := hs
    have hunref := Steady.unref { s with refs := Function.update s.refs e (s.refs e - 1) } e
    exact ⟨hunref.nq,hunref.lists,hunref.selected,hunref.split⟩
  | removeAt y pos =>
    obtain ⟨z,-,-,hs⟩ := onQueue_some hs
    cases hs
    exact Steady.removeAt s z pos
  | remove e =>
    simp only [step,Option.ite_none_right_eq_some,Option.some.injEq] at hs
    obtain ⟨-,rfl⟩ := hs
    exact Steady.remove s e
  | sort y l =>
    obtain ⟨z,-,-,hs⟩ := onQueue_some hs
    simp only [Option.ite_none_right_eq_some,Option.some.injEq] at hs
    obtain ⟨-,rfl⟩ := hs
    exact Steady.setQueue s z rfl
  | readerInsert t um =>
    simp only [step,Option.ite_none_right_eq_some,Option.some.injEq] at hs
    obtain ⟨-,rfl⟩ := hs
    exact Steady.readerInsert s t um
  | _ => cases ha

theorem step_lists {s s' : QueueMgr} {a : Op} (hs : s.step a = some s') :
    match a with
    | .create _ _ _ | .destroy _ | .select _ | .qselect _ | .filter _ _ => True
    | _ => s'.lists = s.lists ∧ s'.selected = s.selected ∧ s'.nq = s.nq := by
  have hplain (ha : a.plain = true) :
      s'.lists = s.lists ∧ s'.selected = s.selected ∧ s'.nq = s.nq :=
    have h := step_plain ha hs
    ⟨h.lists,h.selected,h.nq⟩
  have hrule := lists_rule s.lists s.selected s.nq
  cases a with
  | create | destroy | select | qselect | filter => trivial
  | play y e rnd ans =>
    cases e with
    | some e => exact hplain rfl
    | none =>
      obtain ⟨z,-,-,hs⟩ := onQueue_some hs
      obtain ⟨p,hp,rfl⟩ := Option.map_eq_some_iff.mp hs
      exact hrule.qPlay ⟨rfl,rfl,rfl⟩ (by simp) hp
  | playNext y rnd ans =>
    obtain ⟨z,-,-,hs⟩ := onQueue_some hs
    obtain ⟨p,hp,rfl⟩ := Option.map_eq_some_iff.mp hs
    exact hrule.next ⟨rfl,rfl,rfl⟩ hp
  | playPrev y rnd ans =>
    obtain ⟨z,-,-,hs⟩ := onQueue_some hs
    obtain ⟨p,hp,rfl⟩ := Option.map_eq_some_iff.mp hs
    exact hrule.prev ⟨rfl,rfl,rfl⟩ hp
  | close t fstop tags rnd ans =>
    simp only [step,Option.ite_none_right_eq_some] at hs
    have hclosing := (Steady.readerClose s t).trans (Steady.closing _ t tags)
    obtain ⟨u,⟨hl,hk,hn⟩,rfl⟩ :=
      hrule.close ⟨hclosing.lists,hclosing.selected,hclosing.nq⟩ hs.2
    have hunref := Steady.unref u ((s.readerClose t).trk t).qent
    exact ⟨hunref.lists.trans hl,hunref.selected.trans hk,hunref.nq.trans hn⟩
  | _ => exact hplain rfl

theorem step_nq {s s' : QueueMgr} {a : Op} (hs : s.step a = some s') : s.nq ≤ s'.nq := by
  have hlists := step_lists hs
  cases a with
  | create c r a =>
    cases hs
    exact Nat.le_succ _
  | destroy y =>
    obtain ⟨z,-,-,hs⟩ := onQueue_some hs
    cases hs
    have hfold := Steady.foldl_unref (s.queue z).index { s with lists := s.lists.erase z }
    exact Nat.le_of_eq hfold.nq.symm
  | select pos =>
    cases hs
    split <;> exact Nat.le_refl _
  | qselect y =>
    cases hs
    split <;> exact Nat.le_refl _
  | filter y keep =>
    obtain ⟨z,-,-,hs⟩ := onQueue_some hs
    cases hs
    exact Nat.le_succ _
  | _ => exact Nat.le_of_eq hlists.2.2.symm

/-- Each operation flips the bit of queue `q` if it picks there at random, and keeps it otherwise. -/
theorem step_flips (q : Nat) (s : QueueMgr) (a : Op) (s' : QueueMgr) (hq : q < s.nq)
    (hs : s.step a = some s') : Flips s s' q (a.picks q s) := by
  have hplain (ha : a.plain = true) : (s'.queue q).randomSplit = (s.queue q).randomSplit :=
    (step_plain ha hs).split q
  cases a with
  | create c r a =>
    cases hs
    change ((s.setQueue s.nq _).queue q).randomSplit = _
    rw [setQueue_of_ne _ (Nat.ne_of_lt hq)]
  | destroy y =>
    obtain ⟨z,-,-,hs⟩ := onQueue_some hs
    cases hs
    have hfold := Steady.foldl_unref (s.queue z).index { s with lists := s.lists.erase z }
    have hset := Steady.setQueue (List.foldl qeUnref { s with lists := s.lists.erase z }
      (s.queue z).index) z (v := { (List.foldl qeUnref { s with lists := s.lists.erase z }
      (s.queue z).index).queue z with index := [], freed := true }) rfl
    exact (hset.split q).trans (hfold.split q)
  | select pos =>
    cases hs
    split <;> rfl
  | qselect y =>
    cases hs
    split <;> rfl
  | filter y keep =>
    obtain ⟨z,-,-,hs⟩ := onQueue_some hs
    cases hs
    have hfold (l : List Nat) (u : QueueMgr) : (l.foldl qeRef u).queue = u.queue := by
      induction l generalizing u with
      | nil => rfl
      | cons e l ih => exact ih _
    change ((setQueue (List.foldl qeRef s _) s.nq _).queue q).randomSplit = _
    rw [setQueue_of_ne _ (Nat.ne_of_lt hq),hfold]
  | play y e rnd ans =>
    cases e with
    | some e => exact hplain rfl
    | none =>
      obtain ⟨z,hz,-,hs⟩ := onQueue_some hs
      obtain ⟨p,hp,rfl⟩ := Option.map_eq_some_iff.mp hs
      have hflips := qPlay_none_flips q hp
      simpa [Op.picks,hz] using hflips
  | playNext y rnd ans =>
    obtain ⟨z,hz,-,hs⟩ := onQueue_some hs
    obtain ⟨p,hp,rfl⟩ := Option.map_eq_some_iff.mp hs
    have hflips := playFrom_flips (f := fun s c => ((s.qeIndex c).1,(s.qeIndex c).2 + 1)) q
      (fun c => qeIndex_queue s c) hp
    simpa [Op.picks,hz] using hflips
  | playPrev y rnd ans =>
    obtain ⟨z,hz,-,hs⟩ := onQueue_some hs
    obtain ⟨p,hp,rfl⟩ := Option.map_eq_some_iff.mp hs
    have hflips := playFrom_flips q (fun _ => rfl) hp
    simpa [Op.picks,hz] using hflips
  | close t fstop tags rnd ans =>
    simp only [step,Option.ite_none_right_eq_some] at hs
    obtain ⟨-,hs⟩ := hs
    have hclosing := (Steady.readerClose s t).trans (Steady.closing _ t tags)
    unfold closeTrack at hs
    rw [qeClose_eq] at hs
    dsimp only at hs
    generalize hu : (s.readerClose t).closing t tags = u at hs hclosing
    simp only [Op.picks,hu]
    split at hs
    · rename_i hgoes
      obtain ⟨p,hp,rfl⟩ := Option.map_eq_some_iff.mp hs
      have hunref := Steady.unref p.1 ((s.readerClose t).trk t).qent
      have hflips := playFrom_flips (f := fun s c => ((s.qeIndex c).1,(s.qeIndex c).2 + 1)) q
        (fun c => qeIndex_queue u c) hp
      have hcond : (fstop = false ∧ ((u.ent ((s.readerClose t).trk t).qent).expand = false ∨
          (u.ent ((s.readerClose t).trk t).qent).playNextOnClose = true) ∧
          (u.ent ((s.readerClose t).trk t).qent).q = q) ↔
            (u.ent ((s.readerClose t).trk t).qent).q = q :=
        ⟨fun h => h.2.2,fun h => ⟨hgoes.1,hgoes.2,h⟩⟩
      rw [if_congr hcond rfl rfl]
      exact hflips.of_same (hclosing.split q) (hunref.split q)
    · rename_i hgoes
      cases hs
      rw [if_neg fun h => hgoes ⟨h.1,h.2.1⟩]
      exact (hclosing.trans (Steady.unref u ((s.readerClose t).trk t).qent)).split q
  | _ => exact hplain rfl

/-- The random picks in queue `q` in the course of a run, with the lengths of the queue. -/
def picks (q : Nat) : QueueMgr → List Op → List (Nat × Nat)
  | _, [] => []
  | s, a :: as =>
    (a.picks q s).toList ++ match s.step a with
      | none => []
      | some s' => picks q s' as

/-- A pick lies in the upper half. -/
def upper (p : Nat × Nat) : Bool := decide (p.2 / 2 ≤ p.1)

theorem picks_alternate {q : Nat} {s s' : QueueMgr} {as : List Op} (hq : q < s.nq)
    (hrun : Machine.run step s as = some s') (hlong : ∀ p ∈ picks q s as, 2 ≤ p.2) :
    (((!(s.queue q).randomSplit) :: (picks q s as).map upper)).IsChain (· ≠ ·) ∧
      ∀ p ∈ picks q s as, p.1 < p.2 := by
  induction as generalizing s with
  | nil => exact ⟨List.isChain_singleton _,(fun p hp => by cases hp)⟩
  | cons a as ih =>
    obtain ⟨m,hm,hrest⟩ := Machine.run_cons_eq_some.mp hrun
    have hflips := step_flips q s a m hq hm
    have hq' := Nat.lt_of_lt_of_le hq (step_nq hm)
    have hcons : picks q s (a :: as) = (a.picks q s).toList ++ picks q m as := by
      simp only [picks,hm]
    rw [hcons] at hlong ⊢
    obtain ⟨hchain,hin⟩ := ih hq' hrest fun p hp => hlong p (List.mem_append_right _ hp)
    cases hpick : a.picks q s with
    | none =>
      rw [hpick] at hflips
      rw [show (m.queue q).randomSplit = (s.queue q).randomSplit from hflips] at hchain
      exact ⟨hchain,hin⟩
    | some p =>
      rw [hpick] at hflips hlong
      obtain ⟨i,n⟩ := p
      obtain ⟨hlt,hflip⟩ := hflips
      have hn : 2 ≤ n := hlong (i,n) (List.mem_append_left _ List.mem_cons_self)
      obtain ⟨hhalf,hnext⟩ := hflip hn
      have hupper : upper (i,n) = (s.queue q).randomSplit := hhalf.symm
      simp only [Option.toList_some,List.singleton_append,List.map_cons,List.mem_cons]
      refine ⟨?_,?_⟩
      · rw [hupper]
        rw [hnext,Bool.not_not] at hchain
        exact List.isChain_cons_cons.mpr ⟨Bool.not_ne_self _,hchain⟩
      · rintro p (rfl | hp)
        · exact hlt
        · exact hin p hp

/-- After every history without filtered queues, unless the queue is empty in random mode, each call
picks an entry of the queue or returns -1 and changes nothing; and random picks alternate between
the halves of the queue. -/
theorem choice {as : List Op} {s : QueueMgr} {q : Nat} (hfilter : ∀ a ∈ as, a.filters = false)
    (hrun : Machine.run step init as = some s) :
    (((s.queue q).random = true → (s.queue q).index ≠ []) → ∀ (k : Pick) rnd a l,
      (s.queue q).index.length ≤ l.length + 1 →
        ∃ r, k.call s q rnd (a :: l) = some r ∧ Chooses s r.1 q rnd r.2 a.created) ∧
    (q < s.nq → ∀ bs s', Machine.run step s bs = some s' → (∀ p ∈ picks q s bs, 2 ≤ p.2) →
      ((picks q s bs).map upper).IsChain (· ≠ ·) ∧ ∀ p ∈ picks q s bs, p.1 < p.2) := by
  have hord := run_ordered hfilter hrun
  refine ⟨fun hne k rnd a l hans => call_chooses k hord hne hans,fun hq bs s' hbs hlong => ?_⟩
  obtain ⟨hchain,hin⟩ := picks_alternate hq hbs hlong
  exact ⟨hchain.tail,hin⟩

/-- Three files in random mode. -/
def shuffled : List Op :=
  [.create false true false,.add none false none false,.add none false none false,
    .add none false none false]

theorem choice_shuffled : ∃ s, Machine.run step init shuffled = some s ∧
    (∃ r, Pick.play.call s 0 5 [⟨true,true⟩,⟨true,true⟩,⟨true,true⟩] = some r ∧
      Chooses s r.1 0 5 r.2 true) ∧
    picks 0 s [.playNext none 5 [⟨true,true⟩],.playNext none 7 [⟨true,true⟩]] = [(0,3),(2,3)] ∧
    ([(0,3),(2,3)].map upper).IsChain (· ≠ ·) := by
  have hrun : Machine.run step init shuffled = some _ := rfl
  have hchoice := choice (q := 0) (show ∀ a ∈ shuffled, a.filters = false by decide) hrun
  refine ⟨_,rfl,hchoice.1 (by decide) .play 5 ⟨true,true⟩ [⟨true,true⟩,⟨true,true⟩] (by decide),
    by decide,?_⟩
  exact (hchoice.2 (by decide) [.playNext none 5 [⟨true,true⟩],.playNext none 7 [⟨true,true⟩]] _ rfl
    (by decide)).1

/-- A directory that is still being read is next: -1 is returned with the cursor on it. -/
theorem cursor_on_expanding : ¬ ∀ as s q k rnd a l, (∀ a ∈ as, a.filters = false) →
    Machine.run step init as = some s → (s.queue q).index.length ≤ l.length + 1 →
    ∃ r, Pick.call k s q rnd (a :: l) = some r ∧
      ((∃ e ∈ (s.queue q).index, s.started ++ [e] <+: r.1.started) ∨
        r.2 = -1 ∧ (r.1.queue q).cursor = (s.queue q).cursor ∧
          (r.1.queue q).cursorIndex = (s.queue q).cursorIndex) := by
  intro h
  obtain ⟨r,hr,hout⟩ := h [.create false false false,.add none false (some .dir) true] _ 0 .play 0
    ⟨true,true⟩ [] (by decide) rfl (by decide)
  cases hr
  obtain ⟨e,-,hstarted⟩ | ⟨-,hcur,-⟩ := hout
  · have hle := hstarted.length_le
    simp only [List.length_append,List.length_singleton] at hle
    exact absurd hle (by decide)
  · exact absurd hcur (by decide)

end QueueMgr

end Phiola
