import Phiola.Queue.Order

/-!
# The next and the previous entry

`q_play_next()` asks `qe_index()` where the cursor entry stands; `q_play_prev()` trusts the index
that the entry has stored. Both then start what `q_get()` finds there.
-/

namespace Phiola

namespace QueueMgr

/-- `q_play()` has put the cursor on `e` and called `qe_play()`, and `created` says whether a track
could be created. A conversion queue may have gone on from there. -/
def Starts (s s' : QueueMgr) (q e : Nat) (created : Bool) : Prop :=
  if (s.ent e).expand = false ∧ created = true then
    if (s.queue q).conversion then s.started ++ [e] <+: s'.started
    else (s'.queue q).cursor = some e ∧ s'.started = s.started ++ [e]
  else (s'.queue q).cursor = some e ∧ s'.started = s.started ∧
    ((s.ent e).expand = true → (s'.ent e).playNextOnClose = true)

def StartsNothing (s s' : QueueMgr) (q : Nat) : Prop :=
  (s'.queue q).cursor = (s.queue q).cursor ∧ s'.started = s.started

/-- The two stores look the same to `q_play()`. -/
structure SamePlay (s s' : QueueMgr) : Prop where
  queue : s'.queue = s.queue
  started : s'.started = s.started
  ent : ∀ e, (s'.ent e).expand = (s.ent e).expand ∧ (s'.ent e).q = (s.ent e).q

theorem SamePlay.starts {s u s' : QueueMgr} {q e : Nat} {created : Bool} (h : SamePlay s u) :
    Starts u s' q e created ↔ Starts s s' q e created := by
  unfold Starts
  rw [h.queue,h.started,(h.ent e).1]

theorem samePlay_qeIndex (s : QueueMgr) (e : Nat) : SamePlay s (s.qeIndex e).1 := by
  refine ⟨qeIndex_queue s e,qeIndex_started s e,fun y => ?_⟩
  rw [qeIndex_fst]
  by_cases hy : y = e
  · subst hy; simp
  · rw [setEnt_of_ne _ hy]
    exact ⟨rfl,rfl⟩

theorem started_rule (l : List Nat) : PlayRule (fun s => l <+: s.started) fun _ _ => True where
  got _ _ := trivial
  index h := by rwa [qeIndex_started]
  split h := h
  stop {s c} h := by
    refine ⟨?_,fun _ _ => trivial⟩
    unfold qeStop
    split <;> exact h
  cursor {s q e} h _ := by
    refine ⟨?_,trivial⟩
    rw [setCursor_eq]
    exact h
  play {s e c} h _ := by
    unfold qePlay
    dsimp only
    split
    · exact h
    · split
      · exact h.trans (List.prefix_append _ _)
      · exact h

/-- `qe_play()` of the entry that the cursor was just put on. -/
theorem setCursor_qePlay (s : QueueMgr) (q e : Nat) (created : Bool) :
    (((s.setCursor q e).qePlay e created).1.queue q).cursor = some e ∧
      ((s.setCursor q e).qePlay e created).1.started =
        (if (s.ent e).expand = false ∧ created = true then s.started ++ [e] else s.started) ∧
      (((s.setCursor q e).qePlay e created).2 = 0 ↔ (s.ent e).expand = false ∧ created = true) ∧
      ((s.ent e).expand = true →
        (((s.setCursor q e).qePlay e created).1.ent e).playNextOnClose = true) := by
  have hcur : ((s.setCursor q e).queue q).cursor = some e := by simp [setCursor_eq]
  have hstarted : (s.setCursor q e).started = s.started := by simp [setCursor_eq]
  have hexp : ((s.setCursor q e).ent e).expand = (s.ent e).expand := by simp [setCursor_eq]
  unfold qePlay
  dsimp only
  rw [hexp]
  cases hx : (s.ent e).expand with
  | true => simp [hcur,hstarted]
  | false =>
    cases created with
    | false => simp [hcur,hstarted]
    | true =>
      refine ⟨?_,?_,?_,?_⟩
      · simp only [Bool.false_eq_true,if_false,if_true]
        unfold startTrack
        dsimp only [setTrk_queue,setEnt_queue]
        by_cases hq : q = ((s.setCursor q e).ent e).q
        · rw [← hq,setQueue_self]
          exact hcur
        · rw [setQueue_of_ne _ hq]
          exact hcur
      · simp [hstarted]
      · simp
      · simp

/-- `q_play()` starts the entry that it was called for. -/
theorem playEntry_starts {s : QueueMgr} {q e : Nat} {a : Answer} {rest : List Answer}
    {r : QueueMgr × Int} (hq : (s.ent e).q = q) (hr : s.playEntry q e (a :: rest) = some r) :
    Starts s r.1 q e a.created := by
  unfold playEntry at hr
  rw [hq] at hr
  split at hr
  · rename_i hconv
    obtain ⟨hcur,hstarted,hcode,hwait⟩ := setCursor_qePlay s q e a.created
    unfold Starts
    rw [hconv]
    unfold playLoop at hr
    dsimp only at hr
    by_cases hok : (s.ent e).expand = false ∧ a.created = true
    · rw [if_pos hok] at hstarted ⊢
      simp only [if_true]
      have hmono := started_rule (s.started ++ [e])
      have hbase : s.started ++ [e] <+: ((s.setCursor q e).qePlay e a.created).1.started :=
        hstarted ▸ List.prefix_refl _
      rw [if_neg (by simpa using hcode.mpr hok)] at hr
      split at hr
      · cases hr; exact hbase
      · split at hr
        · cases hr; exact hbase
        · exact hmono.loop hbase trivial hr
    · rw [if_neg hok] at hstarted ⊢
      rw [if_pos (mt hcode.mp hok)] at hr
      cases hr
      exact ⟨hcur,hstarted,hwait⟩
  · rename_i hconv
    have hstop : SamePlay s (s.stopCursor q) := by
      unfold stopCursor qeStop
      split
      · exact ⟨rfl,rfl,fun _ => ⟨rfl,rfl⟩⟩
      · split <;> exact ⟨rfl,rfl,fun _ => ⟨rfl,rfl⟩⟩
    obtain ⟨hcur,hstarted,hcode,hwait⟩ := setCursor_qePlay (s.stopCursor q) q e a.created
    rw [(hstop.ent e).1,hstop.started] at hstarted
    rw [(hstop.ent e).1] at hwait
    have hres : r.1 = (((s.stopCursor q).setCursor q e).qePlay e a.created).1 := by
      dsimp only at hr
      split at hr <;> cases hr <;> rfl
    unfold Starts
    rw [if_neg hconv,hres]
    split
    · rename_i hok
      exact ⟨hcur,by rw [hstarted,if_pos hok]⟩
    · rename_i hok
      exact ⟨hcur,by rw [hstarted,if_neg hok],hwait⟩

/-- Which entry a lookup of index `i` gives when `random` is off. -/
def lookup (v : PhiQueue) (i : Int) : Option Nat :=
  qGet v (if (i < 0 ∨ (v.index.length : Int) ≤ i) ∧ v.repeatAll = true then 0 else i)

/-- The end of `q_play_next()` and of `q_play_prev()`. -/
def playAt (s : QueueMgr) (q rnd : Nat) (i : Int) (ans : List Answer) : Option (QueueMgr × Int) :=
  match s.qGetIndex q i rnd with
  | none => none
  | some (s, i) =>
    match qGet (s.queue q) i with
    | none => some (s, -1)
    | some e => s.qPlay q (some e) rnd ans

theorem playFrom_eq {index : QueueMgr → Nat → QueueMgr × Int} {s : QueueMgr} {q c : Nat}
    (rnd : Nat) (ans : List Answer) (hcur : (s.queue q).cursor = some c) :
    playFrom index s q rnd ans = if (s.ent c).index ≠ -1 then
      (index s c).1.playAt q rnd (index s c).2 ans else s.playAt q rnd (s.queue q).cursorIndex ans := by
  unfold playFrom
  rw [hcur]
  dsimp only
  by_cases hi : (s.ent c).index ≠ -1
  · rw [if_pos hi,if_pos hi]
    rfl
  · rw [if_neg hi,if_neg hi]
    rfl

theorem playAt_eq {s : QueueMgr} {q : Nat} {i : Int} (rnd : Nat) (ans : List Answer)
    (hrandom : (s.queue q).random = false) : s.playAt q rnd i ans =
      match lookup (s.queue q) i with
      | none => some (s, -1)
      | some e => s.playEntry (s.ent e).q e ans := by
  unfold playAt qGetIndex lookup
  simp only [hrandom,Bool.false_eq_true,if_false]
  by_cases hi : (i < 0 ∨ ((s.queue q).index.length : Int) ≤ i) ∧ (s.queue q).repeatAll = true
  · simp only [if_pos hi]
    rfl
  · simp only [if_neg hi]
    rfl

/-- What `q_play_next()` and `q_play_prev()` do for an index. -/
theorem playAt_outcome {s : QueueMgr} {q rnd : Nat} {i : Int} {a : Answer} {rest : List Answer}
    {r : QueueMgr × Int} (h : Ordered s) (hrandom : (s.queue q).random = false)
    (hr : s.playAt q rnd i (a :: rest) = some r) :
    match lookup (s.queue q) i with
    | none => StartsNothing s r.1 q
    | some e => Starts s r.1 q e a.created := by
  rw [playAt_eq rnd _ hrandom] at hr
  split at hr
  · cases hr
    exact ⟨rfl,rfl⟩
  · rename_i e he
    rw [(h.own (mem_of_qGet he)).2.1] at hr
    exact playEntry_starts (h.own (mem_of_qGet he)).2.1 hr

theorem playAt_total {s : QueueMgr} {q n : Nat} {i : Int} {a : Answer} {l : List Answer}
    (h : Ordered s) (hrandom : (s.queue q).random = false)
    (hconv : (s.queue q).conversion = false) : ∃ r, s.playAt q n i (a :: l) = some r := by
  rw [playAt_eq n _ hrandom]
  split
  · exact ⟨_,rfl⟩
  · rename_i e he
    unfold playEntry
    rw [(h.own (mem_of_qGet he)).2.1,hconv]
    simp only [Bool.false_eq_true,if_false]
    split <;> exact ⟨_,rfl⟩

theorem Starts.cursor {s s' : QueueMgr} {q e : Nat} {created : Bool}
    (hconv : (s.queue q).conversion = false) (h : Starts s s' q e created) :
    (s'.queue q).cursor = some e := by
  unfold Starts at h
  rw [hconv] at h
  simp only [Bool.false_eq_true,if_false] at h
  split at h <;> exact h.1

/-- The entry behind position `p`. -/
def nextEntry (v : PhiQueue) (p : Nat) : Option Nat :=
  if p + 1 < v.index.length then v.index[p + 1]? else if v.repeatAll then v.index[0]? else none

/-- The entry before position `p`. -/
def prevEntry (v : PhiQueue) (p : Nat) : Option Nat := if p = 0 then none else v.index[p - 1]?

/-- `q_play_next()` starts the entry behind position `p`, and nothing if there is none. -/
def NextRight (s : QueueMgr) (q p : Nat) : Prop :=
  ∀ rnd a rest, ∃ r, s.qPlayNext q rnd (a :: rest) = some r ∧
    match nextEntry (s.queue q) p with
    | none => StartsNothing s r.1 q
    | some e => Starts s r.1 q e a.created

/-- `q_play_prev()` starts the entry before position `p` if there is one. -/
def PrevRight (s : QueueMgr) (q p : Nat) : Prop :=
  ∀ rnd a rest e, prevEntry (s.queue q) p = some e →
    ∃ r, s.qPlayPrev q rnd (a :: rest) = some r ∧ Starts s r.1 q e a.created

/-- The index that the cursor entry has stored leads to the entry before it: it is the position of
the entry, or it leads out of a queue that repeats and the first entry is meant. -/
def StoredIndexServes (s : QueueMgr) (q c p : Nat) : Prop :=
  p = 0 ∨ (s.ent c).index = p ∨ (s.queue q).repeatAll = true ∧ p = 1 ∧
    ((s.ent c).index = 0 ∨ ((s.queue q).index.length : Int) < (s.ent c).index)

theorem lookup_next {v : PhiQueue} {p : Nat} (hp : p < v.index.length) :
    lookup v (p + 1) = nextEntry v p := by
  unfold lookup nextEntry qGet
  by_cases hlt : p + 1 < v.index.length
  · have hin : ¬(((p : Int) + 1 < 0 ∨ (v.index.length : Int) ≤ p + 1) ∧ v.repeatAll = true) := by
      omega
    rw [if_neg hin,if_pos hlt,if_pos (by omega)]
    rfl
  · rw [if_neg hlt]
    cases hr : v.repeatAll with
    | true => simp [show (v.index.length : Int) ≤ p + 1 by omega]
    | false =>
      simp only [Bool.false_eq_true,and_false,if_false]
      rw [if_pos (by omega)]
      exact List.getElem?_eq_none (by omega)

theorem nextRight {s : QueueMgr} {q c p : Nat} (h : Ordered s)
    (hrandom : (s.queue q).random = false) (hconv : (s.queue q).conversion = false)
    (hcur : (s.queue q).cursor = some c) (hp : (s.queue q).index[p]? = some c) :
    NextRight s q p := by
  intro rnd a rest
  have hlt := (List.getElem?_eq_some_iff.mp hp).1
  have hidx := (h.own (List.mem_of_getElem? hp)).2.2
  have hsame := samePlay_qeIndex s c
  have hnext : s.qPlayNext q rnd (a :: rest) =
      (s.qeIndex c).1.playAt q rnd (p + 1) (a :: rest) := by
    unfold qPlayNext
    rw [playFrom_eq rnd _ hcur,if_pos (by omega)]
    dsimp only
    rw [h.qeIndex_at hp]
  obtain ⟨r,hr⟩ := playAt_total (i := (p : Int) + 1) (n := rnd) (a := a) (l := rest)
    (h.qeIndex c) (q := q) (hsame.queue ▸ hrandom) (hsame.queue ▸ hconv)
  have hout := playAt_outcome (h.qeIndex c) (hsame.queue ▸ hrandom) hr
  rw [hsame.queue,lookup_next hlt] at hout
  refine ⟨r,hnext.trans hr,?_⟩
  split at hout
  · exact ⟨hout.1.trans (by rw [hsame.queue]),hout.2.trans hsame.started⟩
  · exact hsame.starts.mp hout

/-- `q_play_prev()` is right exactly when the stored index serves. -/
theorem prevRight_iff {s : QueueMgr} {q c p : Nat} (h : Ordered s)
    (hrandom : (s.queue q).random = false) (hconv : (s.queue q).conversion = false)
    (hcur : (s.queue q).cursor = some c) (hp : (s.queue q).index[p]? = some c) :
    PrevRight s q p ↔ StoredIndexServes s q c p := by
  have hlt := (List.getElem?_eq_some_iff.mp hp).1
  have hidx := (h.own (List.mem_of_getElem? hp)).2.2
  have hprev (rnd : Nat) (ans : List Answer) : s.qPlayPrev q rnd ans =
      s.playAt q rnd ((s.ent c).index - 1) ans := by
    unfold qPlayPrev
    rw [playFrom_eq rnd _ hcur,if_pos (by omega)]
  unfold PrevRight StoredIndexServes prevEntry
  by_cases hzero : p = 0
  · simp [hzero]
  obtain ⟨e,he⟩ : ∃ e, (s.queue q).index[p - 1]? = some e :=
    ⟨_,List.getElem?_eq_getElem (show p - 1 < _ by omega)⟩
  simp only [hzero,if_false,he,Option.some.injEq,false_or]
  have hlook : (∀ rnd a rest y, e = y → ∃ r, s.qPlayPrev q rnd (a :: rest) = some r ∧
      Starts s r.1 q y a.created) ↔ lookup (s.queue q) ((s.ent c).index - 1) = some e := by
    constructor
    · intro hall
      obtain ⟨r,hr,hs⟩ := hall 0 ⟨true,true⟩ [] e rfl
      rw [hprev] at hr
      have hout := playAt_outcome h hrandom hr
      have hstart := hs.cursor hconv
      split at hout
      · have heq := (hout.1.trans hcur).symm.trans hstart
        simp only [Option.some.injEq] at heq
        subst heq
        have := (List.getElem?_inj hlt (h.nodup q)).mp (hp.trans he.symm)
        omega
      · rename_i y hy
        rw [hy]
        exact (hout.cursor hconv).symm.trans hstart
    · rintro hl rnd a rest y rfl
      obtain ⟨r,hr⟩ := playAt_total (i := (s.ent c).index - 1) (n := rnd) (a := a) (l := rest)
        h hrandom hconv
      have hout := playAt_outcome h hrandom hr
      rw [hl] at hout
      exact ⟨r,(hprev rnd _).trans hr,hout⟩
  rw [hlook]
  unfold lookup
  rw [qGet_eq_some]
  constructor
  · rintro ⟨i,hi,hget⟩
    have hpos := (List.getElem?_inj (by omega) (h.nodup q)).mp (he.trans hget.symm)
    split at hi
    · rename_i hout
      right
      exact ⟨hout.2,by omega,by omega⟩
    · left
      omega
  · intro hor
    refine ⟨p - 1,?_,he⟩
    obtain hcur' | ⟨hrep,hone,hout⟩ := hor
    · rw [if_neg (by omega)]
      omega
    · rw [if_pos ⟨by omega,hrep⟩]
      omega

/-- After every history without filtered queues, as long as the cursor entry is listed,
`q_play_next()` is right, and `q_play_prev()` is right exactly when the index that the cursor entry
has stored serves. -/
theorem navigation {as : List Op} {s : QueueMgr} {q c p : Nat}
    (hfilter : ∀ a ∈ as, a.filters = false) (hrun : Machine.run step init as = some s)
    (hrandom : (s.queue q).random = false) (hconv : (s.queue q).conversion = false)
    (hcur : (s.queue q).cursor = some c) (hp : (s.queue q).index[p]? = some c) :
    NextRight s q p ∧ PrevRight s q p ↔ StoredIndexServes s q c p := by
  have hord := run_ordered hfilter hrun
  rw [prevRight_iff hord hrandom hconv hcur hp]
  exact and_iff_right (nextRight hord hrandom hconv hcur hp)

/-- Three files, and the second one plays. -/
def threeFiles : List Op :=
  [.create false false false,.add none false none false,.add none false none false,
    .add none false none false,.play none (some 1) 0 [⟨true,true⟩]]

instance (s : QueueMgr) (q c p : Nat) : Decidable (StoredIndexServes s q c p) :=
  inferInstanceAs (Decidable (_ ∨ _))

theorem navigation_three_files :
    ∃ s, Machine.run step init threeFiles = some s ∧ NextRight s 0 1 ∧ PrevRight s 0 1 :=
  ⟨_,rfl,(navigation (q := 0) (c := 1) (p := 1) (show ∀ a ∈ threeFiles, a.filters = false by decide) rfl rfl
    rfl rfl rfl).mpr (by decide)⟩

/-- The third file plays and the first one is removed. -/
def threeFilesLess : List Op :=
  threeFiles ++ [Op.play none (some 2) 0 [⟨true,true⟩],Op.removeAt none 0]

/-- Then `q_play_prev()` starts the file that plays once more. -/
theorem prev_after_removal : ¬ ∀ as s q c p, (∀ a ∈ as, a.filters = false) →
    Machine.run step init as = some s → (s.queue q).random = false →
    (s.queue q).conversion = false → (s.queue q).cursor = some c →
    (s.queue q).index[p]? = some c → NextRight s q p ∧ PrevRight s q p := by
  intro h
  have hfilter : ∀ a ∈ threeFilesLess, a.filters = false := by decide
  have hprev := (h _ _ 0 2 1 hfilter rfl rfl rfl rfl rfl).2
  exact absurd ((prevRight_iff (run_ordered hfilter rfl) rfl rfl rfl rfl).mp hprev) (by decide)

end QueueMgr

end Phiola
