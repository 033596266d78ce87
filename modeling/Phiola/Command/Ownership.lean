import Phiola.Command.Blocks

/-!
# Entries own their configurations

The session follows the queue manager: an entry has a configuration as long as it is in use, and a track
a copy as long as it is open. In every run that gives the slice of `-tracks` to one entry and destroys no
tags that another track has a copy of, each block has one entry and is released once.
-/

namespace Phiola

namespace Session

open QueueMgr

/-- The session while it follows the manager to `m`: the tracks before `n` are done. -/
structure Ready (s : Session) (m : QueueMgr) (n : Nat) : Prop where
  held : s.Held
  entry : ∀ e, (s.entry e).isSome = true ↔ e < m.ne ∧ (s.mgr.ent e).freed = false
  track : ∀ t, (s.track t).isSome = true ↔ t < n ∧ (m.trk t).closed = false
  qent : ∀ t x, s.track t = some x → x.qent = (m.trk t).qent

/-- The queue manager and the configurations agree. -/
structure Sound (s : Session) : Prop where
  counted : Counted s.mgr []
  accounts : Accounts s.mgr
  held : s.Held
  entry : ∀ e, (s.entry e).isSome = true ↔ s.mgr.liveEnt e
  track : ∀ t, (s.track t).isSome = true ↔ s.mgr.openTrk t
  qent : ∀ t x, s.track t = some x → x.qent = (s.mgr.trk t).qent

@[simp] theorem startTrack_mgr (m : QueueMgr) (s : Session) (t : Nat) :
    (s.startTrack m t).mgr = s.mgr := by
  unfold startTrack
  dsimp only
  split <;> rfl

@[simp] theorem freeEntry_mgr (s : Session) (e : Nat) : (s.freeEntry e).mgr = s.mgr := by
  unfold freeEntry
  split <;> rfl

/-- An operation of the manager and what it leaves of the older entries and tracks. -/
structure Moved (s m : QueueMgr) : Prop where
  counted : Counted m []
  accounts : Accounts m
  nt : s.nt ≤ m.nt
  new : ∀ t, s.nt ≤ t → t < m.nt → (m.trk t).closed = false
  freed : ∀ e, e < m.ne → (m.ent e).freed = false → (s.ent e).freed = false

theorem Ready.start {s : Session} {m : QueueMgr} {n : Nat} (h : Ready s m n) (hm : Moved s.mgr m)
    (hle : s.mgr.nt ≤ n) (hn : n < m.nt) : Ready (s.startTrack m n) m (n + 1) := by
  have hopen : m.openTrk n := ⟨hn,hm.new n hle hn⟩
  have hused := hm.counted.onTrack_used hopen
  have hlt := hm.counted.inUse hused
  obtain ⟨c,hc⟩ := Option.isSome_iff_exists.mp
    ((h.entry (m.trk n).qent).mpr ⟨hlt,hm.freed _ hlt (hm.counted.not_freed hused)⟩)
  have hheld := h.held.startTrack (m := m) (t := n) hc
  refine ⟨hheld,fun e => ?_,fun t => ?_,fun t x hx => ?_⟩
  · rw [startTrack_mgr,← h.entry e]
    simp only [startTrack,hc]
  · simp only [startTrack,hc]
    by_cases htn : t = n
    · subst htn
      simp [hopen.2]
    · rw [Function.update_of_ne htn,h.track t,show t < n ↔ t < n + 1 by omega]
  · simp only [startTrack,hc] at hx
    by_cases htn : t = n
    · subst htn
      rw [Function.update_self] at hx
      cases hx
      rfl
    · rw [Function.update_of_ne htn] at hx
      exact h.qent t x hx

theorem Ready.starts {s : Session} {m : QueueMgr} {n k : Nat} (h : Ready s m n) (hm : Moved s.mgr m)
    (hle : s.mgr.nt ≤ n) (hn : n + k ≤ m.nt) :
    Ready ((List.range' n k).foldl (startTrack m) s) m (n + k) ∧
      ((List.range' n k).foldl (startTrack m) s).mgr = s.mgr := by
  induction k generalizing s n with
  | zero => exact ⟨h,rfl⟩
  | succ k ih =>
    have hstart := h.start hm hle (by omega)
    have hrest := ih hstart (by rw [startTrack_mgr]; exact hm)
      (by rw [startTrack_mgr]; omega) (by omega)
    rw [List.range'_succ,List.foldl_cons,show n + (k + 1) = n + 1 + k by omega]
    exact ⟨hrest.1,hrest.2.trans (startTrack_mgr m s n)⟩

theorem free_held {s : Session} {l : List Nat} (h : s.Held)
    (halone : ∀ e ∈ l, ∀ t x, s.track t = some x → x.qent ≠ e) :
    (l.foldl freeEntry s).Held ∧ (l.foldl freeEntry s).track = s.track ∧
      ∀ e, ((l.foldl freeEntry s).entry e).isSome = true ↔ (s.entry e).isSome = true ∧ e ∉ l := by
  induction l generalizing s with
  | nil => exact ⟨h,rfl,by simp⟩
  | cons d l ih =>
    have htrack : (s.freeEntry d).track = s.track := by
      unfold freeEntry
      split <;> rfl
    have hentry (e : Nat) : ((s.freeEntry d).entry e).isSome = true ↔
        (s.entry e).isSome = true ∧ e ≠ d := by
      unfold freeEntry
      split
      · rename_i hnone
        refine ⟨fun he => ⟨he,?_⟩,And.left⟩
        rintro rfl
        rw [hnone] at he
        cases he
      · by_cases hed : e = d
        · subst hed
          simp
        · simp [hed]
    obtain ⟨hheld,ht,he⟩ := ih (h.freeEntry (halone d List.mem_cons_self)) fun e hmem t x hx =>
      halone e (List.mem_cons_of_mem d hmem) t x (htrack ▸ hx)
    refine ⟨hheld,ht.trans htrack,fun e => ?_⟩
    rw [List.foldl_cons,he,hentry,List.mem_cons,not_or,and_assoc]

theorem mem_dead {s m : QueueMgr} {e : Nat} :
    e ∈ dead s m ↔ e < m.ne ∧ (s.ent e).freed = false ∧ (m.ent e).freed = true := by
  simp [dead]

theorem Ready.follow {s : Session} {m : QueueMgr} (h : Ready s m s.mgr.nt) (hm : Moved s.mgr m) :
    (s.follow m).Sound := by
  obtain ⟨hr,hmgr⟩ := h.starts hm (k := m.nt - s.mgr.nt) (Nat.le_refl _) (by have := hm.nt; omega)
  unfold Session.follow
  generalize (List.range' s.mgr.nt (m.nt - s.mgr.nt)).foldl (startTrack m) s = u at hr hmgr
  have hnt : s.mgr.nt + (m.nt - s.mgr.nt) = m.nt := by have := hm.nt; omega
  rw [hnt] at hr
  have halone : ∀ e ∈ dead s.mgr m, ∀ t x, u.track t = some x → x.qent ≠ e := by
    intro e he t x hx heq
    have hopen : m.openTrk t := (hr.track t).mp (by rw [hx]; rfl)
    have hlive := hm.counted.not_freed (hm.counted.onTrack_used hopen)
    rw [← hr.qent t x hx,heq,(mem_dead.mp he).2.2] at hlive
    cases hlive
  obtain ⟨hheld,htrack,hentry⟩ := free_held hr.held halone
  refine ⟨hm.counted,hm.accounts,⟨hheld.copy,hheld.sound⟩,fun e => ?_,fun t => ?_,fun t x hx => ?_⟩
  · simp only [hentry,hr.entry,hmgr,mem_dead,liveEnt]
    have hback := hm.freed e
    cases hf : (m.ent e).freed with
    | false =>
      rw [hf] at hback
      simp only [Bool.false_eq_true,and_false,not_false_eq_true,and_true]
      exact ⟨And.left,fun he => ⟨he,hback he rfl⟩⟩
    | true =>
      simp only [and_true,Bool.true_eq_false,and_false,iff_false]
      exact fun ⟨he,hnot⟩ => hnot he
  · simp only [htrack]
    exact hr.track t
  · simp only [htrack] at hx
    exact hr.qent t x hx

theorem Sound.op {s : Session} (h : s.Sound) {a : Op} {m : QueueMgr} (hins : a.inserts = 0)
    (hclose : a.closesTrack = false) (hm : s.mgr.step a = some m) : (s.follow m).Sound := by
  have hgrow := step_grows hm
  obtain ⟨hacc,hopened⟩ := step_accounts h.counted h.accounts hclose hm
  have hne : m.ne = s.mgr.ne := by rw [hgrow.ne,hins,Nat.add_zero]
  have hready : Ready s m s.mgr.nt := by
    refine ⟨h.held,fun e => ?_,fun t => ?_,fun t x hx => ?_⟩
    · rw [hne]
      exact h.entry e
    · refine (h.track t).trans (and_congr_right fun hlt => ?_)
      rw [hopened.old t hlt]
    · have hopen := (h.track t).mp (by rw [hx]; rfl)
      exact (h.qent t x hx).trans (hgrow.qent t hopen.1).symm
  exact hready.follow ⟨step_counted _ _ _ h.counted hm,hacc,hgrow.nt,hopened.new,
    fun e he hf => hgrow.freed e (hne ▸ he) hf⟩

/-- An operation that makes an entry, which already has its configuration. -/
theorem Sound.insert {s : Session} (h : s.Sound) {a : Op} {m : QueueMgr} (hins : a.inserts = 1)
    (hclose : a.closesTrack = false) (hm : s.mgr.step a = some m) {x : Command} {k n : Nat}
    {c : TrackConf}
    (hheld : ({ s with cmd := x, inputs := k }.addEntry s.mgr.ne c n).Held) :
    (({ s with cmd := x, inputs := k }.addEntry s.mgr.ne c n).follow m).Sound := by
  have hgrow := step_grows hm
  obtain ⟨hacc,hopened⟩ := step_accounts h.counted h.accounts hclose hm
  have hne : m.ne = s.mgr.ne + 1 := by rw [hgrow.ne,hins]
  have hfresh : (s.mgr.ent s.mgr.ne).freed = false := by
    by_contra hf
    exact Nat.lt_irrefl _ ((h.counted.freed _).mp (by simpa using hf)).1
  have hready : Ready ({ s with cmd := x, inputs := k }.addEntry s.mgr.ne c n) m s.mgr.nt := by
    refine ⟨hheld,fun e => ?_,fun t => ?_,fun t x hx => ?_⟩
    · simp only [addEntry]
      by_cases he : e = s.mgr.ne
      · subst he
        simp [hne,hfresh]
      · rw [Function.update_of_ne he,h.entry e,liveEnt,hne,show e < s.mgr.ne ↔ e < s.mgr.ne + 1 by omega]
    · refine (h.track t).trans (and_congr_right fun hlt => ?_)
      rw [hopened.old t hlt]
    · have hopen := (h.track t).mp (by rw [show s.track t = some x from hx]; rfl)
      exact (h.qent t x hx).trans (hgrow.qent t hopen.1).symm
  refine hready.follow ⟨step_counted _ _ _ h.counted hm,hacc,hgrow.nt,hopened.new,fun e he hf => ?_⟩
  by_cases heq : e = s.mgr.ne
  · subst heq
    exact hfresh
  · exact hgrow.freed e (by omega) hf

theorem Sound.close {s u : Session} (h : s.Sound) {t : Nat} {fstop : Bool} {tags : Meta} {rnd : Nat}
    {ans : List Answer} {m : QueueMgr} (hm : s.mgr.step (.close t fstop tags rnd ans) = some m)
    (hmgr : u.mgr = s.mgr) (hheld : u.Held) (hentry : ∀ e, (u.entry e).isSome = (s.entry e).isSome)
    (hclosed : u.track t = none) (hother : ∀ y, y ≠ t → u.track y = s.track y) :
    (u.follow m).Sound := by
  have hgrow := step_grows hm
  have hcounted := step_counted _ _ _ h.counted hm
  simp only [QueueMgr.step,Option.ite_none_right_eq_some] at hm
  obtain ⟨⟨ht,-⟩,hm⟩ := hm
  obtain ⟨hacc,hopened⟩ := h.accounts.closeTrack ht hm
  have hself : (m.trk t).closed = true := (hopened.old t ht.1).trans (by rw [setTrk_self])
  have hsame (y : Nat) (hy : y ≠ t) (hlt : y < s.mgr.nt) : (m.trk y).closed = (s.mgr.trk y).closed :=
    (hopened.old y hlt).trans (by rw [setTrk_of_ne _ hy])
  have hready : Ready u m u.mgr.nt := by
    rw [hmgr]
    refine ⟨hheld,fun e => ?_,fun y => ?_,fun y x hx => ?_⟩
    · rw [hentry,hmgr,hgrow.ne]
      exact h.entry e
    · by_cases hyt : y = t
      · subst hyt
        simp [hclosed,hself]
      · rw [hother y hyt]
        refine (h.track y).trans (and_congr_right fun hlt => ?_)
        rw [hsame y hyt hlt]
    · have hyt : y ≠ t := by
        rintro rfl
        rw [hclosed] at hx
        cases hx
      rw [hother y hyt] at hx
      have hopen := (h.track y).mp (by rw [hx]; rfl)
      exact (h.qent y x hx).trans (hgrow.qent y hopen.1).symm
  exact hready.follow (hmgr ▸ ⟨hcounted,hacc,hgrow.nt,hopened.new,fun e he hf =>
    hgrow.freed e (by rw [hgrow.ne] at he; exact he) hf⟩)

theorem dropTrack_track (s : Session) (t y : Nat) :
    (s.dropTrack t).track y = if y = t then none else s.track y := by
  unfold dropTrack
  split
  · rename_i hnone
    split
    · rename_i hy
      rw [hy,hnone]
    · rfl
  · by_cases hy : y = t
    · subst hy
      simp
    · simp [hy]

theorem dropTrack_entry (s : Session) (t : Nat) :
    (s.dropTrack t).entry = s.entry ∧ (s.dropTrack t).mgr = s.mgr := by
  unfold dropTrack
  split <;> exact ⟨rfl,rfl⟩

theorem keepTags_frame (s : Session) (t : Nat) : (s.keepTags t).mgr = s.mgr ∧
    (∀ y, y ≠ t → (s.keepTags t).track y = s.track y) ∧
      ∀ e, ((s.keepTags t).entry e).isSome = (s.entry e).isSome := by
  unfold keepTags
  split
  · exact ⟨rfl,fun _ _ => rfl,fun _ => rfl⟩
  · rename_i x hx
    split
    · exact ⟨rfl,fun _ _ => rfl,fun _ => rfl⟩
    · rename_i c hc
      refine ⟨rfl,fun y hy => Function.update_of_ne hy _ _,fun e => ?_⟩
      by_cases he : e = x.qent
      · subst he
        simp [hc]
      · simp [Function.update_of_ne he]

theorem step_sound (s : Session) (a : Act) (s' : Session) (h : s.Sound) (hfit : Fits s a)
    (hs : Session.step s a = some s') : s'.Sound := by
  have hnew : s.entry s.mgr.ne = none := by
    by_contra hne
    exact Nat.lt_irrefl _ ((h.entry s.mgr.ne).mp (Option.isSome_iff_ne_none.mpr hne)).1
  have hitem (c : TrackConf) (it : ListItem) :
      (s.addEntry s.mgr.ne (it.conf c s.heap).1 (it.conf c s.heap).2).Held := by
    have hmade := item_made c s.heap it
    refine h.held.addEntry (x := s.cmd) (k := s.inputs) hnew hmade.fresh (.inl ⟨?_,rfl,rfl⟩)
    rw [hmade.tracks]
    rfl
  cases a with
  | input fn kind created =>
    simp only [Session.step,Option.map_eq_some_iff] at hs
    obtain ⟨m,hm,rfl⟩ := hs
    obtain ⟨hown,htracks⟩ := quAdd_fresh s.cmd fn s.heap
    refine h.insert rfl rfl hm (h.held.addEntry hnew hown (.inr ⟨Nat.succ_ne_zero _,fun b hb => ?_⟩))
    rw [htracks] at hb
    rcases hfit with hnone | hfirst
    · rw [Option.isNone_iff_eq_none.mp hnone] at hb
      cases hb
    · simp only [holders,hfirst,if_true]
      exact hb
  | listed t item =>
    simp only [Session.step] at hs
    split at hs
    · cases hs
    · rename_i x hx
      obtain ⟨m,hm,rfl⟩ := Option.map_eq_some_iff.mp hs
      exact h.insert (x := s.cmd) (k := s.inputs) rfl rfl hm (hitem x.conf item)
  | sheet t e item =>
    simp only [Session.step] at hs
    split at hs
    · cases hs
    · rename_i x hx
      obtain ⟨m,hm,rfl⟩ := Option.map_eq_some_iff.mp hs
      exact h.insert (x := s.cmd) (k := s.inputs) rfl rfl hm (hitem x.conf item)
  | read t r =>
    simp only [Session.step,Option.ite_none_right_eq_some,Option.some.injEq] at hs
    obtain ⟨hopen,rfl⟩ := hs
    obtain ⟨x,hx⟩ := Option.isSome_iff_exists.mp hopen
    have hheld := h.held.readTag t r
    simp only [readTag,hx] at hheld ⊢
    refine ⟨h.counted,h.accounts,hheld,h.entry,fun y => ?_,fun y z hz => ?_⟩
    · by_cases hyt : y = t
      · subst hyt
        rw [← h.track y,hx]
        simp
      · simp only [Function.update_of_ne hyt]
        exact h.track y
    · by_cases hyt : y = t
      · subst hyt
        simp only [Function.update_self,Option.some.injEq] at hz
        subst hz
        exact h.qent y x hx
      · simp only [Function.update_of_ne hyt] at hz
        exact h.qent y z hz
  | close t fstop rnd ans =>
    simp only [Session.step] at hs
    split at hs
    · cases hs
    · rename_i x hx
      obtain ⟨m,hm,rfl⟩ := Option.map_eq_some_iff.mp hs
      cases hf : s.forgets t with
      | true =>
        obtain ⟨hmgr,htrack,hentry⟩ := keepTags_frame s t
        have hshare (y : Nat) (hy : y ≠ t) : s.sharesTags y t = false := by
          by_cases hlt : y < s.mgr.nt
          · exact hfit hf y hlt hy
          · have hnone : s.track y = none := by
              by_contra hne
              exact hlt ((h.track y).mp (Option.isSome_iff_ne_none.mpr hne)).1
            simp only [sharesTags,hnone]
        refine h.close hm ((dropTrack_entry _ t).2.trans hmgr) (h.held.keepTags hshare) (fun e => ?_)
          ?_ fun y hy => ?_
        · rw [if_pos rfl,(dropTrack_entry _ t).1]
          exact hentry e
        · rw [dropTrack_track,if_pos rfl]
        · rw [dropTrack_track,if_neg hy]
          exact htrack y hy
      | false =>
        refine h.close hm (dropTrack_entry s t).2 (h.held.dropTrack t) (fun e => ?_) ?_ fun y hy => ?_
        · rw [(dropTrack_entry _ t).1]
          rfl
        · rw [dropTrack_track,if_pos rfl]
        · rw [dropTrack_track,if_neg hy]
          rfl
  | op a =>
    simp only [Session.step,Option.ite_none_right_eq_some,Option.map_eq_some_iff] at hs
    obtain ⟨⟨hins,hclose⟩,m,hm,rfl⟩ := hs
    exact h.op hins hclose hm

theorem start_sound (x : Command) : (start x).Sound where
  counted := init_counted
  accounts := init_accounts
  held := by
    refine ⟨fun t z hz => (by cases hz),⟨fun z => ?_,fun y z b hy hz => ?_,fun z b hb => ?_,
      List.nodup_nil,fun b hb => (by cases hb)⟩⟩
    · cases z with
      | command => exact addrs_nodup x.tracks
      | entry e => exact List.nodup_nil
      | track t => exact List.nodup_nil
    · cases y with
      | command =>
        cases z with
        | command => rfl
        | entry e => cases hz
        | track t => cases hz
      | entry e => cases hy
      | track t => cases hy
    · cases z with
      | command =>
        have hmem : b ∈ addrs x.tracks := hb
        refine ⟨?_,fun hr => (by cases hr)⟩
        cases htr : x.tracks with
        | none =>
          rw [htr] at hmem
          cases hmem
        | some y =>
          rw [htr] at hmem
          have hby : b = y.addr := List.mem_singleton.mp hmem
          simp only [holders,start,htr,hby]
          omega
      | entry e => cases hb
      | track t => cases hb
  entry e := ⟨fun he => (by cases he),fun he => absurd he.1 (Nat.not_lt_zero e)⟩
  track t := ⟨fun ht => (by cases ht),fun ht => absurd ht.1 (Nat.not_lt_zero t)⟩
  qent t x hx := by cases hx

/-- Exactly the entries in use have configurations; each block of one belongs to no other and is not
freed, no block was freed twice, and what the copy of an open track names belongs to the entry of the
track, which is in use. -/
structure ConfOwned (s : Session) : Prop where
  live : ∀ e, (s.entry e).isSome = true ↔ s.mgr.liveEnt e
  opened : ∀ t, (s.track t).isSome = true ↔ s.mgr.openTrk t
  nodup : ∀ e c, s.entry e = some c → c.blocks.Nodup
  alone : ∀ e c, s.entry e = some c → ∀ b ∈ c.blocks,
    b ∉ s.released ∧ ∀ y d, s.entry y = some d → b ∈ d.blocks → y = e
  once : s.released.Nodup
  copy : ∀ t x, s.track t = some x → x.qent = (s.mgr.trk t).qent ∧
    ∀ b ∈ x.conf.blocks, ∃ c, s.entry x.qent = some c ∧ b ∈ c.blocks

theorem Sound.confOwned {s : Session} (h : s.Sound) : ConfOwned s where
  live := h.entry
  opened := h.track
  nodup e c hc := owns_entry hc ▸ h.held.sound.nodup (.entry e)
  alone e c hc b hb := by
    have hown : b ∈ s.holders.owns (.entry e) := owns_entry hc ▸ hb
    refine ⟨(h.held.sound.alive _ b hown).2,fun y d hd hbd => ?_⟩
    have hsame := h.held.sound.apart (.entry y) (.entry e) b (owns_entry hd ▸ hbd) hown
    cases hsame
    rfl
  once := h.held.sound.once
  copy t x hx := by
    obtain ⟨c,hc,hsub⟩ := h.held.copy t x hx
    exact ⟨h.qent t x hx,fun b hb => ⟨c,hc,hsub hb⟩⟩

/-- In every session that gives the slice of `-tracks` to one input and destroys no tags that another
open track has a copy of, each block of a configuration belongs to one entry in use, is freed once, and
outlives the tracks that can read it. -/
theorem conf_owned {x : Command} {as : List Act} {s : Session}
    (hfit : Machine.AllSteps Session.step Fits (start x) as)
    (hrun : Machine.run Session.step (start x) as = some s) : ConfOwned s :=
  (Machine.guarded_invariant step_sound hfit hrun (start_sound x)).confOwned

/-- One cue sheet with a list of track numbers: its track adds two entries and closes, one of them
plays, and the queue is cleared under it. -/
def playSheet : List Act :=
  [.op (.create false false false),.input "a.cue" none false,
    .op (.play none none 0 [⟨true,true⟩]),.sheet 0 0 (.cue "a.flac" 0 75 [("album","A")] []),
    .sheet 0 1 (.cue "a.flac" 75 0 [("album","A")] [("title","T")]),.op (.remove 0),
    .close 0 false 0 [⟨true,true⟩],.read 1 (.tag "artist" "B"),.op (.clear none),
    .close 1 false 0 [⟨true,true⟩]]

def sheetCommand : Command := .play ⟨false,false,some ⟨0,[1,2]⟩,0,0⟩

theorem conf_owned_sheet :
    ∃ s, Machine.run Session.step (start sheetCommand) playSheet = some s ∧ ConfOwned s := by
  have hfit : Machine.AllSteps Session.step Fits (start sheetCommand) playSheet := by decide +kernel
  have hsome : (Machine.run Session.step (start sheetCommand) playSheet).isSome = true := by
    decide +kernel
  obtain ⟨s,hs⟩ := Option.isSome_iff_exists.mp hsome
  exact ⟨s,hs,conf_owned hfit hs⟩

/-- Two cue sheets share the slice, and a clear frees it twice. -/
theorem tracks_freed_twice :
    ∃ s, Machine.run Session.step (start sheetCommand) [.op (.create false false false),
        .input "a.cue" none false,.input "b.cue" none false,.op (.clear none)] = some s ∧
      s.released = [1,0,2,0] ∧ ¬ ConfOwned s := by
  refine ⟨_,rfl,rfl,fun h => ?_⟩
  have honce : [1,0,2,0].Nodup := h.once
  exact absurd honce (by decide)

end Session

end Phiola
