import Phiola.Command.Session

/-!
# Each block has one entry

Each place that copies a configuration gives the copy blocks of its own, but for the slice of `-tracks`,
which a command gives to each of its inputs. As long as it is given once, every block that
`track_conf_destroy()` frees has one entry, and the copy of a track has blocks of its entry only.
-/

namespace Phiola

open Holders (Fresh)

/-- What `meta_set()` gives: the vector of before, or a new one. -/
def Grown (p r : Option (Block Meta) × Nat) : Prop :=
  r.2 = p.2 ∧ addrs r.1 = addrs p.1 ∨ p.1 = none ∧ addrs r.1 = [p.2] ∧ r.2 = p.2 + 1

theorem addrs_eq_nil {α : Type} {m : Option (Block α)} (h : addrs m = []) : m = none := by
  cases m with
  | none => rfl
  | some b => cases h

theorem addrs_nodup {α : Type} (m : Option (Block α)) : (addrs m).Nodup := by
  cases m with
  | none => exact List.nodup_nil
  | some b => exact List.nodup_singleton b.addr

theorem Grown.refl (p : Option (Block Meta) × Nat) : Grown p p := .inl ⟨rfl,rfl⟩

theorem Grown.trans {p q r : Option (Block Meta) × Nat} (h : Grown p q) (h' : Grown q r) :
    Grown p r := by
  rcases h with ⟨hn,hm⟩ | ⟨hnone,hm,hn⟩
  · rcases h' with ⟨hn',hm'⟩ | ⟨hnone',hm',hn'⟩
    · exact .inl ⟨hn'.trans hn,hm'.trans hm⟩
    · have hp : p.1 = none := addrs_eq_nil (hm.symm.trans (by rw [hnone']; rfl))
      exact .inr ⟨hp,by rw [hm',hn],by rw [hn',hn]⟩
  · rcases h' with ⟨hn',hm'⟩ | ⟨hnone',-,-⟩
    · exact .inr ⟨hnone,hm'.trans hm,hn'.trans hn⟩
    · rw [hnone'] at hm
      cases hm

theorem metaSet_grown (m : Option (Block Meta)) (name val : String) (h : Nat) :
    Grown (m,h) (metaSet m name val h) := by
  unfold metaSet
  split
  · exact Grown.refl _
  · split
    · exact .inr ⟨rfl,rfl,rfl⟩
    · exact .inl ⟨rfl,rfl⟩

theorem setIf_grown (b : Prop) [Decidable b] (p : Option (Block Meta) × Nat) (name val : String) :
    Grown p (if b then metaSet p.1 name val p.2 else p) := by
  split
  · exact metaSet_grown p.1 name val p.2
  · exact Grown.refl p

theorem metaCopy_grown (m : Option (Block Meta)) (src : Meta) (h : Nat) :
    Grown (m,h) (metaCopy m src h) := by
  unfold metaCopy
  induction src generalizing m h with
  | nil => exact Grown.refl _
  | cons x src ih => exact (metaSet_grown m x.1 x.2 h).trans (ih _ _)

theorem Grown.le {p r : Option (Block Meta) × Nat} (h : Grown p r) : p.2 ≤ r.2 := by
  rcases h with ⟨hn,-⟩ | ⟨-,-,hn⟩ <;> omega

theorem Grown.fresh {h : Nat} {r : Option (Block Meta) × Nat} (hg : Grown (none,h) r) :
    Fresh (addrs r.1) h r.2 := by
  rcases hg with ⟨hn,hm⟩ | ⟨-,hm,hn⟩
  · rw [hn,hm]
    exact Fresh.nil h
  · rw [hn,hm]
    exact Fresh.single h

theorem dupName_fresh (name : Option (Block String)) (h : Nat) :
    Fresh (addrs (dupName name h).1) h (dupName name h).2 := by
  cases name with
  | none => exact Fresh.nil h
  | some b => exact Fresh.single h

/-- A configuration whose own blocks were allocated one after another from `h` on. -/
structure Made (c : TrackConf) (h n : Nat) : Prop where
  own : ∃ k, Fresh (addrs c.ifileName ++ addrs c.ofileName) h k ∧ Grown (none,k) (c.confMeta,n)
  tracks : c.tracks = none

theorem TrackConf.own_eq (c : TrackConf) :
    c.own = addrs c.ifileName ++ addrs c.ofileName ++ addrs c.confMeta := rfl

theorem TrackConf.blocks_eq (c : TrackConf) : c.blocks = c.own ++ addrs c.tracks := rfl

theorem Made.fresh {c : TrackConf} {h n : Nat} (hm : Made c h n) : Fresh c.own h n := by
  obtain ⟨k,hnames,hgrown⟩ := hm.own
  exact hnames.append hgrown.fresh

theorem Made.more {c : TrackConf} {h n : Nat} (hm : Made c h n) {r : Option (Block Meta) × Nat}
    (hr : Grown (c.confMeta,n) r) (start stop : Nat) (tr : Bool) :
    Made { c with
      confMeta := r.1
      metaTransient := tr
      seekCdframes := start
      untilCdframes := stop } h r.2 := by
  obtain ⟨k,hnames,hgrown⟩ := hm.own
  exact ⟨⟨k,hnames,hgrown.trans hr⟩,hm.tracks⟩

theorem listAdd_made (t : TrackConf) (url : String) (h : Nat) :
    Made (listAdd t url h).1 h (listAdd t url h).2 := by
  refine ⟨⟨(dupName t.ofileName (h + 1)).2,?_,metaCopy_grown _ _ _⟩,rfl⟩
  exact (Fresh.single h).append (dupName_fresh t.ofileName (h + 1))

/-- Every reader gives its entries blocks of their own, and no slice. -/
theorem item_made (t : TrackConf) (h : Nat) (it : ListItem) : Made (it.conf t h).1 h (it.conf t h).2 := by
  cases it with
  | dir fpath => exact ⟨⟨h + 1,Fresh.single h,Grown.refl _⟩,rfl⟩
  | m3u url artist title =>
    have hl := listAdd_made t url h
    simp only [ListItem.conf,m3uAdd]
    split
    · exact hl.more ((setIf_grown (artist ≠ "") _ "artist" artist).trans
        (setIf_grown (title ≠ "") _ "title" title)) _ _ true
    · exact hl
  | pls url title =>
    have hl := listAdd_made t url h
    simp only [ListItem.conf,plsAdd]
    split
    · exact hl.more (metaSet_grown _ _ _ _) _ _ true
    · exact hl
  | cue url start stop gmetas metas =>
    have hl := listAdd_made t url h
    exact hl.more ((metaCopy_grown _ _ _).trans (metaCopy_grown _ _ _)) start stop _

theorem quAdd_fresh (x : Command) (fn : String) (h : Nat) :
    Fresh (x.quAdd fn h).1.own h (x.quAdd fn h).2.1 ∧ (x.quAdd fn h).1.tracks = x.tracks := by
  cases x with
  | play p => exact ⟨Fresh.single h,rfl⟩
  | info p => exact ⟨Fresh.single h,rfl⟩
  | conv v =>
    refine ⟨?_,rfl⟩
    have hnames := (Fresh.single h).append (Fresh.single (h + 1))
    exact hnames.append (metaCopy_grown none v.cmdMeta (h + 2)).fresh

namespace Session

open QueueMgr

/-- Who may hold a block: the command until it has added an input, an entry or a track. -/
inductive Holder
  | command
  | entry (e : Nat)
  | track (t : Nat)

/-- The blocks of a session. -/
def holders (s : Session) : Holders Holder where
  owns
    | .command => if s.inputs = 0 then addrs s.cmd.tracks else []
    | .entry e => ((s.entry e).map TrackConf.blocks).getD []
    | .track t => ((s.track t).map fun x => addrs x.tags).getD []
  next := s.heap
  released := s.released

theorem owns_entry {s : Session} {e : Nat} {c : TrackConf} (h : s.entry e = some c) :
    s.holders.owns (.entry e) = c.blocks := by
  simp [holders,h]

theorem owns_track {s : Session} {t : Nat} {x : OpenTrack} (h : s.track t = some x) :
    s.holders.owns (.track t) = addrs x.tags := by
  simp [holders,h]

/-- The copy of a track has blocks of its entry only, and no block is held or released twice. -/
structure Held (s : Session) : Prop where
  copy : ∀ t x, s.track t = some x → ∃ c, s.entry x.qent = some c ∧ x.conf.blocks ⊆ c.blocks
  sound : s.holders.Sound

theorem Held.setTrack {s u : Session} (h : s.Held) {t : Nat} {y : Option OpenTrack} {r : List Nat}
    (hu : u.mgr = s.mgr ∧ u.cmd = s.cmd ∧ u.inputs = s.inputs ∧ u.entry = s.entry)
    (htrack : u.track = Function.update s.track t y) (hheap : s.heap ≤ u.heap)
    (hreleased : u.released = s.released ++ r) (hrel : r.Nodup)
    (hcopy : ∀ x, y = some x → ∃ c, s.entry x.qent = some c ∧ x.conf.blocks ⊆ c.blocks)
    (hgot : ∀ x, y = some x → ∀ b ∈ addrs x.tags,
      b ∈ s.holders.owns (.track t) ∨ s.heap ≤ b ∧ b < u.heap)
    (hfree : ∀ b ∈ r, b ∈ s.holders.owns (.track t) ∧ ∀ x, y = some x → b ∉ addrs x.tags) :
    u.Held := by
  obtain ⟨-,hcmd,hinputs,hentry⟩ := hu
  have hself : u.holders.owns (.track t) = (y.map fun x => addrs x.tags).getD [] := by
    simp [holders,htrack]
  refine ⟨fun z x hx => ?_,h.sound.replace (.track t) (fun z hz => ?_) ?_ (fun b hb => ?_) hheap
    hreleased hrel fun b hb => ⟨(hfree b hb).1,fun hmem => ?_⟩⟩
  · rw [hentry]
    rw [htrack] at hx
    by_cases hzt : z = t
    · subst hzt
      rw [Function.update_self] at hx
      exact hcopy x hx
    · rw [Function.update_of_ne hzt] at hx
      exact h.copy z x hx
  · cases z with
    | command => simp only [holders,hcmd,hinputs]
    | entry e => simp only [holders,hentry]
    | track z =>
      have hzt : z ≠ t := fun heq => hz (heq ▸ rfl)
      simp only [holders,htrack,Function.update_of_ne hzt]
  · rw [hself]
    cases y with
    | none => exact List.nodup_nil
    | some x => exact addrs_nodup x.tags
  · rw [hself] at hb
    cases y with
    | none => cases hb
    | some x => exact hgot x rfl b hb
  · rw [hself] at hmem
    cases y with
    | none => cases hmem
    | some x => exact (hfree b hb).2 x rfl hmem

/-- A new track has a copy of the configuration of its entry, and new tags if it has tags. -/
theorem Held.startTrack {s : Session} (h : s.Held) {m : QueueMgr} {t : Nat} {c : TrackConf}
    (hc : s.entry (m.trk t).qent = some c) : (s.startTrack m t).Held := by
  simp only [Session.startTrack,hc]
  have hg : Grown (none,s.heap)
      (if (m.trk t).expands.isNone ∧ (m.ent (m.trk t).qent).haveUserMeta
        then metaCopy none c.pairs s.heap else (none,s.heap)) := by
    split
    · exact metaCopy_grown none c.pairs s.heap
    · exact Grown.refl _
  refine h.setTrack (t := t) (r := []) ⟨rfl,rfl,rfl,rfl⟩ rfl hg.le (List.append_nil _).symm
    List.nodup_nil (fun x hx => ?_) (fun x hx b hb => ?_) fun b hb => by cases hb
  · cases hx
    exact ⟨c,hc,fun _ => id⟩
  · cases hx
    exact .inr (hg.fresh.range b hb)

theorem Held.dropTrack {s : Session} (h : s.Held) (t : Nat) : (s.dropTrack t).Held := by
  unfold Session.dropTrack
  split
  · exact h
  · rename_i x hx
    refine h.setTrack (t := t) ⟨rfl,rfl,rfl,rfl⟩ rfl (Nat.le_refl _) rfl (addrs_nodup x.tags)
      (fun y hy => by cases hy) (fun y hy => by cases hy) fun b hb => ⟨?_,fun y hy => by cases hy⟩
    rw [owns_track hx]
    exact hb

theorem Held.readTag {s : Session} (h : s.Held) (t : Nat) (r : TagRead) : (s.readTag t r).Held := by
  unfold Session.readTag
  split
  · exact h
  · rename_i x hx
    have hcopy (m : Option (Block Meta)) (y : OpenTrack) (hy : some { x with tags := m } = some y) :
        ∃ c, s.entry y.qent = some c ∧ y.conf.blocks ⊆ c.blocks := by
      cases hy
      exact h.copy t x hx
    cases r with
    | tag name val =>
      have hg := metaSet_grown x.tags name val s.heap
      refine h.setTrack (t := t) (r := []) ⟨rfl,rfl,rfl,rfl⟩ rfl hg.le rfl List.nodup_nil
        (hcopy _) (fun y hy b hb => ?_) fun b hb => by cases hb
      cases hy
      rw [owns_track hx]
      rcases hg with ⟨-,hm⟩ | ⟨-,hm,hn⟩
      · exact .inl (hm ▸ hb)
      · have hb' : b ∈ [s.heap] := hm ▸ hb
        obtain rfl := List.mem_singleton.mp hb'
        exact .inr ⟨Nat.le_refl _,by simp only [TagRead.set,hn]; omega⟩
    | icy artist title =>
      have hg := (metaSet_grown none "artist" artist s.heap).trans (metaSet_grown _ "title" title _)
      have hlt := fun b hb => (h.sound.alive (.track t) b (owns_track hx ▸ hb)).1
      refine h.setTrack (t := t) ⟨rfl,rfl,rfl,rfl⟩ rfl hg.le rfl (addrs_nodup x.tags)
        (hcopy _) (fun y hy b hb => ?_) fun b hb => ⟨?_,fun y hy hmem => ?_⟩
      · cases hy
        exact .inr (hg.fresh.range b hb)
      · rw [owns_track hx]
        exact hb
      · cases hy
        exact absurd (hlt b hb) (Nat.not_lt.mpr (hg.fresh.range b hmem).1)

theorem Held.freeEntry {s : Session} (h : s.Held) {e : Nat}
    (halone : ∀ t x, s.track t = some x → x.qent ≠ e) : (s.freeEntry e).Held := by
  unfold Session.freeEntry
  split
  · exact h
  · rename_i c hc
    refine ⟨fun t x hx => ?_,h.sound.replace (.entry e) (fun z hz => ?_) ?_ (fun b hb => ?_)
      (Nat.le_refl _) rfl ?_ fun b hb => ⟨?_,fun hmem => ?_⟩⟩
    · obtain ⟨d,hd,hsub⟩ := h.copy t x hx
      exact ⟨d,(Function.update_of_ne (halone t x hx) _ _).trans hd,hsub⟩
    · cases z with
      | command => rfl
      | entry y =>
        have hye : y ≠ e := fun heq => hz (heq ▸ rfl)
        simp only [holders,Function.update_of_ne hye]
      | track t => rfl
    · simp [holders]
    · simp [holders] at hb
    · exact owns_entry hc ▸ h.sound.nodup (.entry e)
    · rw [owns_entry hc]
      exact hb
    · simp [holders] at hmem

/-- A new entry has blocks of its own; an input also has the slice of the command. -/
theorem Held.addEntry {s : Session} (h : s.Held) {e n : Nat} {c : TrackConf} {x : Command} {k : Nat}
    (hnew : s.entry e = none) (hown : Fresh c.own s.heap n)
    (hgive : addrs c.tracks = [] ∧ x.tracks = s.cmd.tracks ∧ k = s.inputs ∨
      k ≠ 0 ∧ ∀ b ∈ addrs c.tracks, b ∈ s.holders.owns .command) :
    ({ s with cmd := x, inputs := k }.addEntry e c n).Held := by
  have hslice : ∀ b ∈ addrs c.tracks, b ∈ s.holders.owns .command := by
    rcases hgive with ⟨hnil,-,-⟩ | ⟨-,hgive⟩
    · rw [hnil]
      exact fun b hb => by cases hb
    · exact hgive
  have hnodup : c.blocks.Nodup := by
    rw [TrackConf.blocks_eq,List.nodup_append]
    refine ⟨hown.nodup,addrs_nodup c.tracks,fun a ha b hb hab => ?_⟩
    have hlt := (h.sound.alive .command b (hslice b hb)).1
    exact absurd hlt (Nat.not_lt.mpr (hab ▸ (hown.range a ha).1))
  have hself : ({ s with cmd := x, inputs := k }.addEntry e c n).holders.owns (.entry e) = c.blocks := by
    simp [holders,Session.addEntry]
  have hcopy : ∀ t z, s.track t = some z → ∃ d, Function.update s.entry e (some c) z.qent = some d ∧
      z.conf.blocks ⊆ d.blocks := by
    intro t z hz
    obtain ⟨d,hd,hsub⟩ := h.copy t z hz
    have hne : z.qent ≠ e := by
      intro heq
      rw [heq,hnew] at hd
      cases hd
    exact ⟨d,(Function.update_of_ne hne _ _).trans hd,hsub⟩
  have hentry (y : Nat) (hy : Holder.entry y ≠ .entry e) :
      ({ s with cmd := x, inputs := k }.addEntry e c n).holders.owns (.entry y) =
        s.holders.owns (.entry y) := by
    have hye : y ≠ e := fun heq => hy (heq ▸ rfl)
    simp only [holders,Session.addEntry,Function.update_of_ne hye]
  refine ⟨hcopy,?_⟩
  rcases hgive with ⟨hnil,hx,rfl⟩ | ⟨hk,hgive⟩
  · refine h.sound.replace (r := []) (.entry e) (fun z hz => ?_) (hself ▸ hnodup) (fun b hb => ?_)
      hown.le (List.append_nil _).symm List.nodup_nil fun b hb => by cases hb
    · cases z with
      | command => simp only [holders,Session.addEntry,hx]
      | entry y => exact hentry y hz
      | track t => rfl
    · rw [hself,TrackConf.blocks_eq,hnil,List.append_nil] at hb
      exact .inr (hown.range b hb)
  · refine h.sound.pass (r := []) (x := .command) (y := .entry e) (fun z hz hz' => ?_) ?_
      (hself ▸ hnodup) (fun b hb => ?_) hown.le (List.append_nil _).symm List.nodup_nil
      fun b hb => by cases hb
    · cases z with
      | command => exact absurd rfl hz
      | entry y => exact hentry y hz'
      | track t => rfl
    · exact if_neg hk
    · rw [hself,TrackConf.blocks_eq] at hb
      rcases List.mem_append.mp hb with hown' | htracks
      · exact .inr (.inr (hown.range b hown'))
      · exact .inr (.inl (hgive b htracks))

theorem nodup_middle {a m x z : List Nat} (h : (a ++ m ++ z).Nodup) (hx : x.Nodup)
    (hd : ∀ b ∈ x, b ∉ a ++ m ++ z) :
    (a ++ x ++ z).Nodup ∧ ∀ b ∈ m, b ∉ a ++ x ++ z := by
  simp only [List.nodup_append,List.mem_append,not_or] at h hd ⊢
  grind

theorem shares_false {s : Session} {t y : Nat} {x z : OpenTrack} {c : TrackConf}
    (hx : s.track t = some x) (hc : s.entry x.qent = some c) (hz : s.track y = some z)
    (h : s.sharesTags y t = false) : ∀ b ∈ addrs c.confMeta, b ∉ z.conf.blocks := by
  intro b hb hmem
  have hany : s.sharesTags y t = true := by
    simp only [sharesTags,hx,hz,hc]
    exact List.any_eq_true.mpr ⟨b,hb,List.contains_iff_mem.mpr hmem⟩
  rw [h] at hany
  cases hany

/-- At its end the tags of a track go to its entry, when no other track has a copy of those that they
replace. -/
theorem Held.keepTags {s : Session} (h : s.Held) {t : Nat}
    (hshare : ∀ y, y ≠ t → s.sharesTags y t = false) : ((s.keepTags t).dropTrack t).Held := by
  cases hx : s.track t with
  | none =>
    simp only [Session.keepTags,hx]
    exact h.dropTrack t
  | some x =>
    obtain ⟨c,hc,-⟩ := h.copy t x hx
    have heq : (s.keepTags t).dropTrack t =
        { s with
          entry := Function.update s.entry x.qent (some { c with confMeta := x.tags })
          track := Function.update s.track t none
          released := s.released ++ addrs c.confMeta } := by
      simp [Session.keepTags,Session.dropTrack,hx,hc,addrs]
    rw [heq]
    have hnodup : c.blocks.Nodup := owns_entry hc ▸ h.sound.nodup (.entry x.qent)
    have hmiddle := nodup_middle (a := addrs c.ifileName ++ addrs c.ofileName) (m := addrs c.confMeta)
      (x := addrs x.tags) (z := addrs c.tracks) hnodup
      (addrs_nodup x.tags) fun b hb hmem => by
        have hsame := h.sound.apart (.track t) (.entry x.qent) b (owns_track hx ▸ hb)
          (owns_entry hc ▸ hmem)
        cases hsame
    refine ⟨fun y z hz => ?_,h.sound.pass (x := .track t) (y := .entry x.qent) (fun z hz hz' => ?_) ?_
      ?_ (fun b hb => ?_) (Nat.le_refl _) rfl (addrs_nodup c.confMeta) fun b hb => ⟨?_,?_⟩⟩
    · by_cases hyt : y = t
      · subst hyt
        simp at hz
      · simp only [Function.update_of_ne hyt] at hz
        obtain ⟨d,hd,hsub⟩ := h.copy y z hz
        by_cases he : z.qent = x.qent
        · obtain rfl : c = d := Option.some.inj (hc.symm.trans (he ▸ hd))
          refine ⟨{ c with confMeta := x.tags },by simp [he],fun b hb => ?_⟩
          -- the block is another one than the tags that go
          have hnot := fun hm => shares_false hx hc hz (hshare y hyt) b hm hb
          have hmem := hsub hb
          simp only [TrackConf.blocks_eq,TrackConf.own_eq,List.mem_append] at hmem ⊢
          grind
        · exact ⟨d,(Function.update_of_ne he _ _).trans hd,hsub⟩
    · cases z with
      | command => rfl
      | entry y =>
        have hye : y ≠ x.qent := fun heq => hz' (heq ▸ rfl)
        simp only [holders,Function.update_of_ne hye]
      | track y =>
        have hyt : y ≠ t := fun heq => hz (heq ▸ rfl)
        simp only [holders,Function.update_of_ne hyt]
    · simp [holders]
    · simp only [holders,Function.update_self]
      exact hmiddle.1
    · simp only [holders,Function.update_self,Option.map_some,Option.getD_some,TrackConf.blocks_eq,
        TrackConf.own_eq,List.mem_append] at hb
      rw [owns_entry hc,owns_track hx]
      simp only [TrackConf.blocks_eq,TrackConf.own_eq,List.mem_append]
      grind
    · rw [owns_entry hc]
      simp only [TrackConf.blocks_eq,TrackConf.own_eq,List.mem_append]
      exact .inl (.inr hb)
    · simp only [holders,Function.update_self]
      exact hmiddle.2 b hb

end Session

end Phiola
