import Phiola.Queue.Filtered

/-!
# A filtered queue is a view

Each operation keeps the two histories alike, and so does a removal from the filtered queue that
only the first history makes. So the filtered queue changes nothing for the other queues, as long as
no removal takes the index of an entry that is the cursor of a queue that still lists it.
-/

namespace Phiola

namespace QueueMgr

namespace Sound

variable {s s' : QueueMgr} {x : List Nat}

theorem index (h : Sound x s) (e : Nat) : Sound x (s.qeIndex e).1 := (sound_rule x).index h

theorem remove (h : Sound x s) (e : Nat) : Sound x (s.qeRemove e).1 :=
  ⟨h.counted.remove,h.placed.remove e,h.accounts.same (.remove s e)⟩

theorem unref {e : Nat} (h : Sound (e :: x) s) : Sound x (s.qeUnref e) :=
  ⟨h.counted.unref,h.placed.same (sameOrder_unref s e),h.accounts.same (.unref s e)⟩

theorem insert (h : Sound [] s) {q pos : Nat} {um : Bool} (hq : q < s.nq)
    (hpos : pos ≤ (s.queue q).index.length) : Sound [] (s.qInsert q pos um).1 :=
  ⟨h.counted.insert hq hpos,h.placed.insert h.counted um hpos,h.accounts.insert h.counted q pos um⟩

theorem insertBehind (h : Sound [] s) {e : Nat} (he : e < s.ne) (um : Bool) :
    Sound [] (s.qeInsert e um).1 :=
  ⟨h.counted.insertBehind he,h.placed.insertBehind h.counted e um,
    (h.index e).accounts.insert (h.index e).counted _ _ um⟩

theorem readerClose (h : Sound x s) (t : Nat) : Sound x (s.readerClose t) := by
  unfold QueueMgr.readerClose
  dsimp only
  split
  · exact h.remove _
  · exact h

theorem readsOn (h : Sound x s) (t : Nat) {e : Nat} (he : e < s.ne) :
    Sound x (s.setTrk t { s.trk t with quCur := e, removed := true }) :=
  ⟨h.counted.readsOn t he,h.placed.same (sameOrder_setTrk s t _),
    h.accounts.same (.setTrk s t rfl rfl rfl)⟩

theorem closing (h : Sound x s) {t : Nat} (ht : s.openTrk t) (tags : Meta) :
    Sound ((s.trk t).qent :: x) (s.closing t tags) :=
  ⟨h.counted.closing ht,h.placed.same (sameOrder_closing s t tags),h.accounts.closing ht tags⟩

end Sound

namespace SameBut

variable {f : Nat} {x : List Nat} {s s' : QueueMgr}

/-- The first store drops the places of a list of the filtered queue. -/
theorem dropFold (hs' : Sound [] s') {g : QueueMgr → Nat → QueueMgr}
    (hg : ∀ u e l, SameBut f u s' → Counted u (e :: l) → Accounts u → 0 < (u.ent e).used →
      SameBut f (g u e) s' ∧ Counted (g u e) (e :: l) ∧ Accounts (g u e))
    (l : List Nat) (u : QueueMgr) (h : SameBut f u s') (hc : Counted u l) (ha : Accounts u)
    (hl : ∀ e ∈ l, (s'.ent e).freed = false) :
    SameBut f (l.foldl (fun s e => (g s e).qeUnref e) u) s' := by
  induction l generalizing u with
  | nil => exact h
  | cons e l ih =>
    obtain ⟨hset,hcount,hacc⟩ := hg u e l h hc ha hc.inHand
    have hgone := hset.gone hcount hacc hs'.placed (hl e List.mem_cons_self)
      (by rw [List.count_cons_self]; omega)
    apply ih
    · exact hset.drop (hcount.inUse hcount.inHand) hcount.inHand hgone
    · exact hcount.unref
    · exact hacc.same (.unref _ e)
    · exact fun y hy => hl y (List.mem_cons_of_mem e hy)

/-- An entry of the filtered queue is in use in the second history as well. -/
theorem listed_live (h : SameBut f s s') (hs : Sound [] s) (hs' : Sound [] s') {e y : Nat}
    (he : e ∈ (s.queue y).index) : (s'.ent e).freed = false := by
  have hused := hs.counted.listed he
  have hle := h.used_le hs.counted hs'.counted e
  exact hs'.counted.not_freed (by omega)

/-- `q_clear()` of the filtered queue. -/
theorem dropAll (h : SameBut f s s') (hs : Sound [] s) (hs' : Sound [] s') (hf : f < s.nq) :
    SameBut f (s.qClear f) s' := by
  refine dropFold (g := fun s e => s.setEnt e { s.ent e with index := -1 }) hs' ?_ _ _ ?_ ?_ ?_ ?_
  · intro u e l hu hc ha hused
    exact ⟨hu.forgetIndex hused,hc.same (sameHolders_setEnt u e _ rfl rfl rfl),
      ha.same (.setEnt u e rfl rfl)⟩
  · exact h.shrink (by simp)
  · exact hs.counted.setQueue hf (by simp)
  · exact hs.accounts.same (.setQueue s f rfl)
  · exact fun e he => h.listed_live hs hs' he

/-- `q_destroy()` of the filtered queue. -/
theorem destroy (h : SameBut f s s') (hs : Sound [] s) (hs' : Sound [] s') (hf : f < s.nq) :
    SameBut f (s.qDestroy f) s' := by
  have hrest : SameBut f { s with lists := s.lists.erase f } s' :=
    h.congr ⟨rfl,rfl,rfl⟩ ⟨rfl,rfl,rfl⟩ h.nq h.nt h.trk h.refs h.started
  rw [qDestroy_eq]
  refine dropFold (g := fun s _ => s) hs' ?_ _ _ ?_ ?_ ?_ ?_
  · exact fun u e l hu hc ha _ => ⟨hu,hc,ha⟩
  · exact hrest.shrink (by simp)
  · obtain ⟨hused,hfreed,habove,hown,hunused,hreader⟩ := hs.counted
    have hc : Counted { s with lists := s.lists.erase f } [] :=
      ⟨hused,hfreed,habove,hown,hunused,hreader⟩
    exact hc.setQueue hf (by simp)
  · have ha : Accounts { s with lists := s.lists.erase f } := ⟨hs.accounts.count,hs.accounts.pointer⟩
    exact ha.same (.setQueue _ f rfl)
  · exact fun e he => h.listed_live hs hs' he

theorem grow (h : SameBut f s s') (hq : (s.ent s.ne).q ≠ f) :
    SameBut f { s with ne := s.ne + 1 } { s' with ne := s.ne + 1 } := by
  refine ⟨h.nq,rfl,h.nt,h.trk,h.refs,h.started,h.queue,fun y hy => ?_,h.ent,h.index,h.listed,
    fun e he => ?_⟩
  · exact (h.cursor y hy).imp_right fun hc => ⟨hc.1,fun c hcur =>
      ⟨Nat.lt_succ_of_lt (hc.2 c hcur).lt,(hc.2 c hcur).used,(hc.2 c hcur).q,(hc.2 c hcur).index,
        (hc.2 c hcur).trk⟩⟩
  · rcases Nat.lt_succ_iff_lt_or_eq.mp he with hlt | rfl
    · exact h.owner e hlt
    · exact hq

theorem insert (h : SameBut f s s') {y : Nat} (hy : y ≠ f) (pos : Nat) (um : Bool) :
    SameBut f (s.qInsert y pos um).1 (s'.qInsert y pos um).1 := by
  have hent := h.setEnt (e := s.ne) (x := ⟨y,none,pos,1,[],um,false,false,false⟩)
    (z := ⟨y,none,pos,1,[],um,false,false,false⟩) rfl (.inl rfl)
    (fun hlt => absurd hlt (Nat.lt_irrefl _)) fun z hd => absurd hd.lt (Nat.lt_irrefl _)
  have hout := hent.updQueue hy (v := { s.queue y with
      index := (s.queue y).index.insertIdx pos s.ne }) (w := { s'.queue y with
      index := (s'.queue y).index.insertIdx pos s.ne }) (by rw [h.queue y hy]) rfl rfl
  have hgrow := hout.grow (by rw [setQueue_ent,setQueue_ne,setEnt_ne,setEnt_self]; exact hy)
  unfold qInsert
  dsimp only
  rw [h.ne]
  exact hgrow

theorem insertBehind (h : SameBut f s s') (hs : Sound x s) {e : Nat} (he : e < s.ne) (um : Bool) :
    SameBut f (s.qeInsert e um).1 (s'.qeInsert e um).1 ∧
      (s'.qeInsert e um).2 = (s.qeInsert e um).2 := by
  obtain ⟨hindex,hval⟩ := h.qeIndex hs he
  unfold QueueMgr.qeInsert
  dsimp only
  rw [h.q,hval]
  exact ⟨hindex.insert (h.owner e he) _ um,hindex.ne⟩

theorem expand (h : SameBut f s s') (hs : Sound x s) {e : Nat} (he : 0 < (s.ent e).used)
    (kind : Option ListKind) (created : Bool) :
    SameBut f (s.qeExpand e kind created).1 (s'.qeExpand e kind created).1 := by
  unfold QueueMgr.qeExpand
  cases kind with
  | none => exact h
  | some k =>
    cases created with
    | false => exact h
    | true => exact h.startTrack hs he (some k)

theorem add (h : SameBut f s s') (hs : Sound [] s) {y : Nat} (hy : y ≠ f) (hlt : y < s.nq)
    (um : Bool) (kind : Option ListKind) (created : Bool) :
    SameBut f (s.qAdd y um kind created) (s'.qAdd y um kind created) := by
  have hused : 0 < ((s.qInsert y (s.queue y).index.length um).1.ent s.ne).used := by
    simp [qInsert]
  have hnew : (s'.qInsert y (s.queue y).index.length um).2 = s.ne := h.ne
  unfold QueueMgr.qAdd
  dsimp only
  rw [h.list hy,hnew]
  exact (h.insert hy _ um).expand (hs.insert hlt (Nat.le_refl _)) hused kind created

theorem remove (h : SameBut f s s') (hs : Sound [] s) (hs' : Sound [] s') {e : Nat} (he : e < s.ne) :
    SameBut f (s.qeRemove e).1 (s'.qeRemove e).1 := by
  obtain ⟨hindex,hval⟩ := h.qeIndex hs he
  unfold QueueMgr.qeRemove
  dsimp only
  rw [h.q,hval]
  exact hindex.removeAt (hs.index e) (hs'.index e).counted (h.owner e he) _

theorem readerInsert (h : SameBut f s s') (hs : Sound [] s) (hs' : Sound [] s') {t : Nat}
    (ht : s.openTrk t) (um : Bool) :
    SameBut f (s.readerInsert t um) (s'.readerInsert t um) := by
  have hcur := hs.counted.reader t ht.1
  have hlt := hs.counted.inUse (hs.counted.onTrack_used ht)
  obtain ⟨hins,hval⟩ := h.insertBehind hs hcur um
  have hnew := qeInsert_new s (s.trk t).quCur um
  have hin : (s.qeInsert (s.trk t).quCur um).2 < (s.qeInsert (s.trk t).quCur um).1.ne :=
    Nat.lt_succ_self _
  have hread := hins.setTrk t { (s.qeInsert (s.trk t).quCur um).1.trk t with
    quCur := (s.qeInsert (s.trk t).quCur um).2
    removed := true }
  unfold QueueMgr.readerInsert
  dsimp only
  rw [h.trk,hval,hins.trk]
  split
  · exact hread
  · apply hread.remove
    · exact (hs.insertBehind hcur um).readsOn t hin
    · rw [← hins.trk]
      exact (hs'.insertBehind (h.ne ▸ hcur) um).readsOn t (hins.ne ▸ hin)
    · rw [setTrk_ne]
      have hne := hnew.1
      omega

theorem readerClose (h : SameBut f s s') (hs : Sound [] s) (hs' : Sound [] s') {t : Nat}
    (ht : s.openTrk t) : SameBut f (s.readerClose t) (s'.readerClose t) := by
  unfold QueueMgr.readerClose
  dsimp only
  rw [h.trk]
  split
  · exact h.remove hs hs' (hs.counted.inUse (hs.counted.onTrack_used ht))
  · exact h

theorem forgetTrack (h : SameBut f s s') {e : Nat} (he : 0 < (s.ent e).used) (hown : (s.ent e).q ≠ f)
    (t : Nat) (tags : Meta) : SameBut f (s.forgetTrack e t tags) (s'.forgetTrack e t tags) := by
  have hent : (s'.ent e).trk = (s.ent e).trk ∧ (s'.ent e).haveUserMeta = (s.ent e).haveUserMeta ∧
      (s'.ent e).confMeta = (s.ent e).confMeta ∧ (s'.ent e).expand = (s.ent e).expand := by
    rw [h.ent e]
    exact ⟨rfl,rfl,rfl,rfl⟩
  have hconv : (s'.queue (s'.ent e).q).conversion = (s.queue (s.ent e).q).conversion := by
    rw [h.q,h.queue _ hown]
  rw [forgetTrack_eq,forgetTrack_eq,hent.1,hent.2.1,hent.2.2.1,hent.2.2.2,hconv,h.trk]
  split
  · apply SameBut.setTrk
    refine h.updEnt he ?_ (h.index e) rfl
    rw [h.ent e]
  · exact h

theorem closing (h : SameBut f s s') (hs : Sound x s) {t : Nat} (ht : s.openTrk t) (tags : Meta) :
    SameBut f (s.closing t tags) (s'.closing t tags) := by
  have hused := hs.counted.onTrack_used ht
  have hown := h.owner _ (hs.counted.inUse hused)
  have hforget := h.forgetTrack hused hown t tags
  have hq := (keepsOwner_forgetTrack s (s.trk t).qent t tags).q (s.trk t).qent
  unfold QueueMgr.closing
  dsimp only
  rw [h.trk,hforget.q,hq]
  have hqueue := hforget.updQueue hown (v := { (s.forgetTrack (s.trk t).qent t tags).queue
      (s.ent (s.trk t).qent).q with
      activeN := ((s.forgetTrack (s.trk t).qent t tags).queue (s.ent (s.trk t).qent).q).activeN - 1 })
    (w := { (s'.forgetTrack (s.trk t).qent t tags).queue (s.ent (s.trk t).qent).q with
      activeN := ((s'.forgetTrack (s.trk t).qent t tags).queue
        (s.ent (s.trk t).qent).q).activeN - 1 }) (by rw [hforget.queue _ hown]) rfl rfl
  have hclosed := hqueue.setTrk t { (s.forgetTrack (s.trk t).qent t tags).trk t with closed := true }
  rw [setQueue_trk,setQueue_trk,hforget.trk]
  exact hclosed

end SameBut

/-- When the close of track `t` starts the next entry, `CursorKnown` of the queue that goes on. -/
def CloseKnown (s : QueueMgr) (t : Nat) (fstop : Bool) (tags : Meta) : Prop :=
  let u := (s.readerClose t).closing t tags
  let x := u.ent (s.trk t).qent
  fstop = false ∧ (x.expand = false ∨ x.playNextOnClose = true) → u.CursorKnown x.q

instance (s : QueueMgr) (t : Nat) (fstop : Bool) (tags : Meta) :
    Decidable (s.CloseKnown t fstop tags) := by
  unfold CloseKnown
  infer_instance

theorem readerClose_trk (s : QueueMgr) (t : Nat) : (s.readerClose t).trk = s.trk ∧
    (s.readerClose t).nt = s.nt := by
  unfold QueueMgr.readerClose
  dsimp only
  split
  · simp [qeRemove]
  · exact ⟨rfl,rfl⟩

namespace SameBut

variable {f : Nat} {s s' : QueueMgr}

theorem close (h : SameBut f s s') (hs : Sound [] s) (hs' : Sound [] s') {t : Nat}
    (ht : s.openTrk t) {fstop : Bool} {tags : Meta} (hcur : s.CloseKnown t fstop tags) (rnd : Nat)
    (ans : List Answer) : Option.Rel (SameBut f) (s.closeTrack t fstop tags rnd ans)
      (s'.closeTrack t fstop tags rnd ans) := by
  have hread := h.readerClose hs hs' ht
  have htrk := readerClose_trk s t
  have htrk' := readerClose_trk s' t
  have ht₁ : (s.readerClose t).openTrk t := by
    rw [openTrk,htrk.1,htrk.2]
    exact ht
  have ht₁' : (s'.readerClose t).openTrk t := by
    rw [openTrk,htrk'.1,htrk'.2,h.trk,h.nt]
    exact ht
  have hclose := hread.closing (hs.readerClose t) ht₁ tags
  have hsound := (hs.readerClose t).closing ht₁ tags
  have hsound' := (hs'.readerClose t).closing ht₁' tags
  rw [htrk.1] at hsound
  rw [htrk'.1,h.trk] at hsound'
  have hlt : (s.trk t).qent < ((s.readerClose t).closing t tags).ne :=
    hsound.counted.inUse hsound.counted.inHand
  have hent : (((s'.readerClose t).closing t tags).ent (s.trk t).qent).expand =
        (((s.readerClose t).closing t tags).ent (s.trk t).qent).expand ∧
      (((s'.readerClose t).closing t tags).ent (s.trk t).qent).playNextOnClose =
        (((s.readerClose t).closing t tags).ent (s.trk t).qent).playNextOnClose := by
    rw [hclose.ent]
    exact ⟨rfl,rfl⟩
  have hunref {u u' : QueueMgr} (hu : SameBut f u u') (hc : Sound [(s.trk t).qent] u)
      (hc' : Sound [(s.trk t).qent] u') :
      SameBut f (u.qeUnref (s.trk t).qent) (u'.qeUnref (s.trk t).qent) := by
    have hused := hc.counted.inHand
    have hlive := hc'.counted.not_freed hc'.counted.inHand
    apply hu.unref (hc.counted.inUse hused) hused (hu.used_le hc.counted hc'.counted _)
    exact hu.gone hc.counted hc.accounts hc'.placed hlive (by simp)
  unfold QueueMgr.CloseKnown at hcur
  dsimp only at hcur
  unfold QueueMgr.closeTrack
  rw [qeClose_eq,qeClose_eq]
  dsimp only
  rw [htrk.1,htrk'.1,h.trk,hent.1,hent.2,hclose.q]
  split
  · rename_i hnext
    rcases (hclose.next hsound hsound' (hclose.owner _ hlt) (hcur hnext) rnd ans).cases with
      ⟨hp,hp'⟩ | ⟨p,p',hp,hp',hsame,-⟩
    · rw [hp,hp']
      exact .none
    · rw [hp,hp']
      exact .some (hunref hsame ((sound_rule _).next hsound hp) ((sound_rule _).next hsound' hp'))
  · exact .some (hunref hclose hsound hsound')

theorem filter (h : SameBut f s s') (hs : Sound [] s) (hf : f < s.nq) {y : Nat} (hy : y ≠ f)
    (keep : Nat → Bool) : SameBut f (s.qFilter y keep) (s'.qFilter y keep) := by
  have hfold (l : List Nat) (u u' : QueueMgr) (hu : SameBut f u u')
      (hl : ∀ e ∈ l, 0 < (u.ent e).used) : SameBut f (l.foldl qeRef u) (l.foldl qeRef u') := by
    induction l generalizing u u' with
    | nil => exact hu
    | cons e l ih =>
      apply ih
      · refine hu.updEnt (hl e List.mem_cons_self) ?_ (hu.index e) rfl
        rw [hu.ent e]
      · intro z hz
        by_cases hze : z = e
        · subst hze
          simp [qeRef]
        · simpa [qeRef,setEnt_of_ne _ hze] using hl z (List.mem_cons_of_mem e hz)
  have hout := hfold ((s.queue y).index.filter keep) s s' h fun e he =>
    hs.counted.listed (List.mem_of_mem_filter he)
  have hnew : s.nq ≠ f := by omega
  have hqueue := hout.setQueue hnew (v := ⟨(s.queue y).conversion,(s.queue y).random,
    (s.queue y).repeatAll,(s.queue y).index.filter keep,none,0,0,false,false⟩) rfl (.inl rfl)
  have hsame : s'.queue y = { s.queue y with cursor := (s'.queue y).cursor } := h.queue y hy
  unfold qFilter
  dsimp only
  rw [hsame,h.nq]
  exact hqueue.congr ⟨rfl,rfl,rfl⟩ ⟨rfl,rfl,rfl⟩ rfl hqueue.nt hqueue.trk hqueue.refs hqueue.started

theorem create (h : SameBut f s s') (hf : f < s.nq) (c r a : Bool) :
    SameBut f (s.qCreate c r a) (s'.qCreate c r a) := by
  have hnew : s.nq ≠ f := by omega
  have hqueue := h.setQueue hnew (v := ⟨c,r,a,[],none,0,0,false,false⟩) rfl (.inl rfl)
  unfold qCreate
  rw [h.nq]
  exact hqueue.congr ⟨rfl,rfl,rfl⟩ ⟨rfl,rfl,rfl⟩ rfl hqueue.nt hqueue.trk hqueue.refs hqueue.started

theorem ref (h : SameBut f s s') (hs : Sound [] s) {y : Nat} (hy : y ≠ f) (pos : Nat) :
    SameBut f (s.qRef y pos) (s'.qRef y pos) := by
  unfold qRef
  rw [h.get hy]
  cases hg : qGet (s.queue y) pos with
  | none => exact h
  | some e =>
    have hent : SameBut f (s.qeRef e) (s'.qeRef e) := by
      refine h.updEnt (hs.counted.got hg) ?_ (h.index e) rfl
      rw [h.ent e]
    dsimp only
    rw [h.refs]
    exact hent.congr ⟨rfl,rfl,rfl⟩ ⟨rfl,rfl,rfl⟩ hent.nq hent.nt hent.trk rfl hent.started

theorem userUnref (h : SameBut f s s') (hs : Sound [] s) (hs' : Sound [] s') {e : Nat}
    (href : 0 < s.refs e) :
    SameBut f ({ s with refs := Function.update s.refs e (s.refs e - 1) }.qeUnref e)
      ({ s' with refs := Function.update s'.refs e (s'.refs e - 1) }.qeUnref e) := by
  have hand {u : QueueMgr} (hu : Sound [] u) (hr : 0 < u.refs e) :
      Sound [e] { u with refs := Function.update u.refs e (u.refs e - 1) } := by
    refine ⟨hu.counted.setRefs fun y => ?_,⟨hu.placed.nodup,hu.placed.lost⟩,
      ⟨hu.accounts.count,hu.accounts.pointer⟩⟩
    by_cases hy : y = e
    · subst hy
      simp only [Function.update_self,List.count_cons_self]
      omega
    · simp [hy,Ne.symm hy]
  have hset : SameBut f { s with refs := Function.update s.refs e (s.refs e - 1) }
      { s' with refs := Function.update s'.refs e (s'.refs e - 1) } := by
    refine h.congr ⟨rfl,rfl,rfl⟩ ⟨rfl,rfl,rfl⟩ h.nq h.nt h.trk ?_ h.started
    rw [h.refs]
  have hc := hand hs href
  have hc' := hand hs' (h.refs ▸ href)
  have hused := hc.counted.inHand
  have hlive := hc'.counted.not_freed hc'.counted.inHand
  apply hset.unref (hc.counted.inUse hused) hused (hset.used_le hc.counted hc'.counted e)
  exact hset.gone hc.counted hc.accounts hc'.placed hlive (by simp)

end SameBut

/-- The calls that take entries out of the filtered queue `f`. -/
def Op.drops (f : Nat) : Op → Bool
  | .destroy (some q) => q == f
  | .clear (some q) => q == f
  | .removeAt (some q) _ => q == f
  | _ => false

/-- The operations on other queues than `f`, which are given by their pointers, and on entries and
tracks. No queue is destroyed. -/
def Op.elsewhere (f : Nat) : Op → Bool
  | .create _ _ _ | .select _ | .qselect _ | .insert _ _ | .play _ (some _) _ _ => true
  | .unref _ | .remove _ | .readerInsert _ _ | .close _ _ _ _ _ => true
  | .destroy _ => false
  | .conf q _ _ _ | .add q _ _ _ | .clear q | .filter q _ | .play q none _ _ => q.any (· != f)
  | .playNext q _ _ | .playPrev q _ _ | .ref q _ | .removeAt q _ | .sort q _ => q.any (· != f)
  | .insertAt q _ _ => q != f

/-- A step to the next or the previous entry knows where the cursor entry is. -/
def StepsKnown (s : QueueMgr) : Op → Prop
  | .playNext (some q) _ _ => s.CursorKnown q
  | .playPrev (some q) _ _ => s.CursorKnown q
  | .close t fstop tags _ _ => s.openTrk t → s.CloseKnown t fstop tags
  | _ => True

instance (s : QueueMgr) (a : Op) : Decidable (s.StepsKnown a) :=
  match a with
  | .playNext (some q) _ _ => inferInstanceAs (Decidable (s.CursorKnown q))
  | .playPrev (some q) _ _ => inferInstanceAs (Decidable (s.CursorKnown q))
  | .close t fstop tags _ _ => inferInstanceAs (Decidable (s.openTrk t → s.CloseKnown t fstop tags))
  | .destroy _ | .create _ _ _ | .select _ | .qselect _ | .conf _ _ _ _ | .add _ _ _ _
  | .insertAt _ _ _ | .insert _ _ | .clear _ | .filter _ _ | .play _ _ _ _ | .ref _ _
  | .unref _ | .removeAt _ _ | .remove _ | .sort _ _ | .readerInsert _ _ | .playNext none _ _
  | .playPrev none _ _ => instDecidableTrue

theorem Sound.step {s s' : QueueMgr} {a : Op} (h : Sound [] s ∧ Owned s) (ha : DestroysAlone s a)
    (hs : s.step a = some s') : Sound [] s' ∧ Owned s' := by
  obtain ⟨⟨hc,hp,hacc⟩,ho⟩ := h
  obtain ⟨⟨hc',ho'⟩,hp'⟩ := step_placed s a s' ⟨⟨hc,ho⟩,hp⟩ ha hs
  refine ⟨⟨hc',hp',?_⟩,ho'⟩
  cases hclose : a.closesTrack with
  | false => exact (step_accounts hc hacc hclose hs).1
  | true =>
    cases a with
    | close t fstop tags rnd ans =>
      simp only [QueueMgr.step,Option.ite_none_right_eq_some] at hs
      exact (hacc.closeTrack hs.1.1 hs.2).1
    | _ => cases hclose

namespace SameBut

variable {f : Nat} {s s' u : QueueMgr}

theorem onQueue (h : SameBut f s s') {q : Option Nat} (hq : q.any (· != f) = true)
    {g g' : Nat → Option QueueMgr}
    (hg : ∀ y, y ≠ f → q = some y → s.liveQueue y → ∀ u, g y = some u →
      ∃ u', g' y = some u' ∧ SameBut f u u') (hs : s.onQueue q g = some u) :
    ∃ u', s'.onQueue q g' = some u' ∧ SameBut f u u' := by
  cases q with
  | none => cases hq
  | some y =>
    have hy : y ≠ f := by simpa using hq
    obtain ⟨z,hz,hlive,hgz⟩ := onQueue_some hs
    cases hz
    obtain ⟨u',hu',hsame⟩ := hg y hy rfl hlive u hgz
    have hlive' : s'.liveQueue y := by
      rw [liveQueue,h.nq,h.queue y hy]
      exact hlive
    refine ⟨u',?_,hsame⟩
    unfold QueueMgr.onQueue theQueue
    dsimp only
    rw [if_pos hlive',hu']

theorem liveEnt (h : SameBut f s s') (hs : Sound [] s) (hs' : Sound [] s') {e : Nat}
    (he : s.liveEnt e) : 0 < (s.ent e).used ∧ s'.liveEnt e := by
  have hused : 0 < (s.ent e).used := by
    by_contra hzero
    have hfreed := (hs.counted.freed e).mpr ⟨he.1,by omega⟩
    rw [he.2] at hfreed
    cases hfreed
  have hle := h.used_le hs.counted hs'.counted e
  exact ⟨hused,h.ne ▸ he.1,hs'.counted.not_freed (by omega)⟩

theorem mapFst {o o' : Option (QueueMgr × Int)} (h : Alike f o o') (hs : o.map Prod.fst = some u) :
    ∃ u', o'.map Prod.fst = some u' ∧ SameBut f u u' := by
  rcases h.cases with ⟨rfl,-⟩ | ⟨p,p',rfl,rfl,hsame,-⟩
  · cases hs
  · cases hs
    exact ⟨p'.1,rfl,hsame⟩

theorem step (h : SameBut f s s') (hs : Sound [] s) (hs' : Sound [] s') (hf : f < s.nq) {a : Op}
    (ha : a.elsewhere f = true) (hknown : s.StepsKnown a) (hstep : s.step a = some u) :
    ∃ u', s'.step a = some u' ∧ SameBut f u u' := by
  have hlists (n n' : Nat) : SameBut f { s with selected := n } { s' with selected := n' } :=
    h.congr ⟨rfl,rfl,rfl⟩ ⟨rfl,rfl,rfl⟩ h.nq h.nt h.trk h.refs h.started
  have htrk {t : Nat} (ht : s.openTrk t) : s'.openTrk t := by
    rw [openTrk,h.nt,h.trk]
    exact ht
  cases a with
  | create c r a =>
    cases hstep
    exact ⟨_,rfl,h.create hf c r a⟩
  | destroy q => cases ha
  | select pos =>
    cases hstep
    refine ⟨_,rfl,?_⟩
    split <;> split <;> exact hlists _ _
  | qselect q =>
    cases hstep
    refine ⟨_,rfl,?_⟩
    split <;> split <;> exact hlists _ _
  | conf q c r a =>
    refine h.onQueue ha (fun y hy _ _ w hw => ?_) hstep
    cases hw
    exact ⟨_,rfl,h.updQueue hy (by rw [h.queue y hy]) rfl rfl⟩
  | add q um kind created =>
    refine h.onQueue ha (fun y hy _ hlive w hw => ?_) hstep
    cases hw
    exact ⟨_,rfl,h.add hs hy hlive.1 um kind created⟩
  | insertAt q pos um =>
    simp only [QueueMgr.step] at hstep ⊢
    refine h.onQueue (q := some q) ha (fun y hy _ _ w hw => ?_) hstep
    simp only [Option.ite_none_right_eq_some,Option.some.injEq] at hw
    obtain ⟨hpos,rfl⟩ := hw
    rw [h.list hy,if_pos hpos]
    exact ⟨_,rfl,h.insert hy pos um⟩
  | insert e um =>
    simp only [QueueMgr.step,Option.ite_none_right_eq_some,Option.some.injEq] at hstep ⊢
    obtain ⟨hlive,rfl⟩ := hstep
    exact ⟨_,⟨(h.liveEnt hs hs' hlive).2,rfl⟩,(h.insertBehind hs hlive.1 um).1⟩
  | clear q =>
    refine h.onQueue ha (fun y hy _ hlive w hw => ?_) hstep
    cases hw
    exact ⟨_,rfl,h.clear hs hs'.counted hy hlive.1⟩
  | filter q keep =>
    refine h.onQueue ha (fun y hy _ _ w hw => ?_) hstep
    cases hw
    exact ⟨_,rfl,h.filter hs hf hy keep⟩
  | play q e rnd ans =>
    cases e with
    | some e =>
      simp only [QueueMgr.step,Option.ite_none_right_eq_some] at hstep ⊢
      obtain ⟨hlive,hplay⟩ := hstep
      obtain ⟨hused,hlive'⟩ := h.liveEnt hs hs' hlive
      obtain ⟨u',hu',hsame⟩ := mapFst (h.qPlay_some hs hused _ rnd ans) hplay
      exact ⟨u',⟨hlive',hu'⟩,hsame⟩
    | none =>
      refine h.onQueue ha (fun y hy _ _ w hw => ?_) hstep
      exact mapFst (h.qPlay_none hs hy rnd ans) hw
  | playNext q rnd ans =>
    refine h.onQueue ha (fun y hy hq _ w hw => ?_) hstep
    subst hq
    exact mapFst (h.next hs hs' hy hknown rnd ans) hw
  | playPrev q rnd ans =>
    refine h.onQueue ha (fun y hy hq _ w hw => ?_) hstep
    subst hq
    exact mapFst (h.prev hs hs' hy hknown rnd ans) hw
  | ref q pos =>
    refine h.onQueue ha (fun y hy _ _ w hw => ?_) hstep
    cases hw
    exact ⟨_,rfl,h.ref hs hy pos⟩
  | unref e =>
    simp only [QueueMgr.step,Option.ite_none_right_eq_some,Option.some.injEq] at hstep ⊢
    obtain ⟨href,rfl⟩ := hstep
    exact ⟨_,⟨h.refs ▸ href,rfl⟩,h.userUnref hs hs' href⟩
  | removeAt q pos =>
    refine h.onQueue ha (fun y hy _ _ w hw => ?_) hstep
    cases hw
    exact ⟨_,rfl,h.removeAt hs hs'.counted hy pos⟩
  | remove e =>
    simp only [QueueMgr.step,Option.ite_none_right_eq_some,Option.some.injEq] at hstep ⊢
    obtain ⟨hlive,rfl⟩ := hstep
    exact ⟨_,⟨(h.liveEnt hs hs' hlive).2,rfl⟩,h.remove hs hs' hlive.1⟩
  | sort q l =>
    refine h.onQueue ha (fun y hy _ _ w hw => ?_) hstep
    simp only [Option.ite_none_right_eq_some,Option.some.injEq] at hw
    obtain ⟨hl,rfl⟩ := hw
    rw [h.list hy,if_pos hl]
    exact ⟨_,rfl,h.updQueue hy (by rw [h.queue y hy]) rfl rfl⟩
  | readerInsert t um =>
    simp only [QueueMgr.step,Option.ite_none_right_eq_some,Option.some.injEq] at hstep ⊢
    obtain ⟨⟨ht,hlist⟩,rfl⟩ := hstep
    exact ⟨_,⟨⟨htrk ht,h.trk ▸ hlist⟩,rfl⟩,h.readerInsert hs hs' ht um⟩
  | close t fstop tags rnd ans =>
    simp only [QueueMgr.step,Option.ite_none_right_eq_some] at hstep ⊢
    obtain ⟨⟨ht,hstop⟩,hclose⟩ := hstep
    have hrel := h.close hs hs' ht (hknown ht) rnd ans
    rw [hclose] at hrel
    cases hc : s'.closeTrack t fstop tags rnd ans with
    | none =>
      rw [hc] at hrel
      cases hrel
    | some u' =>
      rw [hc] at hrel
      cases hrel with
      | some hsame => exact ⟨u',⟨⟨htrk ht,h.trk ▸ hstop⟩,rfl⟩,hsame⟩

/-- The first history alone takes entries out of the filtered queue. -/
theorem dropStep (h : SameBut f s s') (hs : Sound [] s) (hs' : Sound [] s') {a : Op}
    (ha : a.drops f = true) (hstep : s.step a = some u) : SameBut f u s' := by
  cases a with
  | destroy q =>
    cases q with
    | none => cases ha
    | some y =>
      obtain rfl : y = f := by simpa [Op.drops] using ha
      simp only [QueueMgr.step] at hstep
      obtain ⟨z,hz,hlive,hu⟩ := onQueue_some hstep
      cases hz
      cases hu
      exact h.destroy hs hs' hlive.1
  | clear q =>
    cases q with
    | none => cases ha
    | some y =>
      obtain rfl : y = f := by simpa [Op.drops] using ha
      simp only [QueueMgr.step] at hstep
      obtain ⟨z,hz,hlive,hu⟩ := onQueue_some hstep
      cases hz
      cases hu
      exact h.dropAll hs hs' hlive.1
  | removeAt q pos =>
    cases q with
    | none => cases ha
    | some y =>
      obtain rfl : y = f := by simpa [Op.drops] using ha
      simp only [QueueMgr.step] at hstep
      obtain ⟨z,hz,hlive,hu⟩ := onQueue_some hstep
      cases hz
      cases hu
      exact h.dropAt hs hs' pos
  | _ => cases ha

end SameBut

/-- The two histories side by side. -/
structure Beside (f : Nat) (s s' : QueueMgr) : Prop where
  same : SameBut f s s'
  left : Sound [] s ∧ Owned s
  right : Sound [] s' ∧ Owned s'
  made : f < s.nq

/-- Without the calls that take entries out of the filtered queue. -/
def others (f : Nat) (as : List Op) : List Op := as.filter fun a => !a.drops f

namespace Beside

variable {f : Nat} {s s' u : QueueMgr}

theorem step (h : Beside f s s') {a : Op} (ha : a.elsewhere f = true) (hknown : s.StepsKnown a)
    (hstep : s.step a = some u) : ∃ u', s'.step a = some u' ∧ Beside f u u' := by
  have halone (v : QueueMgr) : DestroysAlone v a := by
    cases a with
    | destroy q => cases ha
    | _ => trivial
  obtain ⟨u',hu',hsame⟩ := h.same.step h.left.1 h.right.1 h.made ha hknown hstep
  exact ⟨u',hu',hsame,Sound.step h.left (halone s) hstep,Sound.step h.right (halone s') hu',
    Nat.lt_of_lt_of_le h.made (step_nq hstep)⟩

theorem drop (h : Beside f s s') {a : Op} (ha : a.drops f = true) (hstep : s.step a = some u) :
    Beside f u s' := by
  have halone : DestroysAlone s a := by
    cases a with
    | destroy q =>
      cases q with
      | none => cases ha
      | some y =>
        intro z hz e he _ hown
        cases hz
        obtain rfl : y = f := by simpa [Op.drops] using ha
        exact absurd hown (h.same.owner e he)
    | _ => trivial
  exact ⟨h.same.dropStep h.left.1 h.right.1 ha hstep,Sound.step h.left halone hstep,h.right,
    Nat.lt_of_lt_of_le h.made (step_nq hstep)⟩

theorem run {bs : List Op} (h : Beside f s s')
    (hops : ∀ b ∈ bs, b.elsewhere f = true ∨ b.drops f = true)
    (hknown : Machine.AllSteps QueueMgr.step StepsKnown s bs)
    (hrun : Machine.run QueueMgr.step s bs = some u) :
    ∃ u', Machine.run QueueMgr.step s' (others f bs) = some u' ∧ Beside f u u' := by
  induction bs generalizing s s' with
  | nil =>
    cases hrun
    exact ⟨s',rfl,h⟩
  | cons b bs ih =>
    obtain ⟨m,hm,hrest⟩ := Machine.run_cons_eq_some.mp hrun
    have hops' := fun c hc => hops c (List.mem_cons_of_mem b hc)
    cases hb : b.drops f with
    | true =>
      have hskip : others f (b :: bs) = others f bs := by simp [others,hb]
      rw [hskip]
      exact ih (h.drop hb hm) hops' (hknown.2 m hm) hrest
    | false =>
      have hkeep : others f (b :: bs) = b :: others f bs := by simp [others,hb]
      have helse : b.elsewhere f = true := by simpa [hb] using hops b List.mem_cons_self
      obtain ⟨m',hm',hbeside⟩ := h.step helse hknown.1 hm
      obtain ⟨u',hu',hout⟩ := ih hbeside hops' (hknown.2 m hm) hrest
      rw [hkeep]
      exact ⟨u',Machine.run_cons_eq_some.mpr ⟨m',hm',hu'⟩,hout⟩

end Beside

/-- What a call of `q_play_next()` or `q_play_prev()` shows: the tracks started so far and the code. -/
def shown (r : Option (QueueMgr × Int)) : Option (List Nat × Int) := r.map fun p => (p.1.started,p.2)

theorem SameBut.shown {f : Nat} {o o' : Option (QueueMgr × Int)} (h : SameBut.Alike f o o') :
    QueueMgr.shown o' = QueueMgr.shown o := by
  rcases h.cases with ⟨rfl,rfl⟩ | ⟨p,p',rfl,rfl,hsame,hcode⟩
  · rfl
  · show some (p'.1.started,p'.2) = some (p.1.started,p.2)
    rw [hsame.started,hcode]

theorem SameBut.filtered {s : QueueMgr} (hc : Counted s []) (q : Nat) (keep : Nat → Bool) :
    SameBut s.nq (s.qFilter q keep) (s.qFilter q keep) := by
  have hown (e : Nat) : ((s.qFilter q keep).ent e).q = (s.ent e).q :=
    (keepsOwner_foldl (f := qeRef) (fun u e => keepsOwner_setEnt u e _ rfl id)
      ((s.queue q).index.filter keep) s).q e
  have hne : (s.qFilter q keep).ne = s.ne :=
    (keepsOwner_foldl (f := qeRef) (fun u e => keepsOwner_setEnt u e _ rfl id)
      ((s.queue q).index.filter keep) s).ne
  refine ⟨rfl,rfl,rfl,rfl,rfl,rfl,fun _ _ => rfl,fun _ _ => .inl rfl,fun _ => rfl,fun _ => .inl rfl,
    fun _ => Nat.le_refl _,fun e he => ?_⟩
  rw [hown]
  exact Nat.ne_of_lt (hc.own e (hne ▸ he))

/-- A filtered queue `f` is made from queue `q`, and what follows takes entries out of it among other
operations. If every step to a next or previous entry knows where its cursor entry is, the history
without these calls gives queue `q` the same entries with the same indexes and starts the same
tracks. -/
theorem filtered_view {as bs : List Op} {s₀ v s : QueueMgr} {q : Nat} {keep : Nat → Bool}
    (halone : Machine.AllSteps step DestroysAlone init as)
    (hrun : Machine.run step init as = some s₀)
    (hfilter : s₀.step (.filter (some q) keep) = some v)
    (hops : ∀ b ∈ bs, b.elsewhere s₀.nq = true ∨ b.drops s₀.nq = true)
    (hknown : Machine.AllSteps step StepsKnown v bs) (hs : Machine.run step v bs = some s) :
    ∃ s', Machine.run step v (others s₀.nq bs) = some s' ∧
      (s'.queue q).index = (s.queue q).index ∧
      (∀ e ∈ (s.queue q).index, (s'.qeIndex e).2 = (s.qeIndex e).2) ∧ s'.started = s.started ∧
      ∀ rnd ans, s.CursorKnown q →
        shown (s'.qPlayNext q rnd ans) = shown (s.qPlayNext q rnd ans) ∧
        shown (s'.qPlayPrev q rnd ans) = shown (s.qPlayPrev q rnd ans) := by
  have hinit : Sound [] init ∧ Owned init :=
    ⟨⟨init_counted,init_placed,init_accounts⟩,init_owned⟩
  have hstart := Machine.guarded_invariant (fun _ _ _ h ha hs => Sound.step h ha hs) halone hrun hinit
  have hnew := Sound.step (a := .filter (some q) keep) hstart trivial hfilter
  simp only [step] at hfilter
  obtain ⟨y,hy,hlive,hv⟩ := onQueue_some hfilter
  cases hy
  cases hv
  have hbeside : Beside s₀.nq (s₀.qFilter q keep) (s₀.qFilter q keep) :=
    ⟨.filtered hstart.1.counted q keep,hnew,hnew,Nat.lt_succ_self _⟩
  obtain ⟨s',hs',h⟩ := hbeside.run hops hknown hs
  have hq : q ≠ s₀.nq := Nat.ne_of_lt hlive.1
  refine ⟨s',hs',h.same.list hq,fun e he => ?_,h.same.started,fun rnd ans hcur => ⟨?_,?_⟩⟩
  · exact (h.same.qeIndex h.left.1 (h.left.1.counted.inUse (h.left.1.counted.listed he))).2
  · exact SameBut.shown (h.same.next h.left.1 h.right.1 hq hcur rnd ans)
  · exact SameBut.shown (h.same.prev h.left.1 h.right.1 hq hcur rnd ans)

/-- Three files, of which the first plays. -/
def firstOfThree : List Op := [.create false false false,.add none false none false,
  .add none false none false,.add none false none false,.play none none 0 [⟨true,true⟩]]

def filtered : QueueMgr :=
  (Machine.run step init (firstOfThree ++ [Op.filter (some 0) fun _ => true])).getD init

/-- The last file is taken out of the filtered queue, and the next one plays. -/
theorem filtered_view_last : ∃ s s', Machine.run step filtered
      [.removeAt (some 1) 2,.playNext (some 0) 0 [⟨true,true⟩]] = some s ∧
    Machine.run step filtered (others 1 [.removeAt (some 1) 2,.playNext (some 0) 0 [⟨true,true⟩]]) =
      some s' ∧ s.started = [0,1] ∧ s'.started = s.started ∧
    (s'.queue 0).index = (s.queue 0).index := by
  have halone : Machine.AllSteps step DestroysAlone init firstOfThree := by decide +kernel
  have hknown : Machine.AllSteps step StepsKnown filtered
      [.removeAt (some 1) 2,.playNext (some 0) 0 [⟨true,true⟩]] := by decide +kernel
  obtain ⟨s',hs',hindex,-,hstarted,-⟩ := filtered_view (q := 0) halone rfl rfl
    (by decide) hknown rfl
  exact ⟨_,s',rfl,hs',by decide +kernel,hstarted,hindex⟩

/-- The playing file is taken out of the filtered queue: `q_play_next()` starts it once more. -/
theorem filtered_view_restart : ¬ ∀ (as bs : List Op) (s₀ v s : QueueMgr) (q : Nat)
    (keep : Nat → Bool), Machine.run step init as = some s₀ →
    s₀.step (.filter (some q) keep) = some v →
    (∀ b ∈ bs, b.elsewhere s₀.nq = true ∨ b.drops s₀.nq = true) →
    Machine.run step v bs = some s →
    ∃ s', Machine.run step v (others s₀.nq bs) = some s' ∧ s'.started = s.started := by
  intro h
  obtain ⟨s',hs',hstarted⟩ := h firstOfThree [.removeAt (some 1) 0,.playNext (some 0) 0 [⟨true,true⟩]]
    _ _ _ 0 (fun _ => true) rfl rfl (by decide) rfl
  have hnext : (Machine.run step filtered [.playNext (some 0) 0 [⟨true,true⟩]]).map started =
      some [0,1] := by decide +kernel
  have hrun : Machine.run step filtered [.playNext (some 0) 0 [⟨true,true⟩]] = some s' := hs'
  rw [hrun,Option.map_some,hstarted] at hnext
  exact absurd hnext (by decide +kernel)

end QueueMgr

end Phiola
