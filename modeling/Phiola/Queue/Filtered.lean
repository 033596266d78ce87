import Phiola.Queue.Accounts
import Phiola.Queue.Listing

/-!
# Filtered queues

A history runs beside the same history without the calls that take entries out of a filtered queue
`f`. The first store is left with fewer references and with indexes that are `~0U`; an entry that
only `f` still holds in the second store is gone from the first.
-/

namespace Phiola

namespace QueueMgr

/-- The first store has freed the cursor entry `c` of queue `y`; in the second one it is in no list
but that of `f`. -/
structure Dropped (s s' : QueueMgr) (y c : Nat) : Prop where
  lt : c < s.ne
  used : (s.ent c).used = 0
  q : (s'.ent c).q = y
  index : (s'.ent c).index = -1
  trk : (s'.ent c).trk = none

structure SameBut (f : Nat) (s s' : QueueMgr) : Prop where
  nq : s'.nq = s.nq
  ne : s'.ne = s.ne
  nt : s'.nt = s.nt
  trk : s'.trk = s.trk
  refs : s'.refs = s.refs
  started : s'.started = s.started
  queue : ∀ y, y ≠ f → s'.queue y = { s.queue y with cursor := (s'.queue y).cursor }
  cursor : ∀ y, y ≠ f → (s'.queue y).cursor = (s.queue y).cursor ∨
    (s.queue y).cursor = none ∧ ∀ c, (s'.queue y).cursor = some c → Dropped s s' y c
  ent : ∀ e, s'.ent e = { s.ent e with
    index := (s'.ent e).index
    used := (s'.ent e).used
    freed := (s'.ent e).freed }
  index : ∀ e, (s.ent e).index = (s'.ent e).index ∨ (s.ent e).index = -1
  listed : ∀ e, (s.queue f).index.count e ≤ (s'.queue f).index.count e
  owner : ∀ e, e < s.ne → (s.ent e).q ≠ f

namespace SameBut

variable {f : Nat} {s s' : QueueMgr}

theorem list (h : SameBut f s s') {y : Nat} (hy : y ≠ f) :
    (s'.queue y).index = (s.queue y).index := by rw [h.queue y hy]

theorem q (h : SameBut f s s') (e : Nat) : (s'.ent e).q = (s.ent e).q := by rw [h.ent e]

/-- Queue `y` gets records that differ in the cursor at most. -/
theorem setQueue (h : SameBut f s s') {y : Nat} {v w : PhiQueue} (hy : y ≠ f)
    (hv : w = { v with cursor := w.cursor })
    (hc : w.cursor = v.cursor ∨ v.cursor = none ∧ ∀ c, w.cursor = some c → Dropped s s' y c) :
    SameBut f (s.setQueue y v) (s'.setQueue y w) := by
  have hdrop {z c : Nat} (hd : Dropped s s' z c) :
      Dropped (s.setQueue y v) (s'.setQueue y w) z c := ⟨hd.lt,hd.used,hd.q,hd.index,hd.trk⟩
  refine ⟨h.nq,h.ne,h.nt,h.trk,h.refs,h.started,fun z hz => ?_,fun z hz => ?_,h.ent,h.index,?_,
    h.owner⟩
  · by_cases hzy : z = y
    · subst hzy
      rw [setQueue_self,setQueue_self]
      exact hv
    · rw [setQueue_of_ne _ hzy,setQueue_of_ne _ hzy]
      exact h.queue z hz
  · by_cases hzy : z = y
    · subst hzy
      rw [setQueue_self,setQueue_self]
      exact hc.imp_right fun hd => ⟨hd.1,fun c hcur => hdrop (hd.2 c hcur)⟩
    · rw [setQueue_of_ne _ hzy,setQueue_of_ne _ hzy]
      exact (h.cursor z hz).imp_right fun hd => ⟨hd.1,fun c hcur => hdrop (hd.2 c hcur)⟩
  · rw [setQueue_of_ne _ (Ne.symm hy),setQueue_of_ne _ (Ne.symm hy)]
    exact h.listed

/-- Queue `y` gets records that differ from the old ones in the same way; the cursors stay. -/
theorem updQueue (h : SameBut f s s') {y : Nat} {v w : PhiQueue} (hy : y ≠ f)
    (hv : w = { v with cursor := w.cursor }) (hc : v.cursor = (s.queue y).cursor)
    (hc' : w.cursor = (s'.queue y).cursor) : SameBut f (s.setQueue y v) (s'.setQueue y w) := by
  apply h.setQueue hy hv
  rw [hc,hc']
  exact h.cursor y hy

/-- Entry `e` gets records that differ in index, count and mark at most. -/
theorem setEnt (h : SameBut f s s') {e : Nat} {x z : QEntry}
    (hx : z = { x with index := z.index, used := z.used, freed := z.freed })
    (hi : x.index = z.index ∨ x.index = -1) (hq : e < s.ne → x.q = (s.ent e).q)
    (hd : ∀ y, Dropped s s' y e → x.used = 0 ∧ z.index = -1 ∧ z.trk = none) :
    SameBut f (s.setEnt e x) (s'.setEnt e z) := by
  have hz (he : e < s.ne) : z.q = (s'.ent e).q := by rw [h.q,← hq he,hx]
  have hdrop {y c : Nat} (hc : Dropped s s' y c) : Dropped (s.setEnt e x) (s'.setEnt e z) y c := by
    by_cases hce : c = e
    · subst hce
      obtain ⟨hused,hindex,htrk⟩ := hd y hc
      refine ⟨hc.lt,?_,?_,?_,?_⟩ <;> rw [setEnt_self]
      · exact hused
      · exact (hz hc.lt).trans hc.q
      · exact hindex
      · exact htrk
    · refine ⟨hc.lt,?_,?_,?_,?_⟩ <;> rw [setEnt_of_ne _ hce]
      · exact hc.used
      · exact hc.q
      · exact hc.index
      · exact hc.trk
  refine ⟨h.nq,h.ne,h.nt,h.trk,h.refs,h.started,h.queue,fun y hy => ?_,fun y => ?_,fun y => ?_,
    h.listed,fun y hy => ?_⟩
  · exact (h.cursor y hy).imp_right fun hc => ⟨hc.1,fun c hcur => hdrop (hc.2 c hcur)⟩
  · by_cases hye : y = e
    · subst hye
      rw [setEnt_self,setEnt_self]
      exact hx
    · rw [setEnt_of_ne _ hye,setEnt_of_ne _ hye]
      exact h.ent y
  · by_cases hye : y = e
    · subst hye
      rw [setEnt_self,setEnt_self]
      exact hi
    · rw [setEnt_of_ne _ hye,setEnt_of_ne _ hye]
      exact h.index y
  · by_cases hye : y = e
    · subst hye
      rw [setEnt_self,hq hy]
      exact h.owner y hy
    · rw [setEnt_of_ne _ hye]
      exact h.owner y hy

/-- An entry in use gets records that differ from the old ones in the same way. -/
theorem updEnt (h : SameBut f s s') {e : Nat} {x z : QEntry} (he : 0 < (s.ent e).used)
    (hx : z = { x with index := z.index, used := z.used, freed := z.freed })
    (hi : x.index = z.index ∨ x.index = -1) (hq : x.q = (s.ent e).q) :
    SameBut f (s.setEnt e x) (s'.setEnt e z) := by
  apply h.setEnt hx hi fun _ => hq
  intro y hd
  have := hd.used
  omega

theorem congr {u u' : QueueMgr} (h : SameBut f s s')
    (hu : u.queue = s.queue ∧ u.ent = s.ent ∧ u.ne = s.ne)
    (hu' : u'.queue = s'.queue ∧ u'.ent = s'.ent ∧ u'.ne = s'.ne)
    (hnq : u'.nq = u.nq) (hnt : u'.nt = u.nt) (htrk : u'.trk = u.trk) (hrefs : u'.refs = u.refs)
    (hstarted : u'.started = u.started) : SameBut f u u' := by
  obtain ⟨hq,he,hne⟩ := hu
  obtain ⟨hq',he',hne'⟩ := hu'
  refine ⟨hnq,?_,hnt,htrk,hrefs,hstarted,?_,fun y hy => ?_,?_,?_,?_,?_⟩
  · rw [hne,hne',h.ne]
  · rw [hq,hq']
    exact h.queue
  · rw [hq,hq']
    refine (h.cursor y hy).imp_right fun hc => ⟨hc.1,fun c hcur => ?_⟩
    obtain ⟨hlt,hused,hown,hindex,htrk⟩ := hc.2 c hcur
    exact ⟨hne ▸ hlt,he ▸ hused,he' ▸ hown,he' ▸ hindex,he' ▸ htrk⟩
  · rw [he,he']
    exact h.ent
  · rw [he,he']
    exact h.index
  · rw [hq,hq']
    exact h.listed
  · rw [he,hne]
    exact h.owner

theorem setTrk (h : SameBut f s s') (t : Nat) (x : QTrack) :
    SameBut f (s.setTrk t x) (s'.setTrk t x) := by
  refine h.congr ⟨rfl,rfl,rfl⟩ ⟨rfl,rfl,rfl⟩ h.nq h.nt ?_ h.refs h.started
  show Function.update s'.trk t x = Function.update s.trk t x
  rw [h.trk]

end SameBut

/-- `qe_index()` is what `q_find()` gives, as long as no list names an entry twice. -/
theorem qeIndex_eq_find {s : QueueMgr} {e : Nat} (hn : (s.queue (s.ent e).q).index.Nodup) :
    (s.qeIndex e).2 = qFind (s.queue (s.ent e).q) e := by
  unfold qeIndex
  dsimp only
  split
  · rename_i hg
    obtain ⟨p,hp,hget⟩ := qGet_eq_some.mp hg
    rw [hp,qFind_of_mem hn hget]
  · rfl

/-- What every history keeps, while the references `x` are in hand. -/
structure Sound (x : List Nat) (s : QueueMgr) : Prop where
  counted : Counted s x
  placed : Placed s []
  accounts : Accounts s

theorem sound_rule (x : List Nat) : PlayRule (Sound x) fun s e => 0 < (s.ent e).used where
  got h hg := (counted_rule x).got h.counted hg
  index h := ⟨(counted_rule x).index h.counted,(Placed.rule []).index h.placed,
    h.accounts.same (.qeIndex _ _)⟩
  split h := ⟨(counted_rule x).split h.counted,(Placed.rule []).split h.placed,
    h.accounts.same (.setQueue _ _ rfl)⟩
  stop h := ⟨⟨((counted_rule x).stop h.counted).1,((Placed.rule []).stop h.placed).1,
    h.accounts.qeStop _⟩,((counted_rule x).stop h.counted).2⟩
  cursor h he := ⟨⟨((counted_rule x).cursor h.counted he).1,
    ((Placed.rule []).cursor h.placed trivial).1,h.accounts.same (.setCursor _ _ _)⟩,
    ((counted_rule x).cursor h.counted he).2⟩
  play h he := ⟨(counted_rule x).play h.counted he,(Placed.rule []).play h.placed trivial,
    h.accounts.qePlay _ _⟩

namespace SameBut

variable {f : Nat} {x : List Nat} {s s' : QueueMgr}

theorem qeIndex (h : SameBut f s s') (hs : Sound x s) {e : Nat} (he : e < s.ne) :
    SameBut f (s.qeIndex e).1 (s'.qeIndex e).1 ∧ (s'.qeIndex e).2 = (s.qeIndex e).2 := by
  have hown := h.owner e he
  have hlist : (s'.queue (s'.ent e).q).index = (s.queue (s.ent e).q).index := by
    rw [h.q,h.list hown]
  have hval : (s'.qeIndex e).2 = (s.qeIndex e).2 := by
    have hn := hs.placed.nodup (s.ent e).q
    rw [qeIndex_eq_find hn,qeIndex_eq_find (hlist ▸ hn)]
    unfold qFind
    rw [hlist]
  refine ⟨?_,hval⟩
  rw [qeIndex_fst,qeIndex_fst]
  apply h.setEnt
  · rw [h.ent e]
  · exact .inl hval.symm
  · exact fun _ => rfl
  · intro y hd
    refine ⟨hd.used,?_,hd.trk⟩
    dsimp only
    rw [hval]
    apply qeIndex_unlisted
    intro hm
    have hpos := hs.counted.listed hm
    have hzero := hd.used
    omega

theorem setCursor (h : SameBut f s s') (hs : Sound x s) {y e : Nat} (hy : y ≠ f) (he : e < s.ne) :
    SameBut f (s.setCursor y e) (s'.setCursor y e) := by
  obtain ⟨hi,hval⟩ := h.qeIndex hs he
  rw [qeIndex_fst,qeIndex_fst] at hi
  rw [setCursor_eq,setCursor_eq]
  apply hi.setQueue hy
  · rw [h.queue y hy,hval]
  · exact .inl rfl

theorem qeStop (h : SameBut f s s') (e : Nat) : SameBut f (s.qeStop e) (s'.qeStop e) := by
  have htrk : (s'.ent e).trk = (s.ent e).trk := by rw [h.ent e]
  unfold QueueMgr.qeStop
  rw [htrk]
  cases (s.ent e).trk with
  | none => exact h
  | some t =>
    dsimp only
    rw [h.trk]
    exact h.setTrk t _

theorem stopCursor (h : SameBut f s s') {y : Nat} (hy : y ≠ f) :
    SameBut f (s.stopCursor y) (s'.stopCursor y) := by
  unfold QueueMgr.stopCursor
  rcases h.cursor y hy with hcur | ⟨hnone,hdrop⟩
  · rw [hcur]
    cases (s.queue y).cursor with
    | none => exact h
    | some c => exact h.qeStop c
  · rw [hnone]
    cases hcur : (s'.queue y).cursor with
    | none => exact h
    | some c =>
      have hstop : s'.qeStop c = s' := by
        unfold QueueMgr.qeStop
        rw [(hdrop c hcur).trk]
      dsimp only
      rw [hstop]
      exact h

theorem startTrack (h : SameBut f s s') (hs : Sound x s) {e : Nat} (he : 0 < (s.ent e).used)
    (k : Option ListKind) : SameBut f (s.startTrack e k) (s'.startTrack e k) := by
  have hown := h.owner e (hs.counted.inUse he)
  have hent := h.updEnt (x := { s.ent e with
      trk := some s.nt
      used := (s.ent e).used + 1
      expand := (s.ent e).expand || k.isSome }) (z := { s'.ent e with
      q := (s.ent e).q
      trk := some s'.nt
      used := (s'.ent e).used + 1
      expand := (s'.ent e).expand || k.isSome }) he (by rw [h.ent e,h.nt]) (h.index e) rfl
  have hq := hent.updQueue hown (v := { s.queue (s.ent e).q with
      activeN := (s.queue (s.ent e).q).activeN + 1 }) (w := { s'.queue (s.ent e).q with
      activeN := (s'.queue (s.ent e).q).activeN + 1 }) (by rw [h.queue _ hown]) rfl rfl
  have htrk := hq.setTrk s.nt ⟨e,k,e,false,false,false⟩
  unfold QueueMgr.startTrack
  dsimp only
  rw [h.q e]
  refine htrk.congr ⟨rfl,rfl,rfl⟩ ⟨rfl,rfl,rfl⟩ h.nq ?_ ?_ h.refs h.started
  · show s'.nt + 1 = s.nt + 1
    rw [h.nt]
  · show Function.update s'.trk s'.nt _ = Function.update s.trk s.nt _
    rw [h.trk,h.nt]

theorem qePlay (h : SameBut f s s') (hs : Sound x s) {e : Nat} (he : 0 < (s.ent e).used) (c : Bool) :
    SameBut f (s.qePlay e c).1 (s'.qePlay e c).1 ∧ (s'.qePlay e c).2 = (s.qePlay e c).2 := by
  have hexpand : (s'.ent e).expand = (s.ent e).expand := by rw [h.ent e]
  unfold QueueMgr.qePlay
  dsimp only
  rw [hexpand]
  split
  · refine ⟨?_,rfl⟩
    refine h.updEnt he ?_ (h.index e) rfl
    rw [h.ent e]
  · split
    · refine ⟨?_,rfl⟩
      have hstart := h.startTrack hs he none
      refine hstart.congr ⟨rfl,rfl,rfl⟩ ⟨rfl,rfl,rfl⟩ hstart.nq hstart.nt hstart.trk hstart.refs ?_
      show s'.started ++ [e] = s.started ++ [e]
      rw [h.started]
    · exact ⟨h,rfl⟩

theorem used_le (h : SameBut f s s') (hc : Counted s x) (hc' : Counted s' x) (e : Nat) :
    (s.ent e).used ≤ (s'.ent e).used := by
  have hqueues : s.inQueues e ≤ s'.inQueues e := by
    unfold inQueues
    rw [h.nq]
    apply Finset.sum_le_sum
    intro y _
    by_cases hy : y = f
    · rw [hy]
      exact h.listed e
    · rw [h.list hy]
  rw [hc.used,hc'.used]
  simp only [holders,onTracks,h.nt,h.trk,h.refs]
  omega

theorem get (h : SameBut f s s') {y : Nat} (hy : y ≠ f) (i : Int) :
    qGet (s'.queue y) i = qGet (s.queue y) i := by
  unfold qGet
  rw [h.list hy]

/-- The two results of a call. -/
abbrev Alike (f : Nat) : Option (QueueMgr × Int) → Option (QueueMgr × Int) → Prop :=
  Option.Rel fun p p' => SameBut f p.1 p'.1 ∧ p'.2 = p.2

theorem Alike.cases {o o' : Option (QueueMgr × Int)} (h : Alike f o o') :
    o = none ∧ o' = none ∨
      ∃ p p', o = some p ∧ o' = some p' ∧ SameBut f p.1 p'.1 ∧ p'.2 = p.2 := by
  cases h with
  | none => exact .inl ⟨rfl,rfl⟩
  | some h => exact .inr ⟨_,_,rfl,rfl,h⟩

theorem getIndex (h : SameBut f s s') {y : Nat} (hy : y ≠ f) (i : Int) (rnd : Nat) :
    Alike f (s.qGetIndex y i rnd) (s'.qGetIndex y i rnd) := by
  have hq := h.queue y hy
  have hrandom : qRandom (s'.queue y) rnd = qRandom (s.queue y) rnd := by
    rw [hq]
    rfl
  have hconf : (s'.queue y).random = (s.queue y).random ∧
      (s'.queue y).repeatAll = (s.queue y).repeatAll := by
    rw [hq]
    exact ⟨rfl,rfl⟩
  unfold qGetIndex
  dsimp only
  rw [hconf.1,hconf.2,hrandom,h.list hy]
  split
  · cases qRandom (s.queue y) rnd with
    | none => exact .none
    | some p =>
      refine .some ⟨h.updQueue hy ?_ rfl rfl,rfl⟩
      rw [hq]
  · split
    · exact .some ⟨h,rfl⟩
    · exact .some ⟨h,rfl⟩

theorem playLoop (h : SameBut f s s') (hs : Sound x s) {y e : Nat} (hy : y ≠ f)
    (he : 0 < (s.ent e).used) (ans : List Answer) :
    Alike f (s.playLoop y e ans) (s'.playLoop y e ans) := by
  induction ans generalizing s s' e with
  | nil => exact .none
  | cons a ans ih =>
    have hlt := hs.counted.inUse he
    have hcursor := h.setCursor hs hy hlt
    obtain ⟨hsound,hused⟩ := (sound_rule x).cursor (q := y) hs he
    obtain ⟨hplay,hcode⟩ := hcursor.qePlay hsound hused a.created
    have hsound' := (sound_rule x).play (c := a.created) hsound hused
    have hindex : (((s'.setCursor y e).qePlay e a.created).1.ent e).index =
        (((s.setCursor y e).qePlay e a.created).1.ent e).index := by
      rw [((sameOrder_qePlay _ e a.created).ent e).2,((sameOrder_qePlay _ e a.created).ent e).2,
        setCursor_eq,setCursor_eq,setQueue_ent,setQueue_ent,setEnt_self,setEnt_self]
      exact (h.qeIndex hs hlt).2
    unfold QueueMgr.playLoop
    dsimp only
    rw [hcode,hindex]
    split
    · exact .some ⟨hplay,rfl⟩
    · split
      · exact .some ⟨hplay,rfl⟩
      · rw [hplay.get hy]
        cases hg : qGet (((s.setCursor y e).qePlay e a.created).1.queue y)
            ((((s.setCursor y e).qePlay e a.created).1.ent e).index + 1) with
        | none => exact .some ⟨hplay,rfl⟩
        | some z => exact ih hplay hsound' ((sound_rule x).got hsound' hg)

theorem playEntry (h : SameBut f s s') (hs : Sound x s) {y e : Nat} (hy : y ≠ f)
    (he : 0 < (s.ent e).used) (ans : List Answer) :
    Alike f (s.playEntry y e ans) (s'.playEntry y e ans) := by
  have hconv : (s'.queue (s'.ent e).q).conversion = (s.queue (s.ent e).q).conversion := by
    rw [h.q,h.queue _ (h.owner e (hs.counted.inUse he))]
  unfold QueueMgr.playEntry
  rw [hconv]
  split
  · exact h.playLoop hs hy he ans
  · cases ans with
    | nil => exact .none
    | cons a ans =>
      have hstop : Sound x (s.stopCursor y) ∧ 0 < ((s.stopCursor y).ent e).used := by
        unfold QueueMgr.stopCursor
        split
        · exact ⟨hs,he⟩
        · exact ⟨((sound_rule x).stop hs).1,((sound_rule x).stop hs).2 e he⟩
      have hcursor := (h.stopCursor hy).setCursor hstop.1 hy (hstop.1.counted.inUse hstop.2)
      obtain ⟨hsound,hused⟩ := (sound_rule x).cursor (q := y) hstop.1 hstop.2
      obtain ⟨hplay,hcode⟩ := hcursor.qePlay hsound hused a.created
      dsimp only
      rw [hcode]
      split
      · exact .some ⟨hplay,rfl⟩
      · exact .some ⟨hplay,rfl⟩

theorem qPlay_some (h : SameBut f s s') (hs : Sound x s) {e : Nat} (he : 0 < (s.ent e).used)
    (q rnd : Nat) (ans : List Answer) :
    Alike f (s.qPlay q (some e) rnd ans) (s'.qPlay q (some e) rnd ans) := by
  show Alike f (s.playEntry (s.ent e).q e ans) (s'.playEntry (s'.ent e).q e ans)
  rw [h.q]
  exact h.playEntry hs (h.owner e (hs.counted.inUse he)) he ans

/-- Both lookups give nothing, or an index in stores that are alike. -/
theorem getIndex_cases (h : SameBut f s s') (hs : Sound x s) {y : Nat} (hy : y ≠ f) (i : Int)
    (rnd : Nat) : s.qGetIndex y i rnd = none ∧ s'.qGetIndex y i rnd = none ∨
      ∃ u u' j, s.qGetIndex y i rnd = some (u,j) ∧ s'.qGetIndex y i rnd = some (u',j) ∧
        SameBut f u u' ∧ Sound x u := by
  rcases (h.getIndex hy i rnd).cases with ⟨hi,hi'⟩ | ⟨p,p',hi,hi',hsame,hval⟩
  · exact .inl ⟨hi,hi'⟩
  · exact .inr ⟨p.1,p'.1,p.2,hi,by rw [hi',← hval],hsame,(sound_rule x).getIndex hs hi⟩

theorem playAt (h : SameBut f s s') (hs : Sound x s) {y : Nat} (hy : y ≠ f) (i : Int) (rnd : Nat)
    (ans : List Answer) : Alike f (s.playAt y rnd i ans) (s'.playAt y rnd i ans) := by
  unfold QueueMgr.playAt
  rcases h.getIndex_cases hs hy i rnd with ⟨hn,hn'⟩ | ⟨u,u',j,hi,hi',hu,hsound⟩
  · rw [hn,hn']
    exact .none
  · rw [hi,hi']
    dsimp only
    rw [hu.get hy]
    cases hg : qGet (u.queue y) j with
    | none => exact .some ⟨hu,rfl⟩
    | some e => exact hu.qPlay_some hsound ((sound_rule x).got hsound hg) y rnd ans

theorem qPlay_none (h : SameBut f s s') (hs : Sound x s) {y : Nat} (hy : y ≠ f) (rnd : Nat)
    (ans : List Answer) : Alike f (s.qPlay y none rnd ans) (s'.qPlay y none rnd ans) := by
  have hplace : (s'.queue y).cursorIndex = (s.queue y).cursorIndex := by rw [h.queue y hy]
  unfold QueueMgr.qPlay
  dsimp only
  rw [hplace]
  rcases h.getIndex_cases hs hy (s.queue y).cursorIndex rnd with ⟨hn,hn'⟩ | ⟨u,u',j,hi,hi',hu,hsound⟩
  · rw [hn,hn']
    exact .none
  · rw [hi,hi']
    dsimp only
    rw [hu.get hy]
    cases hg : qGet (u.queue y) j with
    | none => exact .some ⟨hu,rfl⟩
    | some e => exact hu.playEntry hsound hy ((sound_rule x).got hsound hg) ans

end SameBut

/-- In a queue that lists its own entries, `q_play()` without an entry plays what stands at
`cursor_index`. -/
theorem qPlay_none_own {s : QueueMgr} {q : Nat} (hown : ∀ e ∈ (s.queue q).index, (s.ent e).q = q)
    (rnd : Nat) (ans : List Answer) :
    s.qPlay q none rnd ans = s.playAt q rnd (s.queue q).cursorIndex ans := by
  unfold qPlay playAt
  dsimp only
  cases hi : s.qGetIndex q (s.queue q).cursorIndex rnd with
  | none => rfl
  | some p =>
    have hsame : p.1.ent = s.ent ∧ (p.1.queue q).index = (s.queue q).index := by
      unfold qGetIndex at hi
      dsimp only at hi
      split at hi
      · split at hi
        · cases hi
        · cases hi
          exact ⟨rfl,by rw [setQueue_self]⟩
      · split at hi <;> cases hi <;> exact ⟨rfl,rfl⟩
    dsimp only
    cases hg : qGet (p.1.queue q) p.2 with
    | none => rfl
    | some e =>
      have hq := hown e (hsame.2 ▸ mem_of_qGet hg)
      show p.1.playEntry q e ans = p.1.playEntry (p.1.ent e).q e ans
      rw [hsame.1,hq]

/-- The cursor entry of queue `q` exists, and has an index if its own queue lists it; without a cursor
entry the queue lists only entries of its own or has none. -/
def CursorKnown (s : QueueMgr) (q : Nat) : Prop :=
  match (s.queue q).cursor with
  | none => (∀ e ∈ (s.queue q).index, (s.ent e).q = q) ∨ ∀ e < s.ne, (s.ent e).q ≠ q
  | some c => s.liveEnt c ∧ ((s.ent c).index = -1 → c ∉ (s.queue (s.ent c).q).index)

instance (s : QueueMgr) (q : Nat) : Decidable (s.CursorKnown q) := by
  unfold CursorKnown
  split <;> infer_instance

namespace SameBut

variable {f : Nat} {x : List Nat} {s s' : QueueMgr}

theorem playFrom (h : SameBut f s s') (hs : Sound x s) (hs' : Sound x s') {y : Nat} (hy : y ≠ f)
    (hcur : s.CursorKnown y) {index : QueueMgr → Nat → QueueMgr × Int}
    (hindex : ∀ c, c < s.ne → (s.ent c).index ≠ -1 → SameBut f (index s c).1 (index s' c).1 ∧
      (index s' c).2 = (index s c).2 ∧ Sound x (index s c).1) (rnd : Nat) (ans : List Answer) :
    Alike f (playFrom index s y rnd ans) (playFrom index s' y rnd ans) := by
  have hplace : (s'.queue y).cursorIndex = (s.queue y).cursorIndex := by rw [h.queue y hy]
  unfold CursorKnown at hcur
  cases hc : (s.queue y).cursor with
  | none =>
    have hfirst : QueueMgr.playFrom index s y rnd ans = s.qPlay y none rnd ans := by
      unfold QueueMgr.playFrom
      rw [hc]
    rw [hfirst]
    cases hc' : (s'.queue y).cursor with
    | none =>
      have hsecond : QueueMgr.playFrom index s' y rnd ans = s'.qPlay y none rnd ans := by
        unfold QueueMgr.playFrom
        rw [hc']
      rw [hsecond]
      exact h.qPlay_none hs hy rnd ans
    | some c =>
      -- the second store still has the entry, and looks up `cursor_index` as it was removed
      rw [hc] at hcur
      have hdrop : Dropped s s' y c := by
        rcases h.cursor y hy with heq | ⟨-,hd⟩
        · rw [hc,hc'] at heq
          cases heq
        · exact hd c hc'
      have hown := hcur.resolve_right fun hother => hother c hdrop.lt ((h.q c).symm.trans hdrop.q)
      rw [qPlay_none_own hown,playFrom_eq rnd ans hc',if_neg (by rw [hdrop.index]; simp),hplace]
      exact h.playAt hs hy _ rnd ans
  | some c =>
    rw [hc] at hcur
    obtain ⟨hlive,hknown⟩ := hcur
    have hc' : (s'.queue y).cursor = some c := by
      rcases h.cursor y hy with heq | ⟨hnone,-⟩
      · rw [heq,hc]
      · rw [hc] at hnone
        cases hnone
    rw [playFrom_eq rnd ans hc,playFrom_eq rnd ans hc']
    by_cases hlost : (s.ent c).index = -1
    · have hlost' : (s'.ent c).index = -1 := by
        apply hs'.placed.lost c (h.ne ▸ hlive.1)
        · have hfreed := hs.counted.freed c
          have hle := h.used_le hs.counted hs'.counted c
          apply hs'.counted.not_freed
          rw [hlive.2] at hfreed
          have hpos : (s.ent c).used ≠ 0 := fun hz => by simpa using hfreed.mpr ⟨hlive.1,hz⟩
          omega
        · rw [h.q,h.list (h.owner c hlive.1)]
          exact hknown hlost
        · simp
      rw [if_neg (by simpa using hlost),if_neg (by simpa using hlost'),hplace]
      exact h.playAt hs hy _ rnd ans
    · have hlost' : (s'.ent c).index ≠ -1 := by
        rcases h.index c with heq | heq
        · rwa [← heq]
        · exact absurd heq hlost
      obtain ⟨hsame,hval,hsound⟩ := hindex c hlive.1 hlost
      rw [if_pos hlost,if_pos hlost',hval]
      exact hsame.playAt hsound hy _ rnd ans

theorem next (h : SameBut f s s') (hs : Sound x s) (hs' : Sound x s') {y : Nat} (hy : y ≠ f)
    (hcur : s.CursorKnown y) (rnd : Nat) (ans : List Answer) :
    Alike f (s.qPlayNext y rnd ans) (s'.qPlayNext y rnd ans) := by
  apply h.playFrom hs hs' hy hcur
  intro c hc _
  obtain ⟨hsame,hval⟩ := h.qeIndex hs hc
  refine ⟨hsame,?_,(sound_rule x).index hs⟩
  dsimp only
  rw [hval]

theorem prev (h : SameBut f s s') (hs : Sound x s) (hs' : Sound x s') {y : Nat} (hy : y ≠ f)
    (hcur : s.CursorKnown y) (rnd : Nat) (ans : List Answer) :
    Alike f (s.qPlayPrev y rnd ans) (s'.qPlayPrev y rnd ans) := by
  apply h.playFrom hs hs' hy hcur
  intro c _ hlost
  refine ⟨h,?_,hs⟩
  dsimp only
  rw [(h.index c).resolve_right hlost]

/-- The first store drops a reference; the second store may drop it as well. -/
theorem release (h : SameBut f s s') {e : Nat} {z : QEntry} {k : Option Nat} (he : e < s.ne)
    (hused : 0 < (s.ent e).used)
    (hz : z = { s'.ent e with used := z.used, freed := z.freed })
    (hk : k = (s'.queue (s.ent e).q).cursor ∨
      k = none ∧ (s.ent e).used = 1 ∧ (s'.queue (s.ent e).q).cursor = some e)
    (hgone : (s.ent e).used = 1 → (s'.ent e).index = -1 ∧ (s'.ent e).trk = none) :
    SameBut f (s.qeUnref e)
      ((s'.setEnt e z).setQueue (s.ent e).q { s'.queue (s.ent e).q with cursor := k }) := by
  have hown := h.owner e he
  have hz' : z.q = (s.ent e).q ∧ z.index = (s'.ent e).index ∧ z.trk = (s'.ent e).trk := by
    rw [hz]
    exact ⟨h.q e,rfl,rfl⟩
  have hent := h.updEnt (x := { s.ent e with
      used := (s.ent e).used - 1
      freed := (s.ent e).freed || (s.ent e).used - 1 == 0 }) (z := z) hused
    (by rw [hz,h.ent e]) (by rw [hz'.2.1]; exact h.index e) rfl
  rw [qeUnref_eq]
  apply hent.setQueue hown
  · rw [h.queue _ hown]
  · dsimp only
    by_cases hlost : (s.ent e).used - 1 = 0 ∧ (s.queue (s.ent e).q).cursor = some e
    · rw [if_pos hlost]
      rcases hk with hk | ⟨hk,-,-⟩
      · have hcur : k = some e := by
          rcases h.cursor _ hown with heq | ⟨hnone,-⟩
          · rw [hk,heq,hlost.2]
          · rw [hlost.2] at hnone
            cases hnone
        obtain ⟨hindex,htrk⟩ := hgone (by omega)
        refine .inr ⟨rfl,fun c hc => ?_⟩
        obtain rfl : e = c := Option.some.inj (hcur.symm.trans hc)
        refine ⟨he,?_,?_,?_,?_⟩ <;> rw [setEnt_self]
        · exact hlost.1
        · exact hz'.1
        · exact hz'.2.1.trans hindex
        · exact hz'.2.2.trans htrk
      · exact .inl hk
    · rw [if_neg hlost]
      rcases hk with hk | ⟨-,hone,hcur⟩
      · rw [hk]
        exact hent.cursor _ hown
      · exfalso
        rcases h.cursor _ hown with heq | ⟨-,hdrop⟩
        · exact hlost ⟨by omega,heq.symm.trans hcur⟩
        · have hzero := (hdrop e hcur).used
          omega

theorem unref (h : SameBut f s s') {e : Nat} (he : e < s.ne) (hused : 0 < (s.ent e).used)
    (hle : (s.ent e).used ≤ (s'.ent e).used)
    (hgone : (s.ent e).used = 1 → (s'.ent e).index = -1 ∧ (s'.ent e).trk = none) :
    SameBut f (s.qeUnref e) (s'.qeUnref e) := by
  rw [qeUnref_eq s']
  rw [h.q]
  apply h.release he hused _ _ hgone
  · rfl
  · split
    · rename_i hlost
      exact .inr ⟨rfl,by omega,hlost.2⟩
    · exact .inl rfl

theorem drop (h : SameBut f s s') {e : Nat} (he : e < s.ne) (hused : 0 < (s.ent e).used)
    (hgone : (s.ent e).used = 1 → (s'.ent e).index = -1 ∧ (s'.ent e).trk = none) :
    SameBut f (s.qeUnref e) s' := by
  have hrel := h.release (z := s'.ent e) he hused rfl (.inl rfl) hgone
  simpa [QueueMgr.setEnt,QueueMgr.setQueue,Function.update_eq_self] using hrel

end SameBut

/-- An entry with one reference that is in hand or belongs to a user has no track and is in no list. -/
theorem Counted.last {s : QueueMgr} {x : List Nat} (hc : Counted s x) (ha : Accounts s) {e : Nat}
    (hone : (s.ent e).used = 1) (hhand : 0 < s.refs e + x.count e) :
    (s.ent e).trk = none ∧ ∀ y, e ∉ (s.queue y).index := by
  have hu := hc.used e
  unfold holders at hu
  refine ⟨?_,fun y hm => ?_⟩
  · cases ht : (s.ent e).trk with
    | none => rfl
    | some t =>
      obtain ⟨hopen,hqent⟩ := ha.pointer e t ht
      have hle := Cells.le_sum hopen.1 fun t' => onTrack (s.trk t') e
      have hon := onTrack_self (s.trk t) hopen.2 e
      rw [if_pos hqent] at hon
      unfold onTracks at hu
      omega
  · have hy : y < s.nq := by
      by_contra hlt
      rw [hc.unused y (by omega)] at hm
      cases hm
    have hpos : 0 < (s.queue y).index.count e := List.count_pos_iff.mpr hm
    have hle := Cells.le_sum hy fun y => (s.queue y).index.count e
    unfold inQueues at hu
    omega

theorem Counted.inHand {s : QueueMgr} {x : List Nat} {e : Nat} (hc : Counted s (e :: x)) :
    0 < (s.ent e).used := by
  rw [hc.used,List.count_cons_self]
  omega

namespace SameBut

variable {f : Nat} {x : List Nat} {s s' : QueueMgr}

/-- An entry that the first store is about to free has no index in the second one. -/
theorem gone (h : SameBut f s s') (hc : Counted s x) (ha : Accounts s) (hp' : Placed s' []) {e : Nat}
    (hfreed : (s'.ent e).freed = false) (hhand : 0 < s.refs e + x.count e)
    (hone : (s.ent e).used = 1) : (s'.ent e).index = -1 ∧ (s'.ent e).trk = none := by
  obtain ⟨htrk,hlist⟩ := hc.last ha hone hhand
  have hlt := hc.inUse (e := e) (by omega)
  refine ⟨hp'.lost e (h.ne ▸ hlt) hfreed ?_ (by simp),by rw [h.ent e]; exact htrk⟩
  rw [h.q,h.list (h.owner e hlt)]
  exact hlist _

theorem shrink (h : SameBut f s s') {v : PhiQueue}
    (hv : ∀ e, v.index.count e ≤ (s.queue f).index.count e) : SameBut f (s.setQueue f v) s' := by
  refine ⟨h.nq,h.ne,h.nt,h.trk,h.refs,h.started,fun y hy => ?_,fun y hy => ?_,h.ent,h.index,
    fun e => ?_,h.owner⟩
  · rw [setQueue_of_ne _ hy]
    exact h.queue y hy
  · rw [setQueue_of_ne _ hy]
    exact (h.cursor y hy).imp_right fun hc =>
      ⟨hc.1,fun c hcur => ⟨(hc.2 c hcur).lt,(hc.2 c hcur).used,(hc.2 c hcur).q,(hc.2 c hcur).index,
        (hc.2 c hcur).trk⟩⟩
  · rw [setQueue_self]
    exact (hv e).trans (h.listed e)

theorem forgetIndex (h : SameBut f s s') {e : Nat} (he : 0 < (s.ent e).used) :
    SameBut f (s.setEnt e { s.ent e with index := -1 }) s' := by
  have hset := h.updEnt (x := { s.ent e with index := -1 }) (z := s'.ent e) he (by rw [h.ent e])
    (.inr rfl) rfl
  simpa [QueueMgr.setEnt,Function.update_eq_self] using hset

theorem forgetIndexes (h : SameBut f s s') {e : Nat} (he : 0 < (s.ent e).used) :
    SameBut f (s.setEnt e { s.ent e with index := -1 })
      (s'.setEnt e { s'.ent e with index := -1 }) := by
  refine h.updEnt he ?_ (.inl rfl) rfl
  rw [h.ent e]

theorem removeAt (h : SameBut f s s') (hs : Sound [] s) (hc' : Counted s' []) {y : Nat} (hy : y ≠ f)
    (pos : Int) : SameBut f (s.qRemoveAt y pos).1 (s'.qRemoveAt y pos).1 := by
  unfold qRemoveAt
  dsimp only
  rw [h.get hy]
  cases hg : qGet (s.queue y) pos with
  | none => exact h
  | some e =>
    have hused := hs.counted.got hg
    have hlt := hs.counted.inUse hused
    have hcount := hs.counted.takeOut (v := { s.queue y with
      cursorIndex := cursorIndexAfterRemove (s.queue y) pos.toNat
      index := (s.queue y).index.eraseIdx pos.toNat }) hg rfl
    have hacc := hs.accounts.same ((SameTracks.setEnt s e (x := { s.ent e with index := -1 }) rfl
      rfl).trans (.setQueue _ y (v := { s.queue y with
      cursorIndex := cursorIndexAfterRemove (s.queue y) pos.toNat
      index := (s.queue y).index.eraseIdx pos.toNat }) rfl))
    have hout := (h.forgetIndexes hused).updQueue hy (v := { s.queue y with
      cursorIndex := cursorIndexAfterRemove (s.queue y) pos.toNat
      index := (s.queue y).index.eraseIdx pos.toNat }) (w := { s'.queue y with
      cursorIndex := cursorIndexAfterRemove (s'.queue y) pos.toNat
      index := (s'.queue y).index.eraseIdx pos.toNat }) (by rw [h.queue y hy]; rfl) rfl rfl
    apply hout.unref hlt
    · rw [setQueue_ent,setEnt_self]
      exact hused
    · rw [setQueue_ent,setEnt_self,setQueue_ent,setEnt_self]
      exact h.used_le hs.counted hc' e
    · intro hone
      refine ⟨by simp,?_⟩
      rw [hout.ent e]
      exact (hcount.last hacc hone (by simp)).1

/-- `q_remove_at()` of the filtered queue. -/
theorem dropAt (h : SameBut f s s') (hs : Sound [] s) (hs' : Sound [] s') (pos : Int) :
    SameBut f (s.qRemoveAt f pos).1 s' := by
  unfold qRemoveAt
  dsimp only
  cases hg : qGet (s.queue f) pos with
  | none => exact h
  | some e =>
    have hused := hs.counted.got hg
    have hlt := hs.counted.inUse hused
    have hcount := hs.counted.takeOut (v := { s.queue f with
      cursorIndex := cursorIndexAfterRemove (s.queue f) pos.toNat
      index := (s.queue f).index.eraseIdx pos.toNat }) hg rfl
    have hacc := hs.accounts.same ((SameTracks.setEnt s e (x := { s.ent e with index := -1 }) rfl
      rfl).trans (.setQueue _ f (v := { s.queue f with
      cursorIndex := cursorIndexAfterRemove (s.queue f) pos.toNat
      index := (s.queue f).index.eraseIdx pos.toNat }) rfl))
    have hout := (h.forgetIndex hused).shrink (v := { s.queue f with
      cursorIndex := cursorIndexAfterRemove (s.queue f) pos.toNat
      index := (s.queue f).index.eraseIdx pos.toNat })
      fun z => (List.eraseIdx_sublist _ _).count_le z
    have hle := h.used_le hs.counted hs'.counted e
    apply hout.drop hlt
    · rw [setQueue_ent,setEnt_self]
      exact hused
    · exact hout.gone hcount hacc hs'.placed (hs'.counted.not_freed (by omega)) (by simp)

theorem clear (h : SameBut f s s') (hs : Sound [] s) (hc' : Counted s' []) {y : Nat} (hy : y ≠ f)
    (hlt : y < s.nq) : SameBut f (s.qClear y) (s'.qClear y) := by
  have hfold (l : List Nat) (u u' : QueueMgr) (hu : SameBut f u u') (hc : Counted u l)
      (hc' : Counted u' l) (ha : Accounts u) : SameBut f
        (l.foldl (fun s e => (s.setEnt e { s.ent e with index := -1 }).qeUnref e) u)
        (l.foldl (fun s e => (s.setEnt e { s.ent e with index := -1 }).qeUnref e) u') := by
    induction l generalizing u u' with
    | nil => exact hu
    | cons e l ih =>
      have hcount := hc.same (sameHolders_setEnt u e { u.ent e with index := -1 } rfl rfl rfl)
      have hcount' := hc'.same (sameHolders_setEnt u' e { u'.ent e with index := -1 } rfl rfl rfl)
      have hacc := ha.same (.setEnt u e (x := { u.ent e with index := -1 }) rfl rfl)
      have hused := hc.inHand
      have hset := hu.forgetIndexes hused
      apply ih _ _ _ hcount.unref hcount'.unref (hacc.same (.unref _ e))
      apply hset.unref (hc.inUse hused)
      · rw [setEnt_self]
        exact hused
      · exact hset.used_le hcount hcount' e
      · intro hone
        refine ⟨by simp,?_⟩
        rw [hset.ent e]
        exact (hcount.last hacc hone (by simp)).1
  have hout := h.updQueue hy (v := { s.queue y with index := [] })
    (w := { s'.queue y with index := [] }) (by rw [h.queue y hy]) rfl rfl
  unfold qClear
  dsimp only
  rw [h.list hy]
  apply hfold _ _ _ hout
  · exact hs.counted.setQueue hlt (by simp)
  · exact hc'.setQueue (h.nq ▸ hlt) (by simp [h.list hy])
  · exact hs.accounts.same (.setQueue s y rfl)

end SameBut

end QueueMgr

end Phiola
