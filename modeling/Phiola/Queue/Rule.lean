import Phiola.Framework.Machine
import Phiola.Queue.Play

/-!
# What playing keeps

`q_play()`, `q_play_next()`, `q_play_prev()` and `qe_close()` are built from a few updates of the
store. A property that each of these updates keeps is kept by all of them.
-/

namespace Phiola

namespace QueueMgr

/-- The property `P` is kept by the updates that playing consists of, and an entry that `q_get()`
finds meets the condition `Ok` under which it may be played. -/
structure PlayRule (P : QueueMgr → Prop) (Ok : QueueMgr → Nat → Prop) : Prop where
  got : ∀ {s q i e}, P s → qGet (s.queue q) i = some e → Ok s e
  index : ∀ {s e}, P s → P (s.qeIndex e).1
  split : ∀ {s q b}, P s → P (s.setQueue q { s.queue q with randomSplit := b })
  stop : ∀ {s c}, P s → P (s.qeStop c) ∧ ∀ e, Ok s e → Ok (s.qeStop c) e
  cursor : ∀ {s q e}, P s → Ok s e → P (s.setCursor q e) ∧ Ok (s.setCursor q e) e
  play : ∀ {s e c}, P s → Ok s e → P (s.qePlay e c).1

namespace PlayRule

variable {P : QueueMgr → Prop} {Ok : QueueMgr → Nat → Prop} {s : QueueMgr} {p : QueueMgr × Int}
  {ans : List Answer}

theorem getIndex (h : PlayRule P Ok) (hs : P s) {q rnd : Nat} {i : Int}
    (hp : s.qGetIndex q i rnd = some p) : P p.1 := by
  unfold qGetIndex at hp
  dsimp only at hp
  split at hp
  · split at hp
    · cases hp
    · cases hp
      exact h.split hs
  · split at hp <;> cases hp <;> exact hs

theorem loop (h : PlayRule P Ok) {q e : Nat} (hs : P s) (he : Ok s e)
    (hp : s.playLoop q e ans = some p) : P p.1 := by
  induction ans generalizing s e with
  | nil => cases hp
  | cons a rest ih =>
    obtain ⟨hc,hok⟩ := h.cursor (q := q) hs he
    have hplay := h.play (c := a.created) hc hok
    unfold playLoop at hp
    dsimp only at hp
    split at hp
    · cases hp; exact hplay
    · split at hp
      · cases hp; exact hplay
      · split at hp
        · cases hp; exact hplay
        · rename_i hg
          exact ih hplay (h.got hplay hg) hp

theorem entry (h : PlayRule P Ok) {q e : Nat} (hs : P s) (he : Ok s e)
    (hp : s.playEntry q e ans = some p) : P p.1 := by
  unfold playEntry at hp
  split at hp
  · exact h.loop hs he hp
  · cases ans with
    | nil => cases hp
    | cons a rest =>
      have hstop : P (s.stopCursor q) ∧ Ok (s.stopCursor q) e := by
        unfold stopCursor
        split
        · exact ⟨hs,he⟩
        · exact ⟨(h.stop hs).1,(h.stop hs).2 e he⟩
      obtain ⟨hc,hok⟩ := h.cursor (q := q) hstop.1 hstop.2
      have hplay := h.play (c := a.created) hc hok
      dsimp only at hp
      split at hp <;> cases hp <;> exact hplay

theorem qPlay (h : PlayRule P Ok) {q rnd : Nat} {e : Option Nat} (hs : P s)
    (he : ∀ y, e = some y → Ok s y) (hp : s.qPlay q e rnd ans = some p) : P p.1 := by
  cases e with
  | some e => exact h.entry hs (he e rfl) hp
  | none =>
    unfold QueueMgr.qPlay at hp
    dsimp only at hp
    split at hp
    · cases hp
    · rename_i s1 i hi
      have h1 : P s1 := h.getIndex hs hi
      split at hp
      · cases hp; exact h1
      · rename_i e hg
        exact h.entry h1 (h.got h1 hg) hp

theorem from_ (h : PlayRule P Ok) {f : QueueMgr → Nat → QueueMgr × Int} {q rnd : Nat}
    (hindex : ∀ c, P (f s c).1) (hs : P s) (hp : playFrom f s q rnd ans = some p) :
    P p.1 := by
  unfold playFrom at hp
  split at hp
  · exact h.qPlay hs (by simp) hp
  · rename_i c hc
    dsimp only at hp
    have hlook : P (if (s.ent c).index ≠ -1 then f s c else (s,(s.queue q).cursorIndex)).1 := by
      split
      · exact hindex c
      · exact hs
    generalize (if (s.ent c).index ≠ -1 then f s c else (s,(s.queue q).cursorIndex)) = l
      at hp hlook
    split at hp
    · cases hp
    · rename_i s1 i hi
      have h1 : P s1 := h.getIndex hlook hi
      split at hp
      · cases hp; exact h1
      · rename_i e hg
        exact h.qPlay h1 (fun y hy => by cases hy; exact h.got h1 hg) hp

theorem next (h : PlayRule P Ok) {q rnd : Nat} (hs : P s) (hp : s.qPlayNext q rnd ans = some p) :
    P p.1 :=
  h.from_ (f := fun s c => ((s.qeIndex c).1,(s.qeIndex c).2 + 1)) (fun _ => h.index hs) hs hp

theorem prev (h : PlayRule P Ok) {q rnd : Nat} (hs : P s) (hp : s.qPlayPrev q rnd ans = some p) :
    P p.1 :=
  h.from_ (f := fun s c => (s,(s.ent c).index - 1)) (fun _ => hs) hs hp

/-- `qe_close()` keeps what its parts keep. -/
theorem close (h : PlayRule P Ok) {s' : QueueMgr} {t : Nat} {fstop : Bool} {tags : Meta} {rnd : Nat}
    (hs : P (s.closing t tags)) (hclose : s.qeClose t fstop tags rnd ans = some s') :
    ∃ u, P u ∧ s' = u.qeUnref (s.trk t).qent := by
  rw [qeClose_eq] at hclose
  dsimp only at hclose
  split at hclose
  · obtain ⟨p,hp,rfl⟩ := Option.map_eq_some_iff.mp hclose
    exact ⟨p.1,h.next hs hp,rfl⟩
  · cases hclose
    exact ⟨_,hs,rfl⟩

end PlayRule

end QueueMgr

end Phiola
