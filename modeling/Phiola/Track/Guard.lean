import Phiola.Track.Lifetime
import Phiola.Track.Pairing

/-!
# A guard near the start of the chain

A queue puts a filter of its own, the guard, behind an optional first filter. As long as the
filters before it open and pass control on, every started track comes to open the guard, so its
`close()` runs exactly once before the track is freed.
-/

namespace Phiola

/-- `PHI_DATA`, `PHI_OK`, `PHI_DONE` and `PHI_LASTOUT` move the conveyor forward. -/
def PhiR.passesOn : PhiR → Bool
  | .data | .ok | .done | .lastout => true
  | _ => false

/-- How often the log says that filter `g` was closed. -/
def Event.closes (g : Nat) (log : List Event) : Nat :=
  log.countP fun e => match e with
    | .close f _ => f = g
    | _ => false

namespace Event

theorem closes_append (g : Nat) (l₁ l₂ : List Event) :
    closes g (l₁ ++ l₂) = closes g l₁ + closes g l₂ := List.countP_append

theorem closes_eq_zero {g : Nat} {l : List Event} (h : ∀ o, .close g o ∉ l) : closes g l = 0 := by
  rw [closes, List.countP_eq_zero]
  intro e he
  cases e with
  | close f o =>
    have hne : f ≠ g := by rintro rfl; exact h o he
    simpa using hne
  | _ => simp

end Event

namespace PhiTrack

open Event (closes closes_append closes_eq_zero)

theorem Unclosed.closes {t : PhiTrack} (h : t.Unclosed) (g : Nat) : Event.closes g t.log = 0 :=
  closes_eq_zero (h.log.noClose g)

/-- Closing the pool closes filter `g` once if it has an instance. -/
theorem conveyorClose_closes {t : PhiTrack} {g : Nat} (hg : g < maxFilters)
    (hclose : (t.conveyor.filtersPool g).iface.hasClose = true) :
    Event.closes g t.conveyorClose.log =
      Event.closes g t.log + if (t.obj g).isSome then 1 else 0 := by
  rw [(conveyorClose_spec t).1, closes_append]
  congr 1
  have hwalk : ∀ l : List Nat, l.Nodup → Event.closes g (l.filterMap t.closeEvent) =
      if g ∈ l ∧ (t.obj g).isSome then 1 else 0 := by
    intro l
    induction l with
    | nil => intro _; rfl
    | cons i l ih =>
      intro hn
      obtain ⟨hi,hl⟩ := List.nodup_cons.mp hn
      have hhead : closes g (t.closeEvent i).toList =
          if i = g ∧ (t.obj g).isSome then 1 else 0 := by
        by_cases hig : i = g
        · subst hig
          unfold closeEvent
          rw [if_pos hclose]
          cases t.obj i <;> simp [Event.closes]
        · rw [if_neg fun h => hig h.1]
          unfold closeEvent
          split
          · cases t.obj i <;> simp [Event.closes,hig]
          · rfl
      have hsplit : (i :: l).filterMap t.closeEvent =
          (t.closeEvent i).toList ++ l.filterMap t.closeEvent := by
        rw [List.filterMap_cons]
        cases t.closeEvent i <;> rfl
      rw [hsplit, closes_append, hhead, ih hl]
      by_cases hig : i = g
      · subst hig
        simp [hi]
      · have hgi : g ≠ i := Ne.symm hig
        simp [hig,hgi]
  rw [hwalk _ (List.nodup_reverse.mpr List.nodup_range)]
  simp [hg]

/-- The conveyor stands at filter `g` or before it, `g` is not open and no filter on the way to it
sends control back. -/
def Due (g : Nat) (t : PhiTrack) : Prop :=
  t.obj g = none ∧ ∃ F l R, t.conveyor.filters = F ++ (l ++ g :: R) ∧ t.conveyor.cur = F.length ∧
    ∀ x ∈ l ++ [g], (t.conveyor.filtersPool x).backwardSkip = false

/-- Until filter `g` is opened, each filter that is called opens, and those before `g` pass control
on, at once or after they were woken up. -/
def PassesOn (g : Nat) (t : PhiTrack) (b : Behaviour) : Prop :=
  t.obj g = none → (∃ i, b.openRet = .obj i) ∧
    (t.current ≠ g → b.ret.passesOn = true ∨ b.ret = .async)

theorem HandleSpec.iface {t : PhiTrack} {f : Nat} {F R : List Nat} {r : PhiR}
    {h : PhiTrack × PhiR} (hs : HandleSpec t f F R r h) (g : Nat) :
    (h.1.conveyor.filtersPool g).iface = (t.conveyor.filtersPool g).iface := by
  have hset : ((t.conveyor.setFilter f { t.conveyor.filtersPool f with
      backwardSkip := true }).filtersPool g).iface = (t.conveyor.filtersPool g).iface := by
    by_cases he : g = f
    · subst he; simp
    · rw [Conveyor.setFilter_pool_of_ne _ _ he]
  cases hs with
  | okFwd | okLast => exact hset
  | _ => rfl

/-- A result that passes control on leads to the next filter of the chain. -/
theorem HandleSpec.passes {t : PhiTrack} {f : Nat} {F R : List Nat} {r : PhiR}
    {h : PhiTrack × PhiR} (hs : HandleSpec t f F R r h) (hat : t.conveyor.At F f R)
    (hr : r.passesOn = true) (hR : R ≠ []) :
    h.2 = .data ∧ (∃ F', h.1.conveyor.filters = F' ++ R ∧ h.1.conveyor.cur = F'.length) ∧
      ∀ x, x ≠ f → h.1.conveyor.filtersPool x = t.conveyor.filtersPool x := by
  cases hs with
  | doneFwd g R' he =>
    subst he
    exact ⟨rfl, ⟨F, rfl, rfl⟩, fun _ _ => rfl⟩
  | lastoutFwd g R' he =>
    subst he
    exact ⟨rfl, ⟨[], rfl, rfl⟩, fun _ _ => rfl⟩
  | okFwd g R' he =>
    subst he
    refine ⟨rfl, ⟨F ++ [f], ?_, ?_⟩, fun x hx => Conveyor.setFilter_pool_of_ne _ _ hx⟩
    · simpa using hat.filters
    · simp
  | dataFwd g R' he =>
    subst he
    refine ⟨rfl, ⟨F ++ [f], ?_, ?_⟩, fun _ _ => rfl⟩
    · simpa using hat.filters
    · simp
  | doneLast F' g hF he => exact absurd he hR
  | doneFin hF he => exact absurd he hR
  | lastoutFin he => exact absurd he hR
  | okLast he => exact absurd he hR
  | dataLast he => exact absurd he hR
  | backFirst r hb hF => rcases hb with rfl | rfl <;> cases hr
  | backPrev r hb F' g hF => rcases hb with rfl | rfl <;> cases hr
  | halt r hb => rcases hb with rfl | rfl | rfl <;> cases hr

theorem turn_iface {t : PhiTrack} {F R : List Nat} {f g : Nat} (b : Behaviour)
    (hok : t.conveyor.Ok) (hat : t.conveyor.At F f R) (hg : g < t.conveyor.iFpool) :
    ((t.turn b).1.conveyor.filtersPool g).iface = (t.conveyor.filtersPool g).iface := by
  obtain ⟨p,x,a,c,hp,hrun,hgrow,hh⟩ := turn_halves b hok hat
  rw [turn_conveyor, current_eq hat, hp, hh.iface]
  have hset (y : Filter) (hy : y.iface = (t.conveyor.filtersPool f).iface) :
      ((t.conveyor.setFilter f y).filtersPool g).iface = (t.conveyor.filtersPool g).iface := by
    by_cases he : g = f
    · subst he; simpa using hy
    · rw [Conveyor.setFilter_pool_of_ne _ _ he]
  cases hrun with
  | skip hm hF =>
    simp only [updConveyor_conveyor, loopTop_conveyor]
    exact hset _ rfl
  | refused t' r a' c' hnone hopen hret hgrow' =>
    simp only [loopTop_conveyor] at hgrow'
    rw [hgrow'.old g (.inl hg)]
    exact hset _ rfl
  | called t' o es a' c' hobj hdue hgrow' =>
    simp only [loopTop_conveyor] at hgrow'
    rw [hgrow'.old g (.inl hg)]
    exact hset _ rfl

theorem turn_obj {t : PhiTrack} {F R : List Nat} {f g : Nat} (b : Behaviour)
    (hok : t.conveyor.Ok) (hat : t.conveyor.At F f R) (h : t.Unclosed)
    (hobj : (t.obj g).isSome) : ((t.turn b).1.obj g).isSome := by
  obtain ⟨es,hlog,_⟩ := turn_process b hok hat
  rw [(turn_unclosed b hok hat h).obj, hlog, Event.openedObj_append, ← h.obj]
  obtain ⟨o,ho⟩ := Option.isSome_iff_exists.mp hobj
  rw [ho]
  rfl

/-- A filter that is called and opens when it must has an instance then. -/
theorem turn_called {t : PhiTrack} {F R : List Nat} {f : Nat} {b : Behaviour}
    (hok : t.conveyor.Ok) (hat : t.conveyor.At F f R)
    (hmark : (t.conveyor.filtersPool f).backwardSkip = false) (hopen : ∃ i, b.openRet = .obj i) :
    ∃ p o a c, (t.conveyor.setFilter f ⟨(t.conveyor.filtersPool f).iface, some o, false⟩).Grows
        p.conveyor F f R a c ∧ HandleSpec p f (F ++ a) (c ++ R) b.ret (p.trkFilterHandleResult f b.ret) ∧
      (t.turn b).1.conveyor = (p.trkFilterHandleResult f b.ret).1.conveyor ∧
      (t.turn b).2 = (p.trkFilterHandleResult f b.ret).2 := by
  obtain ⟨p,_,_,_,hp,hrun,_,_⟩ := turn_halves b hok hat
  rw [turn_conveyor, turn_result, current_eq hat, hp]
  obtain ⟨i,hi⟩ := hopen
  cases hrun with
  | skip hm hF =>
    rw [loopTop_conveyor, hmark] at hm
    cases hm
  | refused t' r a c hnone hop hret hgrow =>
    rcases hret with ⟨he,_⟩ | ⟨he,_⟩ <;> rw [hi] at he <;> cases he
  | called t' o es a c hob hdue hgrow =>
    simp only [loopTop_conveyor] at hgrow
    exact ⟨t', o, a, c, hgrow, trkFilterHandleResult_spec _ hgrow.at', rfl, rfl⟩

/-- One turn on the way to filter `g` opens it, comes a filter closer or waits. -/
theorem turn_towards {t : PhiTrack} {g : Nat} {b : Behaviour} (hok : t.conveyor.Ok)
    (hg : g < t.conveyor.iFpool) (h : Due g t) (hb : PassesOn g t b) :
    ((t.turn b).1.obj g).isSome ∨
      ((t.turn b).2 = .data ∨ (t.turn b).2 = .async) ∧ Due g (t.turn b).1 := by
  obtain ⟨hnone,F,l,R,hfilters,hcur,hnew⟩ := h
  obtain ⟨hopen,hret⟩ := hb hnone
  cases l with
  | nil =>
    have hat : t.conveyor.At F g R := ⟨hfilters, hcur⟩
    have hmark := hnew g (by simp)
    obtain ⟨p,o,a,c,hgrow,hh,hconv,_⟩ := turn_called hok hat hmark hopen
    left
    have hset : (p.conveyor.filtersPool g).obj = some o := by
      rw [hgrow.old g (.inl hg)]
      simp
    have hkeep := hh.obj g
    simp only [obj] at hkeep ⊢
    rw [hconv, hkeep, hset]
    rfl
  | cons f l =>
    have hat : t.conveyor.At F f (l ++ g :: R) := ⟨hfilters, hcur⟩
    have hn : (F ++ f :: (l ++ g :: R)).Nodup := hfilters ▸ hok.nodup
    have hfl : f ∉ l ++ g :: R := (List.nodup_cons.mp (List.nodup_append.mp hn).2.1).1
    have hgf : g ≠ f := by
      rintro rfl
      exact hfl (by simp)
    obtain ⟨p,o,a,c,hgrow,hh,hconv,hres⟩ := turn_called hok hat (hnew f (by simp)) hopen
    have hobj : p.obj g = none := by
      have hold := hgrow.old g (.inl hg)
      rw [Conveyor.setFilter_pool_of_ne _ _ hgf] at hold
      simpa only [obj, hold] using hnone
    have hmark : ∀ x ∈ c ++ (l ++ [g]), x ≠ f ∧ (p.conveyor.filtersPool x).backwardSkip = false := by
      intro x hx
      have hf : f < t.conveyor.iFpool := hok.mem f (by simp [hfilters])
      rcases List.mem_append.mp hx with hc | hl
      · have hrange := hgrow.fresh x (List.mem_append_right a hc)
        have hle : t.conveyor.iFpool ≤ x := hrange.1
        exact ⟨by omega, (hgrow.new x hrange.1 hrange.2).2⟩
      · have hmem : x ∈ l ++ g :: R := by
          simp only [List.mem_append, List.mem_cons] at hl ⊢
          tauto
        have hxf : x ≠ f := by
          rintro rfl
          exact hfl hmem
        have hxl : x < t.conveyor.iFpool := by
          apply hok.mem
          rw [hfilters]
          exact List.mem_append_right F (List.mem_cons_of_mem f hmem)
        have hold := hgrow.old x (.inl hxl)
        rw [Conveyor.setFilter_pool_of_ne _ _ hxf] at hold
        rw [hold]
        exact ⟨hxf, hnew x (List.mem_cons_of_mem f hl)⟩
    right
    rcases hret (by rw [current_eq hat]; exact hgf.symm) with hpass | hwait
    · obtain ⟨hdata,⟨F',hfilters',hcur'⟩,hpool⟩ := hh.passes hgrow.at' hpass (by simp)
      refine ⟨.inl (hres.trans hdata), ?_, F', c ++ l, R, ?_, ?_, ?_⟩
      · simp only [obj] at hobj ⊢
        rw [hconv, hpool g hgf, hobj]
      · rw [hconv, hfilters', List.append_assoc]
      · rw [hconv, hcur']
      · intro x hx
        obtain ⟨hxf,hx'⟩ := hmark x (by simpa using hx)
        rw [hconv, hpool x hxf]
        exact hx'
    · have hstay : p.trkFilterHandleResult f b.ret = (p,.async) := by
        rw [hwait]
        rfl
      rw [hstay] at hconv hres
      refine ⟨.inr hres, ?_, F ++ a, f :: (c ++ l), R, ?_, ?_, ?_⟩
      · simp only [obj] at hobj ⊢
        rw [hconv, hobj]
      · rw [hconv, hgrow.at'.filters]
        simp
      · rw [hconv, hgrow.at'.cur]
      · intro x hx
        rw [hconv]
        rcases List.mem_cons.mp hx with rfl | hx
        · rw [hgrow.old x (.inl (hok.mem x (by simp [hfilters])))]
          simp
        · exact (hmark x (by simpa using hx)).2

end PhiTrack

namespace TrackRun

open PhiTrack (Due PassesOn)
open Event (closes)

/-- A started track whose chain has the guard `g`: the guard is still due, or it is open, or it was
closed once. -/
structure Guarded (g : Nat) (s : TrackRun) : Prop where
  inv : Inv s
  paired : Paired s
  lt : g < s.t.conveyor.iFpool
  close : (s.t.conveyor.filtersPool g).iface.hasClose = true
  started : s.pc ≠ .created
  live : s.pc.isOpen → s.t.state ≠ .finished
  stage : (s.pc = .idle ∨ s.pc = .loop) ∧ Due g s.t ∨ (s.t.obj g).isSome ∨
    s.t.Closed ∧ closes g s.t.log = 1

variable {g : Nat} {s s' : TrackRun} {a : Act}

/-- The guard is closed at most once, and it is closed when the track is freed. -/
theorem Guarded.closes_eq (h : Guarded g s) :
    closes g s.t.log = 0 ∧ s.t.Unclosed ∧ s.pc ≠ .freed ∨ closes g s.t.log = 1 ∧ s.t.Closed := by
  rcases h.stage with ⟨hpc,_⟩ | hobj | ⟨hc,hone⟩
  · left
    have hu := h.paired.running (by rcases hpc with hpc | hpc <;> rw [hpc] <;> trivial)
    refine ⟨hu.closes g, hu, ?_⟩
    rcases hpc with hpc | hpc <;> rw [hpc] <;> decide
  · left
    have hnot : ¬ s.t.Closed := fun hc => by rw [hc.obj] at hobj; cases hobj
    have hu := h.paired.state.resolve_right hnot
    exact ⟨hu.closes g, hu, fun hf => hnot (h.paired.freed hf)⟩
  · exact .inr ⟨hone, hc⟩

theorem Guarded.conveyorClose (h : Guarded g s) (hpc : s.pc ≠ .idle ∧ s.pc ≠ .loop) {t : PhiTrack}
    (hpool : t.conveyor = s.t.conveyor) (hlog : t.log = s.t.log) :
    closes g t.conveyorClose.log = 1 := by
  have hg : g < maxFilters := Nat.lt_of_lt_of_le h.lt h.inv.count.2
  have hobj : t.obj g = s.t.obj g := by rw [PhiTrack.obj, PhiTrack.obj, hpool]
  rw [PhiTrack.conveyorClose_closes hg (by rw [hpool]; exact h.close), hlog, hobj]
  rcases h.stage with ⟨hp,_⟩ | hsome | ⟨hc,hone⟩
  · rcases hp with hp | hp
    · exact absurd hp hpc.1
    · exact absurd hp hpc.2
  · rcases h.closes_eq with ⟨hzero,_⟩ | ⟨_,hc⟩
    · rw [hzero, if_pos hsome]
    · rw [hc.obj] at hsome
      cases hsome
  · rw [hone, hc.obj]
    rfl

theorem Guarded.of_close (h : Guarded g s) {pc : Pc} {t : PhiTrack}
    (hinv : Inv ⟨t.conveyorClose, pc⟩) (hpaired : Paired ⟨t.conveyorClose, pc⟩)
    (hpc : s.pc ≠ .idle ∧ s.pc ≠ .loop) (hpool : t.conveyor = s.t.conveyor)
    (hlog : t.log = s.t.log) (hnew : pc = .finished ∨ pc = .freed) :
    Guarded g ⟨t.conveyorClose, pc⟩ := by
  have hkeep := PhiTrack.conveyorClose_keeps t
  have hclosed : t.conveyorClose.Closed := by
    rcases h.paired.state with hu | hc
    · have hu' : t.Unclosed := hu.congr hlog (by rw [hpool]) (by rw [hpool])
      exact hu'.close (by rw [hpool]; exact h.inv.count.2)
    · apply PhiTrack.Closed.close
      refine ⟨fun f => ?_, by rw [hlog, hpool]; exact hc.log⟩
      simpa only [PhiTrack.obj, hpool] using hc.obj f
  refine ⟨hinv,hpaired,?_,?_,?_,?_,.inr (.inr ⟨hclosed, h.conveyorClose hpc hpool hlog⟩)⟩
  · show g < t.conveyorClose.conveyor.iFpool
    rw [hkeep.1, hpool]
    exact h.lt
  · show (t.conveyorClose.conveyor.filtersPool g).iface.hasClose = true
    rw [PhiTrack.conveyorClose_iface, hpool]
    exact h.close
  · rcases hnew with rfl | rfl <;> exact fun h => by cases h
  · intro ho
    rcases hnew with rfl | rfl <;> exact absurd ho (by simp [Pc.isOpen])

theorem step_guarded (h : Guarded g s) (hb : ∀ b, a = .turn b → PassesOn g s.t b)
    (hs : s.step a = some s') : Guarded g s' := by
  obtain ⟨hinv,hpaired⟩ := step_paired s a s' ⟨h.inv,h.paired⟩ hs
  cases a with
  | start =>
    simp only [step,Option.ite_none_right_eq_some] at hs
    exact absurd hs.1 h.started
  | discard =>
    simp only [step,Option.ite_none_right_eq_some] at hs
    exact absurd hs.1 h.started
  | enter =>
    simp only [step,Option.ite_none_right_eq_some,Option.some.injEq] at hs
    obtain ⟨hpc,rfl⟩ := hs
    refine ⟨hinv,hpaired,h.lt,h.close,?_,?_,?_⟩
    · dsimp only
      split <;> decide
    · dsimp only
      split
      · intro ho; exact absurd ho (by simp [Pc.isOpen])
      · rename_i hst
        exact fun _ => hst
    · rcases h.stage with ⟨hp,hdue⟩ | hrest
      · left
        refine ⟨?_, hdue⟩
        have hst : s.t.state ≠ .finished :=
          h.live (by rcases hp with hp | hp <;> rw [hp] <;> trivial)
        right
        exact if_neg hst
      · exact .inr hrest
  | turn b =>
    simp only [step,Option.ite_none_right_eq_some,Option.some.injEq] at hs
    obtain ⟨hpc,rfl⟩ := hs
    have hopen : s.pc.isOpen := by rw [hpc]; trivial
    obtain ⟨F,f,R,hat⟩ := h.inv.here (.inr hpc)
    have hok := h.inv.ok hopen
    obtain ⟨_,hlater,_⟩ := PhiTrack.turn_chain b hok hat
    have hlt : g < (s.t.turn b).1.conveyor.iFpool := Nat.lt_of_lt_of_le h.lt hlater.le
    refine ⟨hinv,hpaired,hlt,?_,?_,?_,?_⟩
    · show ((s.t.turn b).1.conveyor.filtersPool g).iface.hasClose = true
      rw [PhiTrack.turn_iface b hok hat h.lt]
      exact h.close
    · show afterTurn (s.t.turn b).2 ≠ .created
      cases (s.t.turn b).2 <;> decide
    · intro _
      show (s.t.turn b).1.state ≠ .finished
      rw [PhiTrack.turn_state]
      split
      · decide
      · exact h.live hopen
    · rcases h.stage with ⟨_,hdue⟩ | hobj | ⟨hc,hone⟩
      · rcases PhiTrack.turn_towards hok h.lt hdue (hb b rfl) with hobj | ⟨hdata | hwait,hdue'⟩
        · exact .inr (.inl hobj)
        · exact .inl ⟨.inr (by show afterTurn _ = _; rw [hdata]; rfl), hdue'⟩
        · exact .inl ⟨.inl (by show afterTurn _ = _; rw [hwait]; rfl), hdue'⟩
      · exact .inr (.inl (PhiTrack.turn_obj b hok hat (h.paired.running hopen) hobj))
      · have hu := h.paired.running hopen
        have hzero := hu.closes g
        omega
  | fin =>
    simp only [step,Option.ite_none_right_eq_some,Option.some.injEq] at hs
    obtain ⟨hpc,rfl⟩ := hs
    unfold fin at hinv hpaired ⊢
    split at hinv
    · rename_i hst
      rw [if_pos hst] at hpaired ⊢
      exact h.of_close hinv hpaired (by rw [hpc]; decide) rfl rfl (.inl rfl)
    · rename_i hst
      rw [if_neg hst] at hpaired ⊢
      refine ⟨hinv,hpaired,h.lt,h.close,(fun h => by cases h),
        fun ho => absurd ho (by simp [Pc.isOpen]),?_⟩
      rcases h.stage with ⟨hp,_⟩ | hrest
      · rcases hp with hp | hp <;> rw [hpc] at hp <;> cases hp
      · exact .inr hrest
  | delTask =>
    simp only [step,Option.ite_none_right_eq_some,Option.some.injEq] at hs
    obtain ⟨hpc,rfl⟩ := hs
    refine ⟨hinv,hpaired,h.lt,h.close,(fun h => by cases h),
      fun ho => absurd ho (by simp [Pc.isOpen]),?_⟩
    rcases h.stage with ⟨hp,_⟩ | hrest
    · rcases hp with hp | hp <;> rw [hpc] at hp <;> cases hp
    · exact .inr hrest
  | free =>
    simp only [step,Option.ite_none_right_eq_some,Option.some.injEq] at hs
    obtain ⟨hpc,rfl⟩ := hs
    exact h.of_close hinv hpaired (by rw [hpc]; decide) rfl rfl (.inr rfl)
  | stop =>
    simp only [step,Option.ite_none_left_eq_some,Option.some.injEq] at hs
    obtain ⟨hpc,rfl⟩ := hs
    refine ⟨hinv,hpaired,by simpa using h.lt,by simpa using h.close,h.started,?_,?_⟩
    · intro ho
      show (stop s.t).state ≠ .finished
      unfold stop
      split
      · exact fun h => by cases h
      · exact h.live ho
    · rcases h.stage with ⟨hp,hdue⟩ | hobj | ⟨hc,hone⟩
      · exact .inl ⟨hp, by simpa [Due,PhiTrack.obj] using hdue⟩
      · exact .inr (.inl (by simpa [PhiTrack.obj] using hobj))
      · refine .inr (.inr ⟨⟨fun f => ?_, by simpa using hc.log⟩, by simpa using hone⟩)
        simpa [PhiTrack.obj] using hc.obj f

theorem Guarded.closes_le (h : Guarded g s) (hs : s.step a = some s') :
    closes g s.t.log ≤ closes g s'.t.log := by
  have hclose (t : PhiTrack) (ht : t.log = s.t.log) :
      closes g s.t.log ≤ closes g t.conveyorClose.log := by
    rw [(PhiTrack.conveyorClose_spec t).1, ht, Event.closes_append]
    exact Nat.le_add_right _ _
  cases a with
  | turn b =>
    simp only [step,Option.ite_none_right_eq_some,Option.some.injEq] at hs
    obtain ⟨hpc,rfl⟩ := hs
    obtain ⟨F,f,R,hat⟩ := h.inv.here (.inr hpc)
    obtain ⟨es,hlog,_⟩ := PhiTrack.turn_process b (h.inv.ok (by rw [hpc]; trivial)) hat
    show _ ≤ closes g (s.t.turn b).1.log
    rw [hlog, Event.closes_append]
    exact Nat.le_add_right _ _
  | fin =>
    simp only [step,Option.ite_none_right_eq_some,Option.some.injEq] at hs
    obtain ⟨hpc,rfl⟩ := hs
    unfold fin
    split
    · exact hclose _ rfl
    · exact Nat.le_refl _
  | free =>
    simp only [step,Option.ite_none_right_eq_some,Option.some.injEq] at hs
    obtain ⟨hpc,rfl⟩ := hs
    exact hclose _ rfl
  | start =>
    simp only [step,Option.ite_none_right_eq_some] at hs
    exact absurd hs.1 h.started
  | stop =>
    simp only [step,Option.ite_none_left_eq_some,Option.some.injEq] at hs
    obtain ⟨-,rfl⟩ := hs
    show _ ≤ closes g (stop s.t).log
    exact Nat.le_of_eq (by rw [stop_log])
  | _ =>
    simp only [step,Option.ite_none_right_eq_some,Option.some.injEq] at hs
    obtain ⟨-,rfl⟩ := hs
    exact Nat.le_refl _

/-- Filters that are added before the start go to the end of the chain. -/
theorem addAll_append {v : Conveyor} (hcur : v.cur = -1) (ifs : List PhiFilter) :
    ∃ l, (v.addAll (ifs.map fun i => (some i,.next))).filters = v.filters ++ l ∧
      v.iFpool ≤ (v.addAll (ifs.map fun i => (some i,.next))).iFpool ∧
      ∀ x < v.iFpool, (v.addAll (ifs.map fun i => (some i,.next))).filtersPool x = v.filtersPool x := by
  induction ifs generalizing v with
  | nil => exact ⟨[],by simp,Nat.le_refl _,fun _ _ => rfl⟩
  | cons i ifs ih =>
    rw [List.map_cons, Conveyor.addAll_cons]
    by_cases hmax : v.iFpool = maxFilters
    · have hv : (v.trackFilter (some i) .next).1 = v := by
        simp [Conveyor.trackFilter,Conveyor.trkFilterAdd,hmax]
      rw [hv]
      exact ih hcur
    · have hv : (v.trackFilter (some i) .next).1 = { v with
          filtersPool := Function.update v.filtersPool v.iFpool ⟨i,none,false⟩
          iFpool := v.iFpool + 1
          filters := v.filters ++ [v.iFpool] } := by
        simp [Conveyor.trackFilter,Conveyor.trkFilterAdd,hmax,hcur]
      rw [hv]
      obtain ⟨l,hl,hle,hpool⟩ := ih (v := { v with
          filtersPool := Function.update v.filtersPool v.iFpool ⟨i,none,false⟩
          iFpool := v.iFpool + 1
          filters := v.filters ++ [v.iFpool] }) hcur
      refine ⟨v.iFpool :: l, ?_, Nat.le_of_succ_le hle, fun x hx => ?_⟩
      · rw [hl]
        simp
      · rw [hpool x (Nat.lt_succ_of_lt hx)]
        exact Function.update_of_ne (Nat.ne_of_lt hx) _ _

/-- A track with the guard behind an optional first filter, after `track_start()`. -/
theorem create_guarded (first : Option PhiFilter) (guard : PhiFilter) (rest : List PhiFilter)
    (hclose : guard.hasClose = true) :
    Guarded first.toList.length (create (first.toList ++ guard :: rest)).start := by
  have hsplit : (first.toList ++ guard :: rest).map (fun i => (some i,FilterPos.next)) =
      (first.toList ++ [guard]).map (fun i => (some i,.next)) ++
        rest.map (fun i => (some i,.next)) := by simp
  have hadd : ∀ xs ys : List (Option PhiFilter × FilterPos),
      Conveyor.init.addAll (xs ++ ys) = (Conveyor.init.addAll xs).addAll ys := by
    intro xs ys
    simp [Conveyor.addAll]
  obtain ⟨v,hv⟩ : ∃ v, v = Conveyor.init.addAll
    ((first.toList ++ [guard]).map fun i => (some i,.next)) := ⟨_,rfl⟩
  have hv' : v.cur = -1 ∧ v.iFpool = first.toList.length + 1 ∧
      v.filters = List.range (first.toList.length + 1) ∧
      (v.filtersPool first.toList.length).iface = guard := by
    rw [hv]
    cases first <;> exact ⟨rfl,rfl,rfl,rfl⟩
  obtain ⟨hcur,hpool,hfilters,hguard⟩ := hv'
  obtain ⟨l,hl,hle,hsame⟩ := addAll_append hcur rest
  have hconv : (create (first.toList ++ guard :: rest)).t.conveyor =
      v.addAll (rest.map fun i => (some i,.next)) := by
    rw [hv, ← hadd, ← hsplit]
    rfl
  have hinv := create_inv (first.toList ++ guard :: rest)
  have hpaired := create_paired (first.toList ++ guard :: rest)
  have hfresh := ((create_marked (first.toList ++ guard :: rest)).created rfl).1
  obtain ⟨c,hc⟩ : ∃ c, c = create (first.toList ++ guard :: rest) := ⟨_,rfl⟩
  have hcpc : c.pc = .created := by rw [hc]; rfl
  have hstate : c.t.state = .running := by rw [hc]; rfl
  rw [← hc] at hconv hinv hpaired hfresh ⊢
  have hlist : c.t.conveyor.filters = List.range first.toList.length ++
      first.toList.length :: l := by
    rw [hconv, hl, hfilters, List.range_succ]
    simp
  have hstart : c.start = ⟨c.t.updConveyor { c.t.conveyor with cur := 0 }, .idle⟩ := by
    apply if_neg
    rw [hlist]
    simp
  have hstep : c.step .start = some c.start := if_pos hcpc
  obtain ⟨hinv',hpaired'⟩ := step_paired c .start c.start ⟨hinv,hpaired⟩ hstep
  rw [hstart] at hinv' hpaired' ⊢
  refine ⟨hinv',hpaired',?_,?_,(fun h => by cases h),fun _ => ?_,
    .inl ⟨.inl rfl,(hfresh _).1,[],_,l,hlist,rfl,fun x _ => (hfresh x).2⟩⟩
  · show first.toList.length < c.t.conveyor.iFpool
    rw [hconv]
    omega
  · show (c.t.conveyor.filtersPool first.toList.length).iface.hasClose = true
    rw [hconv, hsame _ (by omega), hguard]
    exact hclose
  · show c.t.state ≠ .finished
    rw [hstate]
    exact fun h => by cases h

theorem create_start_log (ifs : List PhiFilter) : (create ifs).start.t.log = [] := by
  unfold start
  split <;> rfl

end TrackRun

end Phiola
