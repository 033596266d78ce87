import Phiola.Track.Handover

/-!
# Opening and closing filters

Filters leave the active list long before they are closed, so the pairing is an invariant of the
pool: an entry holds an instance exactly when the log says that it was opened, until
`conveyor_close()` walks over the pool.
-/

namespace Phiola

namespace Event

/-- The instance that the log says filter `f` has got. -/
def openedObj (f : Nat) (log : List Event) : Option Obj :=
  log.findSome? fun e => match e with
    | .opened g o => if g = f then some o else none
    | _ => none

def openedId : Event → Option Nat
  | .opened f _ => some f
  | _ => none

theorem openedObj_append (f : Nat) (l₁ l₂ : List Event) :
    openedObj f (l₁ ++ l₂) = (openedObj f l₁).or (openedObj f l₂) := List.findSome?_append

theorem openedObj_eq_none {f : Nat} {l : List Event} (h : ∀ o, .opened f o ∉ l) :
    openedObj f l = none := by
  simp only [openedObj,List.findSome?_eq_none_iff]
  intro e he
  cases e with
  | opened g o =>
    have hne : g ≠ f := by rintro rfl; exact h o he
    simp [hne]
  | _ => rfl

end Event

namespace PhiTrack

open Event (openedObj openedObj_append openedObj_eq_none openedId)

/-- The instance of filter `g`. -/
def obj (t : PhiTrack) (g : Nat) : Option Obj := (t.conveyor.filtersPool g).obj

/-- The log of a chain that is not closed: an instance for each filter that was opened, each
opened once and before it was processed. -/
structure OpenLog (log : List Event) : Prop where
  once : (log.filterMap openedId).Nodup
  processed : ∀ f o d, .process f o d ∈ log → openedObj f log = some o
  noClose : ∀ f o, .close f o ∉ log

/-- A track whose chain is not closed. -/
structure Unclosed (t : PhiTrack) : Prop where
  log : OpenLog t.log
  obj : ∀ f, t.obj f = openedObj f t.log
  known : ∀ f o, .opened f o ∈ t.log → f < t.conveyor.iFpool

/-- What `conveyor_close()` logs for entry `i`. -/
def closeEvent (t : PhiTrack) (i : Nat) : Option Event :=
  if (t.conveyor.filtersPool i).iface.hasClose then (t.obj i).map (.close i) else none

theorem closeFilter_log (t : PhiTrack) (i : Nat) :
    (t.closeFilter i).log = t.log ++ (t.closeEvent i).toList := by
  cases ho : (t.conveyor.filtersPool i).obj with
  | none => simp [closeFilter,closeEvent,obj,ho]
  | some o =>
    by_cases hc : (t.conveyor.filtersPool i).iface.hasClose = true <;>
      simp [closeFilter,closeEvent,obj,ho,hc]

theorem closeFilter_pool (t : PhiTrack) (i g : Nat) : (t.closeFilter i).conveyor.filtersPool g =
    if g = i then { t.conveyor.filtersPool g with obj := none }
    else t.conveyor.filtersPool g := by
  have hset (x : Filter) (hx : x = { t.conveyor.filtersPool i with obj := none }) :
      (t.conveyor.setFilter i x).filtersPool g =
        if g = i then { t.conveyor.filtersPool g with obj := none }
        else t.conveyor.filtersPool g := by
    by_cases hg : g = i
    · subst hg; simp [hx]
    · rw [Conveyor.setFilter_pool_of_ne _ _ hg,if_neg hg]
  cases ho : (t.conveyor.filtersPool i).obj with
  | none =>
    have hsame : ({ t.conveyor.filtersPool i with obj := none } : Filter) =
        t.conveyor.filtersPool i := by rw [← ho]
    by_cases hg : g = i
    · subst hg
      rw [if_pos rfl,hsame]
      simp [closeFilter,ho]
    · simp [closeFilter,ho,hg]
  | some o =>
    by_cases hc : (t.conveyor.filtersPool i).iface.hasClose = true
    · simpa [closeFilter,ho,hc] using hset _ rfl
    · simpa [closeFilter,ho,hc] using hset _ rfl

theorem foldl_closeFilter (l : List Nat) (hn : l.Nodup) (t : PhiTrack) :
    (l.foldl closeFilter t).log = t.log ++ l.filterMap t.closeEvent ∧
      ∀ g, (l.foldl closeFilter t).conveyor.filtersPool g =
        if g ∈ l then { t.conveyor.filtersPool g with obj := none }
        else t.conveyor.filtersPool g := by
  induction l generalizing t with
  | nil => simp
  | cons i l ih =>
    obtain ⟨hi,hl⟩ := List.nodup_cons.mp hn
    obtain ⟨hlog,hpool⟩ := ih hl (t.closeFilter i)
    rw [List.foldl_cons]
    constructor
    · have hsame : l.filterMap (t.closeFilter i).closeEvent = l.filterMap t.closeEvent := by
        refine List.filterMap_congr fun g hg => ?_
        have hne : g ≠ i := by rintro rfl; exact hi hg
        simp [closeEvent,obj,closeFilter_pool,hne]
      rw [hlog,closeFilter_log,hsame,List.append_assoc]
      cases hc : t.closeEvent i <;> simp [hc]
    · intro g
      rw [hpool,closeFilter_pool]
      by_cases hg : g = i
      · subst hg; simp [hi]
      · simp [hg]

/-- The walk of `conveyor_close()` over the pool. -/
theorem conveyorClose_spec (t : PhiTrack) :
    t.conveyorClose.log = t.log ++ (List.range maxFilters).reverse.filterMap t.closeEvent ∧
      ∀ g, t.conveyorClose.conveyor.filtersPool g =
        if g < maxFilters then { t.conveyor.filtersPool g with obj := none }
        else t.conveyor.filtersPool g := by
  have h := foldl_closeFilter (List.range maxFilters).reverse
    (List.nodup_reverse.mpr List.nodup_range) t
  refine ⟨h.1,fun g => ?_⟩
  have hg := h.2 g
  simp only [List.mem_reverse,List.mem_range] at hg
  exact hg

theorem conveyorClose_iface (t : PhiTrack) (g : Nat) :
    (t.conveyorClose.conveyor.filtersPool g).iface = (t.conveyor.filtersPool g).iface := by
  rw [(conveyorClose_spec t).2]
  split <;> rfl

/-- A run of `f` changes the instance of no other filter. -/
theorem obj_grows {t u : PhiTrack} {F R a b : List Nat} {f : Nat} {x : Filter}
    (hg : (t.conveyor.setFilter f x).Grows u.conveyor F f R a b) (hf : f < t.conveyor.iFpool)
    (hnone : ∀ g, t.conveyor.iFpool ≤ g → t.obj g = none) (g : Nat) :
    u.obj g = if g = f then x.obj else t.obj g := by
  by_cases hlt : g < t.conveyor.iFpool ∨ u.conveyor.iFpool ≤ g
  · simp only [obj]
    rw [hg.old g hlt]
    by_cases he : g = f
    · subst he; simp
    · rw [Conveyor.setFilter_pool_of_ne _ _ he,if_neg he]
  · have hle : t.conveyor.iFpool ≤ g := by omega
    rw [if_neg (by omega),hnone g hle]
    exact (hg.new g hle (by omega)).1

theorem HandleSpec.obj {t : PhiTrack} {f : Nat} {F R : List Nat} {r : PhiR}
    {h : PhiTrack × PhiR} (hs : HandleSpec t f F R r h) (g : Nat) : h.1.obj g = t.obj g := by
  have hset : ((t.conveyor.setFilter f { t.conveyor.filtersPool f with
      backwardSkip := true }).filtersPool g).obj = (t.conveyor.filtersPool g).obj := by
    by_cases he : g = f
    · subst he; simp
    · rw [Conveyor.setFilter_pool_of_ne _ _ he]
  cases hs with
  | okFwd | okLast => exact hset
  | _ => rfl

theorem HandleSpec.iFpool {t : PhiTrack} {f : Nat} {F R : List Nat} {r : PhiR}
    {h : PhiTrack × PhiR} (hs : HandleSpec t f F R r h) :
    h.1.conveyor.iFpool = t.conveyor.iFpool := by
  cases hs <;> rfl

theorem Unclosed.above {t : PhiTrack} (h : t.Unclosed) (g : Nat) (hg : t.conveyor.iFpool ≤ g) :
    t.obj g = none := by
  rw [h.obj,openedObj_eq_none]
  exact fun o hm => absurd (h.known g o hm) (by omega)

theorem Unclosed.moved {t t' : PhiTrack} {l : List Event} (h : t.Unclosed)
    (hlog : t'.log = t.log ++ l) (hmv : ∀ e ∈ l, (∃ g d, e = .forward g d) ∨
      ∃ g r d, e = .backward g r d) (hobj : ∀ g, t'.obj g = t.obj g)
    (hle : t.conveyor.iFpool ≤ t'.conveyor.iFpool) : t'.Unclosed := by
  have hno (f : Nat) (o : Obj) : .opened f o ∉ l := fun hm => by
    rcases hmv _ hm with ⟨g,d,he⟩ | ⟨g,r,d,he⟩ <;> cases he
  have hsame (f : Nat) : openedObj f t'.log = openedObj f t.log := by
    rw [hlog,openedObj_append,openedObj_eq_none (hno f),Option.or_none]
  have hids : l.filterMap openedId = [] := by
    refine List.filterMap_eq_nil_iff.mpr fun e he => ?_
    rcases hmv e he with ⟨g,d,rfl⟩ | ⟨g,r,d,rfl⟩ <;> rfl
  refine ⟨⟨?_,?_,?_⟩,fun f => by rw [hobj,hsame,h.obj],?_⟩
  · rw [hlog,List.filterMap_append,hids,List.append_nil]
    exact h.log.once
  · intro f o d hm
    rw [hsame]
    rw [hlog] at hm
    rcases List.mem_append.mp hm with hm | hm
    · exact h.log.processed f o d hm
    · rcases hmv _ hm with ⟨g,d,he⟩ | ⟨g,r,d,he⟩ <;> cases he
  · intro f o hm
    rw [hlog] at hm
    rcases List.mem_append.mp hm with hm | hm
    · exact h.log.noClose f o hm
    · rcases hmv _ hm with ⟨g,d,he⟩ | ⟨g,r,d,he⟩ <;> cases he
  · intro f o hm
    rw [hlog] at hm
    rcases List.mem_append.mp hm with hm | hm
    · exact Nat.lt_of_lt_of_le (h.known f o hm) hle
    · exact absurd hm (hno f o)

/-- The call of `process()` finds the instance that `open()` gave. -/
theorem Unclosed.called {t t' : PhiTrack} {f : Nat} {o : Obj} {es : List Event} {d : Ffstr}
    {r : PhiR} (h : t.Unclosed) (hf : f < t.conveyor.iFpool)
    (hes : t.obj f = some o ∧ es = [] ∨ t.obj f = none ∧ es = [.opened f o])
    (hlog : t'.log = t.log ++ es ++ [Event.process f o d,Event.result f r])
    (hobj : ∀ g, t'.obj g = if g = f then some o else t.obj g)
    (hle : t.conveyor.iFpool ≤ t'.conveyor.iFpool) : t'.Unclosed := by
  have hopened : ∀ g, openedObj g t'.log = if g = f then some o else openedObj g t.log := by
    intro g
    have hpr : openedObj g [.process f o d,.result f r] = none := rfl
    rw [hlog,openedObj_append,openedObj_append,hpr,Option.or_none]
    rcases hes with ⟨ho,rfl⟩ | ⟨ho,rfl⟩
    · by_cases hg : g = f
      · subst hg
        rw [if_pos rfl,← h.obj,ho]
        rfl
      · rw [if_neg hg]
        simp [openedObj]
    · by_cases hg : g = f
      · subst hg
        rw [if_pos rfl,← h.obj,ho]
        simp [openedObj]
      · have hne : f ≠ g := Ne.symm hg
        simp [openedObj,hg,hne]
  have hmem (e : Event) (hm : e ∈ t'.log) : e ∈ t.log ∨ e ∈ es ∨ e = .process f o d ∨
      e = .result f r := by
    rw [hlog] at hm
    simp only [List.mem_append,List.mem_cons,List.not_mem_nil,or_false] at hm
    tauto
  refine ⟨⟨?_,?_,?_⟩,fun g => by rw [hobj,hopened,h.obj],?_⟩
  · have hcall : [.process f o d,.result f r].filterMap openedId = [] := rfl
    have hopen : [.opened f o].filterMap openedId = [f] := rfl
    rw [hlog,List.filterMap_append,List.filterMap_append,hcall,List.append_nil]
    rcases hes with ⟨ho,rfl⟩ | ⟨ho,rfl⟩
    · simpa using h.log.once
    · have hnew : f ∉ t.log.filterMap openedId := by
        intro hm
        obtain ⟨e,he,hid⟩ := List.mem_filterMap.mp hm
        cases e with
        | opened g o' =>
          simp only [openedId,Option.some.injEq] at hid
          subst hid
          rw [h.obj] at ho
          simp only [openedObj,List.findSome?_eq_none_iff] at ho
          simpa using ho _ he
        | _ => simp [openedId] at hid
      rw [hopen,List.nodup_append]
      refine ⟨h.log.once,List.nodup_singleton f,fun a ha c hc he => hnew ?_⟩
      rwa [← List.mem_singleton.mp hc,← he]
  · intro g o' d' hm
    rw [hopened]
    rcases hmem _ hm with hm | hm | hm | hm
    · have hp := h.log.processed g o' d' hm
      by_cases hg : g = f
      · subst hg
        rcases hes with ⟨ho,-⟩ | ⟨ho,-⟩
        · rw [if_pos rfl,← ho,h.obj,hp]
        · rw [h.obj,hp] at ho
          cases ho
      · rw [if_neg hg,hp]
    · rcases hes with ⟨-,rfl⟩ | ⟨-,rfl⟩ <;> simp at hm
    · cases hm
      simp
    · cases hm
  · intro g o' hm
    rcases hmem _ hm with hm | hm | hm | hm
    · exact h.log.noClose g o' hm
    · rcases hes with ⟨-,rfl⟩ | ⟨-,rfl⟩ <;> simp at hm
    · cases hm
    · cases hm
  · intro g o' hm
    rcases hmem _ hm with hm | hm | hm | hm
    · exact Nat.lt_of_lt_of_le (h.known g o' hm) hle
    · rcases hes with ⟨-,rfl⟩ | ⟨-,rfl⟩
      · simp at hm
      · simp only [List.mem_singleton,Event.opened.injEq] at hm
        omega
    · cases hm
    · cases hm

theorem moveEvent_moves (t : PhiTrack) (r : PhiR) : ∀ e ∈ t.moveEvent r,
    (∃ g d, e = .forward g d) ∨ ∃ g r d, e = .backward g r d := by
  cases r <;> simp [moveEvent]

theorem turn_unclosed {t : PhiTrack} {F R : List Nat} {f : Nat} (b : Behaviour)
    (hok : t.conveyor.Ok) (hat : t.conveyor.At F f R) (h : t.Unclosed) :
    (t.turn b).1.Unclosed := by
  have hat' : t.loopTop.conveyor.At F f R := by simpa using hat
  have hf : f < t.loopTop.conveyor.iFpool := by simpa using hok.mem f (by simp [hat.filters])
  have hrun := trkFilterRun_spec b hat' hf
  have h0 : t.loopTop.Unclosed :=
    ⟨by simpa using h.log,by simpa [obj] using h.obj,by simpa using h.known⟩
  have hnone (g : Nat) (hg : t.loopTop.conveyor.iFpool ≤ g) : t.loopTop.obj g = none := h0.above g hg
  -- the two halves of the turn
  have hp : (t.loopTop.trkFilterRun f b).1.Unclosed := by
    generalize t.loopTop.trkFilterRun f b = p at hrun
    cases hrun with
    | skip hm hF =>
      have hg := Conveyor.Grows.refl (hat'.setFilter f
        { t.loopTop.conveyor.filtersPool f with backwardSkip := false })
      refine h0.moved (l := []) (by simp) (by simp) (fun g => ?_) (Nat.le_refl _)
      refine (obj_grows (u := t.loopTop.updConveyor (t.loopTop.conveyor.setFilter f
        { t.loopTop.conveyor.filtersPool f with backwardSkip := false })) hg hf hnone g).trans ?_
      split
      · rename_i he; rw [he]; rfl
      · rfl
    | refused t' r a c hobj hopen hret hg hl =>
      refine h0.moved (l := []) (by simp [hl]) (by simp) (fun g => ?_) hg.le
      rw [obj_grows hg hf hnone]
      split
      · rename_i he; rw [he]; rfl
      · rfl
    | called t' o es a c hobj hdue hg hl =>
      exact h0.called hf hobj hl (fun g => obj_grows hg hf hnone g) hg.le
  obtain ⟨p,x,a,c,he,-,hg,hh⟩ := turn_halves b hok hat
  rw [he] at hp
  refine hp.moved (l := ((p.1.trkFilterHandleResult f p.2).1.handOver (t.turn b).2).moveEvent
    (t.turn b).2) ?_ (moveEvent_moves _ _) ?_ ?_
  · rw [turn_finish,finish_log,current_eq hat,he,hh.log]
  · intro g
    rw [turn_finish,current_eq hat,he,← hh.obj g]
    simp [obj]
  · exact Nat.le_of_eq (by rw [turn_conveyor,current_eq hat,he,hh.iFpool])

/-- The end of the log of a closed chain: every filter that was opened and has a `close()`, from
the last entry of the pool to the first. -/
def closings (v : Conveyor) (log : List Event) : List Event :=
  (List.range maxFilters).reverse.filterMap fun i =>
    if (v.filtersPool i).iface.hasClose then (openedObj i log).map (.close i) else none

/-- A track whose chain is closed. -/
structure Closed (t : PhiTrack) : Prop where
  obj : ∀ f, t.obj f = none
  log : ∃ l, OpenLog l ∧ t.log = l ++ closings t.conveyor l

theorem Unclosed.close {t : PhiTrack} (h : t.Unclosed) (hb : t.conveyor.iFpool ≤ maxFilters) :
    t.conveyorClose.Closed := by
  obtain ⟨hlog,hpool⟩ := conveyorClose_spec t
  constructor
  · intro f
    simp only [PhiTrack.obj,hpool]
    split
    · rfl
    · exact h.above f (by omega)
  · refine ⟨t.log,h.log,?_⟩
    rw [hlog]
    congr 1
    refine List.filterMap_congr fun i _ => ?_
    simp only [closeEvent,conveyorClose_iface,h.obj]

theorem Closed.close {t : PhiTrack} (h : t.Closed) : t.conveyorClose.Closed := by
  obtain ⟨hlog,hpool⟩ := conveyorClose_spec t
  obtain ⟨l,hl,he⟩ := h.log
  constructor
  · intro f
    simp only [PhiTrack.obj,hpool]
    split
    · rfl
    · exact h.obj f
  · refine ⟨l,hl,?_⟩
    have hnone : (List.range maxFilters).reverse.filterMap t.closeEvent = [] :=
      List.filterMap_eq_nil_iff.mpr fun i _ => by simp [closeEvent,h.obj]
    rw [hlog,hnone,List.append_nil,he]
    congr 1
    refine List.filterMap_congr fun i _ => ?_
    simp only [conveyorClose_iface]

theorem Unclosed.congr {t t' : PhiTrack} (h : t.Unclosed) (hl : t'.log = t.log)
    (hp : t'.conveyor.filtersPool = t.conveyor.filtersPool)
    (hi : t'.conveyor.iFpool = t.conveyor.iFpool) : t'.Unclosed := by
  refine ⟨hl ▸ h.log,fun f => ?_,fun f o hm => hi ▸ h.known f o (hl ▸ hm)⟩
  simpa only [PhiTrack.obj,hp,hl] using h.obj f

end PhiTrack

namespace TrackRun

open Event (openedObj openedId)

/-- The chain is closed at the latest when the track is freed. -/
structure Paired (s : TrackRun) : Prop where
  state : s.t.Unclosed ∨ s.t.Closed
  running : s.pc.isOpen → s.t.Unclosed
  freed : s.pc = .freed → s.t.Closed

theorem Paired.unclosed {s : TrackRun} (h : s.t.Unclosed) (hpc : s.pc ≠ .freed) : Paired s :=
  ⟨.inl h,fun _ => h,fun hf => absurd hf hpc⟩

theorem Paired.closed {s : TrackRun} (h : s.t.Closed) (hpc : ¬ s.pc.isOpen) : Paired s :=
  ⟨.inr h,fun ho => absurd ho hpc,fun _ => h⟩

theorem create_paired (ifs : List PhiFilter) : Paired (create ifs) := by
  have hfresh := (create_marked ifs).created rfl
  refine Paired.unclosed ⟨⟨?_,?_,?_⟩,fun f => (hfresh.1 f).1,?_⟩ (by simp [create]) <;>
    simp [create,PhiTrack.create]

theorem step_paired (s : TrackRun) (a : Act) (s' : TrackRun) (h : Inv s ∧ Paired s)
    (hs : s.step a = some s') : Inv s' ∧ Paired s' := by
  refine ⟨step_inv s a s' h.1 hs,?_⟩
  obtain ⟨hi,hp⟩ := h
  cases a with
  | start =>
    simp only [step,Option.ite_none_right_eq_some,Option.some.injEq] at hs
    obtain ⟨hpc,rfl⟩ := hs
    have hu := hp.running (by rw [hpc]; trivial)
    unfold start
    split
    · exact Paired.unclosed hu (by simp [hpc])
    · exact Paired.unclosed (hu.congr rfl rfl rfl) (by simp)
  | discard =>
    simp only [step,Option.ite_none_right_eq_some,Option.some.injEq] at hs
    obtain ⟨hpc,rfl⟩ := hs
    exact Paired.unclosed (hp.running (by rw [hpc]; trivial)) (by simp)
  | enter =>
    simp only [step,Option.ite_none_right_eq_some,Option.some.injEq] at hs
    obtain ⟨hpc,rfl⟩ := hs
    by_cases hst : s.t.state = .finished
    · rcases hp.state with hu | hc
      · exact Paired.unclosed hu (by simp [hst])
      · exact Paired.closed hc (by simp [hst,Pc.isOpen])
    · have hidle : s.pc = .idle := hpc.resolve_right fun hf => hst (hi.waiting hf)
      exact Paired.unclosed (hp.running (by rw [hidle]; trivial)) (by simp [hst])
  | turn b =>
    simp only [step,Option.ite_none_right_eq_some,Option.some.injEq] at hs
    obtain ⟨hpc,rfl⟩ := hs
    obtain ⟨F,f,R,hat⟩ := hi.here (.inr hpc)
    have hopen : s.pc.isOpen := by rw [hpc]; trivial
    refine Paired.unclosed (PhiTrack.turn_unclosed b (hi.ok hopen) hat (hp.running hopen)) ?_
    cases (s.t.turn b).2 <;> simp [afterTurn]
  | fin =>
    simp only [step,Option.ite_none_right_eq_some,Option.some.injEq] at hs
    obtain ⟨hpc,rfl⟩ := hs
    have hu := hp.running (by rw [hpc]; trivial)
    unfold fin
    split
    · have hu' : PhiTrack.Unclosed { s.t with
          state := .finished, chainFlags := { s.t.chainFlags with finished := true } } :=
        hu.congr rfl rfl rfl
      exact Paired.closed (hu'.close hi.count.2) (by simp [Pc.isOpen])
    · exact Paired.unclosed hu (by simp)
  | delTask =>
    simp only [step,Option.ite_none_right_eq_some,Option.some.injEq] at hs
    obtain ⟨hpc,rfl⟩ := hs
    rcases hp.state with hu | hc
    · exact Paired.unclosed hu (by simp)
    · exact Paired.closed hc (by simp [Pc.isOpen])
  | free =>
    simp only [step,Option.ite_none_right_eq_some,Option.some.injEq] at hs
    obtain ⟨-,rfl⟩ := hs
    rcases hp.state with hu | hc
    · exact Paired.closed (hu.close hi.count.2) (by simp [Pc.isOpen])
    · exact Paired.closed hc.close (by simp [Pc.isOpen])
  | stop =>
    simp only [step,Option.ite_none_left_eq_some,Option.some.injEq] at hs
    obtain ⟨hpc,rfl⟩ := hs
    have hu (h : s.t.Unclosed) : (stop s.t).Unclosed := h.congr (by simp) (by simp) (by simp)
    have hc (h : s.t.Closed) : (stop s.t).Closed := by
      refine ⟨fun f => ?_,by simpa using h.log⟩
      simpa [PhiTrack.obj] using h.obj f
    exact ⟨hp.state.imp hu hc,fun ho => hu (hp.running ho),fun hf => absurd hf hpc⟩

/-- When a track is freed its log is a run of the filters followed by the closing of the pool: each
filter that was opened is closed once, with its instance, from the last to the first, no other
filter is closed, and no filter is opened twice, processed before it was opened or processed
after the closing has begun. -/
theorem close_pairing {ifs : List PhiFilter} {acts : List Act} {s : TrackRun}
    (hrun : Machine.run step (create ifs) acts = some s) (hpc : s.pc = .freed) :
    ∃ l, s.t.log = l ++ (List.range maxFilters).reverse.filterMap (fun i =>
        if (s.t.conveyor.filtersPool i).iface.hasClose then (openedObj i l).map (.close i)
        else none) ∧
      (∀ f o, .close f o ∉ l) ∧ (l.filterMap openedId).Nodup ∧
      ∀ f o d, .process f o d ∈ l → openedObj f l = some o := by
  have h := Machine.run_invariant step_paired hrun ⟨create_inv ifs,create_paired ifs⟩
  obtain ⟨l,hl,he⟩ := (h.2.freed hpc).log
  exact ⟨l,he,hl.noClose,hl.once,hl.processed⟩

/-- A filter that opens as the instance `p`, adds `adds` and returns `r`. -/
private def opensAs (p : Nat) (adds : List (Option PhiFilter × FilterPos)) (r : PhiR) : Behaviour :=
  ⟨[],none,.null,none,.obj p,adds,.null,⟨100,3⟩,none,r⟩

/-- A track whose reader adds a filter without `open()`, which is done at once; the reader gives its
last data and leaves the chain before the track ends. -/
private def twoFilters : List Act :=
  [.start,.enter,.turn (opensAs 7 [(some ⟨"tee",false,true⟩,.next)] .data),.turn (opensAs 0 [] .done),
    .turn (opensAs 8 [] .more),.turn (opensAs 0 [] .lastout),.turn (opensAs 0 [] .fin),.fin,.stop,.enter,
    .delTask,.free]

private theorem twoFilters_runs : (Machine.run step
    (create [⟨"file.read",true,true⟩,⟨"ui",true,true⟩]) twoFilters).isSome := by decide +kernel

theorem close_pairing_two : ∃ s, Machine.run step
    (create [⟨"file.read",true,true⟩,⟨"ui",true,true⟩]) twoFilters = some s ∧
    s.t.log.filter (fun e => e matches .opened .. | .close ..) =
      [.opened 0 (.inst 7),.opened 2 .noOpen,.opened 1 (.inst 8),
        .close 2 .noOpen,.close 1 (.inst 8),.close 0 (.inst 7)] ∧
    ∃ l, s.t.log = l ++ (List.range maxFilters).reverse.filterMap (fun i =>
        if (s.t.conveyor.filtersPool i).iface.hasClose then (openedObj i l).map (.close i)
        else none) ∧
      (∀ f o, .close f o ∉ l) ∧ (l.filterMap openedId).Nodup ∧
      ∀ f o d, .process f o d ∈ l → openedObj f l = some o :=
  ⟨_,(Option.some_get twoFilters_runs).symm,by decide +kernel,
    close_pairing (Option.some_get twoFilters_runs).symm (by decide +kernel)⟩

end TrackRun

end Phiola
