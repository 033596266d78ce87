import Phiola.Track.Chain
import Mathlib.Data.List.Induction

/-!
# Data hand-over along the chain

A filter that returned `PHI_OK` keeps the mark `backward_skip` until the conveyor comes back to it.
The marks stand at or before the current position, so data that arrives from the front never
meets one, and a filter behind them is reached again only by a forward move.
-/

namespace Phiola

namespace Event

/-- The last result of filter `f` in a log. -/
def lastResult (f : Nat) (log : List Event) : Option PhiR :=
  log.foldl (fun acc e => match e with
    | .result g r => if g = f then some r else acc
    | _ => acc) none

@[simp] theorem lastResult_nil (f : Nat) : lastResult f [] = none := rfl

theorem lastResult_append (f : Nat) (log es : List Event) (h : ∀ r, .result f r ∉ es) :
    lastResult f (log ++ es) = lastResult f log := by
  induction es generalizing log with
  | nil => simp
  | cons e es ih =>
    have htail := ih (log ++ [e]) fun r hm => h r (List.mem_cons_of_mem e hm)
    rw [List.append_cons,htail]
    cases e with
    | result g r =>
      have hne : g ≠ f := fun he => h r (by simp [he])
      simp [lastResult,hne]
    | _ => simp [lastResult]

@[simp] theorem lastResult_concat_self (f : Nat) (r : PhiR) (log : List Event) :
    lastResult f (log ++ [Event.result f r]) = some r := by simp [lastResult]

theorem lastResult_mem {f : Nat} {r : PhiR} {log : List Event} (h : lastResult f log = some r) :
    .result f r ∈ log := by
  induction log using List.reverseRecOn with
  | nil => simp at h
  | append_singleton log e ih =>
    cases e with
    | result g r' =>
      by_cases hg : g = f
      · subst hg
        rw [lastResult_concat_self,Option.some.injEq] at h
        simp [h]
      · rw [lastResult_append _ _ _ (by simp [Ne.symm hg])] at h
        simp [ih h]
    | _ =>
      rw [lastResult_append _ _ _ (by simp)] at h
      simp [ih h]

end Event

namespace Conveyor

/-- No filter of the pool has run. -/
def Fresh (v : Conveyor) : Prop :=
  ∀ g, (v.filtersPool g).obj = none ∧ (v.filtersPool g).backwardSkip = false

theorem trackFilter_pool (v : Conveyor) (iface : Option PhiFilter) (flags : FilterPos) :
    (v.trackFilter iface flags).1.filtersPool = v.filtersPool ∨
      ∃ i, (v.trackFilter iface flags).1.filtersPool =
        Function.update v.filtersPool v.iFpool ⟨i,none,false⟩ := by
  cases iface with
  | none => exact .inl rfl
  | some i =>
    by_cases hmax : v.iFpool = maxFilters
    · left
      simp [trackFilter,trkFilterAdd,hmax]
    · right
      refine ⟨i,?_⟩
      simp only [trackFilter,trkFilterAdd,hmax,if_false]
      rw [apply_ite filtersPool]
      exact ite_self _

theorem Fresh.addAll {v : Conveyor} (h : v.Fresh) (adds : List (Option PhiFilter × FilterPos)) :
    (v.addAll adds).Fresh := by
  induction adds generalizing v with
  | nil => exact h
  | cons x adds ih =>
    rw [addAll_cons]
    refine ih fun g => ?_
    rcases trackFilter_pool v x.1 x.2 with hp | ⟨i,hp⟩
    · rw [hp]
      exact h g
    · rw [hp]
      by_cases hg : g = v.iFpool
      · simp [hg]
      · simpa [hg] using h g

end Conveyor

namespace PhiTrack

open Event (lastResult lastResult_append lastResult_concat_self)

/-- The mark of filter `g`. -/
def mark (t : PhiTrack) (g : Nat) : Bool := (t.conveyor.filtersPool g).backwardSkip

/-- Filter `g` is in the pool and has its instance. -/
def Ran (t : PhiTrack) (g : Nat) : Prop :=
  g < t.conveyor.iFpool ∧ (t.conveyor.filtersPool g).obj ≠ none

/-- The last thing that happened was a forward move. -/
def enteredFwd (t : PhiTrack) : Prop := ∃ g d, t.log.getLast? = some (.forward g d)

/-- The marks while filter `f` is due, with `F` before it and `R` after it. -/
structure Marks (t : PhiTrack) (F : List Nat) (f : Nat) (R : List Nat) : Prop where
  result : ∀ g, t.mark g = true → lastResult g t.log = some .ok
  after : ∀ g ∈ R, t.mark g = false
  before : ∀ g ∈ F, lastResult g t.log = some .ok → t.mark g = true
  forward : t.enteredFwd → t.mark f = false
  here : ¬ t.enteredFwd → lastResult f t.log = some .ok → t.mark f = true
  moved : ∀ g d, t.log.getLast? = some (.forward g d) → g = f ∧ d = t.dataIn
  back : ∀ g r d, t.log.getLast? = some (.backward g r d) → g = f ∧ d = t.dataIn
  known : ∀ g r, .result g r ∈ t.log → t.Ran g

/-- The marks around filter `f` once its own is cleared. -/
structure MarksAround (t : PhiTrack) (F : List Nat) (f : Nat) (R : List Nat) : Prop where
  result : ∀ g, t.mark g = true → lastResult g t.log = some .ok
  after : ∀ g ∈ R, t.mark g = false
  before : ∀ g ∈ F, lastResult g t.log = some .ok → t.mark g = true
  clear : t.mark f = false

/-- The marks between the run of filter `f` and the handling of its result `r`. -/
structure MarksMid (t : PhiTrack) (F : List Nat) (f : Nat) (R : List Nat) (r : PhiR) : Prop
    extends MarksAround t F f R where
  here : lastResult f t.log = some .ok → r = .ok ∨ r = .more ∧ F ≠ [] ∨ r = .done ∨ r = .err
  ok : r = .ok → lastResult f t.log = some .ok
  last : r = .async → ∃ r', t.log.getLast? = some (.result f r')
  known : ∀ g r, .result g r ∈ t.log → t.Ran g

/-- A filter that has run is in the pool with its instance while others are added. -/
theorem Ran.grows {t t' : PhiTrack} {F R a b : List Nat} {f g : Nat} {x : Filter} (h : t.Ran g)
    (hg : (t.conveyor.setFilter f x).Grows t'.conveyor F f R a b) (hx : g = f → x.obj ≠ none) :
    t'.Ran g := by
  refine ⟨Nat.lt_of_lt_of_le h.1 hg.le,?_⟩
  rw [hg.old g (.inl h.1)]
  by_cases hgf : g = f
  · subst hgf
    rw [Conveyor.setFilter_pool_self]
    exact hx rfl
  · rw [Conveyor.setFilter_pool_of_ne _ _ hgf]
    exact h.2

/-- The mark that `PHI_OK` sets leaves the instances. -/
theorem Ran.marked {t : PhiTrack} {v : Conveyor} {f g : Nat} (h : t.Ran g)
    (hi : v.iFpool = t.conveyor.iFpool) (hv : v.filtersPool = (t.conveyor.setFilter f
      { t.conveyor.filtersPool f with backwardSkip := true }).filtersPool) :
    (t.updConveyor v).Ran g := by
  refine ⟨Nat.lt_of_lt_of_eq h.1 hi.symm,?_⟩
  rw [updConveyor_conveyor,hv]
  by_cases hgf : g = f
  · subst hgf
    rw [Conveyor.setFilter_pool_self]
    exact h.2
  · rw [Conveyor.setFilter_pool_of_ne _ _ hgf]
    exact h.2

theorem mark_grows {t t' : PhiTrack} {F R a b : List Nat} {f : Nat} {x : Filter}
    (hg : (t.conveyor.setFilter f x).Grows t'.conveyor F f R a b) (g : Nat) (hne : g ≠ f) :
    t'.mark g = t.mark g ∨ t'.mark g = false := by
  by_cases hlt : g < t.conveyor.iFpool ∨ t'.conveyor.iFpool ≤ g
  · left
    simp only [mark]
    rw [hg.old g hlt,Conveyor.setFilter_pool_of_ne _ _ hne]
  · exact .inr (hg.new g (by simp; omega) (by omega)).2

theorem mark_grows_self {t t' : PhiTrack} {F R a b : List Nat} {f : Nat} {x : Filter}
    (hg : (t.conveyor.setFilter f x).Grows t'.conveyor F f R a b) (hf : f < t.conveyor.iFpool) :
    t'.mark f = x.backwardSkip := by
  simp only [mark]
  rw [hg.old f (.inl hf)]
  simp

/-- The marks around `f` are as they were if it added filters and lost its own mark. -/
theorem Marks.grows {t t' : PhiTrack} {F R a c : List Nat} {f : Nat} {x : Filter}
    (hm : t.Marks F f R) (hok : t.conveyor.Ok) (hat : t.conveyor.At F f R)
    (hg : (t.conveyor.setFilter f x).Grows t'.conveyor F f R a c) (hx : x.backwardSkip = false)
    (hlog : ∀ g, g ≠ f → lastResult g t'.log = lastResult g t.log) :
    t'.MarksAround (F ++ a) f (c ++ R) := by
  have hn : (F ++ f :: R).Nodup := hat.filters ▸ hok.nodup
  have hmem : ∀ g ∈ F ++ f :: R, g < t.conveyor.iFpool := hat.filters ▸ hok.mem
  have hF : ∀ g ∈ F, g ≠ f := fun g hgF he =>
    (List.nodup_append.mp hn).2.2 g hgF f List.mem_cons_self he
  have hR : ∀ g ∈ R, g ≠ f := fun g hgR he =>
    (List.nodup_cons.mp (List.nodup_append.mp hn).2.1).1 (he ▸ hgR)
  have hself : t'.mark f = false := by
    rw [mark_grows_self hg (hmem f (by simp)),hx]
  -- filters that were added during the run carry no mark and have no result
  have hnew (y : Nat) (hy : y ∈ a ++ c) :
      t'.mark y = false ∧ y ≠ f ∧ lastResult y t.log = none := by
    have hfr := hg.fresh y hy
    simp only [Conveyor.setFilter_iFpool] at hfr
    have hf := hmem f (by simp)
    refine ⟨(hg.new y (by simpa using hfr.1) hfr.2).2,by omega,?_⟩
    by_contra hne
    obtain ⟨r,hr⟩ := Option.ne_none_iff_exists'.mp hne
    have := (hm.known y r (Event.lastResult_mem hr)).1
    omega
  constructor
  · intro g hgm
    have hne : g ≠ f := by rintro rfl; rw [hself] at hgm; cases hgm
    rw [hlog g hne]
    rcases mark_grows hg g hne with h | h
    · exact hm.result g (h ▸ hgm)
    · rw [h] at hgm; cases hgm
  · intro g hgm
    rcases List.mem_append.mp hgm with hc | hR'
    · exact (hnew g (List.mem_append_right _ hc)).1
    · rcases mark_grows hg g (hR g hR') with h | h
      · rw [h]; exact hm.after g hR'
      · exact h
  · intro g hgm hr
    rcases List.mem_append.mp hgm with hF' | ha
    · rw [hlog g (hF g hF')] at hr
      have hold := hg.old g (.inl (hmem g (by simp [hF'])))
      rw [Conveyor.setFilter_pool_of_ne _ _ (hF g hF')] at hold
      simp only [mark,hold]
      exact hm.before g hF' hr
    · have hy := hnew g (List.mem_append_left _ ha)
      rw [hlog g hy.2.1,hy.2.2] at hr
      cases hr
  · exact hself

/-- The three ways a run can go leave the marks fit for the handling of its result. -/
theorem RunSpec.marks {t : PhiTrack} {F R : List Nat} {f : Nat} {b : Behaviour}
    {p : PhiTrack × PhiR} (h : RunSpec t f F R b p) (hm : t.Marks F f R) (hok : t.conveyor.Ok)
    (hat : t.conveyor.At F f R) : ∃ a c, p.1.conveyor.At (F ++ a) f (c ++ R) ∧
      p.1.MarksMid (F ++ a) f (c ++ R) p.2 := by
  cases h with
  | skip hmk hF =>
    have hg := Conveyor.Grows.refl (hat.setFilter f
      { t.conveyor.filtersPool f with backwardSkip := false })
    refine ⟨[],[],hg.at',hm.grows hok hat hg rfl fun g _ => rfl,?_,by simp,by simp,
      fun g r hr => (hm.known g r hr).grows hg fun hgf => hgf ▸ (hm.known g r hr).2⟩
    exact fun _ => .inr (.inl ⟨rfl,by simpa using hF⟩)
  | refused t' r a c hnone hopen hret hg hl =>
    refine ⟨a,c,hg.at',hm.grows hok hat hg rfl fun g _ => by rw [hl],?_,?_,?_,?_⟩
    · rcases hret with ⟨-,rfl⟩ | ⟨-,rfl,-⟩ <;> simp
    · rcases hret with ⟨-,rfl⟩ | ⟨-,rfl,-⟩ <;> simp
    · rcases hret with ⟨-,rfl⟩ | ⟨-,rfl,-⟩ <;> simp
    · intro g r' hr
      rw [hl] at hr
      exact (hm.known g r' hr).grows hg fun hgf => hgf ▸ (hm.known g r' hr).2
  | called t' o es a c hobj hdue hg hl =>
    have hlog : t'.log = (t.log ++ (es ++ [Event.process f o (t.given f t.dataIn b)])) ++ [Event.result f b.ret] := by
      simp [hl]
    have hes : ∀ g r, Event.result g r ∉ es ++ [Event.process f o (t.given f t.dataIn b)] := by
      rcases hobj with ⟨-,rfl⟩ | ⟨-,rfl⟩ <;> simp
    have hlast : lastResult f t'.log = some b.ret := by rw [hlog,lastResult_concat_self]
    have hother (g : Nat) (hne : g ≠ f) : lastResult g t'.log = lastResult g t.log := by
      rw [hlog,lastResult_append _ _ _ (by simp [hne]),lastResult_append _ _ _ (hes g)]
    refine ⟨a,c,hg.at',hm.grows hok hat hg rfl hother,?_,?_,?_,?_⟩
    · intro hr
      rw [hlast,Option.some.injEq] at hr
      exact .inl hr
    · intro hr
      dsimp only at hr ⊢
      rw [hlast,hr]
    · exact fun _ => ⟨b.ret,by simp [hlog]⟩
    · intro g r' hr
      have hf : f < t.conveyor.iFpool := hok.mem f (by simp [hat.filters])
      dsimp only at hr ⊢
      rw [hlog,List.mem_append,List.mem_append] at hr
      rcases hr with (hr | hr) | hr
      · exact (hm.known g r' hr).grows hg fun _ => by simp
      · exact absurd hr (hes g r')
      · simp only [List.mem_singleton,Event.result.injEq] at hr
        rw [hr.1,Ran,hg.old f (.inl hf)]
        exact ⟨Nat.lt_of_lt_of_le hf hg.le,by simp⟩

/-- The end of a turn, from the code that the handling of the result gave. -/
def finish (t : PhiTrack) (r : PhiR) : PhiTrack := (t.handOver r).emit ((t.handOver r).moveEvent r)

theorem turn_finish (t : PhiTrack) (b : Behaviour) : (t.turn b).1 =
    ((t.loopTop.trkFilterRun t.current b).1.trkFilterHandleResult t.current
      (t.loopTop.trkFilterRun t.current b).2).1.finish (t.turn b).2 := by
  simp [turn,finish,current]

@[simp] theorem finish_conveyor (t : PhiTrack) (r : PhiR) :
    (t.finish r).conveyor = t.conveyor := by simp [finish]

@[simp] theorem finish_mark (t : PhiTrack) (r : PhiR) (g : Nat) :
    (t.finish r).mark g = t.mark g := by simp [mark]

theorem finish_log (t : PhiTrack) (r : PhiR) :
    (t.finish r).log = t.log ++ (t.handOver r).moveEvent r := by simp [finish]

theorem finish_current (t : PhiTrack) (r : PhiR) : (t.finish r).current = t.current := by
  simp [current]

theorem finish_forward (t : PhiTrack) : (t.finish .data).dataIn = t.dataOut ∧
    (t.finish .data).log.getLast? = some (.forward (t.finish .data).current t.dataOut) := by
  simp [finish_log,finish_current,moveEvent]
  simp [finish,handOver,current]

theorem finish_back (t : PhiTrack) : (t.finish .back).dataIn = t.dataOut ∧
    (t.finish .back).log.getLast? = some (.backward (t.finish .back).current .back t.dataOut) := by
  simp [finish_log,finish_current,moveEvent]
  simp [finish,handOver,current]

theorem finish_more (t : PhiTrack) : (t.finish .more).dataIn = .null ∧
    (t.finish .more).log.getLast? = some (.backward (t.finish .more).current .more .null) := by
  simp [finish_log,finish_current,moveEvent]
  simp [finish,handOver,current]

@[simp] theorem finish_lastResult (t : PhiTrack) (r : PhiR) (g : Nat) :
    lastResult g (t.finish r).log = lastResult g t.log := by
  rw [finish_log,lastResult_append]
  cases r <;> simp [moveEvent]

theorem finish_result (t : PhiTrack) (r : PhiR) (g : Nat) (r' : PhiR) :
    .result g r' ∈ (t.finish r).log ↔ .result g r' ∈ t.log := by
  rw [finish_log,List.mem_append]
  cases r <;> simp [moveEvent]

/-- The marks after a move of the conveyor onto `g`. -/
theorem Marks.of_move {t : PhiTrack} {F R : List Nat} {g : Nat} {r : PhiR}
    (hr : r = .data ∨ r = .more ∨ r = .back) (hat : t.conveyor.At F g R)
    (result : ∀ y, t.mark y = true → lastResult y t.log = some .ok)
    (after : ∀ y ∈ R, t.mark y = false)
    (before : ∀ y ∈ F, lastResult y t.log = some .ok → t.mark y = true)
    (forward : r = .data → t.mark g = false)
    (back : r ≠ .data → lastResult g t.log = some .ok → t.mark g = true)
    (known : ∀ y r', .result y r' ∈ t.log → t.Ran y) : (t.finish r).Marks F g R := by
  have hcur : (t.finish r).current = g := by rw [finish_current,current_eq hat]
  have hfwd := finish_forward t
  have hback := finish_back t
  have hmore := finish_more t
  constructor
  · simpa using result
  · simpa using after
  · simpa using before
  · rintro ⟨y,d,hl⟩
    rcases hr with rfl | rfl | rfl
    · simpa using forward rfl
    · rw [hmore.2] at hl; cases hl
    · rw [hback.2] at hl; cases hl
  · intro hne
    rcases hr with rfl | rfl | rfl
    · exact absurd ⟨_,_,hfwd.2⟩ hne
    · simpa using back (by simp)
    · simpa using back (by simp)
  · intro y d hl
    rcases hr with rfl | rfl | rfl
    · rw [hfwd.2,hcur] at hl; cases hl; exact ⟨rfl,hfwd.1.symm⟩
    · rw [hmore.2] at hl; cases hl
    · rw [hback.2] at hl; cases hl
  · intro y r' d hl
    rcases hr with rfl | rfl | rfl
    · rw [hfwd.2] at hl; cases hl
    · rw [hmore.2,hcur] at hl; cases hl; exact ⟨rfl,hmore.1.symm⟩
    · rw [hback.2,hcur] at hl; cases hl; exact ⟨rfl,hback.1.symm⟩
  · intro y r' hm
    rw [Ran,finish_conveyor]
    exact known y r' ((finish_result t r y r').mp hm)

/-- One case for each outcome of `trk_filter_handle_result()`. -/
theorem HandleSpec.marks {t : PhiTrack} {f : Nat} {F R : List Nat} {r : PhiR}
    {h : PhiTrack × PhiR} (hs : HandleSpec t f F R r h) (hat : t.conveyor.At F f R)
    (hn : (F ++ f :: R).Nodup) (hm : t.MarksMid F f R r) :
    h.2 = .fin ∨ h.2 = .err ∨
      ∃ F' g R', h.1.conveyor.At F' g R' ∧ (h.1.finish h.2).Marks F' g R' := by
  have hF : ∀ g ∈ F, g ≠ f := fun g hgF he =>
    (List.nodup_append.mp hn).2.2 g hgF f List.mem_cons_self he
  have hR : ∀ g ∈ R, g ≠ f := fun g hgR he =>
    (List.nodup_cons.mp (List.nodup_append.mp hn).2.1).1 (he ▸ hgR)
  -- the mark that `PHI_OK` sets
  have hset (v : Conveyor) (hv : v.filtersPool = (t.conveyor.setFilter f
      { t.conveyor.filtersPool f with backwardSkip := true }).filtersPool) :
      (t.updConveyor v).mark f = true ∧ ∀ g, g ≠ f → (t.updConveyor v).mark g = t.mark g := by
    simp only [mark,updConveyor_conveyor,hv]
    refine ⟨by simp,fun g hne => ?_⟩
    rw [Conveyor.setFilter_pool_of_ne _ _ hne]
  cases hs with
  | doneFwd g R' hR' =>
    subst hR'
    refine .inr (.inr ⟨F,g,R',⟨rfl,rfl⟩,Marks.of_move (.inl rfl) ⟨rfl,rfl⟩ hm.result ?_ hm.before ?_
      (by simp) hm.known⟩)
    · exact fun y hy => hm.after y (List.mem_cons_of_mem g hy)
    · exact fun _ => hm.after g List.mem_cons_self
  | doneLast F' g hF' hR' =>
    subst hF' hR'
    refine .inr (.inr ⟨F',g,[],⟨rfl,rfl⟩,Marks.of_move (.inr (.inl rfl)) ⟨rfl,rfl⟩ hm.result
      (by simp) ?_ (by simp) ?_ hm.known⟩)
    · exact fun y hy => hm.before y (List.mem_append_left _ hy)
    · exact fun _ => hm.before g (by simp)
  | doneFin | lastoutFin => exact .inl rfl
  | lastoutFwd g R' hR' =>
    subst hR'
    refine .inr (.inr ⟨[],g,R',⟨rfl,rfl⟩,Marks.of_move (.inl rfl) ⟨rfl,rfl⟩ hm.result ?_ (by simp) ?_
      (by simp) hm.known⟩)
    · exact fun y hy => hm.after y (List.mem_cons_of_mem g hy)
    · exact fun _ => hm.after g List.mem_cons_self
  | okFwd g R' hR' =>
    subst hR'
    have hmk := hset { t.conveyor.setFilter f { t.conveyor.filtersPool f with
      backwardSkip := true } with cur := F.length + 1 } rfl
    have hat' : (t.updConveyor { t.conveyor.setFilter f { t.conveyor.filtersPool f with
        backwardSkip := true } with cur := F.length + 1 }).conveyor.At (F ++ [f]) g R' :=
      ⟨by simpa using hat.filters,by simp⟩
    refine .inr (.inr ⟨F ++ [f],g,R',hat',Marks.of_move (.inl rfl) hat' ?_ ?_ ?_ ?_ (by simp)
      fun y r hr => (hm.known y r hr).marked rfl rfl⟩)
    · intro y hy
      by_cases hne : y = f
      · subst hne; exact hm.ok rfl
      · exact hm.result y (by rwa [hmk.2 y hne] at hy)
    · intro y hy
      rw [hmk.2 y (hR y (List.mem_cons_of_mem g hy))]
      exact hm.after y (List.mem_cons_of_mem g hy)
    · intro y hy hl
      rcases List.mem_append.mp hy with hy | hy
      · rw [hmk.2 y (hF y hy)]
        exact hm.before y hy hl
      · rw [List.mem_singleton.mp hy]
        exact hmk.1
    · intro _
      rw [hmk.2 g (hR g List.mem_cons_self)]
      exact hm.after g List.mem_cons_self
  | okLast hR' =>
    have hmk := hset (t.conveyor.setFilter f
      { t.conveyor.filtersPool f with backwardSkip := true }) rfl
    have hat' := hat.setFilter f { t.conveyor.filtersPool f with backwardSkip := true }
    refine .inr (.inr ⟨F,f,R,hat',Marks.of_move (.inr (.inl rfl)) hat' ?_ ?_ ?_ (by simp) ?_
      fun y r hr => (hm.known y r hr).marked rfl rfl⟩)
    · intro y hy
      by_cases hne : y = f
      · subst hne; exact hm.ok rfl
      · exact hm.result y (by rwa [hmk.2 y hne] at hy)
    · intro y hy
      rw [hmk.2 y (hR y hy)]
      exact hm.after y hy
    · intro y hy hl
      rw [hmk.2 y (hF y hy)]
      exact hm.before y hy hl
    · exact fun _ _ => hmk.1
  | dataFwd g R' hR' =>
    subst hR'
    have hat' : (t.updConveyor { t.conveyor with cur := F.length + 1 }).conveyor.At
        (F ++ [f]) g R' := ⟨by simpa using hat.filters,by simp⟩
    refine .inr (.inr ⟨F ++ [f],g,R',hat',Marks.of_move (.inl rfl) hat' hm.result ?_ ?_ ?_ (by simp)
      hm.known⟩)
    · exact fun y hy => hm.after y (List.mem_cons_of_mem g hy)
    · intro y hy hl
      rcases List.mem_append.mp hy with hy | hy
      · exact hm.before y hy hl
      · rw [List.mem_singleton.mp hy] at hl
        have := hm.here hl
        simp at this
    · exact fun _ => hm.after g List.mem_cons_self
  | dataLast hR' =>
    refine .inr (.inr ⟨F,f,R,hat,Marks.of_move (.inr (.inl rfl)) hat hm.result hm.after hm.before
      (by simp) ?_ hm.known⟩)
    intro _ hl
    have := hm.here hl
    simp at this
  | backFirst => exact .inr (.inl rfl)
  | backPrev r hr F' g hF' =>
    subst hF'
    have hat' : (t.updConveyor { t.conveyor with cur := F'.length }).conveyor.At F' g (f :: R) :=
      ⟨by simpa using hat.filters,by simp⟩
    refine .inr (.inr ⟨F',g,f :: R,hat',Marks.of_move (.inr hr) hat' hm.result ?_ ?_ ?_ ?_
      hm.known⟩)
    · intro y hy
      rcases List.mem_cons.mp hy with rfl | hy
      · exact hm.clear
      · exact hm.after y hy
    · exact fun y hy => hm.before y (List.mem_append_left _ hy)
    · rcases hr with rfl | rfl <;> simp
    · exact fun _ => hm.before g (by simp)
  | halt r hr =>
    rcases hr with rfl | rfl | rfl
    · obtain ⟨r',hl⟩ := hm.last rfl
      refine .inr (.inr ⟨F,f,R,hat,?_⟩)
      have hlog : (t.finish .async).log = t.log := by simp [finish_log,moveEvent]
      constructor
      · simpa using hm.result
      · simpa using hm.after
      · simpa using hm.before
      · simpa using fun _ => hm.clear
      · intro _ hr
        have := hm.here (by simpa using hr)
        simp at this
      · intro g d h
        rw [hlog,hl] at h; cases h
      · intro g r d h
        rw [hlog,hl] at h; cases h
      · intro g r h
        rw [Ran,finish_conveyor]
        exact hm.known g r ((finish_result t _ g r).mp h)
    · exact .inl rfl
    · exact .inr (.inl rfl)

theorem Marks.congr {t t' : PhiTrack} {F R : List Nat} {f : Nat} (h : t.Marks F f R)
    (hv : t'.conveyor = t.conveyor) (hl : t'.log = t.log) (hd : t'.dataIn = t.dataIn) :
    t'.Marks F f R := by
  have hmk (g : Nat) : t'.mark g = t.mark g := by simp [mark,hv]
  have he : t'.enteredFwd ↔ t.enteredFwd := by simp [enteredFwd,hl]
  constructor
  · intro g hg; rw [hl]; exact h.result g (hmk g ▸ hg)
  · intro g hg; rw [hmk]; exact h.after g hg
  · intro g hg hr; rw [hmk]; exact h.before g hg (hl ▸ hr)
  · intro hf; rw [hmk]; exact h.forward (he.mp hf)
  · intro hf hr; rw [hmk]; exact h.here (fun hx => hf (he.mpr hx)) (hl ▸ hr)
  · intro g d hg; rw [hd]; exact h.moved g d (hl ▸ hg)
  · intro g r d hg; rw [hd]; exact h.back g r d (hl ▸ hg)
  · intro g r hg; rw [Ran,hv]; exact h.known g r (hl ▸ hg)

theorem turn_marks {t : PhiTrack} {F R : List Nat} {f : Nat} (b : Behaviour) (hok : t.conveyor.Ok)
    (hat : t.conveyor.At F f R) (hm : t.Marks F f R) :
    (t.turn b).2 = .fin ∨ (t.turn b).2 = .err ∨
      ∃ F' g R', (t.turn b).1.conveyor.At F' g R' ∧ (t.turn b).1.Marks F' g R' := by
  have hat' : t.loopTop.conveyor.At F f R := by simpa using hat
  have hok' : t.loopTop.conveyor.Ok := by simpa using hok
  have hm' : t.loopTop.Marks F f R := hm.congr (by simp) (by simp) (by simp)
  have hrun := trkFilterRun_spec b hat' (hok'.mem f (by rw [hat'.filters]; simp))
  obtain ⟨x,p,q,hg⟩ := hrun.grows hat'
  have hokx : (t.loopTop.conveyor.setFilter f x).Ok := ⟨hok'.nodup,hok'.mem,hok'.bound⟩
  have hokp := hokx.grows (hat'.setFilter f x) hg
  obtain ⟨a,c,hatp,hmid⟩ := hrun.marks hm' hok' hat'
  have hn := hokp.nodup
  rw [hatp.filters] at hn
  have hh := (trkFilterHandleResult_spec (t.loopTop.trkFilterRun f b).2 hatp).marks hatp hn hmid
  rw [turn_finish,turn_result,current_eq hat]
  rcases hh with hh | hh | ⟨F',g,R',hat2,hm2⟩
  · exact .inl hh
  · exact .inr (.inl hh)
  · exact .inr (.inr ⟨F',g,R',by simpa using hat2,hm2⟩)

/-- In this turn the `open()` of filter `g` is due and gives no instance. -/
def Refused (t : PhiTrack) (g : Nat) (b : Behaviour) : Prop :=
  t.Unopened g ∧ (b.openRet = .skip ∨ b.openRet = .err)

/-- The first thing that this turn does, but for the opening of filter `g`, is the call of its
`process()` with the data `d`. -/
def Calls (t : PhiTrack) (g : Nat) (d : Ffstr) (b : Behaviour) : Prop :=
  ∃ o es rest, (t.turn b).1.log = t.log ++ es ++ .process g o d :: rest ∧
    (es = [] ∨ es = [.opened g o])

/-- What a turn does with the filter that is due: the mark sends it back, `open()` gives no
instance, or `process()` gets the data. -/
theorem turn_due {t : PhiTrack} {F R : List Nat} {f : Nat} (b : Behaviour) (hok : t.conveyor.Ok)
    (hat : t.conveyor.At F f R) :
    (t.mark f = true ∧ F ≠ [] ∧ ∀ g d, ¬ t.Calls g d b) ∨
      (t.Refused f b ∧ ∀ g d, ¬ t.Calls g d b) ∨
      (t.Calls f (t.given f t.dataIn b) b ∧ (t.mark f = true → F = []) ∧
        ∀ g d, t.Calls g d b → g = f ∧ d = t.given f t.dataIn b) := by
  have hat' : t.loopTop.conveyor.At F f R := by simpa using hat
  have hrun := trkFilterRun_spec b hat' (by simpa using hok.mem f (by simp [hat.filters]))
  obtain ⟨p,x,a,c,hp,-,-,hh⟩ := turn_halves b hok hat
  have hlog : (t.turn b).1.log = p.1.log ++
      ((p.1.trkFilterHandleResult f p.2).1.handOver (t.turn b).2).moveEvent (t.turn b).2 := by
    rw [turn_finish,finish_log,current_eq hat,hp,hh.log]
  have hnone (hl : p.1.log = t.log) (g : Nat) (d : Ffstr) : ¬ t.Calls g d b := by
    rintro ⟨o,es,rest,he,-⟩
    rw [hlog,hl,List.append_assoc,List.append_cancel_left_eq] at he
    exact moveEvent_noProcess _ _ (.process g o d) (by rw [he]; simp) g o d rfl
  rw [hp] at hrun
  cases hrun with
  | skip hm hF => exact .inl ⟨by simpa [mark] using hm,hF,hnone (by simp)⟩
  | refused t' r a' c' hobj hopen hret hg hl =>
    refine .inr (.inl ⟨⟨⟨by simpa using hobj,by simpa using hopen⟩,?_⟩,hnone (by simp [hl])⟩)
    rcases hret with ⟨h,-⟩ | ⟨h,-⟩
    · exact .inr h
    · exact .inl h
  | called t' o es a' c' hobj hdue hg hl hout hst hfw hmk =>
    have hes : es = [] ∨ es = [.opened f o] := by
      rcases hobj with ⟨-,h⟩ | ⟨-,h⟩
      · exact .inl h
      · exact .inr h
    simp only [hl,loopTop_log,loopTop_dataIn,loopTop_given] at hlog
    refine .inr (.inr ⟨⟨o,es,_,by rw [hlog,List.append_assoc]; rfl,hes⟩,?_,?_⟩)
    · simpa [mark] using hmk
    · rintro g d ⟨o',es',rest,he,hes'⟩
      rw [hlog] at he
      rcases hes with rfl | rfl <;> rcases hes' with rfl | rfl <;>
        simp only [List.append_assoc,List.cons_append,List.nil_append,List.append_cancel_left_eq,
          List.cons.injEq,Event.process.injEq,Event.opened.injEq,reduceCtorEq,false_and] at he
      · exact ⟨he.1.1.symm,he.1.2.2.symm⟩
      · exact ⟨he.2.1.1.symm,he.2.1.2.2.symm⟩

theorem HandleSpec.dataOut {t : PhiTrack} {f : Nat} {F R : List Nat} {r : PhiR}
    {h : PhiTrack × PhiR} (hs : HandleSpec t f F R r h) : h.1.dataOut = t.dataOut := by
  cases hs <;> rfl

/-- A forward move takes along what the filter left in `data_out`. -/
theorem turn_forward {t : PhiTrack} {F R : List Nat} {f : Nat} (b : Behaviour)
    (hok : t.conveyor.Ok) (hat : t.conveyor.At F f R) (hr : (t.turn b).2 = .data) :
    (t.turn b).1.log.getLast? = some (.forward (t.turn b).1.current
      (t.loopTop.trkFilterRun f b).1.dataOut) := by
  obtain ⟨p,x,a,c,hp,-,-,hh⟩ := turn_halves b hok hat
  rw [turn_finish,hr,current_eq hat,hp,(finish_forward _).2,hh.dataOut]

/-- A backward move after `PHI_BACK` goes to the filter directly before, with what is in
`data_out`. -/
theorem turn_back {t : PhiTrack} {F R : List Nat} {f : Nat} (b : Behaviour)
    (hok : t.conveyor.Ok) (hat : t.conveyor.At F f R) (hr : (t.turn b).2 = .back) :
    (∃ l₁ l₂, (t.loopTop.trkFilterRun f b).1.conveyor.filters =
        l₁ ++ (t.turn b).1.current :: f :: l₂) ∧
      (t.turn b).1.log.getLast? = some (.backward (t.turn b).1.current .back
        (t.loopTop.trkFilterRun f b).1.dataOut) := by
  obtain ⟨p,x,a,c,hp,-,hg,hh⟩ := turn_halves b hok hat
  have hat' := hg.at'
  rw [turn_result,current_eq hat,hp] at hr
  refine ⟨?_,?_⟩
  · rw [turn_finish,turn_result,current_eq hat,hp,finish_current]
    generalize p.1.trkFilterHandleResult f p.2 = h at hh hr
    generalize F ++ a = F₁ at hh hat'
    generalize p.2 = r at hh
    cases hh with
    | backPrev r hr' F' g hF =>
      subst hF
      refine ⟨F',c ++ R,?_⟩
      have hcur : (p.1.updConveyor { p.1.conveyor with cur := F'.length }).current = g := by
        simp [current,hat'.filters]
      rw [hcur,hat'.filters]
      simp
    | halt r hr' => rcases hr' with rfl | rfl | rfl <;> cases hr
    | _ => cases hr
  · rw [turn_finish,turn_result,current_eq hat,hp,hr,(finish_back _).2,hh.dataOut]

end PhiTrack

namespace TrackRun

open PhiTrack (current_eq)
open Event (lastResult)

/-- The marks of a track that is running. -/
structure Marked (s : TrackRun) : Prop where
  created : s.pc = .created → s.t.conveyor.Fresh ∧ s.t.log = []
  running : s.pc = .idle ∨ s.pc = .loop → ∃ F f R, s.t.conveyor.At F f R ∧ s.t.Marks F f R

theorem create_marked (ifs : List PhiFilter) : Marked (create ifs) := by
  refine ⟨fun _ => ⟨?_,rfl⟩,by simp [create]⟩
  exact Conveyor.Fresh.addAll (fun _ => ⟨rfl,rfl⟩) _

theorem start_marked {s : TrackRun} (h : Marked s) (hpc : s.pc = .created) : Marked s.start := by
  unfold start
  split
  · exact h
  · rename_i hne
    obtain ⟨hfresh,hlog⟩ := h.created hpc
    refine ⟨by simp,fun _ => ?_⟩
    cases hf : s.t.conveyor.filters with
    | nil => simp [hf] at hne
    | cons f R =>
      have hmk (g : Nat) : (s.t.updConveyor { s.t.conveyor with cur := 0 }).mark g = false :=
        (hfresh g).2
      refine ⟨[],f,R,⟨by simp [hf],rfl⟩,?_,?_,?_,?_,?_,?_,?_,?_⟩ <;>
        simp [hmk,hlog]

theorem step_marked (s : TrackRun) (a : Act) (s' : TrackRun) (h : Inv s ∧ Marked s)
    (hs : s.step a = some s') : Inv s' ∧ Marked s' := by
  refine ⟨step_inv s a s' h.1 hs,?_⟩
  obtain ⟨hi,hm⟩ := h
  cases a with
  | start =>
    simp only [step,Option.ite_none_right_eq_some,Option.some.injEq] at hs
    obtain ⟨hpc,rfl⟩ := hs
    exact start_marked hm hpc
  | discard | delTask | free =>
    simp only [step,Option.ite_none_right_eq_some,Option.some.injEq] at hs
    obtain ⟨-,rfl⟩ := hs
    exact ⟨by simp,by simp⟩
  | enter =>
    simp only [step,Option.ite_none_right_eq_some,Option.some.injEq] at hs
    obtain ⟨hpc,rfl⟩ := hs
    by_cases hst : s.t.state = .finished
    · exact ⟨by simp [hst],by simp [hst]⟩
    · have hidle : s.pc = .idle := hpc.resolve_right fun hf => hst (hi.waiting hf)
      exact ⟨by simp [hst],fun _ => hm.running (.inl hidle)⟩
  | turn b =>
    simp only [step,Option.ite_none_right_eq_some,Option.some.injEq] at hs
    obtain ⟨hpc,rfl⟩ := hs
    obtain ⟨F,f,R,hat,hmk⟩ := hm.running (.inr hpc)
    refine ⟨?_,fun hl => ?_⟩
    · cases (s.t.turn b).2 <;> simp [afterTurn]
    · rcases PhiTrack.turn_marks b (hi.ok (by rw [hpc]; trivial)) hat hmk with hr | hr | hr
      · simp [hr,afterTurn] at hl
      · simp [hr,afterTurn] at hl
      · exact hr
  | fin =>
    simp only [step,Option.ite_none_right_eq_some,Option.some.injEq] at hs
    obtain ⟨-,rfl⟩ := hs
    unfold fin
    split <;> exact ⟨by simp,by simp⟩
  | stop =>
    simp only [step,Option.ite_none_left_eq_some,Option.some.injEq] at hs
    obtain ⟨-,rfl⟩ := hs
    refine ⟨fun hp => by simpa using hm.created hp,fun hp => ?_⟩
    obtain ⟨F,f,R,hat,hmk⟩ := hm.running hp
    refine ⟨F,f,R,by simpa using hat,hmk.congr (by simp) (by simp) ?_⟩
    unfold stop
    split <;> rfl

theorem run_marked {ifs : List PhiFilter} {acts : List Act} {s : TrackRun}
    (hrun : Machine.run step (create ifs) acts = some s) : Inv s ∧ Marked s :=
  Machine.run_invariant step_marked hrun ⟨create_inv ifs,create_marked ifs⟩

/-- The hand-over of data in every run: data that moves forward is processed by the filter that it
reaches, unless the `open()` of that filter is still due and gives no instance or puts other data in
its place; a filter that returned `PHI_OK` waits for such data unless it is first; and data handed
back is processed by the filter directly before. -/
theorem handover {ifs : List PhiFilter} {acts : List Act} {s : TrackRun}
    (hrun : Machine.run step (create ifs) acts = some s) (hpc : s.pc = .loop) :
    (∀ b, (s.t.turn b).2 = .data → (s.t.turn b).1.log.getLast? =
        some (.forward (s.t.turn b).1.current
          (s.t.loopTop.trkFilterRun s.t.current b).1.dataOut)) ∧
      (∀ g d, s.t.log.getLast? = some (.forward g d) →
        ∀ b, s.t.Calls g (s.t.given g d b) b ∨ s.t.Refused g b) ∧
      (∀ g, lastResult g s.t.log = some .ok → ∀ b d, s.t.Calls g d b →
        s.t.conveyor.cur = 0 ∨ s.t.log.getLast? = some (.forward g d)) ∧
      (∀ b, (s.t.turn b).2 = .back →
        (∃ l₁ l₂, (s.t.loopTop.trkFilterRun s.t.current b).1.conveyor.filters =
          l₁ ++ (s.t.turn b).1.current :: s.t.current :: l₂) ∧
        (s.t.turn b).1.log.getLast? = some (.backward (s.t.turn b).1.current .back
          (s.t.loopTop.trkFilterRun s.t.current b).1.dataOut)) ∧
      (∀ g d, s.t.log.getLast? = some (.backward g .back d) → lastResult g s.t.log ≠ some .ok →
        ∀ b, s.t.Calls g (s.t.given g d b) b ∨ s.t.Refused g b) := by
  obtain ⟨hi,hm⟩ := run_marked hrun
  obtain ⟨F,f,R,hat,hmk⟩ := hm.running (.inr hpc)
  have hok := hi.ok (by rw [hpc]; trivial)
  rw [current_eq hat]
  refine ⟨fun b => PhiTrack.turn_forward b hok hat,?_,?_,fun b => PhiTrack.turn_back b hok hat,?_⟩
  · intro g d hl b
    obtain ⟨rfl,rfl⟩ := hmk.moved g d hl
    rcases PhiTrack.turn_due b hok hat with ⟨hmark,-,-⟩ | ⟨hr,-⟩ | ⟨hc,-,-⟩
    · rw [hmk.forward ⟨_,_,hl⟩] at hmark
      cases hmark
    · exact .inr hr
    · exact .inl hc
  · intro g hl b d hc
    rcases PhiTrack.turn_due b hok hat with ⟨-,-,hno⟩ | ⟨-,hno⟩ | ⟨-,hfirst,hdata⟩
    · exact absurd hc (hno g d)
    · exact absurd hc (hno g d)
    · obtain ⟨rfl,rfl⟩ := hdata g d hc
      -- a filter with a result has its instance, so nothing comes between it and the data
      have hran : ¬ s.t.Unopened g := fun hdue => (hmk.known g _ (Event.lastResult_mem hl)).2 hdue.1
      by_cases he : s.t.enteredFwd
      · obtain ⟨g',d',hg⟩ := he
        obtain ⟨rfl,rfl⟩ := hmk.moved g' d' hg
        rw [PhiTrack.given,if_neg hran]
        exact .inr hg
      · left
        rw [hat.cur,hfirst (hmk.here he hl)]
        rfl
  · intro g d hl hne b
    obtain ⟨rfl,rfl⟩ := hmk.back g _ d hl
    rcases PhiTrack.turn_due b hok hat with ⟨hmark,-,-⟩ | ⟨hr,-⟩ | ⟨hc,-,-⟩
    · exact absurd (hmk.result g hmark) hne
    · exact .inr hr
    · exact .inl hc

/-- A filter that hands on three bytes. -/
private def threeBytes : Behaviour where
  openAdds := []
  openOut := .null
  openError := none
  openRet := .obj 1
  adds := []
  dataIn := .null
  dataOut := ⟨100,3⟩
  setError := none
  ret := .data

/-- The second filter of a chain gets the data that the first one hands on, unless its `open()`
puts other data in the place of them. -/
theorem handover_second_filter :
    ∃ s, Machine.run step (create [⟨"file.read",true,true⟩,⟨"ui",true,true⟩])
        [.start,.enter,.turn threeBytes] = some s ∧
      ∀ b, s.t.Calls 1 (b.openIn.getD ⟨100,3⟩) b ∨ s.t.Refused 1 b :=
  have hrun : Machine.run step (create [⟨"file.read",true,true⟩,⟨"ui",true,true⟩])
      [.start,.enter,.turn threeBytes] = some _ := rfl
  ⟨_,rfl,(handover hrun rfl).2.1 1 ⟨100,3⟩ rfl⟩

/-- Data that moved forward into a filter are not processed there if its `open()` is skipped or
consumes them. -/
theorem forward_into_skipped_filter :
    ∃ s, Machine.run step
        (create [⟨"file.read",true,true⟩,⟨"tee",true,true⟩,⟨"ui",true,true⟩])
        [.start,.enter,.turn threeBytes] = some s ∧
      s.t.log.getLast? = some (.forward 1 ⟨100,3⟩) ∧
      ¬ s.t.Calls 1 ⟨100,3⟩ { threeBytes with openRet := .skip } ∧
      ¬ s.t.Calls 1 ⟨100,3⟩ { threeBytes with openIn := some ⟨100,0⟩ } ∧
      (s.t.turn { threeBytes with openRet := .skip }).1.conveyor.filters = [0,2] := by
  refine ⟨_,rfl,rfl,?_,?_,rfl⟩ <;> rintro ⟨o,es,rest,he,rfl | rfl⟩ <;> cases he

end TrackRun

end Phiola
