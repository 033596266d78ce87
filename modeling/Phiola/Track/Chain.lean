import Phiola.Track.Turn
import Mathlib.Data.List.Perm.Subperm

/-!
# The active chain

The invariant of the conveyor over whole runs of a track: the index of the current filter stays
inside the active list, the list holds distinct entries of the pool in a stable order, and a
filter that left the list is not processed again.
-/

namespace Phiola

namespace Conveyor

/-- The active list holds distinct entries of the pool. -/
structure Ok (v : Conveyor) : Prop where
  nodup : v.filters.Nodup
  mem : ∀ f ∈ v.filters, f < v.iFpool
  bound : v.iFpool ≤ maxFilters

theorem Ok.length_le {v : Conveyor} (h : v.Ok) : v.filters.length ≤ v.iFpool := by
  have hs : v.filters ⊆ List.range v.iFpool := fun f hf => List.mem_range.mpr (h.mem f hf)
  simpa using (List.subperm_of_subset h.nodup hs).length_le

theorem Ok.grows {v v' : Conveyor} {F R a b : List Nat} {f : Nat} (h : v.Ok) (hat : v.At F f R)
    (hg : v.Grows v' F f R a b) : v'.Ok := by
  have hmem : ∀ x ∈ F ++ f :: R, x < v.iFpool := fun x hx => h.mem x (hat.filters ▸ hx)
  have hn : (F ++ f :: R).Nodup := hat.filters ▸ h.nodup
  constructor
  · rw [hg.at'.filters]
    have hd : ∀ x ∈ a ++ b, x ∉ F ++ f :: R := fun x hx hm =>
      absurd (hg.fresh x hx).1 (by have := hmem x hm; omega)
    have hab := hg.nodup
    simp only [List.nodup_append,List.nodup_cons,List.mem_append,List.mem_cons] at *
    grind
  · intro x hx
    have hle := hg.le
    rw [hg.at'.filters] at hx
    have hx' : x ∈ F ++ f :: R ∨ x ∈ a ++ b := by
      simp only [List.mem_append,List.mem_cons] at hx ⊢
      tauto
    rcases hx' with hx' | hx'
    · have := hmem x hx'; omega
    · exact (hg.fresh x hx').2
  · exact hg.bound h.bound

/-- `v'` is a later conveyor: what it keeps of the list of `v` is in the same order, and what it
has beyond it are entries that `v` had not handed out yet. -/
structure Later (v v' : Conveyor) : Prop where
  le : v.iFpool ≤ v'.iFpool
  origin : ∀ x ∈ v'.filters, x ∈ v.filters ∨ v.iFpool ≤ x
  order : (v'.filters.filter (· ∈ v.filters)).Sublist v.filters

theorem Later.refl (v : Conveyor) : Later v v :=
  ⟨Nat.le_refl _,fun _ hx => .inl hx,List.filter_sublist⟩

theorem Later.of_sublist {v v' : Conveyor} (hle : v.iFpool ≤ v'.iFpool)
    (h : v'.filters.Sublist v.filters) : Later v v' :=
  ⟨hle,fun _ hx => .inl (h.subset hx),List.filter_sublist.trans h⟩

theorem Later.trans {u v w : Conveyor} (hu : u.Ok) (h : Later u v) (h' : Later v w) :
    Later u w := by
  refine ⟨Nat.le_trans h.le h'.le,?_,?_⟩
  · intro x hx
    rcases h'.origin x hx with hv | hv
    · exact h.origin x hv
    · exact .inr (Nat.le_trans h.le hv)
  · have hfil : w.filters.filter (· ∈ u.filters) =
        (w.filters.filter (· ∈ v.filters)).filter (· ∈ u.filters) := by
      rw [List.filter_filter]
      apply List.filter_congr
      intro x hx
      by_cases hxu : x ∈ u.filters
      · have hxv : x ∈ v.filters := by
          rcases h'.origin x hx with hv | hv
          · exact hv
          · have := hu.mem x hxu; have := h.le; omega
        simp [hxu,hxv]
      · simp [hxu]
    rw [hfil]
    exact (h'.order.filter _).trans h.order

theorem Later.grows {v v' : Conveyor} {F R a b : List Nat} {f : Nat} (h : v.Ok)
    (hat : v.At F f R) (hg : v.Grows v' F f R a b) : Later v v' := by
  have hold : ∀ x ∈ F ++ f :: R, x ∈ v.filters := fun x hx => hat.filters ▸ hx
  have hnew : ∀ x ∈ a ++ b, x ∉ v.filters := fun x hx hm =>
    absurd (hg.fresh x hx).1 (by have := h.mem x hm; omega)
  refine ⟨hg.le,?_,?_⟩
  · intro x hx
    rw [hg.at'.filters] at hx
    by_cases hx' : x ∈ F ++ f :: R
    · exact .inl (hold x hx')
    · refine .inr (hg.fresh x ?_).1
      simp only [List.mem_append,List.mem_cons] at hx hx' ⊢
      tauto
  · have hnone (l : List Nat) (hl : ∀ x ∈ l, x ∉ v.filters) :
        l.filter (· ∈ v.filters) = [] := by
      simp only [List.filter_eq_nil_iff,decide_eq_true_eq]
      exact hl
    have hall (l : List Nat) (hl : ∀ x ∈ l, x ∈ v.filters) :
        l.filter (· ∈ v.filters) = l := by
      simp only [List.filter_eq_self,decide_eq_true_eq]
      exact hl
    rw [hg.at'.filters]
    simp only [List.filter_append,List.filter_cons]
    rw [hall F (fun x hx => hold x (by simp [hx])),hall R (fun x hx => hold x (by simp [hx])),
      hnone a (fun x hx => hnew x (by simp [hx])),hnone b (fun x hx => hnew x (by simp [hx])),
      if_pos (by simpa using hold f (by simp)),hat.filters]
    simp

end Conveyor

namespace PhiTrack

theorem RunSpec.grows {t : PhiTrack} {f : Nat} {F R : List Nat} {b : Behaviour}
    {p : PhiTrack × PhiR} (h : RunSpec t f F R b p) (hat : t.conveyor.At F f R) :
    ∃ x a c, (t.conveyor.setFilter f x).Grows p.1.conveyor F f R a c := by
  cases h with
  | skip hm hF => exact ⟨_,[],[],Conveyor.Grows.refl (hat.setFilter f _)⟩
  | refused t' r a c hnone hopen hret hg => exact ⟨_,a,c,hg⟩
  | called t' o es a c hobj hdue hg => exact ⟨_,a,c,hg⟩

/-- The filters that a result removes from the chain. -/
def dropped (F : List Nat) (f : Nat) : PhiR → List Nat
  | .done => [f]
  | .lastout => F ++ [f]
  | _ => []

/-- The list after `trk_filter_handle_result()`, and where the conveyor stands if the loop
goes on. -/
theorem HandleSpec.chain {t : PhiTrack} {f : Nat} {F R : List Nat} {r : PhiR}
    {h : PhiTrack × PhiR} (hs : HandleSpec t f F R r h) (hat : t.conveyor.At F f R)
    (hok : t.conveyor.Ok) :
    h.1.conveyor.iFpool = t.conveyor.iFpool ∧ h.1.conveyor.filters.Sublist t.conveyor.filters ∧
      (∀ x ∈ dropped F f r, x ∉ h.1.conveyor.filters) ∧
      (h.2 = .fin ∨ h.2 = .err ∨ ∃ F' g R', h.1.conveyor.At F' g R') := by
  have hn : (F ++ f :: R).Nodup := hat.filters ▸ hok.nodup
  cases hs with
  | doneFwd g R' hR =>
    subst hR
    refine ⟨rfl,?_,?_,.inr (.inr ⟨F,g,R',rfl,rfl⟩)⟩
    · simp only [updConveyor_conveyor,hat.filters]
      exact List.Sublist.append_left (List.sublist_cons_self _ _) _
    · simp only [dropped,List.mem_singleton,forall_eq,updConveyor_conveyor]
      simp only [List.nodup_append,List.nodup_cons,List.mem_append,List.mem_cons] at hn ⊢
      grind
  | doneLast F' g hF hR =>
    subst hF hR
    refine ⟨rfl,?_,?_,.inr (.inr ⟨F',g,[],rfl,rfl⟩)⟩
    · simp only [updConveyor_conveyor,hat.filters]
      exact List.sublist_append_left _ _
    · simp only [dropped,List.mem_singleton,forall_eq,updConveyor_conveyor]
      simp only [List.nodup_append,List.nodup_cons,List.mem_append,List.mem_cons] at hn ⊢
      grind
  | doneFin hF hR => exact ⟨rfl,by simp,by simp [dropped],.inl rfl⟩
  | lastoutFwd g R' hR =>
    subst hR
    refine ⟨rfl,?_,?_,.inr (.inr ⟨[],g,R',rfl,rfl⟩)⟩
    · simp only [updConveyor_conveyor,hat.filters]
      exact (List.sublist_cons_self _ _).trans (List.sublist_append_right _ _)
    · simp only [dropped,updConveyor_conveyor]
      intro x hx
      simp only [List.nodup_append,List.nodup_cons,List.mem_append,List.mem_cons] at hn hx ⊢
      grind
  | lastoutFin hR => exact ⟨rfl,by simp,by simp,.inl rfl⟩
  | okFwd g R' hR =>
    subst hR
    refine ⟨rfl,List.Sublist.refl _,by simp [dropped],.inr (.inr ⟨F ++ [f],g,R',?_,?_⟩)⟩
    · simpa using hat.filters
    · simp
  | okLast hR => exact ⟨rfl,List.Sublist.refl _,by simp [dropped],.inr (.inr ⟨F,f,R,hat.setFilter f _⟩)⟩
  | dataFwd g R' hR =>
    subst hR
    refine ⟨rfl,List.Sublist.refl _,by simp [dropped],.inr (.inr ⟨F ++ [f],g,R',?_,?_⟩)⟩
    · simpa using hat.filters
    · simp
  | dataLast hR => exact ⟨rfl,List.Sublist.refl _,by simp [dropped],.inr (.inr ⟨F,f,R,hat⟩)⟩
  | backFirst r hr hF =>
    refine ⟨rfl,List.Sublist.refl _,?_,.inr (.inl rfl)⟩
    rcases hr with rfl | rfl <;> simp [dropped]
  | backPrev r hr F' g hF =>
    subst hF
    refine ⟨rfl,List.Sublist.refl _,?_,.inr (.inr ⟨F',g,f :: R,?_,rfl⟩)⟩
    · rcases hr with rfl | rfl <;> simp [dropped]
    · simpa using hat.filters
  | halt r hr =>
    refine ⟨rfl,List.Sublist.refl _,?_,.inr (.inr ⟨F,f,R,hat⟩)⟩
    rcases hr with rfl | rfl | rfl <;> simp [dropped]

@[simp] theorem handOver_conveyor (t : PhiTrack) (r : PhiR) :
    (t.handOver r).conveyor = t.conveyor := by cases r <;> rfl

@[simp] theorem handOver_log (t : PhiTrack) (r : PhiR) : (t.handOver r).log = t.log := by
  cases r <;> rfl

theorem turn_conveyor (t : PhiTrack) (b : Behaviour) : (t.turn b).1.conveyor =
    ((t.loopTop.trkFilterRun t.current b).1.trkFilterHandleResult t.current
      (t.loopTop.trkFilterRun t.current b).2).1.conveyor := by
  simp [turn,current]

theorem turn_result (t : PhiTrack) (b : Behaviour) : (t.turn b).2 =
    ((t.loopTop.trkFilterRun t.current b).1.trkFilterHandleResult t.current
      (t.loopTop.trkFilterRun t.current b).2).2 := by
  simp [turn,current]

/-- One turn, as the two halves the source has: the filter runs, then its result is handled. -/
theorem turn_halves {t : PhiTrack} {F R : List Nat} {f : Nat} (b : Behaviour) (hok : t.conveyor.Ok)
    (hat : t.conveyor.At F f R) :
    ∃ p x a c, t.loopTop.trkFilterRun f b = p ∧ RunSpec t.loopTop f F R b p ∧
      (t.conveyor.setFilter f x).Grows p.1.conveyor F f R a c ∧
      HandleSpec p.1 f (F ++ a) (c ++ R) p.2 (p.1.trkFilterHandleResult f p.2) := by
  have hat' : t.loopTop.conveyor.At F f R := by simpa using hat
  have hf : f < t.loopTop.conveyor.iFpool := by
    simpa using hok.mem f (by simp [hat.filters])
  have hrun := trkFilterRun_spec b hat' hf
  obtain ⟨x,a,c,hg⟩ := hrun.grows hat'
  rw [loopTop_conveyor] at hg
  exact ⟨_,x,a,c,rfl,hrun,hg,trkFilterHandleResult_spec _ hg.at'⟩

/-- A turn keeps the chain well formed and leaves the conveyor on a filter unless the run ends. -/
theorem turn_chain {t : PhiTrack} {F R : List Nat} {f : Nat} (b : Behaviour) (hok : t.conveyor.Ok)
    (hat : t.conveyor.At F f R) :
    (t.turn b).1.conveyor.Ok ∧ Conveyor.Later t.conveyor (t.turn b).1.conveyor ∧
      ((t.turn b).2 = .fin ∨ (t.turn b).2 = .err ∨
        ∃ F' g R', (t.turn b).1.conveyor.At F' g R') := by
  have hcur := current_eq hat
  obtain ⟨p,x,a,c,hp,-,hg,hh⟩ := turn_halves b hok hat
  have hok' : (t.conveyor.setFilter f x).Ok := ⟨hok.nodup,hok.mem,hok.bound⟩
  have hokp := hok'.grows (hat.setFilter f x) hg
  have hl := Conveyor.Later.grows hok' (hat.setFilter f x) hg
  have hlater : Conveyor.Later t.conveyor p.1.conveyor := ⟨hl.le,hl.origin,hl.order⟩
  obtain ⟨hi,hsub,-,hpos⟩ := hh.chain hg.at' hokp
  rw [turn_conveyor,turn_result,hcur,hp]
  refine ⟨⟨hsub.nodup hokp.nodup,?_,hi ▸ hokp.bound⟩,?_,hpos⟩
  · intro y hy
    rw [hi]
    exact hokp.mem y (hsub.subset hy)
  · exact hlater.trans hok (Conveyor.Later.of_sublist (Nat.le_of_eq hi.symm) hsub)

theorem HandleSpec.log {t : PhiTrack} {f : Nat} {F R : List Nat} {r : PhiR}
    {h : PhiTrack × PhiR} (hs : HandleSpec t f F R r h) : h.1.log = t.log := by
  cases hs <;> rfl

theorem moveEvent_noProcess (t : PhiTrack) (r : PhiR) :
    ∀ e ∈ t.moveEvent r, ∀ f o d, e ≠ .process f o d := by
  cases r <;> simp [moveEvent]

/-- The events of a turn: those of the filter that ran, then the move. -/
theorem turn_log (t : PhiTrack) (b : Behaviour) : ∃ (u : PhiTrack) (r : PhiR), (t.turn b).1.log =
    ((t.loopTop.trkFilterRun t.current b).1.trkFilterHandleResult t.current
      (t.loopTop.trkFilterRun t.current b).2).1.log ++ u.moveEvent r := by
  have hcur : t.loopTop.current = t.current := by simp [current]
  unfold turn
  dsimp only
  rw [hcur,emit_log,handOver_log]
  exact ⟨_,_,rfl⟩

/-- A turn on filter `f` calls no other filter's `process()`. -/
theorem turn_process {t : PhiTrack} {F R : List Nat} {f : Nat} (b : Behaviour)
    (hok : t.conveyor.Ok) (hat : t.conveyor.At F f R) :
    ∃ es, (t.turn b).1.log = t.log ++ es ∧ ∀ g o d, Event.process g o d ∈ es → g = f := by
  obtain ⟨u,r,hlog⟩ := turn_log t b
  obtain ⟨p,x,a,c,hp,hrun,-,hh⟩ := turn_halves b hok hat
  rw [current_eq hat,hp,hh.log] at hlog
  have hmove : ∀ g o d, Event.process g o d ∉ u.moveEvent r := fun g o d hm =>
    moveEvent_noProcess u r _ hm g o d rfl
  cases hrun with
  | skip hm hF => exact ⟨u.moveEvent r,by simpa using hlog,fun g o d h => absurd h (hmove g o d)⟩
  | refused t' r' a' c' hnone hopen hret hg hl =>
    exact ⟨u.moveEvent r,by simpa [hl] using hlog,fun g o d h => absurd h (hmove g o d)⟩
  | called t' o es a' c' hobj hdue hg hl =>
    refine ⟨es ++ [Event.process f o (t.given f t.dataIn b),Event.result f b.ret] ++ u.moveEvent r,?_,?_⟩
    · simpa [hl] using hlog
    · intro g o' d hm
      have hes : Event.process g o' d ∉ es := by
        rcases hobj with ⟨-,rfl⟩ | ⟨-,rfl⟩ <;> simp
      simp only [List.mem_append,List.mem_cons,List.not_mem_nil,or_false,Event.process.injEq,
        reduceCtorEq] at hm
      rcases hm with (hm | hm) | hm
      · exact absurd hm hes
      · exact hm.1
      · exact absurd hm (hmove g o' d)

/-- What holds of a track and is kept when one filter is closed holds after all are closed. -/
theorem conveyorClose_induct {P : PhiTrack → Prop} (hstep : ∀ t i, P t → P (t.closeFilter i))
    (t : PhiTrack) (h : P t) : P t.conveyorClose :=
  List.foldlRecOn _ _ h fun u hu i _ => hstep u i hu

theorem closeFilter_keeps (t : PhiTrack) (i : Nat) :
    (t.closeFilter i).conveyor.iFpool = t.conveyor.iFpool ∧
      (t.closeFilter i).conveyor.filters.length = t.conveyor.filters.length ∧
      (t.closeFilter i).state = t.state ∧ (t.closeFilter i).error = t.error := by
  cases ho : (t.conveyor.filtersPool i).obj with
  | none => simp [closeFilter,ho]
  | some o => by_cases hc : (t.conveyor.filtersPool i).iface.hasClose = true <;> simp [closeFilter,ho,hc]

theorem conveyorClose_log (t : PhiTrack) : ∃ es, t.conveyorClose.log = t.log ++ es ∧
    ∀ e ∈ es, ∃ f o, e = .close f o := by
  refine conveyorClose_induct (P := fun u => ∃ es, u.log = t.log ++ es ∧
    ∀ e ∈ es, ∃ f o, e = .close f o) ?_ t ⟨[],by simp,by simp⟩
  rintro u i ⟨es,hes,hcl⟩
  cases ho : (u.conveyor.filtersPool i).obj with
  | none => exact ⟨es,by simpa [closeFilter,ho] using hes,hcl⟩
  | some o =>
    by_cases hc : (u.conveyor.filtersPool i).iface.hasClose = true
    · refine ⟨es ++ [Event.close i o],by simp [closeFilter,ho,hc,hes],?_⟩
      intro e he
      rcases List.mem_append.mp he with he | he
      · exact hcl e he
      · exact ⟨i,o,List.mem_singleton.mp he⟩
    · exact ⟨es,by simpa [closeFilter,ho,hc] using hes,hcl⟩

theorem conveyorClose_keeps (t : PhiTrack) :
    t.conveyorClose.conveyor.iFpool = t.conveyor.iFpool ∧
      t.conveyorClose.conveyor.filters.length = t.conveyor.filters.length ∧
      t.conveyorClose.state = t.state ∧ t.conveyorClose.error = t.error := by
  refine conveyorClose_induct (P := fun u => u.conveyor.iFpool = t.conveyor.iFpool ∧
    u.conveyor.filters.length = t.conveyor.filters.length ∧ u.state = t.state ∧
    u.error = t.error) ?_ t ⟨rfl,rfl,rfl,rfl⟩
  intro u i hu
  have := closeFilter_keeps u i
  exact ⟨this.1.trans hu.1,this.2.1.trans hu.2.1,this.2.2.1.trans hu.2.2.1,
    this.2.2.2.trans hu.2.2.2⟩

end PhiTrack

/-- The conveyor is not closed yet, so the active list is the chain of the track. -/
def Pc.isOpen : Pc → Prop
  | .created | .idle | .loop | .fin => True
  | _ => False

namespace TrackRun

open PhiTrack (current_eq)

structure Inv (s : TrackRun) : Prop where
  ok : s.pc.isOpen → s.t.conveyor.Ok
  here : s.pc = .idle ∨ s.pc = .loop → ∃ F f R, s.t.conveyor.At F f R
  created : s.pc = .created → s.t.conveyor.cur = -1
  waiting : s.pc = .finished → s.t.state = .finished
  count : s.t.conveyor.filters.length ≤ s.t.conveyor.iFpool ∧ s.t.conveyor.iFpool ≤ maxFilters

theorem Inv.of_ok {s : TrackRun} (hok : s.t.conveyor.Ok)
    (here : s.pc = .idle ∨ s.pc = .loop → ∃ F f R, s.t.conveyor.At F f R)
    (created : s.pc = .created → s.t.conveyor.cur = -1) (hpc : s.pc.isOpen) : Inv s :=
  ⟨fun _ => hok,here,created,fun h => absurd hpc (by simp [h,Pc.isOpen]),hok.length_le,hok.bound⟩

theorem Inv.of_closed {s : TrackRun} (hpc : ¬ s.pc.isOpen)
    (waiting : s.pc = .finished → s.t.state = .finished) {v : Conveyor} (hv : v.filters.length ≤
    v.iFpool ∧ v.iFpool ≤ maxFilters) (hi : s.t.conveyor.iFpool = v.iFpool)
    (hl : s.t.conveyor.filters.length = v.filters.length) : Inv s where
  ok h := absurd h hpc
  here h := absurd (by rcases h with h | h <;> rw [h] <;> trivial) hpc
  created h := absurd (by rw [h]; trivial) hpc
  waiting := waiting
  count := by omega

theorem addAll_init {v : Conveyor} (hcur : v.cur = -1) (hok : v.Ok)
    (adds : List (Option PhiFilter × FilterPos)) :
    (v.addAll adds).cur = -1 ∧ (v.addAll adds).Ok ∧ v.filters.length ≤ (v.addAll adds).filters.length ∧
      (v.iFpool = v.filters.length → (v.addAll adds).iFpool = (v.addAll adds).filters.length) := by
  induction adds generalizing v with
  | nil => exact ⟨hcur,hok,Nat.le_refl _,id⟩
  | cons x adds ih =>
    obtain ⟨iface,flags⟩ := x
    cases iface with
    | none => exact ih hcur hok
    | some i =>
      by_cases hmax : v.iFpool = maxFilters
      · have : (v.trackFilter (some i) flags).1 = v := by
          simp [Conveyor.trackFilter,Conveyor.trkFilterAdd,hmax]
        rw [Conveyor.addAll_cons,this]
        exact ih hcur hok
      · have hv : (v.trackFilter (some i) flags).1 = { v with
            filtersPool := Function.update v.filtersPool v.iFpool ⟨i,none,false⟩
            iFpool := v.iFpool + 1
            filters := v.filters ++ [v.iFpool] } := by
          simp [Conveyor.trackFilter,Conveyor.trkFilterAdd,hmax,hcur]
        have hb := hok.bound
        have hnew : v.iFpool ∉ v.filters := fun hm => by have := hok.mem _ hm; omega
        have := ih (v := (v.trackFilter (some i) flags).1) (by rw [hv]; exact hcur) (by
          rw [hv]
          refine ⟨?_,?_,by dsimp only; omega⟩
          · simpa [List.nodup_append,hok.nodup] using fun a ha (he : a = v.iFpool) => hnew (he ▸ ha)
          · intro y hy
            simp only [List.mem_append,List.mem_singleton] at hy
            rcases hy with hy | hy
            · have := hok.mem y hy; dsimp only; omega
            · dsimp only; omega)
        rw [Conveyor.addAll_cons]
        refine ⟨this.1,this.2.1,?_,?_⟩
        · have h := this.2.2.1
          rw [hv] at h ⊢
          simp only [List.length_append,List.length_singleton] at h
          omega
        · intro heq
          exact this.2.2.2 (by rw [hv]; simp [heq])

theorem create_inv (ifs : List PhiFilter) : Inv (create ifs) := by
  have hinit : Conveyor.init.Ok := ⟨List.nodup_nil,by simp [Conveyor.init],Nat.zero_le _⟩
  have h := addAll_init (v := Conveyor.init) rfl hinit (ifs.map fun i => (some i,.next))
  exact Inv.of_ok h.2.1 (by simp [create]) (fun _ => h.1) trivial

theorem start_inv {s : TrackRun} (h : Inv s) (hpc : s.pc = .created) : Inv s.start := by
  unfold start
  split
  · exact h
  · rename_i hne
    have hok := h.ok (by rw [hpc]; trivial)
    have hok' : ({ s.t.conveyor with cur := 0 } : Conveyor).Ok := ⟨hok.nodup,hok.mem,hok.bound⟩
    refine Inv.of_ok hok' (fun _ => ?_) (by simp) trivial
    cases hf : s.t.conveyor.filters with
    | nil => simp [hf] at hne
    | cons f R => exact ⟨[],f,R,by simp [hf],rfl⟩

/-- The state that `stop()` leaves is the same but for the state word. -/
@[simp] theorem stop_conveyor (t : PhiTrack) : (stop t).conveyor = t.conveyor := by
  unfold stop; split <;> rfl

@[simp] theorem stop_log (t : PhiTrack) : (stop t).log = t.log := by unfold stop; split <;> rfl

theorem stop_finished {t : PhiTrack} (h : t.state = .finished) : (stop t).state = .finished := by
  simp [stop,h]

theorem turn_inv {s : TrackRun} (b : Behaviour) (h : Inv s) (hpc : s.pc = .loop) :
    Inv ⟨(s.t.turn b).1,afterTurn (s.t.turn b).2⟩ := by
  obtain ⟨F,f,R,hat⟩ := h.here (.inr hpc)
  obtain ⟨hok,-,hpos⟩ := PhiTrack.turn_chain b (h.ok (by rw [hpc]; trivial)) hat
  refine Inv.of_ok hok ?_ ?_ ?_
  · intro hl
    rcases hpos with hr | hr | hr
    · simp [hr,afterTurn] at hl
    · simp [hr,afterTurn] at hl
    · exact hr
  · cases (s.t.turn b).2 <;> simp [afterTurn]
  · cases (s.t.turn b).2 <;> trivial

theorem fin_inv {s : TrackRun} (h : Inv s) : Inv (fin s.t) := by
  unfold fin
  split
  · have hk := PhiTrack.conveyorClose_keeps { s.t with
      state := .finished, chainFlags := { s.t.chainFlags with finished := true } }
    exact Inv.of_closed (by simp [Pc.isOpen]) (fun _ => hk.2.2.1) h.count hk.1 hk.2.1
  · exact Inv.of_closed (by simp [Pc.isOpen]) (by simp) h.count rfl rfl

theorem step_inv (s : TrackRun) (a : Act) (s' : TrackRun) (h : Inv s)
    (hs : s.step a = some s') : Inv s' := by
  cases a with
  | start =>
    simp only [step,Option.ite_none_right_eq_some,Option.some.injEq] at hs
    obtain ⟨hpc,rfl⟩ := hs
    exact start_inv h hpc
  | discard =>
    simp only [step,Option.ite_none_right_eq_some,Option.some.injEq] at hs
    obtain ⟨-,rfl⟩ := hs
    exact Inv.of_closed (by simp [Pc.isOpen]) (by simp) h.count rfl rfl
  | enter =>
    simp only [step,Option.ite_none_right_eq_some,Option.some.injEq] at hs
    obtain ⟨hpc,rfl⟩ := hs
    by_cases hst : s.t.state = .finished
    · exact Inv.of_closed (by simp [hst,Pc.isOpen]) (by simp [hst]) h.count rfl rfl
    · have hidle : s.pc = .idle := hpc.resolve_right fun hf => hst (h.waiting hf)
      exact Inv.of_ok (h.ok (by rw [hidle]; trivial)) (fun _ => h.here (.inl hidle))
        (by simp [hst]) (by simp [hst,Pc.isOpen])
  | turn b =>
    simp only [step,Option.ite_none_right_eq_some,Option.some.injEq] at hs
    obtain ⟨hpc,rfl⟩ := hs
    exact turn_inv b h hpc
  | fin =>
    simp only [step,Option.ite_none_right_eq_some,Option.some.injEq] at hs
    obtain ⟨-,rfl⟩ := hs
    exact fin_inv h
  | delTask =>
    simp only [step,Option.ite_none_right_eq_some,Option.some.injEq] at hs
    obtain ⟨-,rfl⟩ := hs
    exact Inv.of_closed (by simp [Pc.isOpen]) (by simp) h.count rfl rfl
  | free =>
    simp only [step,Option.ite_none_right_eq_some,Option.some.injEq] at hs
    obtain ⟨-,rfl⟩ := hs
    have hk := PhiTrack.conveyorClose_keeps s.t
    exact Inv.of_closed (by simp [Pc.isOpen]) (by simp) h.count hk.1 hk.2.1
  | stop =>
    simp only [step,Option.ite_none_left_eq_some,Option.some.injEq] at hs
    obtain ⟨-,rfl⟩ := hs
    refine ⟨fun hp => ?_,fun hp => ?_,fun hp => ?_,fun hp => stop_finished (h.waiting hp),?_⟩
    · rw [stop_conveyor]; exact h.ok hp
    · rw [stop_conveyor]; exact h.here hp
    · rw [stop_conveyor]; exact h.created hp
    · rw [stop_conveyor]; exact h.count

theorem run_inv {ifs : List PhiFilter} {acts : List Act} {s : TrackRun}
    (hrun : Machine.run step (create ifs) acts = some s) : Inv s :=
  Machine.run_invariant step_inv hrun (create_inv ifs)

/-- From a chain that is still open back to every earlier one. -/
def Since (s s' : TrackRun) : Prop :=
  Inv s → Inv s' ∧ (s'.pc.isOpen → s.pc.isOpen ∧ Conveyor.Later s.t.conveyor s'.t.conveyor)

theorem step_since {s s' : TrackRun} {a : Act} (hs : s.step a = some s') : Since s s' := by
  intro h
  refine ⟨step_inv s a s' h hs,fun hopen => ?_⟩
  have hsame {v : Conveyor} (hi : v.iFpool = s.t.conveyor.iFpool)
      (hf : v.filters = s.t.conveyor.filters) : Conveyor.Later s.t.conveyor v :=
    Conveyor.Later.of_sublist (Nat.le_of_eq hi.symm) (hf ▸ List.Sublist.refl _)
  cases a with
  | start =>
    simp only [step,Option.ite_none_right_eq_some,Option.some.injEq] at hs
    obtain ⟨hpc,rfl⟩ := hs
    refine ⟨by rw [hpc]; trivial,?_⟩
    unfold start
    split
    · exact hsame rfl rfl
    · exact hsame rfl rfl
  | discard =>
    simp only [step,Option.ite_none_right_eq_some,Option.some.injEq] at hs
    obtain ⟨-,rfl⟩ := hs
    exact absurd hopen (by simp [Pc.isOpen])
  | enter =>
    simp only [step,Option.ite_none_right_eq_some,Option.some.injEq] at hs
    obtain ⟨hpc,rfl⟩ := hs
    refine ⟨?_,hsame rfl rfl⟩
    rcases hpc with hpc | hpc
    · rw [hpc]; trivial
    · simp [h.waiting hpc,Pc.isOpen] at hopen
  | turn b =>
    simp only [step,Option.ite_none_right_eq_some,Option.some.injEq] at hs
    obtain ⟨hpc,rfl⟩ := hs
    obtain ⟨F,f,R,hat⟩ := h.here (.inr hpc)
    have hok := h.ok (by rw [hpc]; trivial)
    exact ⟨by rw [hpc]; trivial,(PhiTrack.turn_chain b hok hat).2.1⟩
  | fin =>
    simp only [step,Option.ite_none_right_eq_some,Option.some.injEq] at hs
    obtain ⟨-,rfl⟩ := hs
    unfold fin at hopen
    split at hopen <;> exact absurd hopen (by simp [Pc.isOpen])
  | delTask =>
    simp only [step,Option.ite_none_right_eq_some,Option.some.injEq] at hs
    obtain ⟨-,rfl⟩ := hs
    exact absurd hopen (by simp [Pc.isOpen])
  | free =>
    simp only [step,Option.ite_none_right_eq_some,Option.some.injEq] at hs
    obtain ⟨-,rfl⟩ := hs
    exact absurd hopen (by simp [Pc.isOpen])
  | stop =>
    simp only [step,Option.ite_none_left_eq_some,Option.some.injEq] at hs
    obtain ⟨-,rfl⟩ := hs
    exact ⟨hopen,hsame (by simp) (by simp)⟩

theorem run_since {s s' : TrackRun} {acts : List Act}
    (hrun : Machine.run step s acts = some s') : Since s s' := by
  refine Machine.run_relation (I := fun _ => True) (R := Since)
    (fun s a s' _ hs => ⟨trivial,step_since hs⟩) ?_ ?_ hrun trivial
  · exact fun s h => ⟨h,fun ho => ⟨ho,Conveyor.Later.refl _⟩⟩
  · intro s t u hst htu h
    obtain ⟨ht,h1⟩ := hst h
    obtain ⟨hu,h2⟩ := htu ht
    refine ⟨hu,fun ho => ?_⟩
    obtain ⟨hto,hl2⟩ := h2 ho
    obtain ⟨hso,hl1⟩ := h1 hto
    exact ⟨hso,Conveyor.Later.trans (h.ok hso) hl1 hl2⟩

/-- Filter `f` was handed out and has left the chain. -/
def Gone (f : Nat) (s : TrackRun) : Prop :=
  f < s.t.conveyor.iFpool ∧ (s.pc.isOpen → f ∉ s.t.conveyor.filters)

theorem step_gone {f : Nat} {s s' : TrackRun} {a : Act} (h : Inv s) (hg : Gone f s)
    (hs : s.step a = some s') : Gone f s' ∧
      ∃ es, s'.t.log = s.t.log ++ es ∧ ∀ o d, Event.process f o d ∉ es := by
  have hpool : s.t.conveyor.iFpool ≤ s'.t.conveyor.iFpool ∧
      ∃ es, s'.t.log = s.t.log ++ es ∧ ∀ o d, Event.process f o d ∉ es := by
    cases a with
    | start =>
      simp only [step,Option.ite_none_right_eq_some,Option.some.injEq] at hs
      obtain ⟨-,rfl⟩ := hs
      unfold start
      split <;> exact ⟨Nat.le_refl _,[],by simp⟩
    | discard | enter | delTask =>
      simp only [step,Option.ite_none_right_eq_some,Option.some.injEq] at hs
      obtain ⟨-,rfl⟩ := hs
      exact ⟨Nat.le_refl _,[],by simp⟩
    | turn b =>
      simp only [step,Option.ite_none_right_eq_some,Option.some.injEq] at hs
      obtain ⟨hpc,rfl⟩ := hs
      obtain ⟨F,g,R,hat⟩ := h.here (.inr hpc)
      have hok := h.ok (by rw [hpc]; trivial)
      obtain ⟨es,hlog,hes⟩ := PhiTrack.turn_process b hok hat
      refine ⟨(PhiTrack.turn_chain b hok hat).2.1.le,es,hlog,fun o d hm => ?_⟩
      have hfg : f = g := hes f o d hm
      exact hg.2 (by rw [hpc]; trivial) (by simp [hat.filters,hfg])
    | fin =>
      simp only [step,Option.ite_none_right_eq_some,Option.some.injEq] at hs
      obtain ⟨-,rfl⟩ := hs
      unfold fin
      split
      · have hk := PhiTrack.conveyorClose_keeps { s.t with
          state := .finished, chainFlags := { s.t.chainFlags with finished := true } }
        obtain ⟨es,hlog,hes⟩ := PhiTrack.conveyorClose_log { s.t with
          state := .finished, chainFlags := { s.t.chainFlags with finished := true } }
        refine ⟨Nat.le_of_eq hk.1.symm,es,hlog,fun o d hm => ?_⟩
        obtain ⟨g,o',he⟩ := hes _ hm
        cases he
      · exact ⟨Nat.le_refl _,[],by simp⟩
    | free =>
      simp only [step,Option.ite_none_right_eq_some,Option.some.injEq] at hs
      obtain ⟨-,rfl⟩ := hs
      have hk := PhiTrack.conveyorClose_keeps s.t
      obtain ⟨es,hlog,hes⟩ := PhiTrack.conveyorClose_log s.t
      refine ⟨Nat.le_of_eq hk.1.symm,es,hlog,fun o d hm => ?_⟩
      obtain ⟨g,o',he⟩ := hes _ hm
      cases he
    | stop =>
      simp only [step,Option.ite_none_left_eq_some,Option.some.injEq] at hs
      obtain ⟨-,rfl⟩ := hs
      exact ⟨by simp,[],by simp⟩
  refine ⟨⟨by have := hg.1; omega,fun hopen hm => ?_⟩,hpool.2⟩
  obtain ⟨hso,hl⟩ := (step_since hs h).2 hopen
  rcases hl.origin f hm with hf | hf
  · exact hg.2 hso hf
  · have := hg.1; omega

theorem run_gone {f : Nat} {s s' : TrackRun} {acts : List Act} (h : Inv s) (hg : Gone f s)
    (hrun : Machine.run step s acts = some s') :
    ∃ es, s'.t.log = s.t.log ++ es ∧ ∀ o d, Event.process f o d ∉ es := by
  refine Machine.run_relation (I := fun s => Inv s ∧ Gone f s)
    (R := fun s s' => ∃ es, s'.t.log = s.t.log ++ es ∧ ∀ o d, Event.process f o d ∉ es)
    (fun s a s' hi hs => ?_) (fun s => ⟨[],by simp⟩) ?_ hrun ⟨h,hg⟩
  · obtain ⟨hg',hes⟩ := step_gone hi.1 hi.2 hs
    exact ⟨⟨step_inv s a s' hi.1 hs,hg'⟩,hes⟩
  · rintro s t u ⟨es,he,hn⟩ ⟨es',he',hn'⟩
    refine ⟨es ++ es',by rw [he',he,List.append_assoc],fun o d hm => ?_⟩
    rcases List.mem_append.mp hm with hm | hm
    · exact hn o d hm
    · exact hn' o d hm

/-- The calls of `track->filter()` that the callbacks of one turn on filter `f` can make, each with
the conveyor that it finds. -/
inductive AddSite (t : PhiTrack) (f : Nat) (b : Behaviour) :
    Conveyor → Option PhiFilter × FilterPos → Prop
  | fromOpen {pre post : List (Option PhiFilter × FilterPos)} {a : Option PhiFilter × FilterPos}
      (h : b.openAdds = pre ++ a :: post) :
      AddSite t f b ((t.clearMark f).setFirst.conveyor.addAll pre) a
  | afterOpen {pre post : List (Option PhiFilter × FilterPos)} {a : Option PhiFilter × FilterPos}
      {t' : PhiTrack} {o : Obj} (ho : (t.clearMark f).setFirst.filterOpen f b = (t',.inl o))
      (h : b.adds = pre ++ a :: post) : AddSite t f b (t'.conveyor.addAll pre) a
  | fromProcess {pre post : List (Option PhiFilter × FilterPos)} {a : Option PhiFilter × FilterPos}
      (h : b.adds = pre ++ a :: post) :
      AddSite t f b ((t.clearMark f).setFirst.conveyor.addAll pre) a

/-- A call of `track->filter()` by `f` is rejected and changes nothing, or the new entry stands
directly after `f` for `NEXT` and directly before it for `PREV`. -/
def AddedBeside (v : Conveyor) (f : Nat) (a : Option PhiFilter × FilterPos) : Prop :=
  (v.trackFilter a.1 a.2).1 = v ∧ (v.trackFilter a.1 a.2).2 = 0 ∧
      (a.1 = none ∨ v.iFpool = maxFilters) ∨
    ∃ l₁ l₂, v.filters = l₁ ++ f :: l₂ ∧ 0 < (v.trackFilter a.1 a.2).2 ∧
      (v.trackFilter a.1 a.2).1.filters = match a.2 with
        | .next => l₁ ++ f :: v.iFpool :: l₂
        | .prev => l₁ ++ v.iFpool :: f :: l₂

theorem addedBeside_of_at {v : Conveyor} {F R : List Nat} {f : Nat} (h : v.At F f R)
    (pre : List (Option PhiFilter × FilterPos)) (a : Option PhiFilter × FilterPos) :
    AddedBeside (v.addAll pre) f a := by
  obtain ⟨p,q,hg⟩ := Conveyor.addAll_grows h pre
  have hat := hg.at'
  rcases Conveyor.trackFilter_cases (v.addAll pre) a.1 a.2 _ _ f hat.filters hat.cur with
    hrej | ⟨i,-,-,hpos,hv⟩
  · exact .inl hrej
  · refine .inr ⟨_,_,hat.filters,hpos,?_⟩
    exact (congrArg Conveyor.filters hv).trans (by cases a.2 <;> rfl)

theorem AddSite.beside {t : PhiTrack} {F R : List Nat} {f : Nat} {b : Behaviour} {v : Conveyor}
    {a : Option PhiFilter × FilterPos} (hs : AddSite t f b v a) (hat : t.conveyor.At F f R)
    (hf : f < t.conveyor.iFpool) : AddedBeside v f a := by
  have hat' : (t.clearMark f).setFirst.conveyor.At F f R := hat.setFilter f _
  cases hs with
  | fromOpen h => exact addedBeside_of_at hat' _ _
  | fromProcess h => exact addedBeside_of_at hat' _ _
  | afterOpen ho h =>
    rcases PhiTrack.filterOpen_spec b hat' hf rfl with ⟨t3,r,p,q,he,-⟩ | ⟨t3,o,p,q,he,-,hg,-⟩
    · rw [he] at ho
      cases ho
    · rw [he] at ho
      cases ho
      exact addedBeside_of_at hg.at' _ _

/-- The filters that the result of a turn removes are those up to the one that ran. -/
theorem turn_gone {s : TrackRun} {b : Behaviour} {f : Nat} (h : Inv s) (hpc : s.pc = .loop)
    {p : PhiTrack × PhiR} (hp : s.t.loopTop.trkFilterRun s.t.current b = p)
    (hf : p.2 = .done ∧ f = s.t.current ∨
      p.2 = .lastout ∧ f ∈ p.1.conveyor.filters.take (p.1.conveyor.cur.toNat + 1)) :
    Gone f ⟨(s.t.turn b).1,afterTurn (s.t.turn b).2⟩ := by
  obtain ⟨F,g,R,hat⟩ := h.here (.inr hpc)
  have hok := h.ok (by rw [hpc]; trivial)
  have hcur := current_eq hat
  obtain ⟨p',x,a,c,hp',-,hg,hh⟩ := PhiTrack.turn_halves b hok hat
  rw [hcur,hp'] at hp
  subst hp
  have hok' : (s.t.conveyor.setFilter g x).Ok := ⟨hok.nodup,hok.mem,hok.bound⟩
  have hokp := hok'.grows (hat.setFilter g x) hg
  obtain ⟨hi,-,hdrop,-⟩ := hh.chain hg.at' hokp
  have hatp := hg.at'
  have hin : f ∈ PhiTrack.dropped (F ++ a) g p'.2 ∧ f ∈ p'.1.conveyor.filters := by
    rcases hf with ⟨hr,rfl⟩ | ⟨hr,hm⟩
    · simp [hr,PhiTrack.dropped,hcur,hatp.filters]
    · have htake : (F ++ a ++ g :: (c ++ R)).take ((F ++ a).length + 1) = F ++ a ++ [g] := by
        rw [List.take_length_add_append]
        simp
      rw [hatp.filters,hatp.cur,Int.toNat_natCast,htake] at hm
      rw [hr,hatp.filters]
      refine ⟨hm,?_⟩
      simp only [List.mem_append,List.mem_cons,List.not_mem_nil] at hm ⊢
      tauto
  constructor
  · rw [PhiTrack.turn_conveyor,hcur,hp',hi]
    exact hokp.mem f hin.2
  · intro _
    rw [PhiTrack.turn_conveyor,hcur,hp']
    exact hdrop f hin.1

/-- The conveyor over every run of a track: the loop finds a current filter, the active list holds
distinct entries of a pool that does not overflow, filters keep their order and are added beside
the one that runs, and what left the chain is not processed again. -/
theorem chain_invariant {ifs : List PhiFilter} {acts : List Act} {s : TrackRun}
    (hrun : Machine.run step (create ifs) acts = some s) :
    (s.pc = .loop → 0 ≤ s.t.conveyor.cur ∧ s.t.conveyor.cur < s.t.conveyor.filters.length) ∧
      (s.pc.isOpen →
        s.t.conveyor.filters.Nodup ∧ ∀ f ∈ s.t.conveyor.filters, f < s.t.conveyor.iFpool) ∧
      (s.t.conveyor.filters.length ≤ s.t.conveyor.iFpool ∧ s.t.conveyor.iFpool ≤ maxFilters) ∧
      (∀ acts' s', Machine.run step s acts' = some s' → s'.pc.isOpen →
        (s'.t.conveyor.filters.filter (· ∈ s.t.conveyor.filters)).Sublist s.t.conveyor.filters) ∧
      (s.pc = .loop → ∀ b v a, AddSite s.t.loopTop s.t.current b v a →
        AddedBeside v s.t.current a) ∧
      (s.pc = .loop → ∀ b p f, s.t.loopTop.trkFilterRun s.t.current b = p →
        (p.2 = .done ∧ f = s.t.current ∨
          p.2 = .lastout ∧ f ∈ p.1.conveyor.filters.take (p.1.conveyor.cur.toNat + 1)) →
        ∀ acts' s', Machine.run step ⟨(s.t.turn b).1,afterTurn (s.t.turn b).2⟩ acts' = some s' →
          ∃ es, s'.t.log = (s.t.turn b).1.log ++ es ∧ ∀ o d, Event.process f o d ∉ es) := by
  have h := run_inv hrun
  refine ⟨fun hpc => ?_,fun ho => ⟨(h.ok ho).nodup,(h.ok ho).mem⟩,h.count,?_,?_,?_⟩
  · obtain ⟨F,f,R,hat⟩ := h.here (.inr hpc)
    rw [hat.filters,hat.cur]
    simp only [List.length_append,List.length_cons]
    omega
  · intro acts' s' hrun' ho
    exact ((run_since hrun' h).2 ho).2.order
  · intro hpc b v a hsite
    obtain ⟨F,f,R,hat⟩ := h.here (.inr hpc)
    have hf : f < s.t.conveyor.iFpool :=
      (h.ok (by rw [hpc]; trivial)).mem f (by simp [hat.filters])
    rw [current_eq hat] at hsite ⊢
    exact hsite.beside (F := F) (R := R) (by simpa using hat) (by simpa using hf)
  · intro hpc b p f hp hf acts' s' hrun'
    exact run_gone (turn_inv b h hpc) (turn_gone h hpc hp hf) hrun'

/-- The reader opens and adds a filter behind itself. -/
private def reader_adds : Behaviour :=
  ⟨[],none,.null,none,.obj 7,[(some ⟨"tee",false,true⟩,.next)],.null,⟨100,3⟩,none,.data⟩

/-- The filter is done in its first turn. -/
private def tee_leaves : Behaviour := ⟨[],none,.null,none,.skip,[],.null,⟨100,3⟩,none,.done⟩

/-- A chain of two filters; the first one adds a third between them, which leaves the chain and is not processed
in what follows. -/
theorem chain_invariant_two_filters :
    ∃ s, Machine.run step (create [⟨"file.read",true,true⟩,⟨"ui",true,true⟩])
        [.start,.enter,.turn reader_adds] = some s ∧ s.t.conveyor.filters = [0,2,1] ∧
      (s.t.turn tee_leaves).1.conveyor.filters = [0,1] ∧
      (0 ≤ s.t.conveyor.cur ∧ s.t.conveyor.cur < s.t.conveyor.filters.length) ∧
      (∀ acts' s', Machine.run step s acts' = some s' → s'.pc.isOpen →
        (s'.t.conveyor.filters.filter (· ∈ s.t.conveyor.filters)).Sublist s.t.conveyor.filters) ∧
      ∀ acts' s', Machine.run step ⟨(s.t.turn tee_leaves).1,afterTurn (s.t.turn tee_leaves).2⟩ acts' =
          some s' →
        ∃ es, s'.t.log = (s.t.turn tee_leaves).1.log ++ es ∧ ∀ o d, Event.process 2 o d ∉ es := by
  have hrun : Machine.run step (create [⟨"file.read",true,true⟩,⟨"ui",true,true⟩])
      [.start,.enter,.turn reader_adds] = some _ := rfl
  obtain ⟨hcur,-,-,horder,-,hgone⟩ := chain_invariant hrun
  exact ⟨_,hrun,rfl,rfl,hcur rfl,horder,hgone rfl tee_leaves _ 2 rfl (.inl ⟨rfl,rfl⟩)⟩

end TrackRun

end Phiola
