import Phiola.Track.Run

/-!
# What one turn of the loop can do

Each property of whole runs is proved from the three facts of this module: how the chain grows
while a callback runs, what `trk_filter_run()` can return and what
`trk_filter_handle_result()` makes of it. Later modules never unfold the source functions again.
-/

namespace Phiola

namespace Conveyor

/-- The current filter is `f`, with `F` before it in the chain and `R` after it. -/
structure At (v : Conveyor) (F : List Nat) (f : Nat) (R : List Nat) : Prop where
  filters : v.filters = F ++ f :: R
  cur : v.cur = F.length

/-- `v'` is `v` after a callback of `f` added `a` before and `b` after the current filter. -/
structure Grows (v v' : Conveyor) (F : List Nat) (f : Nat) (R a b : List Nat) : Prop where
  at' : v'.At (F ++ a) f (b ++ R)
  le : v.iFpool ≤ v'.iFpool
  bound : v.iFpool ≤ maxFilters → v'.iFpool ≤ maxFilters
  fresh : ∀ x ∈ a ++ b, v.iFpool ≤ x ∧ x < v'.iFpool
  nodup : (a ++ b).Nodup
  new : ∀ x, v.iFpool ≤ x → x < v'.iFpool →
    (v'.filtersPool x).obj = none ∧ (v'.filtersPool x).backwardSkip = false
  old : ∀ x, x < v.iFpool ∨ v'.iFpool ≤ x → v'.filtersPool x = v.filtersPool x

theorem Grows.refl {v : Conveyor} {F R : List Nat} {f : Nat} (h : v.At F f R) :
    Grows v v F f R [] [] where
  at' := by simpa using h
  le := Nat.le_refl _
  bound := id
  fresh := by simp
  nodup := by simp
  new := by omega
  old := fun _ _ => rfl

theorem trackFilter_grows {v : Conveyor} {F R : List Nat} {f : Nat} (h : v.At F f R)
    (iface : Option PhiFilter) (flags : FilterPos) :
    ∃ a b, Grows v (v.trackFilter iface flags).1 F f R a b := by
  rcases trackFilter_cases v iface flags F R f h.filters h.cur with ⟨hv,-,-⟩ | ⟨i,-,hmax,-,hv⟩
  · exact ⟨[],[],hv.symm ▸ Grows.refl h⟩
  · have hcur := h.cur
    refine ⟨if flags = .prev then [v.iFpool] else [],if flags = .prev then [] else [v.iFpool],?_⟩
    rw [hv]
    constructor
    · constructor
      · cases flags <;> simp
      · cases flags <;> simp [hcur]
    · simp
    · intro hb
      dsimp only
      omega
    · cases flags <;> simp
    · cases flags <;> simp
    · intro x hx hlt
      have : x = v.iFpool := by dsimp only at hlt; omega
      subst x
      simp
    · intro x hx
      have : x ≠ v.iFpool := by dsimp only at hx; omega
      simp [this]

theorem Grows.trans {v v' v'' : Conveyor} {F R a b a' b' : List Nat} {f : Nat}
    (h : Grows v v' F f R a b) (h' : Grows v' v'' (F ++ a) f (b ++ R) a' b') :
    Grows v v'' F f R (a ++ a') (b' ++ b) where
  at' := by simpa only [List.append_assoc] using h'.at'
  le := Nat.le_trans h.le h'.le
  bound := fun hb => h'.bound (h.bound hb)
  fresh := by
    intro x hx
    have h1 := h.fresh x
    have h2 := h'.fresh x
    have := h.le
    have := h'.le
    simp only [List.mem_append] at hx h1 h2
    rcases hx with (hx | hx) | hx | hx
    · have := h1 (.inl hx); omega
    · have := h2 (.inl hx); omega
    · have := h2 (.inr hx); omega
    · have := h1 (.inr hx); omega
  nodup := by
    have hd : ∀ x ∈ a ++ b, ∀ y ∈ a' ++ b', x ≠ y := by
      intro x hx y hy
      have := (h.fresh x hx).2
      have := (h'.fresh y hy).1
      omega
    have hn := h.nodup
    have hn' := h'.nodup
    simp only [List.nodup_append,List.mem_append] at hn hn' hd ⊢
    grind
  new := by
    intro x hx hlt
    by_cases hm : x < v'.iFpool
    · rw [h'.old x (.inl hm)]
      exact h.new x hx hm
    · exact h'.new x (by omega) hlt
  old := by
    intro x hx
    have := h.le
    have := h'.le
    rw [h'.old x (by omega),h.old x (by omega)]

theorem addAll_grows {v : Conveyor} {F R : List Nat} {f : Nat} (h : v.At F f R)
    (adds : List (Option PhiFilter × FilterPos)) : ∃ a b, Grows v (v.addAll adds) F f R a b := by
  induction adds generalizing v F R with
  | nil => exact ⟨[],[],Grows.refl h⟩
  | cons x adds ih =>
    obtain ⟨a,b,hx⟩ := trackFilter_grows h x.1 x.2
    obtain ⟨a',b',hrest⟩ := ih hx.at'
    exact ⟨a ++ a',b' ++ b,hx.trans hrest⟩

theorem At.setFilter {v : Conveyor} {F R : List Nat} {f : Nat} (h : v.At F f R) (g : Nat)
    (x : Filter) : (v.setFilter g x).At F f R := ⟨h.filters,h.cur⟩

end Conveyor

namespace PhiTrack

@[simp] theorem emit_conveyor (t : PhiTrack) (es : List Event) :
    (t.emit es).conveyor = t.conveyor := rfl
@[simp] theorem emit_log (t : PhiTrack) (es : List Event) : (t.emit es).log = t.log ++ es := rfl
@[simp] theorem emit_dataIn (t : PhiTrack) (es : List Event) : (t.emit es).dataIn = t.dataIn := rfl
@[simp] theorem emit_state (t : PhiTrack) (es : List Event) : (t.emit es).state = t.state := rfl
@[simp] theorem emit_error (t : PhiTrack) (es : List Event) : (t.emit es).error = t.error := rfl
@[simp] theorem emit_chainFlags (t : PhiTrack) (es : List Event) :
    (t.emit es).chainFlags = t.chainFlags := rfl
@[simp] theorem emit_dataOut (t : PhiTrack) (es : List Event) :
    (t.emit es).dataOut = t.dataOut := rfl
@[simp] theorem updConveyor_conveyor (t : PhiTrack) (v : Conveyor) :
    (t.updConveyor v).conveyor = v := rfl
@[simp] theorem updConveyor_log (t : PhiTrack) (v : Conveyor) :
    (t.updConveyor v).log = t.log := rfl
@[simp] theorem updConveyor_dataIn (t : PhiTrack) (v : Conveyor) :
    (t.updConveyor v).dataIn = t.dataIn := rfl
@[simp] theorem updConveyor_dataOut (t : PhiTrack) (v : Conveyor) :
    (t.updConveyor v).dataOut = t.dataOut := rfl
@[simp] theorem updConveyor_state (t : PhiTrack) (v : Conveyor) :
    (t.updConveyor v).state = t.state := rfl
@[simp] theorem updConveyor_error (t : PhiTrack) (v : Conveyor) :
    (t.updConveyor v).error = t.error := rfl
@[simp] theorem updConveyor_chainFlags (t : PhiTrack) (v : Conveyor) :
    (t.updConveyor v).chainFlags = t.chainFlags := rfl

@[simp] theorem loopTop_conveyor (t : PhiTrack) : t.loopTop.conveyor = t.conveyor := by
  unfold loopTop; split <;> rfl
@[simp] theorem loopTop_log (t : PhiTrack) : t.loopTop.log = t.log := by
  unfold loopTop; split <;> rfl
@[simp] theorem loopTop_dataIn (t : PhiTrack) : t.loopTop.dataIn = t.dataIn := by
  unfold loopTop; split <;> rfl
@[simp] theorem loopTop_error (t : PhiTrack) : t.loopTop.error = t.error := by
  unfold loopTop; split <;> rfl
@[simp] theorem loopTop_fwd (t : PhiTrack) : t.loopTop.chainFlags.fwd = t.chainFlags.fwd := by
  unfold loopTop; split <;> rfl

theorem current_eq {t : PhiTrack} {F R : List Nat} {f : Nat} (h : t.conveyor.At F f R) :
    t.current = f := by simp [current,h.filters,h.cur]

/-- The `open()` of filter `f` is still due. -/
def Unopened (t : PhiTrack) (f : Nat) : Prop :=
  (t.conveyor.filtersPool f).obj = none ∧ (t.conveyor.filtersPool f).iface.hasOpen = true

instance (t : PhiTrack) (f : Nat) : Decidable (t.Unopened f) := by unfold Unopened; infer_instance

/-- What `process()` of filter `f` gets of the data `d`: an `open()` that is due may change it. -/
def given (t : PhiTrack) (f : Nat) (d : Ffstr) (b : Behaviour) : Ffstr :=
  if t.Unopened f then b.openIn.getD d else d

@[simp] theorem loopTop_unopened (t : PhiTrack) (f : Nat) : t.loopTop.Unopened f ↔ t.Unopened f := by
  rw [Unopened,Unopened,loopTop_conveyor]

@[simp] theorem loopTop_given (t : PhiTrack) (f : Nat) (d : Ffstr) (b : Behaviour) :
    t.loopTop.given f d b = t.given f d b := by
  simp only [given,loopTop_unopened]

/-- The outcomes of `trk_filter_run()` on filter `f`: the mark sends the loop back, `open()`
gives no instance, or `process()` is called. -/
inductive RunSpec (t : PhiTrack) (f : Nat) (F R : List Nat) (b : Behaviour) :
    PhiTrack × PhiR → Prop
  /-- the filter returned `PHI_OK` last time and is not first in the chain -/
  | skip (hm : (t.conveyor.filtersPool f).backwardSkip = true) (hF : F ≠ []) :
      RunSpec t f F R b (t.updConveyor (t.conveyor.setFilter f
        { t.conveyor.filtersPool f with backwardSkip := false }), .more)
  | refused (t' : PhiTrack) (r : PhiR) (p q : List Nat)
      (hnone : (t.conveyor.filtersPool f).obj = none)
      (hopen : (t.conveyor.filtersPool f).iface.hasOpen = true)
      (hret : b.openRet = .err ∧ r = .err ∨
        b.openRet = .skip ∧ r = .done ∧ t'.dataOut = b.openIn.getD t.dataIn)
      (grows : (t.conveyor.setFilter f
        { t.conveyor.filtersPool f with backwardSkip := false }).Grows t'.conveyor F f R p q)
      (hlog : t'.log = t.log) (hstate : t'.state = t.state)
      (hfwd : t'.chainFlags.fwd = t.chainFlags.fwd) :
      RunSpec t f F R b (t', r)
  | called (t' : PhiTrack) (o : Obj) (es : List Event) (p q : List Nat)
      (hobj : (t.conveyor.filtersPool f).obj = some o ∧ es = [] ∨
        (t.conveyor.filtersPool f).obj = none ∧ es = [.opened f o])
      (hdue : (t.conveyor.filtersPool f).obj = none →
        (t.conveyor.filtersPool f).iface.hasOpen = true → ∃ i, b.openRet = .obj i)
      (grows : (t.conveyor.setFilter f
        ⟨(t.conveyor.filtersPool f).iface, some o, false⟩).Grows t'.conveyor F f R p q)
      (hlog : t'.log = t.log ++ es ++ [Event.process f o (t.given f t.dataIn b), Event.result f b.ret])
      (hout : t'.dataOut = b.dataOut) (hstate : t'.state = t.state)
      (hfwd : t'.chainFlags.fwd = t.chainFlags.fwd)
      (hmark : (t.conveyor.filtersPool f).backwardSkip = true → F = []) :
      RunSpec t f F R b (t', b.ret)

/-- The conveyor that `process()` sees grows like the one that `open()` saw. -/
private theorem grows_setFilter {v v' : Conveyor} {F R p q : List Nat} {f : Nat} {x : Filter}
    (h : v.Grows v' F f R p q) (hf : f < v.iFpool) :
    (v.setFilter f x).Grows (v'.setFilter f x) F f R p q where
  at' := h.at'.setFilter f x
  le := h.le
  bound := h.bound
  fresh := h.fresh
  nodup := h.nodup
  new := by
    intro y hy hlt
    have hne : y ≠ f := by simp only [Conveyor.setFilter_iFpool] at hy; omega
    rw [Conveyor.setFilter_pool_of_ne _ _ hne]
    exact h.new y hy hlt
  old := by
    intro y hy
    by_cases he : y = f
    · subst y; simp
    · rw [Conveyor.setFilter_pool_of_ne _ _ he,Conveyor.setFilter_pool_of_ne _ _ he]
      exact h.old y hy

private theorem setFilter_setFilter (v : Conveyor) (f : Nat) (x y : Filter) :
    (v.setFilter f x).setFilter f y = v.setFilter f y := by
  simp [Conveyor.setFilter]

/-- `open()` from a filter that is not opened yet: no instance, or the pool entry filled in. -/
theorem filterOpen_spec {t : PhiTrack} {f : Nat} {F R : List Nat} {x : Filter}
    (b : Behaviour) (h : t.conveyor.At F f R) (hf : f < t.conveyor.iFpool)
    (hx : t.conveyor.filtersPool f = x) :
    (∃ t' r p q, t.filterOpen f b = (t',.inr r) ∧ x.iface.hasOpen = true ∧
        (b.openRet = .err ∧ r = .err ∨
          b.openRet = .skip ∧ r = .done ∧ t'.dataOut = b.openIn.getD t.dataIn) ∧
        t.conveyor.Grows t'.conveyor F f R p q ∧ t'.log = t.log ∧
        t'.state = t.state ∧ t'.chainFlags = t.chainFlags) ∨
      ∃ t' o p q, t.filterOpen f b = (t',.inl o) ∧
        (x.iface.hasOpen = true → ∃ i, b.openRet = .obj i) ∧
        (t.conveyor.setFilter f { x with obj := some o }).Grows t'.conveyor F f R p q ∧
        t'.log = t.log ++ [Event.opened f o] ∧
        t'.dataIn = (if x.iface.hasOpen then b.openIn.getD t.dataIn else t.dataIn) ∧
        t'.state = t.state ∧ t'.chainFlags = t.chainFlags := by
  unfold filterOpen
  rw [hx]
  split
  · rename_i hopen
    obtain ⟨p,q,hg⟩ := Conveyor.addAll_grows h b.openAdds
    have hxf : (t.conveyor.addAll b.openAdds).filtersPool f = x := by rw [hg.old f (.inl hf),hx]
    cases hr : b.openRet with
    | err => exact .inl ⟨_,_,p,q,rfl,hopen,.inl ⟨rfl,rfl⟩,hg,rfl,rfl,rfl⟩
    | skip => exact .inl ⟨_,_,p,q,rfl,hopen,.inr ⟨rfl,rfl,rfl⟩,hg,rfl,rfl,rfl⟩
    | obj i =>
      refine .inr ⟨_,_,p,q,rfl,fun _ => ⟨i,rfl⟩,?_,rfl,rfl,rfl,rfl⟩
      simp only [emit_conveyor,updConveyor_conveyor,hxf]
      exact grows_setFilter hg hf
  · rename_i hopen
    refine .inr ⟨_,_,[],[],rfl,fun hh => absurd hh hopen,?_,rfl,rfl,rfl,rfl⟩
    exact Conveyor.Grows.refl (h.setFilter f _)

theorem trkFilterRun_spec {t : PhiTrack} {f : Nat} {F R : List Nat} (b : Behaviour)
    (h : t.conveyor.At F f R) (hf : f < t.conveyor.iFpool) :
    RunSpec t f F R b (t.trkFilterRun f b) := by
  have hF : t.conveyor.cur ≠ 0 ↔ F ≠ [] := by
    rw [h.cur,Int.natCast_ne_zero,Ne,List.length_eq_zero_iff]
  unfold trkFilterRun
  dsimp only
  split
  · rename_i hs
    exact .skip hs.1 (hF.mp hs.2)
  · rename_i hs
    have hmark : (t.conveyor.filtersPool f).backwardSkip = true → F = [] := by
      intro hm
      by_contra hne
      exact hs ⟨hm,hF.mpr hne⟩
    generalize hx : t.conveyor.filtersPool f = x at *
    have hv : (t.clearMark f).setFirst.conveyor =
        t.conveyor.setFilter f ⟨x.iface,x.obj,false⟩ := by simp [clearMark,setFirst,hx]
    have hlog : (t.clearMark f).setFirst.log = t.log := rfl
    have hin : (t.clearMark f).setFirst.dataIn = t.dataIn := rfl
    have hst : (t.clearMark f).setFirst.state = t.state := rfl
    have hfl : (t.clearMark f).setFirst.chainFlags.fwd = t.chainFlags.fwd := rfl
    generalize (t.clearMark f).setFirst = t2 at *
    have hat : t2.conveyor.At F f R := hv ▸ h.setFilter f _
    cases ho : x.obj with
    | some o =>
      obtain ⟨p,q,hg⟩ := Conveyor.addAll_grows hat b.adds
      have hgiven : t.given f t.dataIn b = t.dataIn := if_neg (by simp [Unopened,hx,ho])
      refine .called _ o [] p q (.inl ⟨by rw [hx,ho],rfl⟩) (by simp [hx,ho]) ?_
        (by simp [hlog,hin,hgiven]) rfl hst hfl (by rw [hx]; exact hmark)
      rw [hx,← ho,← hv]
      exact hg
    | none =>
      have hx2 : t2.conveyor.filtersPool f = ⟨x.iface,none,false⟩ := by rw [hv]; simp [ho]
      rcases filterOpen_spec b hat (by rw [hv]; exact hf) hx2 with
        ⟨t3,r,p,q,he,hopen,hret,hg,hl,hs',hf'⟩ | ⟨t3,o,p,q,he,hopen,hg,hl,hi,hs',hf'⟩
      · simp only [he]
        refine .refused t3 r p q (by rw [hx,ho]) (by rw [hx]; exact hopen) ?_ ?_ (hl.trans hlog)
          (hs'.trans hst) (by rw [hf',hfl])
        · rwa [hin] at hret
        · rw [hx,← hv]
          exact hg
      · simp only [he]
        obtain ⟨p',q',hg'⟩ := Conveyor.addAll_grows hg.at' b.adds
        have hgiven : t.given f t.dataIn b = t3.dataIn := by
          rw [hi,hin]
          simp [given,Unopened,hx,ho]
        refine .called _ o [.opened f o] (p ++ p') (q' ++ q) (.inr ⟨by rw [hx,ho],rfl⟩)
          (fun _ => by rw [hx]; exact hopen) ?_ (by simp [hl,hlog,hgiven]) rfl
          (hs'.trans hst) (by simp [hf',hfl]) (by rw [hx]; exact hmark)
        have := hg.trans hg'
        rw [hv,setFilter_setFilter] at this
        rw [hx]
        exact this

/-- The outcomes of `trk_filter_handle_result()` for filter `f`, with `F` before it and `R`
after it: where the conveyor stands then, and the code that the loop switches on. -/
inductive HandleSpec (t : PhiTrack) (f : Nat) (F R : List Nat) : PhiR → PhiTrack × PhiR → Prop
  | doneFwd (g : Nat) (R' : List Nat) (hR : R = g :: R') :
      HandleSpec t f F R .done
        (t.updConveyor { t.conveyor with filters := F ++ g :: R', cur := F.length }, .data)
  | doneLast (F' : List Nat) (g : Nat) (hF : F = F' ++ [g]) (hR : R = []) :
      HandleSpec t f F R .done
        (t.updConveyor { t.conveyor with filters := F' ++ [g], cur := F'.length }, .more)
  | doneFin (hF : F = []) (hR : R = []) :
      HandleSpec t f F R .done (t.updConveyor { t.conveyor with filters := [], cur := -1 }, .fin)
  | lastoutFwd (g : Nat) (R' : List Nat) (hR : R = g :: R') :
      HandleSpec t f F R .lastout
        (t.updConveyor { t.conveyor with filters := g :: R', cur := 0 }, .data)
  | lastoutFin (hR : R = []) :
      HandleSpec t f F R .lastout
        (t.updConveyor { t.conveyor with filters := [], cur := -1 }, .fin)
  | okFwd (g : Nat) (R' : List Nat) (hR : R = g :: R') :
      HandleSpec t f F R .ok
        (t.updConveyor { t.conveyor.setFilter f
          { t.conveyor.filtersPool f with backwardSkip := true } with cur := F.length + 1 }, .data)
  | okLast (hR : R = []) :
      HandleSpec t f F R .ok
        (t.updConveyor (t.conveyor.setFilter f
          { t.conveyor.filtersPool f with backwardSkip := true }), .more)
  | dataFwd (g : Nat) (R' : List Nat) (hR : R = g :: R') :
      HandleSpec t f F R .data
        (t.updConveyor { t.conveyor with cur := F.length + 1 }, .data)
  | dataLast (hR : R = []) : HandleSpec t f F R .data (t, .more)
  | backFirst (r : PhiR) (hr : r = .more ∨ r = .back) (hF : F = []) :
      HandleSpec t f F R r (t, .err)
  | backPrev (r : PhiR) (hr : r = .more ∨ r = .back) (F' : List Nat) (g : Nat)
      (hF : F = F' ++ [g]) :
      HandleSpec t f F R r (t.updConveyor { t.conveyor with cur := F'.length }, r)
  | halt (r : PhiR) (hr : r = .async ∨ r = .fin ∨ r = .err) : HandleSpec t f F R r (t, r)

private theorem goFwd_last {t : PhiTrack} (h : t.conveyor.cur + 1 = t.conveyor.filters.length) :
    t.goFwd = (t,.more) := by simp [goFwd,h]

private theorem goFwd_next {t : PhiTrack} (h : t.conveyor.cur + 1 ≠ t.conveyor.filters.length) :
    t.goFwd = (t.updConveyor { t.conveyor with cur := t.conveyor.cur + 1 },.data) := by
  simp [goFwd,h]

theorem trkFilterHandleResult_spec {t : PhiTrack} {f : Nat} {F R : List Nat} (r : PhiR)
    (h : t.conveyor.At F f R) : HandleSpec t f F R r (t.trkFilterHandleResult f r) := by
  have hlen : t.conveyor.filters.length = F.length + 1 + R.length := by
    rw [h.filters]; simp; omega
  have hcur := h.cur
  have hback (r : PhiR) (hr : r = .more ∨ r = .back) : HandleSpec t f F R r
      (if t.conveyor.cur = 0 then (t,.err)
        else (t.updConveyor { t.conveyor with cur := t.conveyor.cur - 1 },r)) := by
    rcases List.eq_nil_or_concat F with hF | ⟨F',g,hF⟩
    · rw [if_pos (by rw [hcur,hF]; rfl)]
      exact .backFirst r hr hF
    · have hl : F.length = F'.length + 1 := by rw [hF]; simp
      rw [if_neg (by omega)]
      have := HandleSpec.backPrev (t := t) (f := f) (R := R) r hr F' g (by simpa using hF)
      rwa [show t.conveyor.cur - 1 = F'.length by omega]
  cases r with
  | done =>
    have hrm : t.conveyor.filters.eraseIdx t.conveyor.cur.toNat = F ++ R := by
      rw [h.filters,hcur,Int.toNat_natCast,List.eraseIdx_append_of_length_le (Nat.le_refl _)]
      simp
    cases R with
    | cons g R' =>
      have := HandleSpec.doneFwd (t := t) (f := f) (F := F) g R' rfl
      simp only [trkFilterHandleResult,hrm,updConveyor_conveyor,List.length_append,List.length_cons]
      rw [if_neg (by omega),goFwd_next (by simp; omega)]
      simpa [updConveyor,hcur] using this
    | nil =>
      rcases List.eq_nil_or_concat F with hF | ⟨F',g,hF⟩
      · subst hF
        have := HandleSpec.doneFin (t := t) (f := f) rfl rfl
        simp only [trkFilterHandleResult,hrm]
        simpa [hcur] using this
      · have hF' : F = F' ++ [g] := by simpa using hF
        subst hF'
        have := HandleSpec.doneLast (t := t) (f := f) F' g rfl rfl
        simp only [trkFilterHandleResult,hrm,updConveyor_conveyor,List.append_nil,
          List.length_append,List.length_cons,List.length_nil]
        rw [if_neg (by omega),goFwd_last (by simp [hcur])]
        simpa [hcur] using this
  | lastout =>
    have hrm : t.conveyor.filters.drop (t.conveyor.cur.toNat + 1) = R := by
      rw [h.filters,hcur,Int.toNat_natCast]
      simp [List.drop_append]
    cases R with
    | cons g R' =>
      have := HandleSpec.lastoutFwd (t := t) (f := f) (F := F) g R' rfl
      simp only [trkFilterHandleResult,hrm,updConveyor_conveyor,List.length_cons]
      rw [if_neg (by omega),goFwd_next (by simp; omega)]
      simpa [updConveyor] using this
    | nil =>
      have := HandleSpec.lastoutFin (t := t) (f := f) (F := F) rfl
      simpa [trkFilterHandleResult,hrm] using this
  | ok =>
    cases R with
    | cons g R' =>
      have := HandleSpec.okFwd (t := t) (f := f) (F := F) g R' rfl
      simp only [trkFilterHandleResult]
      rw [goFwd_next (by simp [hcur,hlen]; omega)]
      simpa [updConveyor,hcur] using this
    | nil =>
      have := HandleSpec.okLast (t := t) (f := f) (F := F) rfl
      simp only [trkFilterHandleResult]
      rwa [goFwd_last (by simp [hcur,hlen])]
  | data =>
    cases R with
    | cons g R' =>
      have := HandleSpec.dataFwd (t := t) (f := f) (F := F) g R' rfl
      simp only [trkFilterHandleResult]
      rw [goFwd_next (by simp [hcur,hlen]; omega)]
      simpa [hcur] using this
    | nil =>
      have := HandleSpec.dataLast (t := t) (f := f) (F := F) rfl
      simp only [trkFilterHandleResult]
      rwa [goFwd_last (by simp [hcur,hlen])]
  | more => exact hback .more (.inl rfl)
  | back => exact hback .back (.inr rfl)
  | async => exact .halt .async (.inl rfl)
  | fin => exact .halt .fin (.inr (.inl rfl))
  | err => exact .halt .err (.inr (.inr rfl))

end PhiTrack

end Phiola
