import Mathlib.Data.List.Basic
import Mathlib.Order.Defs.PartialOrder

/-!
# Labelled machines

A machine is a partial step function: `step s a = none` when the action `a` cannot be taken
in `s`. A run is the left fold of the step over a list of actions, so the environment's
choices are the list and everything else is computed.
-/

namespace Machine

variable {σ α : Type*}

/-- The state after a list of actions, if each of them can be taken. -/
abbrev run (step : σ → α → Option σ) (s : σ) (as : List α) : Option σ := as.foldlM step s

theorem run_cons_eq_some {step : σ → α → Option σ} {s s' : σ} {a : α} {as : List α} :
    run step s (a :: as) = some s' ↔ ∃ m, step s a = some m ∧ run step m as = some s' := by
  simp [run, List.foldlM_cons, Option.bind_eq_some_iff]

theorem run_append_eq_some {step : σ → α → Option σ} {s s' : σ} {as bs : List α} :
    run step s (as ++ bs) = some s' ↔
      ∃ m, run step s as = some m ∧ run step m bs = some s' := by
  simp [run, List.foldlM_append, Option.bind_eq_some_iff]

theorem run_snoc_eq_some {step : σ → α → Option σ} {s s' : σ} {as : List α} {a : α} :
    run step s (as ++ [a]) = some s' ↔
      ∃ m, run step s as = some m ∧ step m a = some s' := by
  simp [run, List.foldlM_append, Option.bind_eq_some_iff]

/-- The state after a run that can be taken, as a value. -/
theorem run_eq_getD {step : σ → α → Option σ} {s d : σ} {as : List α}
    (h : (run step s as).isSome = true) : run step s as = some ((run step s as).getD d) := by
  obtain ⟨s', hs'⟩ := Option.isSome_iff_exists.mp h
  rw [hs', Option.getD_some]

/-- What every step preserves, every run preserves. -/
theorem run_invariant {step : σ → α → Option σ} {I : σ → Prop}
    (hstep : ∀ s a s', I s → step s a = some s' → I s')
    {s s' : σ} {as : List α} (hrun : run step s as = some s') (hs : I s) : I s' := by
  induction as generalizing s with
  | nil => simp only [run, List.foldlM_nil, Option.pure_def, Option.some.injEq] at hrun; exact hrun ▸ hs
  | cons a as ih =>
    obtain ⟨m, hm, hrest⟩ := run_cons_eq_some.mp hrun
    exact ih hrest (hstep s a m hs hm)

/-- A reflexive and transitive relation that holds across each step holds across a run. The
step may use an invariant of its source. -/
theorem run_relation {step : σ → α → Option σ} {I : σ → Prop} {R : σ → σ → Prop}
    (hstep : ∀ s a s', I s → step s a = some s' → I s' ∧ R s s')
    (hrefl : ∀ s, R s s) (htrans : ∀ s t u, R s t → R t u → R s u)
    {s s' : σ} {as : List α} (hrun : run step s as = some s') (hs : I s) : R s s' := by
  induction as generalizing s with
  | nil =>
    simp only [run, List.foldlM_nil, Option.pure_def, Option.some.injEq] at hrun
    exact hrun ▸ hrefl s
  | cons a as ih =>
    obtain ⟨m, hm, hrest⟩ := run_cons_eq_some.mp hrun
    have h := hstep s a m hs hm
    exact htrans s m s' h.2 (ih hrest h.1)

/-- Every action of the run is taken in a state that meets the condition `C`. -/
def AllSteps (step : σ → α → Option σ) (C : σ → α → Prop) : σ → List α → Prop
  | _, [] => True
  | s, a :: as => C s a ∧ ∀ s', step s a = some s' → AllSteps step C s' as

instance decidableAllSteps {step : σ → α → Option σ} {C : σ → α → Prop}
    [∀ s a, Decidable (C s a)] : ∀ s as, Decidable (AllSteps step C s as)
  | _, [] => inferInstanceAs (Decidable True)
  | s, a :: as =>
    have (s' : σ) : Decidable (AllSteps step C s' as) := decidableAllSteps s' as
    inferInstanceAs (Decidable (C s a ∧ ∀ s' ∈ step s a, AllSteps step C s' as))

theorem AllSteps.mono {step : σ → α → Option σ} {C D : σ → α → Prop}
    (hCD : ∀ s a, C s a → D s a) {s : σ} {as : List α} (h : AllSteps step C s as) :
    AllSteps step D s as := by
  induction as generalizing s with
  | nil => trivial
  | cons a as ih => exact ⟨hCD s a h.1, fun s' hs' => ih (h.2 s' hs')⟩

theorem AllSteps.and {step : σ → α → Option σ} {C D : σ → α → Prop} {s : σ} {as : List α}
    (hC : AllSteps step C s as) (hD : AllSteps step D s as) :
    AllSteps step (fun s a => C s a ∧ D s a) s as := by
  induction as generalizing s with
  | nil => trivial
  | cons a as ih => exact ⟨⟨hC.1, hD.1⟩, fun s' hs' => ih (hC.2 s' hs') (hD.2 s' hs')⟩

/-- A condition on the actions alone. -/
theorem AllSteps.of_forall {step : σ → α → Option σ} {C : α → Prop} {s : σ} {as : List α}
    (h : ∀ a ∈ as, C a) : AllSteps step (fun _ a => C a) s as := by
  induction as generalizing s with
  | nil => trivial
  | cons a as ih =>
    exact ⟨h a List.mem_cons_self, fun s' _ => ih fun b hb => h b (List.mem_cons_of_mem a hb)⟩

/-- What every step under the condition preserves, every run under the condition preserves. -/
theorem guarded_invariant {step : σ → α → Option σ} {C : σ → α → Prop} {I : σ → Prop}
    (hstep : ∀ s a s', I s → C s a → step s a = some s' → I s')
    {s s' : σ} {as : List α} (hC : AllSteps step C s as) (hrun : run step s as = some s')
    (hs : I s) : I s' := by
  induction as generalizing s with
  | nil => simp only [run, List.foldlM_nil, Option.pure_def, Option.some.injEq] at hrun; exact hrun ▸ hs
  | cons a as ih =>
    obtain ⟨m, hm, hrest⟩ := run_cons_eq_some.mp hrun
    exact ih (hC.2 m hm) hrest (hstep s a m hs hC.1 hm)

/-- What the condition gives in every state of an invariant, it gives at every step. -/
theorem AllSteps.of_invariant {step : σ → α → Option σ} {C D : σ → α → Prop} {I : σ → Prop}
    (hstep : ∀ s a s', I s → C s a → step s a = some s' → I s')
    (hD : ∀ s a, I s → C s a → D s a) {s : σ} {as : List α} (h : AllSteps step C s as)
    (hs : I s) : AllSteps step D s as := by
  induction as generalizing s with
  | nil => trivial
  | cons a as ih =>
    exact ⟨hD s a hs h.1,fun s' hs' => ih (h.2 s' hs') (hstep s a s' hs h.1 hs')⟩

theorem AllSteps.of_append {step : σ → α → Option σ} {C : σ → α → Prop} {s : σ} {as bs : List α}
    (h : AllSteps step C s (as ++ bs)) : AllSteps step C s as := by
  induction as generalizing s with
  | nil => trivial
  | cons a as ih => exact ⟨h.1,fun s' hs' => ih (h.2 s' hs')⟩

/-- A property of all states of a run gives each step a property that it follows from in the
states before and after the step. -/
theorem AllSteps.of_prefixes {step : σ → α → Option σ} {C : σ → α → Prop} {P : σ → Prop}
    (hC : ∀ s a s', P s → P s' → step s a = some s' → C s a) {s s' : σ} {as : List α}
    (hrun : run step s as = some s')
    (h : ∀ bs, bs <+: as → ∀ m, run step s bs = some m → P m) : AllSteps step C s as := by
  induction as generalizing s with
  | nil => trivial
  | cons a as ih =>
    obtain ⟨m,hm,hrest⟩ := run_cons_eq_some.mp hrun
    have hs := h [] (List.nil_prefix) s rfl
    have hafter := h [a] (by simp) m (run_cons_eq_some.mpr ⟨m,hm,rfl⟩)
    refine ⟨hC s a m hs hafter hm,fun m' hm' => ?_⟩
    obtain rfl := Option.some.inj (hm.symm.trans hm')
    refine ih hrest fun bs hbs n hn => ?_
    exact h (a :: bs) (List.cons_prefix_cons.mpr ⟨rfl,hbs⟩) n (run_cons_eq_some.mpr ⟨m,hm,hn⟩)

end Machine
