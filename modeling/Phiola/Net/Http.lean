import Phiola.Framework.Machine

/-!
# The bridge from the HTTP client to the track

The client passes the chunks of a response to `phi_hc_data()` and the filter passes them on to
the track. The two share the place for one chunk and the variables `state` and `fstate`.
-/

namespace Phiola.Http

/-- `enum ST` -/
inductive ST
  | processing
  | wait
  | data
  | err
deriving DecidableEq, Repr

/-- The codes that the data callback returns. -/
inductive Nmlf
  | async
  | back
deriving DecidableEq, Repr

/-- The codes that the filter returns. -/
inductive Code
  | data
  | done
  | async
  | err
deriving DecidableEq, Repr

/-- `struct httpcl` -/
structure Httpcl (α : Type) where
  data : Option α
  state : ST
  fstate : Bool
  done : Bool
  icy : Bool
deriving DecidableEq, Repr

variable {α : Type}

/-- The new state, whether the track is woken and the code. -/
def phi_hc_data (h : Httpcl α) (chunk : α) (last : Bool) : Httpcl α × Bool × Nmlf :=
  if h.fstate then ({h with fstate := false},false,.back)
  else
    let woken := h.state = .wait
    ({h with data := some chunk, done := last, state := .data, fstate := woken},woken,.async)

/-- The new state and whether the track is woken. -/
def on_complete (h : Httpcl α) : Httpcl α × Bool := ({h with state := .err},h.state = .wait)

/-- The new state, the output and the code; `added` is the answer to `core->track->filter()`. -/
def httpcl_process (h : Httpcl α) (added : Bool) : Httpcl α × Option α × Code :=
  match h.state with
  | .data =>
    if h.icy = true ∧ added = false then ({h with icy := false},none,.err)
    else ({h with icy := false, state := .processing},h.data,if h.done then .done else .data)
  | .processing => ({h with state := .wait},none,.async)
  | _ => (h,none,.err)

/-- The client: not started, receiving, or suspended with a chunk that it passes again when it
goes on. -/
inductive Net (α : Type)
  | idle
  | receiving
  | suspended (chunk : α) (last : Bool)
deriving DecidableEq, Repr

/-- `nml_http_client_run()`: the client starts, or goes on when it can. -/
def Net.run : Net α → Net α
  | .idle => .receiving
  | n => n

/-- The bridge, the client and the track. `passed` are the chunks given to the bridge, `emitted`
what the filter put out; `asleep` says that the filter has returned `PHI_ASYNC`, `arrived` that a
chunk or the completion came since then. -/
structure World (α : Type) where
  h : Httpcl α
  net : Net α
  passed : List α
  emitted : List α
  reported : Option Code
  asleep : Bool
  arrived : Bool
  wakes : Nat
deriving DecidableEq, Repr

/-- `httpcl_open()` -/
def init (icy : Bool) : World α :=
  ⟨⟨none,.processing,false,false,icy⟩,.idle,[],[],none,false,false,0⟩

/-- `process` is a call of the filter, `data` a new chunk, `reenter` a call with the chunk with
which the client was suspended. -/
inductive Act (α : Type)
  | process (added : Bool)
  | data (chunk : α) (last : Bool)
  | reenter
  | complete
deriving DecidableEq, Repr

/-- The effect of the data callback. -/
def deliver (w : World α) (chunk : α) (last : Bool) : World α :=
  let r := phi_hc_data w.h chunk last
  {w with
    h := r.1
    wakes := w.wakes + if r.2.1 then 1 else 0
    net := if r.2.2 = .async then .suspended chunk last else .receiving}

def step (w : World α) : Act α → Option (World α)
  | .process added =>
    if w.reported.isSome then none
    else
      let r := httpcl_process w.h added
      some {w with
        h := r.1
        net := if r.2.2 = .async then w.net.run else w.net
        emitted := w.emitted ++ r.2.1.toList
        reported := if r.2.2 = .done ∨ r.2.2 = .err then some r.2.2 else none
        asleep := r.2.2 = .async
        arrived := false
        wakes := 0}
  | .data chunk last =>
    match w.net with
    | .receiving =>
      some {deliver w chunk last with passed := w.passed ++ [chunk], arrived := true}
    | _ => none
  | .reenter =>
    match w.net with
    | .suspended chunk last => some (deliver w chunk last)
    | _ => none
  | .complete =>
    let r := on_complete w.h
    some {w with h := r.1, wakes := w.wakes + if r.2 then 1 else 0, arrived := true}

/-- The chunk that waits for the filter. -/
def pending (h : Httpcl α) : List α := if h.state = .data then h.data.toList else []

/-- The chunks are emitted once and in order, all of them before the end is reported, and a
waiting track is woken once when something arrives. -/
structure Kept (w : World α) : Prop where
  order : w.passed = w.emitted ++ pending w.h
  reported : w.reported.isSome = true → w.emitted = w.passed
  woken : w.asleep = true → w.wakes = if w.arrived then 1 else 0

/-- A chunk comes only while the filter waits for one, the completion does not come while a chunk
is there, the filter is not called while it waits, and it gets its place for the icy filter. -/
def InTurn (w : World α) : Act α → Prop
  | .process added => w.h.state ≠ .wait ∧ (w.h.state = .data → w.h.icy = true → added = true)
  | .data _ _ => w.h.state = .wait
  | .reenter => True
  | .complete => w.h.state ≠ .data

instance (w : World α) : ∀ a, Decidable (InTurn w a)
  | .process added => inferInstanceAs
      (Decidable (w.h.state ≠ .wait ∧ (w.h.state = .data → w.h.icy = true → added = true)))
  | .data _ _ => inferInstanceAs (Decidable (w.h.state = .wait))
  | .reenter => inferInstanceAs (Decidable True)
  | .complete => inferInstanceAs (Decidable (w.h.state ≠ .data))

/-- The client is suspended exactly while the bridge waits for its return, and the filter waits
exactly while nothing has arrived. -/
structure Inv (w : World α) : Prop where
  kept : Kept w
  filled : w.h.state = .data → w.h.data.isSome = true
  suspended : (∃ chunk last, w.net = .suspended chunk last) → w.h.fstate = true
  free : w.net = .idle ∨ w.net = .receiving → w.h.fstate = false
  asleep : w.h.state = .wait ↔ w.asleep = true ∧ w.arrived = false
  closed : w.reported.isSome = true → w.h.state ≠ .wait

theorem inv_init (icy : Bool) : Inv (init icy : World α) where
  kept := ⟨rfl,by simp [init],by simp [init]⟩
  filled := by simp [init]
  suspended := by simp [init]
  free _ := rfl
  asleep := by simp [init]
  closed := by simp [init]

variable {w w' : World α}

theorem inv_data (h : Inv w) {chunk : α} {last : Bool} (hc : w.h.state = .wait)
    (hs : step w (.data chunk last) = some w') : Inv w' := by
  simp only [step] at hs
  split at hs
  · rename_i hnet
    obtain rfl := Option.some.inj hs
    have hf : w.h.fstate = false := h.free (.inr hnet)
    have hempty : pending w.h = [] := by simp [pending,hc]
    have hopen : ¬w.reported.isSome = true := fun hr => h.closed hr hc
    obtain ⟨hasleep,harrived⟩ := h.asleep.mp hc
    have horder := h.kept.order
    have hwakes := h.kept.woken hasleep
    rw [hempty,List.append_nil] at horder
    rw [harrived] at hwakes
    refine ⟨⟨?_,fun hr => (hopen hr).elim,fun _ => ?_⟩,?_,?_,?_,?_,?_⟩
    all_goals simp [deliver,phi_hc_data,hf,hc,pending,horder,hwakes]
  · cases hs

theorem inv_reenter (h : Inv w) (hs : step w .reenter = some w') : Inv w' := by
  simp only [step] at hs
  split at hs
  · rename_i chunk last hnet
    obtain rfl := Option.some.inj hs
    have hf : w.h.fstate = true := h.suspended ⟨chunk,last,hnet⟩
    have hsame : deliver w chunk last =
        {w with h := {w.h with fstate := false}, net := .receiving} := by
      simp [deliver,phi_hc_data,hf]
    rw [hsame]
    exact ⟨⟨h.kept.order,h.kept.reported,h.kept.woken⟩,h.filled,by simp,fun _ => rfl,h.asleep,
      h.closed⟩
  · cases hs

theorem inv_complete (h : Inv w) (hc : w.h.state ≠ .data) (hs : step w .complete = some w') :
    Inv w' := by
  obtain rfl := Option.some.inj hs
  have hempty : pending w.h = [] := by simp [pending,hc]
  have horder := h.kept.order
  rw [hempty] at horder
  refine ⟨⟨?_,h.kept.reported,fun ha => ?_⟩,?_,h.suspended,h.free,?_,?_⟩
  · simpa [on_complete,pending] using horder
  · have hwakes := h.kept.woken ha
    by_cases hw : w.h.state = .wait
    · rw [(h.asleep.mp hw).2] at hwakes
      simp [on_complete,hw,hwakes]
    · have harrived : w.arrived = true := by
        by_contra hn
        exact hw (h.asleep.mpr ⟨ha,Bool.eq_false_iff.mpr hn⟩)
      rw [harrived] at hwakes
      simp [on_complete,hw,hwakes]
  · simp [on_complete]
  · simp [on_complete]
  · simp [on_complete]

/-- The filter is called: it takes the chunk that is there, or waits. -/
theorem inv_process (h : Inv w) {added : Bool} (hc : InTurn w (.process added))
    (hs : step w (.process added) = some w') : Inv w' := by
  obtain ⟨hwait,hicy⟩ := hc
  simp only [step] at hs
  split at hs
  · cases hs
  · rename_i hopen
    obtain rfl := Option.some.inj hs
    have horder := h.kept.order
    cases hst : w.h.state with
    | wait => exact absurd hst hwait
    | data =>
      obtain ⟨chunk,hchunk⟩ := Option.isSome_iff_exists.mp (h.filled hst)
      have hplace : ¬(w.h.icy = true ∧ added = false) := by
        rintro ⟨hi,ha⟩
        rw [hicy hst hi] at ha
        cases ha
      have hr : httpcl_process w.h added = ({w.h with icy := false, state := .processing},
          some chunk,if w.h.done then .done else .data) := by
        simp [httpcl_process,hst,hplace,hchunk]
      have hne : (if w.h.done then Code.done else .data) ≠ .async := by split <;> decide
      rw [hr]
      simp only [pending,hst,if_true,hchunk,Option.toList_some] at horder
      refine ⟨⟨?_,fun _ => ?_,fun ha => ?_⟩,?_,?_,?_,?_,?_⟩
      · simpa [pending] using horder
      · exact horder.symm
      · simp [hne] at ha
      · simp
      · simpa [hne] using h.suspended
      · simpa [hne] using h.free
      · simp [hne]
      · simp
    | processing =>
      have hr : httpcl_process w.h added = ({w.h with state := .wait},none,.async) := by
        simp [httpcl_process,hst]
      rw [hr]
      simp only [pending,hst] at horder
      refine ⟨⟨?_,fun ha => ?_,fun ha => ?_⟩,?_,?_,?_,?_,?_⟩
      · simpa [pending] using horder
      · simp at ha
      · simp
      · simp
      · cases hnet : w.net with
        | suspended chunk last => exact fun _ => h.suspended ⟨chunk,last,hnet⟩
        | _ => simp [Net.run]
      · cases hnet : w.net with
        | suspended chunk last => simp [Net.run]
        | idle => exact fun _ => h.free (.inl hnet)
        | receiving => exact fun _ => h.free (.inr hnet)
      · simp
      · simp
    | err =>
      have hr : httpcl_process w.h added = (w.h,none,.err) := by simp [httpcl_process,hst]
      rw [hr]
      simp only [pending,hst] at horder
      refine ⟨⟨?_,fun _ => ?_,fun ha => ?_⟩,?_,?_,?_,?_,?_⟩
      · simpa [pending,hst] using horder
      · simpa using horder.symm
      · simp at ha
      · simp [hst]
      · exact h.suspended
      · exact h.free
      · simp [hst]
      · simp [hst]

/-- In a run whose steps come in turn no chunk is lost or emitted twice, and the track is woken
once for each time it waits. -/
theorem chunks_kept (icy : Bool) (as : List (Act α)) (w : World α)
    (hturn : Machine.AllSteps step InTurn (init icy : World α) as)
    (hrun : Machine.run step (init icy : World α) as = some w) : Kept w := by
  have hinv : Inv w := by
    refine Machine.guarded_invariant (fun s a s' hs hc hstep => ?_) hturn hrun (inv_init icy)
    cases a with
    | process added => exact inv_process hs hc hstep
    | data chunk last => exact inv_data hs hc hstep
    | reenter => exact inv_reenter hs hstep
    | complete => exact inv_complete hs hc hstep
  exact hinv.kept

/-- A response of two chunks. -/
def two_chunks : List (Act Nat) :=
  [.process true,.data 7 false,.process true,.process true,.reenter,.data 8 true,.process true]

theorem chunks_kept_two : Kept ((Machine.run step (init false) two_chunks).getD (init false)) :=
  chunks_kept false two_chunks _ (by decide) (Machine.run_eq_getD (by decide))

/-- The completion replaces the chunk that waits for the filter. -/
theorem chunk_lost :
    (∀ w, Machine.run step (init false) [.process true,.data 7 false,.complete,.process true] = some w →
      w.emitted = [] ∧ w.passed = [7] ∧ w.reported = some .err ∧ ¬Kept w) ∧
    (Machine.run step (init false)
      [.process true,.data 7 false,.complete,.process true]).isSome := by
  refine ⟨fun w hw => ?_,by decide⟩
  have hmap : (Machine.run step (init false)
      [.process true,.data 7 false,.complete,.process true]).map
        (fun w => (w.emitted,w.passed,w.reported)) = some ([],[7],some .err) := by decide
  rw [hw,Option.map_some,Option.some.injEq,Prod.mk.injEq,Prod.mk.injEq] at hmap
  obtain ⟨he,hp,hr⟩ := hmap
  refine ⟨he,hp,hr,fun hk => ?_⟩
  have heq := hk.reported (by rw [hr]; rfl)
  rw [he,hp] at heq
  cases heq

end Phiola.Http
