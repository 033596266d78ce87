import Phiola.Framework.Machine
import Mathlib.Data.List.Range
import Mathlib.Logic.Function.Basic

/-!
# The kernel-event slots of a worker

A slot is allocated by an owner, which sets its handlers and attaches descriptors with it. The data word
of an event is the slot and the side bit it had when the descriptor was attached; freeing a slot flips
the bit. The worker compares the bit once for each event, and then it calls the read handler and the
write handler.
-/

namespace Phiola

/-- `zzkevent`; `obj` stands for the owner's handlers and object. -/
structure KevSlot where
  obj : Option Nat
  ractive : Bool
  wactive : Bool
  side : Bool
  deriving DecidableEq, Repr

/-- An attached descriptor: its data word, and how often the slot had been freed. -/
structure KevFd where
  slot : Nat
  side : Bool
  gen : Nat
  deriving DecidableEq, Repr

/-- An event of a descriptor with its flags. -/
structure KevEvent where
  fd : KevFd
  read : Bool
  write : Bool
  deriving DecidableEq, Repr

/-- Where the worker is in `zzkq_run()`. An event without a descriptor is one of a kernel event that is
not in the table (the task queue, the timer). -/
inductive KevPc
  | idle
  | batch (rest : List (Option KevEvent))
  | reading (ev : KevEvent) (rest : List (Option KevEvent))
  | writing (rest : List (Option KevEvent))
  | other (rest : List (Option KevEvent))
  deriving DecidableEq, Repr

def KevPc.rest : KevPc → List (Option KevEvent)
  | .idle => []
  | .batch rest => rest
  | .reading _ rest => rest
  | .writing rest => rest
  | .other rest => rest

/-- The code of an owner runs. -/
def KevPc.handling : KevPc → Bool
  | .idle => true
  | .batch _ => false
  | .reading _ _ => true
  | .writing _ => true
  | .other _ => true

/-- A handler call: for which event, whose handler, and how often the slot had been freed by then. -/
structure KevCall where
  ev : KevEvent
  obj : Option Nat
  gen : Nat
  deriving DecidableEq, Repr

/-- The table of `zzkq`. `gen` counts the frees of a slot, `owners` are the owners with their slots and
`next` is the number of owners so far; these and `calls` are no fields of the source. -/
structure KevTable where
  kevs : Nat → KevSlot
  unused : List Nat
  allocated : Nat
  locked : Nat
  max : Nat
  gen : Nat → Nat
  owners : List (Nat × Nat)
  next : Nat
  fds : List KevFd
  pending : List KevEvent
  pc : KevPc
  calls : List KevCall

namespace KevTable

def init (max : Nat) : KevTable :=
  ⟨fun _ => ⟨none,false,false,false⟩,[],0,0,max,fun _ => 0,[],0,[],[],.idle,[]⟩

/-- The slot that `zzkq_kev_alloc()` returns goes to the next owner. -/
def own (s : KevTable) (k : Nat) : KevTable :=
  { s with locked := s.locked + 1, owners := (s.next,k) :: s.owners, next := s.next + 1 }

/-- `zzkq_kev_alloc()` -/
def alloc (s : KevTable) : KevTable :=
  match s.unused with
  | k :: rest => { s with unused := rest }.own k
  | [] =>
    -- the table is full: NULL
    if s.allocated = s.max then s else { s with allocated := s.allocated + 1 }.own s.allocated

/-- `zzkq_kev_free()` by the owner `o` of the slot `k`. -/
def free (s : KevTable) (o k : Nat) : KevTable :=
  { s with
    kevs := Function.update s.kevs k ⟨none,false,false,!(s.kevs k).side⟩
    unused := k :: s.unused
    locked := s.locked - 1
    gen := Function.update s.gen k (s.gen k + 1)
    owners := s.owners.erase (o,k) }

/-- The data word of `zzkq_attach()`. -/
def dataAttach (s : KevTable) (k : Nat) : KevFd := ⟨k,(s.kevs k).side,s.gen k⟩

/-- The owner sets its handlers and which of them are active. -/
def arm (s : KevTable) (o k : Nat) (r w : Bool) : KevTable :=
  { s with kevs := Function.update s.kevs k ⟨some o,r,w,(s.kevs k).side⟩ }

def call (s : KevTable) (ev : KevEvent) : KevCall := ⟨ev,(s.kevs ev.fd.slot).obj,s.gen ev.fd.slot⟩

/-- The second half of `_zzkq_kev_call()`. -/
def callWrite (s : KevTable) (ev : KevEvent) (rest : List (Option KevEvent)) : KevTable :=
  if ev.write && (s.kevs ev.fd.slot).wactive then
    { s with pc := .writing rest, calls := s.calls ++ [s.call ev] }
  else { s with pc := .batch rest }

/-- The first half. -/
def callRead (s : KevTable) (ev : KevEvent) (rest : List (Option KevEvent)) : KevTable :=
  if ev.read && (s.kevs ev.fd.slot).ractive then
    { s with pc := .reading ev rest, calls := s.calls ++ [s.call ev] }
  else s.callWrite ev rest

/-- The body of the loop over the events. -/
def dispatch (s : KevTable) : List (Option KevEvent) → KevTable
  | [] => { s with pc := .idle }
  | none :: rest => { s with pc := .other rest }
  | some ev :: rest =>
    -- `_zzkq_kev_data_retrieve()`
    if ev.fd.side = (s.kevs ev.fd.slot).side then s.callRead ev rest else { s with pc := .batch rest }

inductive Act
  | alloc
  | free (o k : Nat)
  | attach (o k : Nat)
  | arm (o k : Nat) (r w : Bool)
  | close (fd : KevFd)
  | arise (ev : KevEvent)
  | wait (evs : List (Option KevEvent))
  | dispatch
  | ret
  deriving DecidableEq, Repr

def step (s : KevTable) : Act → Option KevTable
  | .alloc => if s.pc.handling then some s.alloc else none
  | .free o k => if s.pc.handling ∧ (o,k) ∈ s.owners then some (s.free o k) else none
  | .attach o k =>
    if s.pc.handling ∧ (o,k) ∈ s.owners then some { s with fds := s.fds ++ [s.dataAttach k] } else none
  | .arm o k r w => if s.pc.handling ∧ (o,k) ∈ s.owners then some (s.arm o k r w) else none
  -- the descriptor is closed; its events may stay
  | .close fd => if s.pc.handling then some { s with fds := s.fds.erase fd } else none
  | .arise ev => if ev.fd ∈ s.fds then some { s with pending := s.pending ++ [ev] } else none
  | .wait evs =>
    if s.pc = .idle ∧ ∀ ev ∈ evs.filterMap id, ev ∈ s.pending then
      some { s with pc := .batch evs, pending := s.pending.filter fun ev => !evs.contains (some ev) }
    else none
  | .dispatch =>
    match s.pc with
    | .batch rest => some (s.dispatch rest)
    | .idle => none
    | .reading _ _ => none
    | .writing _ => none
    | .other _ => none
  | .ret =>
    match s.pc with
    | .reading ev rest => some (s.callWrite ev rest)
    | .writing rest => some { s with pc := .batch rest }
    | .other rest => some { s with pc := .batch rest }
    | .idle => none
    | .batch _ => none

/-- Each handler was called for an event of a descriptor that was attached since the last free of the
slot. No slot has two owners, and `locked` is the number of owners, which is at most `max`. -/
structure Sound (s : KevTable) : Prop where
  fresh : ∀ c ∈ s.calls, c.ev.fd.gen = c.gen
  single : (s.owners.map Prod.snd).Nodup
  locked : s.locked = s.owners.length
  bound : s.owners.length ≤ s.max

/-- The data words that are attached, pending or fetched. -/
def words (s : KevTable) : List KevFd :=
  s.fds ++ s.pending.map KevEvent.fd ++ s.pc.rest.filterMap (Option.map KevEvent.fd)

/-- No slot is freed while a data word is around that equals the one it has after the free; and a slot
that was freed by the read handler of an event with the write flag is not made active for writing
before that handler returns. -/
def Careful (s : KevTable) : Act → Prop
  | .free _ k => ∀ fd ∈ s.words, fd.slot = k → fd.side = (s.kevs k).side
  | .arm _ k _ w =>
    match s.pc with
    | .reading ev _ => ev.write = true → ev.fd.slot = k → w = true → ev.fd.gen = s.gen k
    | .idle => True
    | .batch _ => True
    | .writing _ => True
    | .other _ => True
  | .alloc => True
  | .attach _ _ => True
  | .close _ => True
  | .arise _ => True
  | .wait _ => True
  | .dispatch => True
  | .ret => True

instance (s : KevTable) : (a : Act) → Decidable (s.Careful a)
  | .free _ k => inferInstanceAs (Decidable (∀ fd ∈ s.words, fd.slot = k → fd.side = (s.kevs k).side))
  | .arm _ k _ w =>
    match h : s.pc with
    | .reading ev _ =>
      decidable_of_iff (ev.write = true → ev.fd.slot = k → w = true → ev.fd.gen = s.gen k)
        (by simp [Careful,h])
    | .idle => decidable_of_iff True (by simp [Careful,h])
    | .batch _ => decidable_of_iff True (by simp [Careful,h])
    | .writing _ => decidable_of_iff True (by simp [Careful,h])
    | .other _ => decidable_of_iff True (by simp [Careful,h])
  | .alloc => inferInstanceAs (Decidable True)
  | .attach _ _ => inferInstanceAs (Decidable True)
  | .close _ => inferInstanceAs (Decidable True)
  | .arise _ => inferInstanceAs (Decidable True)
  | .wait _ => inferInstanceAs (Decidable True)
  | .dispatch => inferInstanceAs (Decidable True)
  | .ret => inferInstanceAs (Decidable True)

/-- Each allocated slot has one owner or is unused. -/
structure Slots (s : KevTable) : Prop where
  once : (s.owners.map Prod.snd ++ s.unused).Perm (List.range s.allocated)
  locked : s.locked = s.owners.length
  bound : s.allocated ≤ s.max

/-- A data word that equals its slot's own was attached since the last free of the slot. -/
structure Fresh (s : KevTable) : Prop where
  words : ∀ fd ∈ s.words, fd.side = (s.kevs fd.slot).side → fd.gen = s.gen fd.slot
  half : ∀ ev rest, s.pc = .reading ev rest → ev.write = true →
    (s.kevs ev.fd.slot).wactive = true → ev.fd.gen = s.gen ev.fd.slot
  calls : ∀ c ∈ s.calls, c.ev.fd.gen = c.gen

variable {s s' : KevTable} {a : Act}

theorem mem_words {fd : KevFd} : fd ∈ s.words ↔ fd ∈ s.fds ∨ (∃ ev ∈ s.pending, ev.fd = fd) ∨
    ∃ ev, some ev ∈ s.pc.rest ∧ ev.fd = fd := by
  simp [words]

theorem Slots.own (h : (k :: (s.owners.map Prod.snd ++ s.unused)).Perm (List.range s.allocated))
    (hl : s.locked = s.owners.length) (hb : s.allocated ≤ s.max) : Slots (s.own k) :=
  ⟨h,by simp [KevTable.own,hl],hb⟩

theorem Slots.alloc (h : s.Slots) : Slots s.alloc := by
  unfold KevTable.alloc
  split
  · next k rest hu =>
    refine Slots.own ?_ h.locked h.bound
    have honce := h.once
    rw [hu] at honce
    exact List.perm_middle.symm.trans honce
  · next hu =>
    split
    · exact h
    · next hne =>
      refine Slots.own ?_ h.locked (Nat.lt_of_le_of_ne h.bound hne)
      rw [List.range_succ]
      exact (List.perm_append_singleton _ _).symm.trans (h.once.append_right _)

theorem Slots.free (h : s.Slots) {o k : Nat} (hk : (o,k) ∈ s.owners) : Slots (s.free o k) := by
  refine ⟨?_,?_,h.bound⟩
  · have hperm := (List.perm_cons_erase hk).map Prod.snd
    exact List.perm_middle.trans ((hperm.symm.append_right s.unused).trans h.once)
  · simp only [KevTable.free,List.length_erase_of_mem hk,h.locked]

theorem Slots.callWrite (h : s.Slots) (ev : KevEvent) (rest : List (Option KevEvent)) :
    Slots (s.callWrite ev rest) := by
  unfold KevTable.callWrite
  split <;> exact ⟨h.once,h.locked,h.bound⟩

theorem Slots.dispatch (h : s.Slots) (rest : List (Option KevEvent)) : Slots (s.dispatch rest) := by
  unfold KevTable.dispatch
  split
  · exact ⟨h.once,h.locked,h.bound⟩
  · exact ⟨h.once,h.locked,h.bound⟩
  · split
    · unfold KevTable.callRead
      split
      · exact ⟨h.once,h.locked,h.bound⟩
      · exact h.callWrite _ _
    · exact ⟨h.once,h.locked,h.bound⟩

theorem Slots.step (h : s.Slots) (hs : s.step a = some s') : Slots s' := by
  cases a with
  | alloc =>
    obtain ⟨_,⟨⟩⟩ := Option.ite_none_right_eq_some.mp hs
    exact h.alloc
  | free o k =>
    obtain ⟨⟨_,hk⟩,⟨⟩⟩ := Option.ite_none_right_eq_some.mp hs
    exact h.free hk
  | attach o k =>
    obtain ⟨_,⟨⟩⟩ := Option.ite_none_right_eq_some.mp hs
    exact ⟨h.once,h.locked,h.bound⟩
  | arm o k r w =>
    obtain ⟨_,⟨⟩⟩ := Option.ite_none_right_eq_some.mp hs
    exact ⟨h.once,h.locked,h.bound⟩
  | close fd =>
    obtain ⟨_,⟨⟩⟩ := Option.ite_none_right_eq_some.mp hs
    exact ⟨h.once,h.locked,h.bound⟩
  | arise ev =>
    obtain ⟨_,⟨⟩⟩ := Option.ite_none_right_eq_some.mp hs
    exact ⟨h.once,h.locked,h.bound⟩
  | wait evs =>
    obtain ⟨_,⟨⟩⟩ := Option.ite_none_right_eq_some.mp hs
    exact ⟨h.once,h.locked,h.bound⟩
  | dispatch =>
    simp only [KevTable.step] at hs
    split at hs <;> cases hs
    exact h.dispatch _
  | ret =>
    simp only [KevTable.step] at hs
    split at hs <;> cases hs
    · exact h.callWrite _ _
    · exact ⟨h.once,h.locked,h.bound⟩
    · exact ⟨h.once,h.locked,h.bound⟩

theorem Fresh.moves (h : s.Fresh) (hk : s'.kevs = s.kevs) (hg : s'.gen = s.gen)
    (hc : s'.calls = s.calls) (hw : s'.words ⊆ s.words) (hpc : ∀ ev rest, s'.pc ≠ .reading ev rest) :
    Fresh s' := by
  refine ⟨fun fd hfd => ?_,fun ev rest hp => absurd hp (hpc ev rest),fun c hcm => h.calls c (hc ▸ hcm)⟩
  rw [hk,hg]
  exact h.words fd (hw hfd)

theorem words_subset (hf : s'.fds = s.fds) (hp : s'.pending ⊆ s.pending)
    (hr : s'.pc.rest ⊆ s.pc.rest) : s'.words ⊆ s.words := by
  intro fd hfd
  rw [mem_words] at hfd ⊢
  rcases hfd with h | ⟨ev,hev,rfl⟩ | ⟨ev,hev,rfl⟩
  · exact .inl (hf ▸ h)
  · exact .inr (.inl ⟨ev,hp hev,rfl⟩)
  · exact .inr (.inr ⟨ev,hr hev,rfl⟩)

theorem Fresh.alloc (h : s.Fresh) : Fresh s.alloc := by
  unfold KevTable.alloc
  split
  · exact ⟨h.words,h.half,h.calls⟩
  · split
    · exact h
    · exact ⟨h.words,h.half,h.calls⟩

theorem Fresh.free (h : s.Fresh) {o k : Nat} (hc : s.Careful (.free o k)) : Fresh (s.free o k) := by
  refine ⟨fun fd hfd hside => ?_,fun ev rest hpc hw hact => ?_,h.calls⟩
  · by_cases hk : fd.slot = k
    · -- no such word was left
      have hold := hc fd hfd hk
      simp [KevTable.free,hk,hold] at hside
    · simp only [KevTable.free,Function.update_of_ne hk] at hside ⊢
      exact h.words fd hfd hside
  · by_cases hk : ev.fd.slot = k
    · simp [KevTable.free,hk] at hact
    · simp only [KevTable.free,Function.update_of_ne hk] at hact ⊢
      exact h.half ev rest hpc hw hact

theorem Fresh.arm (h : s.Fresh) {o k : Nat} {r w : Bool} (hc : s.Careful (.arm o k r w)) :
    Fresh (s.arm o k r w) := by
  refine ⟨fun fd hfd hside => ?_,fun ev rest hpc hw hact => ?_,h.calls⟩
  · refine h.words fd hfd (hside.trans ?_)
    by_cases hk : fd.slot = k
    · simp [KevTable.arm,hk]
    · simp [KevTable.arm,hk]
  · by_cases hk : ev.fd.slot = k
    · simp only [Careful,show s.pc = .reading ev rest from hpc] at hc
      simp only [KevTable.arm,hk,Function.update_self] at hact ⊢
      exact hc hw hk hact
    · simp only [KevTable.arm,Function.update_of_ne hk] at hact ⊢
      exact h.half ev rest hpc hw hact

theorem Fresh.attach (h : s.Fresh) (k : Nat) :
    Fresh { s with fds := s.fds ++ [s.dataAttach k] } := by
  refine ⟨fun fd hfd hside => ?_,h.half,h.calls⟩
  rcases mem_words.mp hfd with hf | hf
  · rcases List.mem_append.mp hf with hf | hf
    · exact h.words fd (mem_words.mpr (.inl hf)) hside
    · rw [List.mem_singleton.mp hf]
      rfl
  · exact h.words fd (mem_words.mpr (.inr hf)) hside

/-- The second half of an event whose slot was not freed, or is not active for writing. -/
theorem Fresh.callWrite (h : s.Fresh) {ev : KevEvent} {rest : List (Option KevEvent)}
    (hr : rest ⊆ s.pc.rest) (hev : ev.write = true → (s.kevs ev.fd.slot).wactive = true →
      ev.fd.gen = s.gen ev.fd.slot) : Fresh (s.callWrite ev rest) := by
  have hmoves (pc : KevPc) (hpc : pc.rest = rest) (hne : ∀ ev rest, pc ≠ .reading ev rest) :
      Fresh { s with pc := pc } :=
    h.moves rfl rfl rfl (words_subset rfl (List.Subset.refl _) (by rw [hpc]; exact hr)) hne
  unfold KevTable.callWrite
  split
  · next hact =>
    obtain ⟨hw,hact⟩ := Bool.and_eq_true_iff.mp hact
    have hpc := hmoves (.writing rest) rfl (fun _ _ hp => by cases hp)
    refine ⟨hpc.words,hpc.half,fun c hcm => ?_⟩
    rcases List.mem_append.mp hcm with hcm | hcm
    · exact h.calls c hcm
    · rw [List.mem_singleton.mp hcm]
      exact hev hw hact
  · exact hmoves (.batch rest) rfl (fun _ _ hp => by cases hp)

theorem Fresh.callRead (h : s.Fresh) {ev : KevEvent} {rest : List (Option KevEvent)}
    (hr : rest ⊆ s.pc.rest) (hev : ev.fd.gen = s.gen ev.fd.slot) : Fresh (s.callRead ev rest) := by
  unfold KevTable.callRead
  split
  · refine ⟨fun fd hfd => ?_,fun ev' rest' hpc _ _ => ?_,fun c hcm => ?_⟩
    · refine h.words fd (mem_words.mpr ((mem_words.mp hfd).imp_right (Or.imp_right ?_)))
      exact fun ⟨e,he,hfd⟩ => ⟨e,hr he,hfd⟩
    · cases hpc
      exact hev
    · rcases List.mem_append.mp hcm with hcm | hcm
      · exact h.calls c hcm
      · rw [List.mem_singleton.mp hcm]
        exact hev
  · exact h.callWrite hr fun _ _ => hev

theorem Fresh.dispatch (h : s.Fresh) {rest : List (Option KevEvent)} (hpc : s.pc = .batch rest) :
    Fresh (s.dispatch rest) := by
  have hrest : s.pc.rest = rest := by rw [hpc]; rfl
  match rest with
  | [] =>
    exact h.moves rfl rfl rfl (words_subset rfl (List.Subset.refl _) (List.nil_subset _))
      fun _ _ hp => by cases hp
  | none :: rest =>
    refine h.moves rfl rfl rfl (words_subset rfl (List.Subset.refl _) ?_) fun _ _ hp => by cases hp
    rw [hrest]
    exact List.subset_cons_self _ _
  | some ev :: rest =>
    have hsub : rest ⊆ s.pc.rest := by rw [hrest]; exact List.subset_cons_self _ _
    simp only [KevTable.dispatch]
    split
    · next hside =>
      refine h.callRead hsub (h.words ev.fd (mem_words.mpr (.inr (.inr ⟨ev,?_,rfl⟩))) hside)
      rw [hrest]
      exact List.mem_cons_self
    · exact h.moves rfl rfl rfl (words_subset rfl (List.Subset.refl _) hsub) fun _ _ hp => by cases hp

theorem Fresh.step (h : s.Fresh) (hc : s.Careful a) (hs : s.step a = some s') : Fresh s' := by
  cases a with
  | alloc =>
    obtain ⟨_,⟨⟩⟩ := Option.ite_none_right_eq_some.mp hs
    exact h.alloc
  | free o k =>
    obtain ⟨_,⟨⟩⟩ := Option.ite_none_right_eq_some.mp hs
    exact h.free hc
  | attach o k =>
    obtain ⟨_,⟨⟩⟩ := Option.ite_none_right_eq_some.mp hs
    exact h.attach k
  | arm o k r w =>
    obtain ⟨_,⟨⟩⟩ := Option.ite_none_right_eq_some.mp hs
    exact h.arm hc
  | close fd =>
    obtain ⟨_,⟨⟩⟩ := Option.ite_none_right_eq_some.mp hs
    refine ⟨fun f hf => h.words f ?_,h.half,h.calls⟩
    exact mem_words.mpr ((mem_words.mp hf).imp_left fun hm => List.erase_subset hm)
  | arise ev =>
    obtain ⟨hev,⟨⟩⟩ := Option.ite_none_right_eq_some.mp hs
    refine ⟨fun fd hfd => h.words fd ?_,h.half,h.calls⟩
    rcases mem_words.mp hfd with hf | ⟨e,he,rfl⟩ | hf
    · exact mem_words.mpr (.inl hf)
    · rcases List.mem_append.mp he with he | he
      · exact mem_words.mpr (.inr (.inl ⟨e,he,rfl⟩))
      · rw [List.mem_singleton.mp he]
        exact mem_words.mpr (.inl hev)
    · exact mem_words.mpr (.inr (.inr hf))
  | wait evs =>
    obtain ⟨⟨_,hevs⟩,⟨⟩⟩ := Option.ite_none_right_eq_some.mp hs
    refine h.moves rfl rfl rfl (fun fd hfd => ?_) fun _ _ hp => by cases hp
    rcases mem_words.mp hfd with hf | ⟨e,he,rfl⟩ | ⟨e,he,rfl⟩
    · exact mem_words.mpr (.inl hf)
    · exact mem_words.mpr (.inr (.inl ⟨e,(List.mem_filter.mp he).1,rfl⟩))
    · exact mem_words.mpr (.inr (.inl ⟨e,hevs e (List.mem_filterMap.mpr ⟨some e,he,rfl⟩),rfl⟩))
  | dispatch =>
    simp only [KevTable.step] at hs
    split at hs <;> cases hs
    next rest hpc => exact h.dispatch hpc
  | ret =>
    simp only [KevTable.step] at hs
    split at hs <;> cases hs
    · next ev rest hpc => exact h.callWrite (by rw [hpc]; exact List.Subset.refl _) (h.half ev rest hpc)
    · next rest hpc =>
      refine h.moves rfl rfl rfl (words_subset rfl (List.Subset.refl _) ?_) fun _ _ hp => by cases hp
      rw [hpc]
      exact List.Subset.refl _
    · next rest hpc =>
      refine h.moves rfl rfl rfl (words_subset rfl (List.Subset.refl _) ?_) fun _ _ hp => by cases hp
      rw [hpc]
      exact List.Subset.refl _

theorem slots_init (max : Nat) : Slots (init max) := ⟨List.Perm.refl _,rfl,Nat.zero_le _⟩

theorem fresh_init (max : Nat) : Fresh (init max) :=
  ⟨fun fd hfd => by (cases hfd),fun ev rest hpc => by (cases hpc),fun c hc => by cases hc⟩

theorem Slots.single (h : s.Slots) : (s.owners.map Prod.snd).Nodup :=
  (List.nodup_append.mp (h.once.nodup_iff.mpr List.nodup_range)).1

theorem Slots.length_le (h : s.Slots) : s.owners.length ≤ s.max := by
  have hlen := h.once.length_eq
  rw [List.length_append,List.length_map,List.length_range] at hlen
  exact (Nat.le_add_right _ _).trans (hlen.le.trans h.bound)

/-- In every run whose steps are careful. The part about the owners holds in every run. -/
theorem events_reach_owner {max : Nat} {as : List Act}
    (hcareful : Machine.AllSteps step Careful (init max) as)
    (hrun : Machine.run step (init max) as = some s) : Sound s := by
  have hslots := Machine.run_invariant (fun _ _ _ h hs => Slots.step h hs) hrun (slots_init max)
  have hfresh := Machine.guarded_invariant (fun _ _ _ h hc hs => Fresh.step h hc hs) hcareful hrun
    (fresh_init max)
  exact ⟨hfresh.calls,hslots.single,hslots.locked,hslots.length_le⟩

/-- An event of the first slot, whose descriptor was attached before any free. -/
def firstEvent (w : Bool) : KevEvent := ⟨⟨0,false,0⟩,true,w⟩

/-- The first slot gets an owner that reads and writes, and its event is fetched with another one. -/
def armed (evs : List (Option KevEvent)) : List Act :=
  [.alloc,.attach 0 0,.arm 0 0 true true,.arise (firstEvent true),.wait evs,.dispatch]

/-- The event of the second owner's descriptor -/
def nextEvent : KevEvent := ⟨⟨0,true,1⟩,true,false⟩

/-- The handler of the other event gives the slot to a new owner; the event that was fetched before is
not for it, but the one that its own descriptor gets then is. -/
def givenAway : List Act :=
  armed [none,some (firstEvent true)] ++
    ([.close ⟨0,false,0⟩,.free 0 0,.alloc,.attach 1 0,.arm 1 0 true true,.ret,.dispatch,.dispatch,
      .arise nextEvent,.wait [some nextEvent],.dispatch,.ret] : List Act)

def afterGivenAway : KevTable := (Machine.run step (init 8) givenAway).getD (init 8)

theorem events_reach_owner_givenAway : afterGivenAway.calls = [⟨nextEvent,some 1,1⟩] ∧ Sound afterGivenAway :=
  ⟨by decide +kernel,events_reach_owner
    (show Machine.AllSteps step Careful (init 8) givenAway by decide +kernel)
    (Machine.run_eq_getD (by decide +kernel))⟩

/-- The read handler frees the slot, and a new owner that gets it waits for its descriptor to become
writable; the write half of the event calls its handler. -/
def recycled : List Act :=
  armed [some (firstEvent true)] ++
    ([.close ⟨0,false,0⟩,.free 0 0,.alloc,.attach 1 0,.arm 1 0 false true,.ret] : List Act)

/-- The slot is given away twice before the event that was fetched: the bit is the same again. -/
def recycledTwice : List Act :=
  armed [none,some (firstEvent true)] ++
    ([.close ⟨0,false,0⟩,.free 0 0,.alloc,.free 1 0,.alloc,.attach 2 0,.arm 2 0 true false,.ret,.dispatch] : List Act)

def afterRecycled (as : List Act) : KevTable := (Machine.run step (init 8) as).getD (init 8)

theorem event_reaches_other :
    (Machine.run step (init 8) recycled = some (afterRecycled recycled) ∧
      (afterRecycled recycled).calls = [⟨firstEvent true,some 0,0⟩,⟨firstEvent true,some 1,1⟩] ∧
      ¬ Sound (afterRecycled recycled)) ∧
    Machine.run step (init 8) recycledTwice = some (afterRecycled recycledTwice) ∧
      (afterRecycled recycledTwice).calls = [⟨firstEvent true,some 2,2⟩] ∧
      ¬ Sound (afterRecycled recycledTwice) := by
  have h1 : (afterRecycled recycled).calls = [⟨firstEvent true,some 0,0⟩,⟨firstEvent true,some 1,1⟩] := by
    decide +kernel
  have h2 : (afterRecycled recycledTwice).calls = [⟨firstEvent true,some 2,2⟩] := by decide +kernel
  refine ⟨⟨Machine.run_eq_getD (by decide +kernel),h1,fun h => ?_⟩,
    Machine.run_eq_getD (by decide +kernel),h2,fun h => ?_⟩
  · have := h.fresh ⟨firstEvent true,some 1,1⟩ (by rw [h1]; simp)
    cases this
  · have := h.fresh ⟨firstEvent true,some 2,2⟩ (by rw [h2]; simp)
    cases this

end KevTable

end Phiola
