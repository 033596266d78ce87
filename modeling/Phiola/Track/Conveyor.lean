import Mathlib.Data.List.Nodup
import Mathlib.Data.List.InsertIdx
import Mathlib.Logic.Function.Basic

/-!
# The conveyor of a track

`struct phi_conveyor` keeps a pool of at most `MAX_FILTERS` filters, the slice of the active
ones as pointers into that pool, and the index of the current one. A pointer is the index of
its pool entry here, and `cur` is `-1` where the source writes `~0U`.
-/

namespace Phiola

/-- `enum PHI_R`, the result of a filter's `process()`. -/
inductive PhiR
  | data | ok | done | lastout | more | back | async | fin | err
  deriving DecidableEq, Repr

/-- `struct phi_filter`: the name and which of the optional callbacks the module defines. -/
structure PhiFilter where
  name : String
  hasOpen : Bool
  hasClose : Bool
  deriving DecidableEq, Repr, Inhabited

/-- A filter instance: what `open()` returned, or `(void*)-1` for a filter without one. -/
inductive Obj
  | inst (p : Nat)
  | noOpen
  deriving DecidableEq, Repr

/-- What `open()` returns: an instance, `PHI_OPEN_SKIP` or `PHI_OPEN_ERR`. -/
inductive OpenRet
  | obj (p : Nat)
  | skip
  | err
  deriving DecidableEq, Repr

def maxFilters : Nat := 20

/-- `struct filter`, one entry of the pool. -/
structure Filter where
  iface : PhiFilter
  obj : Option Obj
  backwardSkip : Bool
  deriving DecidableEq, Repr

instance : Inhabited Filter := ⟨⟨default, none, false⟩⟩

/-- The flag of `track->filter()`. -/
inductive FilterPos
  | next
  | prev
  deriving DecidableEq, Repr

structure Conveyor where
  filtersPool : Nat → Filter
  iFpool : Nat
  filters : List Nat
  cur : Int

namespace Conveyor

/-- `conveyor_init()` on a zeroed track. -/
def init : Conveyor := ⟨fun _ => default, 0, [], -1⟩

/-- Overwrite one entry of the pool. -/
def setFilter (v : Conveyor) (f : Nat) (x : Filter) : Conveyor :=
  { v with filtersPool := Function.update v.filtersPool f x }

/-- `trk_filter_add()`: the conveyor and the index of the new filter, or `-1`. -/
def trkFilterAdd (v : Conveyor) (iface : PhiFilter) (pos : Int) : Conveyor × Int :=
  if v.iFpool = maxFilters then (v, -1)
  else
    let f := v.iFpool
    let len := v.filters.length + 1
    let i := if pos < 0 ∨ pos + 1 = len then v.filters.length else pos.toNat
    ({ v with
        filtersPool := Function.update v.filtersPool f ⟨iface, none, false⟩
        iFpool := v.iFpool + 1
        filters := v.filters.insertIdx i f }, i)

/-- `track_filter()`: the conveyor and the returned value, `0` when nothing was added. -/
def trackFilter (v : Conveyor) (iface : Option PhiFilter) (flags : FilterPos) : Conveyor × Int :=
  match iface with
  | none => (v, 0)
  | some iface =>
    let pos := if v.cur = -1 then -1 else if flags = .prev then v.cur else v.cur + 1
    let a := v.trkFilterAdd iface pos
    let v' := if flags = .prev ∧ a.2 = v.cur ∧ 0 ≤ a.2 then { a.1 with cur := v.cur + 1 } else a.1
    (v', a.2 + 1)

/-- The calls of `track->filter()` a callback makes, in order. -/
def addAll (v : Conveyor) (adds : List (Option PhiFilter × FilterPos)) : Conveyor :=
  adds.foldl (fun v a => (v.trackFilter a.1 a.2).1) v

@[simp] theorem addAll_nil (v : Conveyor) : v.addAll [] = v := rfl

@[simp] theorem addAll_cons (v : Conveyor) (a : Option PhiFilter × FilterPos)
    (adds : List (Option PhiFilter × FilterPos)) :
    v.addAll (a :: adds) = (v.trackFilter a.1 a.2).1.addAll adds := rfl

@[simp] theorem setFilter_iFpool (v : Conveyor) (f : Nat) (x : Filter) :
    (v.setFilter f x).iFpool = v.iFpool := rfl

@[simp] theorem setFilter_filters (v : Conveyor) (f : Nat) (x : Filter) :
    (v.setFilter f x).filters = v.filters := rfl

@[simp] theorem setFilter_cur (v : Conveyor) (f : Nat) (x : Filter) :
    (v.setFilter f x).cur = v.cur := rfl

@[simp] theorem setFilter_pool_self (v : Conveyor) (f : Nat) (x : Filter) :
    (v.setFilter f x).filtersPool f = x := by simp [setFilter]

theorem setFilter_pool_of_ne (v : Conveyor) {f g : Nat} (x : Filter) (h : g ≠ f) :
    (v.setFilter f x).filtersPool g = v.filtersPool g := by simp [setFilter,h]

/-- What one call of `track->filter()` does while the current filter is `l₁.length`-th:
nothing, or a fresh entry placed directly after or directly before it. -/
theorem trackFilter_cases (v : Conveyor) (iface : Option PhiFilter) (flags : FilterPos)
    (l₁ l₂ : List Nat) (f : Nat) (hf : v.filters = l₁ ++ f :: l₂) (hc : v.cur = l₁.length) :
    ((v.trackFilter iface flags).1 = v ∧ (v.trackFilter iface flags).2 = 0 ∧
        (iface = none ∨ v.iFpool = maxFilters)) ∨
      ∃ i, iface = some i ∧ v.iFpool ≠ maxFilters ∧ 0 < (v.trackFilter iface flags).2 ∧
        (v.trackFilter iface flags).1 =
          { filtersPool := Function.update v.filtersPool v.iFpool ⟨i, none, false⟩
            iFpool := v.iFpool + 1
            filters := match flags with
              | .next => l₁ ++ f :: v.iFpool :: l₂
              | .prev => l₁ ++ v.iFpool :: f :: l₂
            cur := match flags with
              | .next => v.cur
              | .prev => v.cur + 1 } := by
  cases iface with
  | none => exact .inl ⟨rfl, rfl, .inl rfl⟩
  | some i =>
    have hne : ¬ v.cur = -1 := by omega
    by_cases hmax : v.iFpool = maxFilters
    · refine .inl ⟨?_, ?_, .inr hmax⟩ <;> simp [trackFilter,trkFilterAdd,hmax]
    · refine .inr ⟨i, rfl, hmax, ?_⟩
      cases flags with
      | next =>
        have hpos : (if v.cur + 1 < 0 ∨ v.cur + 1 + 1 = ((v.filters.length : Int) + 1)
            then v.filters.length else (v.cur + 1).toNat) = l₁.length + 1 := by
          split
          · simp only [hf,List.length_append,List.length_cons] at *; omega
          · omega
        have hins : v.filters.insertIdx (l₁.length + 1) v.iFpool = l₁ ++ f :: v.iFpool :: l₂ := by
          rw [hf]
          clear hf hpos hc
          induction l₁ with
          | nil => simp
          | cons a l₁ ih => simpa using ih
        simp only [trackFilter,trkFilterAdd,hmax,hne,if_false,reduceCtorEq,false_and,
          Int.natCast_add,Int.natCast_one]
        rw [hpos,hins]
        exact ⟨by omega, rfl⟩
      | prev =>
        have hpos : (if v.cur < 0 ∨ v.cur + 1 = ((v.filters.length : Int) + 1)
            then v.filters.length else v.cur.toNat) = l₁.length := by
          split
          · simp only [hf,List.length_append,List.length_cons] at *; omega
          · omega
        have hins : v.filters.insertIdx l₁.length v.iFpool = l₁ ++ v.iFpool :: f :: l₂ := by
          rw [hf]
          clear hf hpos hc
          induction l₁ with
          | nil => simp
          | cons a l₁ ih => simpa using ih
        simp only [trackFilter,trkFilterAdd,hmax,hne,if_false,if_true,true_and,
          Int.natCast_add,Int.natCast_one]
        rw [hpos,hins]
        have h : ((l₁.length : Int) = v.cur ∧ 0 ≤ (l₁.length : Int)) := by omega
        rw [if_pos h]
        exact ⟨by omega, rfl⟩

end Conveyor

end Phiola
