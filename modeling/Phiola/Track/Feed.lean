import Mathlib.Data.List.Infix
import Mathlib.Order.WellFounded
import Phiola.Track.Conveyor

/-!
# One filter under the conveyor

What `track_run()` does with one filter. The filters before it pass regions of data, the last one when they
leave the chain; after `PHI_DATA` the filters behind it run, and it is called again without data.
-/

namespace Phiola.Feed

variable {S C O : Type}

/-- What `process()` sees: `PHI_FFWD`, `PHI_FFIRST` and `data_in`. -/
structure Call (C : Type) where
  fwd : Bool
  first : Bool
  data : Option C

/-- `process()`: there is no result where it does not return or an assertion fails. -/
abbrev Process (S C O : Type) := S → Call C → Option (S × PhiR × O)

variable (f : Process S C O)

/-- What follows a call that returned `r` and passed `o` on, if `again` is what happens when the filter is
called again. -/
def after (first : Bool) (s : S) (o : O) (again : Option (S × Bool × List O)) :
    PhiR → Option (S × Bool × List O)
  | .more => if first then none else some (s,false,[o])
  | .ok => if first then again.map fun x => (x.1,x.2.1,o :: x.2.2) else some (s,false,[o])
  | .data => again.map fun x => (x.1,x.2.1,o :: x.2.2)
  | .done | .lastout => some (s,true,[o])
  | _ => none

/-- The calls for one region, each with what it passes on, and whether the filter has left the chain. A
filter that returned `PHI_OK` is called again only if it is the first one; the first one must not ask for
more. What a call leaves in `data_in` is dropped. -/
def calls (first : Bool) : Nat → S → Call C → Option (S × Bool × List O)
  | 0,_,_ => none
  | n + 1,s,c => do
    let (s',r,o) ← f s c
    after first s' o (calls first n s' ⟨false,first,none⟩) r

/-- The calls for regions that the filters before it pass; they leave the chain with the last region. -/
def drive (n : Nat) : S → List C → Option (S × Bool × List O)
  | s,[] => some (s,false,[])
  | s,d :: ds => do
    let (s',gone,os) ← calls f ds.isEmpty n s ⟨true,ds.isEmpty,some d⟩
    if gone then some (s',true,os)
    else (drive n s' ds).map fun x => (x.1,x.2.1,os ++ x.2.2)

variable {f}

theorem calls_succ {first : Bool} {n : Nat} {s s' : S} {c : Call C} {r : PhiR} {o : O}
    (h : f s c = some (s',r,o)) :
    calls f first (n + 1) s c = after first s' o (calls f first n s' ⟨false,first,none⟩) r := by
  rw [calls,h]
  rfl

theorem after_mono {first : Bool} {s : S} {o : O} {a b : Option (S × Bool × List O)} {r : PhiR}
    {x : S × Bool × List O} (hab : ∀ y, a = some y → b = some y) (h : after first s o a r = some x) :
    after first s o b r = some x := by
  have hagain (h : (a.map fun x => (x.1,x.2.1,o :: x.2.2)) = some x) :
      (b.map fun x => (x.1,x.2.1,o :: x.2.2)) = some x := by
    obtain ⟨y,hy,rfl⟩ := Option.map_eq_some_iff.mp h
    rw [hab y hy]
    rfl
  cases r with
  | ok =>
    cases first with
    | true => exact hagain h
    | false => exact h
  | data => exact hagain h
  | _ => exact h

theorem calls_mono {first : Bool} {n : Nat} {s : S} {c : Call C} {x : S × Bool × List O}
    (h : calls f first n s c = some x) : calls f first (n + 1) s c = some x := by
  induction n generalizing s c x with
  | zero => cases h
  | succ n ih =>
    cases hf : f s c with
    | none =>
      rw [calls,hf] at h
      cases h
    | some p =>
      rw [calls_succ hf] at h ⊢
      exact after_mono (fun y hy => ih hy) h

theorem calls_le {first : Bool} {n m : Nat} {s : S} {c : Call C} {x : S × Bool × List O}
    (h : calls f first n s c = some x) (hle : n ≤ m) : calls f first m s c = some x := by
  induction hle with
  | refl => exact h
  | step _ ih => exact calls_mono ih

theorem drive_le {n m : Nat} {s : S} {ds : List C} {x : S × Bool × List O}
    (h : drive f n s ds = some x) (hle : n ≤ m) : drive f m s ds = some x := by
  induction ds generalizing s x with
  | nil => exact h
  | cons d ds ih =>
    simp only [drive,Option.bind_eq_bind,Option.bind_eq_some_iff] at h ⊢
    obtain ⟨⟨s',gone,os⟩,hcalls,hrest⟩ := h
    refine ⟨_,calls_le hcalls hle,?_⟩
    cases gone with
    | true => exact hrest
    | false =>
      obtain ⟨y,hy,rfl⟩ := Option.map_eq_some_iff.mp hrest
      exact Option.map_eq_some_iff.mpr ⟨y,ih hy,rfl⟩

/-! ## The rule -/

variable {W : Type} [Preorder W]

/-- How a call ends, if `os` was passed on before: more is wanted, the filter is called again and less is
left to do, or it leaves the chain. -/
inductive Ends (Idle Busy Over : S → List O → Prop) (left : S → W) (first : Bool) (os : List O)
    (bound : W) : S × PhiR × O → Prop
  | more {s o} (hfirst : first = false) (h : Idle s (os ++ [o])) :
      Ends Idle Busy Over left first os bound (s,.more,o)
  | ok {s o} (hfirst : first = false) (h : Idle s (os ++ [o])) :
      Ends Idle Busy Over left first os bound (s,.ok,o)
  | again {s o} (hfirst : first = true) (h : Busy s (os ++ [o])) (hless : left s < bound) :
      Ends Idle Busy Over left first os bound (s,.ok,o)
  | data {s o} (h : Busy s (os ++ [o])) (hless : left s < bound) :
      Ends Idle Busy Over left first os bound (s,.data,o)
  | done {s o} (h : Over s (os ++ [o])) : Ends Idle Busy Over left first os bound (s,.done,o)
  | lastout {s o} (h : Over s (os ++ [o])) : Ends Idle Busy Over left first os bound (s,.lastout,o)

variable {Idle Busy Over : S → List O → Prop} {left : S → W} {first : Bool}

theorem Ends.imp {Busy' : S → List O → Prop} {os : List O} {bound : W} {x : S × PhiR × O}
    (hbusy : ∀ s os, Busy s os → Busy' s os) (h : Ends Idle Busy Over left first os bound x) :
    Ends Idle Busy' Over left first os bound x := by
  cases h with
  | more hfirst h => exact .more hfirst h
  | ok hfirst h => exact .ok hfirst h
  | again hfirst h hless => exact .again hfirst (hbusy _ _ h) hless
  | data h hless => exact .data (hbusy _ _ h) hless
  | done h => exact .done h
  | lastout h => exact .lastout h

theorem Ends.le {os : List O} {bound b : W} {x : S × PhiR × O} (hle : bound ≤ b)
    (h : Ends Idle Busy Over left first os bound x) : Ends Idle Busy Over left first os b x := by
  cases h with
  | more hfirst h => exact .more hfirst h
  | ok hfirst h => exact .ok hfirst h
  | again hfirst h hless => exact .again hfirst h (lt_of_lt_of_le hless hle)
  | data h hless => exact .data h (lt_of_lt_of_le hless hle)
  | done h => exact .done h
  | lastout h => exact .lastout h

theorem calls_rule [WellFoundedLT W]
    (hbusy : ∀ s os, Busy s os → ∃ x, f s ⟨false,first,none⟩ = some x ∧
      Ends Idle Busy Over left first os (left s) x)
    {bound : W} {s : S} {c : Call C} {os : List O} {x : S × PhiR × O} (hf : f s c = some x)
    (h : Ends Idle Busy Over left first os bound x) :
    ∃ n s' gone os', calls f first n s c = some (s',gone,os') ∧
      (gone = false ∧ first = false ∧ Idle s' (os ++ os') ∨ gone = true ∧ Over s' (os ++ os')) := by
  induction bound using WellFoundedLT.induction generalizing s c os x with
  | ind bound ih =>
    -- the calls that follow one that has left less to do
    have hnext {s' : S} {o : O} (hb : Busy s' (os ++ [o])) (hless : left s' < bound) :
        ∃ n s'' gone os', calls f first n s' ⟨false,first,none⟩ = some (s'',gone,os') ∧
          (gone = false ∧ first = false ∧ Idle s'' (os ++ o :: os') ∨
            gone = true ∧ Over s'' (os ++ o :: os')) := by
      obtain ⟨y,hy,hends⟩ := hbusy _ _ hb
      obtain ⟨n,s'',gone,os',hcalls,hres⟩ := ih _ hless hy hends
      refine ⟨n,s'',gone,os',hcalls,?_⟩
      simpa using hres
    cases h with
    | more hfirst hi =>
      refine ⟨1,_,false,[_],?_,.inl ⟨rfl,hfirst,hi⟩⟩
      rw [calls_succ hf,hfirst]
      rfl
    | ok hfirst hi =>
      refine ⟨1,_,false,[_],?_,.inl ⟨rfl,hfirst,hi⟩⟩
      rw [calls_succ hf,hfirst]
      rfl
    | again hfirst hb hless =>
      obtain ⟨n,s'',gone,os',hcalls,hres⟩ := hnext hb hless
      refine ⟨n + 1,s'',gone,_ :: os',?_,hres⟩
      rw [calls_succ hf,hcalls,hfirst]
      rfl
    | data hb hless =>
      obtain ⟨n,s'',gone,os',hcalls,hres⟩ := hnext hb hless
      refine ⟨n + 1,s'',gone,_ :: os',?_,hres⟩
      rw [calls_succ hf,hcalls]
      rfl
    | done ho => exact ⟨1,_,true,[_],calls_succ hf,.inr ⟨rfl,ho⟩⟩
    | lastout ho => exact ⟨1,_,true,[_],calls_succ hf,.inr ⟨rfl,ho⟩⟩

/-- A filter that has used all regions whenever it asks for more, and works off what it has when it is
called again, goes through all regions or leaves the chain before. -/
theorem drive_rule [WellFoundedLT W] {Idle : List C → S → List O → Prop} {Busy Over : List C → Bool → S → List O → Prop}
    {left : S → W} {P : List C → C → Bool → Prop}
    (hgive : ∀ given d first s os, P given d first → Idle given s os →
      ∃ x bound, f s ⟨true,first,some d⟩ = some x ∧ Ends (Idle (given ++ [d]))
        (Busy (given ++ [d]) first) (Over (given ++ [d]) first) left first os bound x)
    (hbusy : ∀ given first s os, Busy given first s os → ∃ x, f s ⟨false,first,none⟩ = some x ∧
      Ends (Idle given) (Busy given first) (Over given first) left first os (left s) x)
    {given ds : List C} (hds : ds ≠ []) {s : S} {os : List O} (h : Idle given s os)
    (hok : ∀ pre d post, ds = pre ++ d :: post → P (given ++ pre) d post.isEmpty) :
    ∃ n s' os' pre post, drive f n s ds = some (s',true,os') ∧ ds = pre ++ post ∧
      Over (given ++ pre) post.isEmpty s' (os ++ os') := by
  induction ds generalizing given s os with
  | nil => exact absurd rfl hds
  | cons d ds ih =>
    obtain ⟨x,bound,hf,hends⟩ := hgive given d ds.isEmpty s os
      (by simpa using hok [] d ds rfl) h
    obtain ⟨n,s',gone,os',hcalls,hres⟩ := calls_rule (fun s os hb => hbusy _ _ s os hb) hf hends
    rcases hres with ⟨rfl,hlast,hi⟩ | ⟨rfl,ho⟩
    · have hne : ds ≠ [] := fun hnil => by simp [hnil] at hlast
      obtain ⟨m,s'',os'',pre,post,hdrive,hsplit,hover⟩ := ih hne hi fun pre e post hp => by
        simpa using hok (d :: pre) e post (by rw [hp]; rfl)
      refine ⟨max n m,s'',os' ++ os'',d :: pre,post,?_,by rw [hsplit]; rfl,?_⟩
      · rw [drive,calls_le hcalls (Nat.le_max_left n m)]
        dsimp only [Option.bind_eq_bind,Option.bind_some]
        rw [drive_le hdrive (Nat.le_max_right n m)]
        rfl
      · simpa using hover
    · refine ⟨n,s',os',[d],ds,?_,rfl,ho⟩
      rw [drive,hcalls]
      rfl

theorem calls_partial
    (hbusy : ∀ s os x, Busy s os → f s ⟨false,first,none⟩ = some x →
      ∃ bound, Ends Idle Busy Over left first os bound x)
    {n : Nat} {bound : W} {s : S} {c : Call C} {os : List O} {x : S × PhiR × O} (hf : f s c = some x)
    (h : Ends Idle Busy Over left first os bound x) {s' : S} {gone : Bool} {os' : List O}
    (hcalls : calls f first n s c = some (s',gone,os')) :
    gone = false ∧ first = false ∧ Idle s' (os ++ os') ∨ gone = true ∧ Over s' (os ++ os') := by
  induction n generalizing bound s c os x os' with
  | zero => cases hcalls
  | succ n ih =>
    -- the calls that follow
    have hnext {t : S} {o : O} (hb : Busy t (os ++ [o]))
        (hmap : ((calls f first n t ⟨false,first,none⟩).map fun x => (x.1,x.2.1,o :: x.2.2)) =
          some (s',gone,os')) :
        gone = false ∧ first = false ∧ Idle s' (os ++ os') ∨ gone = true ∧ Over s' (os ++ os') := by
      obtain ⟨⟨s'',gone',os''⟩,hrest,heq⟩ := Option.map_eq_some_iff.mp hmap
      simp only [Prod.mk.injEq] at heq
      obtain ⟨rfl,rfl,rfl⟩ := heq
      cases hy : f t ⟨false,first,none⟩ with
      | none =>
        cases n with
        | zero => cases hrest
        | succ n =>
          rw [calls,hy] at hrest
          cases hrest
      | some y =>
        obtain ⟨b,hends⟩ := hbusy _ _ _ hb hy
        simpa using ih hy hends hrest
    rw [calls_succ hf] at hcalls
    cases h with
    | more hfirst hi =>
      rw [hfirst] at hcalls
      cases hcalls
      exact .inl ⟨rfl,hfirst,hi⟩
    | ok hfirst hi =>
      rw [hfirst] at hcalls
      cases hcalls
      exact .inl ⟨rfl,hfirst,hi⟩
    | again hfirst hb hless =>
      rw [hfirst] at hcalls
      subst hfirst
      exact hnext hb hcalls
    | data hb hless => exact hnext hb hcalls
    | done ho =>
      cases hcalls
      exact .inr ⟨rfl,ho⟩
    | lastout ho =>
      cases hcalls
      exact .inr ⟨rfl,ho⟩

theorem drive_partial {Idle : List C → S → List O → Prop}
    {Busy Over : List C → Bool → S → List O → Prop} {left : S → W}
    (hgive : ∀ given d first s os x, Idle given s os → f s ⟨true,first,some d⟩ = some x →
      ∃ bound, Ends (Idle (given ++ [d])) (Busy (given ++ [d]) first) (Over (given ++ [d]) first)
        left first os bound x)
    (hbusy : ∀ given first s os x, Busy given first s os → f s ⟨false,first,none⟩ = some x →
      ∃ bound, Ends (Idle given) (Busy given first) (Over given first) left first os bound x)
    {n : Nat} {given ds : List C} {s s' : S} {os os' : List O} (h : Idle given s os)
    (hdrive : drive f n s ds = some (s',true,os')) :
    ∃ pre post, ds = pre ++ post ∧ Over (given ++ pre) post.isEmpty s' (os ++ os') := by
  induction ds generalizing given s os os' with
  | nil => cases hdrive
  | cons d ds ih =>
    simp only [drive,Option.bind_eq_bind,Option.bind_eq_some_iff] at hdrive
    obtain ⟨⟨t,gone,os₁⟩,hcalls,hrest⟩ := hdrive
    cases hx : f s ⟨true,ds.isEmpty,some d⟩ with
    | none =>
      cases n with
      | zero => cases hcalls
      | succ n =>
        rw [calls,hx] at hcalls
        cases hcalls
    | some x =>
      obtain ⟨bound,hends⟩ := hgive given d _ s os x h hx
      have hres := calls_partial (fun s os x hb => hbusy _ _ s os x hb) hx hends hcalls
      rcases hres with ⟨rfl,hlast,hi⟩ | ⟨rfl,ho⟩
      · obtain ⟨⟨s'',gone',os₂⟩,hd,heq⟩ := Option.map_eq_some_iff.mp hrest
        simp only [Prod.mk.injEq] at heq
        obtain ⟨rfl,rfl,rfl⟩ := heq
        obtain ⟨pre,post,hsplit,hover⟩ := ih hi hd
        refine ⟨d :: pre,post,by rw [hsplit]; rfl,?_⟩
        simpa using hover
      · cases hrest
        exact ⟨[d],ds,rfl,ho⟩

end Phiola.Feed
