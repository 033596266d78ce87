import Mathlib.Algebra.Ring.Nat
import Mathlib.Data.List.Basic
import Mathlib.Data.List.Flatten

/-!
# Runs of samples

A sample is named by its position in the stream. A stream is divided into runs; of every run a part is
passed on, with a position that is reported for its first sample.
-/

namespace Phiola.Runs

/-- Runs of these lengths, each with its start, from position `p` on. -/
def runs (p : Nat) : List Nat → List (Nat × Nat)
  | [] => []
  | n :: ns => (p,n) :: runs (p + n) ns

/-- The samples of a run from position `a` to position `b`. -/
def clip (a b : Nat) (x : Nat × Nat) : List Nat := List.range' (max x.1 a) (min (x.1 + x.2) b - max x.1 a)

variable {a b p : Nat} {ns : List Nat} {x : Nat × Nat}

theorem mem_clip {i : Nat} : i ∈ clip a b x ↔ (x.1 ≤ i ∧ i < x.1 + x.2) ∧ a ≤ i ∧ i < b := by
  simp only [clip,List.mem_range'_1]
  omega

theorem clip_nil (h : min (x.1 + x.2) b ≤ max x.1 a) : clip a b x = [] := by
  rw [clip,Nat.sub_eq_zero_of_le h]
  rfl

theorem clip_zero {n : Nat} (h : b ≤ n) : clip a b (0,n) = List.range' a (b - a) := by
  simp only [clip,Nat.zero_max,Nat.zero_add,Nat.min_eq_right h]

theorem clip_append (n m : Nat) : clip a b (p,n) ++ clip a b (p + n,m) = clip a b (p,n + m) := by
  by_cases ha : p + n ≤ a
  · rw [clip_nil (by dsimp only; omega),List.nil_append,clip,clip]
    dsimp only
    rw [show max p a = a by omega,show max (p + n) a = a by omega,Nat.add_assoc]
  · by_cases hb : b ≤ p + n
    · rw [clip_nil (x := (p + n,m)) (by dsimp only; omega),List.append_nil,clip,clip]
      dsimp only
      rw [show min (p + n) b = b by omega,show min (p + (n + m)) b = b by omega]
    · simp only [clip]
      rw [show max (p + n) a = max p a + (min (p + n) b - max p a) by omega,List.range'_append_1]
      congr 1
      omega

theorem flatMap_clip : (runs p ns).flatMap (clip a b) = clip a b (p,ns.sum) := by
  induction ns generalizing p with
  | nil => exact (clip_nil (by dsimp only [List.sum_nil]; omega)).symm
  | cons n ns ih => rw [runs,List.flatMap_cons,ih,List.sum_cons,clip_append]

theorem le_of_mem_runs (h : x ∈ runs p ns) : p ≤ x.1 ∧ x.1 + x.2 ≤ p + ns.sum := by
  induction ns generalizing p with
  | nil => cases h
  | cons n ns ih =>
    rw [List.sum_cons]
    rcases List.mem_cons.mp h with rfl | h
    · exact ⟨Nat.le_refl _,by dsimp only; omega⟩
    · have := ih h
      omega

theorem snd_of_mem_runs (h : x ∈ runs p ns) : x.2 ∈ ns := by
  induction ns generalizing p with
  | nil => cases h
  | cons n ns ih =>
    rcases List.mem_cons.mp h with rfl | h
    · exact List.mem_cons_self ..
    · exact List.mem_cons_of_mem _ (ih h)

theorem range'_inj {s n m : Nat} : List.range' s n = List.range' s m ↔ n = m :=
  ⟨fun h => by simpa using congrArg List.length h,fun h => by rw [h]⟩

/-- Parts of consecutive runs make up a stretch of the stream if and only if each of them is what the run
has of it. -/
theorem flatMap_iff {out : Nat × Nat → List Nat}
    (hout : ∀ x ∈ runs p ns, ∀ i ∈ out x, x.1 ≤ i ∧ i < x.1 + x.2) :
    (runs p ns).flatMap out = clip a b (p,ns.sum) ↔ ∀ x ∈ runs p ns, out x = clip a b x := by
  constructor
  · intro h
    rw [← flatMap_clip] at h
    induction ns generalizing p with
    | nil => exact nofun
    | cons n ns ih =>
      simp only [runs,List.flatMap_cons,List.forall_mem_cons] at h hout ⊢
      obtain ⟨hhead,htail⟩ := hout
      -- the first run has the samples below its end
      have hsplit {xs : List Nat} {g : Nat × Nat → List Nat} (hxs : ∀ i ∈ xs, i < p + n)
          (hg : ∀ x ∈ runs (p + n) ns, ∀ i ∈ g x, x.1 ≤ i) :
          (xs ++ (runs (p + n) ns).flatMap g).filter (· < p + n) = xs := by
        rw [List.filter_append,List.filter_eq_self.mpr (by simpa using hxs),List.filter_eq_nil_iff.mpr,
          List.append_nil]
        intro i hi
        obtain ⟨y,hy,hi⟩ := List.mem_flatMap.mp hi
        have hle := (le_of_mem_runs hy).1
        have := hg y hy i hi
        simp only [decide_eq_true_eq]
        omega
      have heq : out (p,n) = clip a b (p,n) := by
        rw [← hsplit (fun i hi => (hhead i hi).2) fun y hy i hi => (htail y hy i hi).1,h,
          hsplit (fun i hi => (mem_clip.mp hi).1.2) fun y _ i hi => (mem_clip.mp hi).1.1]
      rw [heq] at h
      exact ⟨heq,ih htail (List.append_cancel_left h)⟩
  · intro h
    rw [← flatMap_clip]
    exact List.flatMap_congr h

/-! ## What is passed on -/

/-- What is passed on of a run: the position that is reported, the first sample, and the number of samples. -/
structure Chunk where
  pos : Nat
  first : Nat
  len : Nat
deriving DecidableEq

def Chunk.samples (c : Chunk) : List Nat := List.range' c.first c.len

/-- The positions that are reported for the samples. -/
def Chunk.positions (c : Chunk) : List Nat := List.range' c.pos c.len

variable {S X C : Type}

/-- What is passed on of its inputs by something with a state. -/
def play (step : S → X → S × Option C) : S → List X → List C
  | _,[] => []
  | s,x :: xs => (step s x).2.toList ++ play step (step s x).1 xs

theorem play_eq {step : S → Nat × Nat → S × Option C} {out : Nat × Nat → Option C} {I : S → Nat → Prop}
    (hstep : ∀ s x, x ∈ runs p ns → I s x.1 → (step s x).2 = out x ∧ I (step s x).1 (x.1 + x.2))
    {s : S} (h : I s p) : play step s (runs p ns) = (runs p ns).filterMap out := by
  induction ns generalizing p s with
  | nil => rfl
  | cons n ns ih =>
    obtain ⟨hout,hnext⟩ := hstep s (p,n) (List.mem_cons_self ..) h
    rw [runs,play,hout,ih (fun s x hx => hstep s x (List.mem_cons_of_mem _ hx)) hnext,
      List.filterMap_cons]
    cases out (p,n) <;> rfl

/-- The samples that are passed on of a run. -/
def taken (out : Nat × Nat → Option Chunk) (x : Nat × Nat) : List Nat := (out x).elim [] Chunk.samples

theorem flatMap_filterMap (out : Nat × Nat → Option C) (g : C → List Nat) (xs : List (Nat × Nat)) :
    (xs.filterMap out).flatMap g = xs.flatMap fun x => (out x).elim [] g := by
  induction xs with
  | nil => rfl
  | cons x xs ih =>
    rw [List.filterMap_cons,List.flatMap_cons,← ih]
    cases out x <;> rfl

/-- The positions of chunks that are those of their samples after the first `d`. -/
theorem map_positions {cs : List Chunk} {d : Nat} (hpos : ∀ c ∈ cs, c.len ≠ 0 → c.first = d + c.pos) :
    (cs.flatMap Chunk.positions).map (d + ·) = cs.flatMap Chunk.samples := by
  rw [List.map_flatMap]
  refine List.flatMap_congr fun c hc => ?_
  rw [Chunk.positions,Chunk.samples,List.map_add_range']
  by_cases hlen : c.len = 0
  · rw [hlen]
    rfl
  · rw [hpos c hc hlen]

/-- The positions are those of the samples if and only if they are for every chunk with samples. -/
theorem positions_iff {cs : List Chunk} :
    cs.flatMap Chunk.positions = cs.flatMap Chunk.samples ↔ ∀ c ∈ cs, c.len ≠ 0 → c.pos = c.first := by
  induction cs with
  | nil => simp
  | cons c cs ih =>
    rw [List.flatMap_cons,List.flatMap_cons,List.forall_mem_cons]
    constructor
    · intro h
      obtain ⟨hhead,htail⟩ := List.append_inj h (by simp [Chunk.positions,Chunk.samples])
      refine ⟨fun hlen => ?_,ih.mp htail⟩
      obtain ⟨n,hn⟩ := Nat.exists_eq_succ_of_ne_zero hlen
      rw [Chunk.positions,Chunk.samples,hn,List.range'_succ,List.range'_succ] at hhead
      exact (List.cons.inj hhead).1
    · rintro ⟨hhead,htail⟩
      rw [ih.mpr htail,Chunk.positions,Chunk.samples]
      by_cases hlen : c.len = 0
      · rw [hlen]
        rfl
      · rw [hhead hlen]

theorem positions_eq {cs : List Chunk} {d n : Nat} (hpos : ∀ c ∈ cs, c.len ≠ 0 → c.first = d + c.pos)
    (h : cs.flatMap Chunk.samples = List.range' d n) : cs.flatMap Chunk.positions = List.range' 0 n := by
  have hinj : Function.Injective (List.map (d + ·)) :=
    List.map_injective_iff.mpr fun _ _ h => Nat.add_left_cancel h
  apply hinj
  rw [map_positions hpos,h,List.map_add_range',Nat.add_zero]

/-! ## A stretch of the stream -/

/-- The samples from `a` to `b` are passed on, at their positions, and no chunk has more than its block. -/
def Right (a b p : Nat) (ns : List Nat) (cs : List Chunk) : Prop :=
  cs.flatMap Chunk.samples = clip a b (p,ns.sum) ∧ cs.flatMap Chunk.positions = clip a b (p,ns.sum) ∧
    ∀ c ∈ cs, c.len ≠ 0 → ∃ x ∈ runs p ns, x.1 ≤ c.first ∧ c.first + c.len ≤ x.1 + x.2

section Right
variable {s q n b : Nat} {cs : List Chunk} {c : Chunk}

theorem clip_all (hs : s ≤ p) (he : p + n ≤ b) : clip s b (p,n) = List.range' p n := by
  simp only [clip,Nat.max_eq_left hs,Nat.min_eq_left he,Nat.add_sub_cancel_left]

theorem Right.pos (h : Right s b p ns cs) : ∀ c ∈ cs, c.len ≠ 0 → c.pos = c.first :=
  positions_iff.mp (h.2.1.trans h.1.symm)

theorem Right.first (h : Right s b p ns cs) (hc : c ∈ cs) (hlen : c.len ≠ 0) : s ≤ c.first ∧ c.first < b := by
  have hmem : c.first ∈ cs.flatMap Chunk.samples :=
    List.mem_flatMap.mpr ⟨c,hc,List.mem_range'_1.mpr ⟨Nat.le_refl _,by omega⟩⟩
  rw [h.1] at hmem
  exact (mem_clip.mp hmem).2

theorem right_nil : Right s b p [] [] :=
  ⟨(clip_nil (by dsimp only [List.sum_nil]; omega)).symm,(clip_nil (by dsimp only [List.sum_nil]; omega)).symm,
    nofun⟩

/-- What is passed on of a block is what it has of the stretch. -/
theorem right_cons {o : Option Chunk} (ho : o.elim [] Chunk.samples = clip s b (p,n))
    (hpos : ∀ c, o = some c → c.len ≠ 0 → c.pos = c.first) (h : Right s b (p + n) ns cs) :
    Right s b p (n :: ns) (o.toList ++ cs) := by
  obtain ⟨hsamples,hpositions,hblock⟩ := h
  have hall : (o.toList ++ cs).flatMap Chunk.samples = clip s b (p,(n :: ns).sum) := by
    rw [List.flatMap_append,hsamples,List.sum_cons,← clip_append,← ho]
    cases o <;> simp
  refine ⟨hall,?_,fun c hc hlen => ?_⟩
  · rw [← hall]
    refine positions_iff.mpr fun c hc => ?_
    rcases List.mem_append.mp hc with hc | hc
    · exact hpos c (Option.mem_toList.mp hc)
    · exact positions_iff.mp (hpositions.trans hsamples.symm) c hc
  · rcases List.mem_append.mp hc with hc | hc
    · obtain rfl : o = some c := Option.mem_toList.mp hc
      have hmem {i : Nat} (hi : c.first ≤ i ∧ i < c.first + c.len) : p ≤ i ∧ i < p + n := by
        have : i ∈ c.samples := List.mem_range'_1.mpr hi
        rw [show c.samples = clip s b (p,n) from ho] at this
        exact (mem_clip.mp this).1
      have hfirst := hmem ⟨Nat.le_refl _,by omega⟩
      have hlast := hmem (i := c.first + (c.len - 1)) ⟨by omega,by omega⟩
      exact ⟨(p,n),List.mem_cons_self ..,hfirst.1,by dsimp only; omega⟩
    · obtain ⟨x,hx,hin⟩ := hblock c hc hlen
      exact ⟨x,List.mem_cons_of_mem _ hx,hin⟩

theorem right_some (hc : c.samples = clip s b (p,n)) (hpos : c.len ≠ 0 → c.pos = c.first)
    (h : Right s b (p + n) ns cs) : Right s b p (n :: ns) (c :: cs) :=
  right_cons (o := some c) hc (fun _ heq => Option.some.inj heq ▸ hpos) h

theorem clip_start (hq : q ≤ s) (hb : q + n ≤ b) : clip s b (q,n) = List.range' s (q + n - s) := by
  simp only [clip,Nat.max_eq_right hq,Nat.min_eq_left hb]

end Right

/-! ## Runs on pages -/

/-- A run with the start of the page that it is on. -/
structure Packet where
  page : Nat
  run : Nat × Nat

/-- Runs of which some start a page. -/
def packets (page p : Nat) : List (Bool × Nat) → List Packet
  | [] => []
  | (start,n) :: zs => ⟨if start then p else page,(p,n)⟩ :: packets (if start then p else page) (p + n) zs

theorem map_run (page p : Nat) (zs : List (Bool × Nat)) :
    (packets page p zs).map Packet.run = runs p (zs.map Prod.snd) := by
  induction zs generalizing page p with
  | nil => rfl
  | cons z zs ih => simp [packets,runs,ih]

theorem run_mem {page : Nat} {zs : List (Bool × Nat)} {z : Packet} (h : z ∈ packets page p zs) :
    z.run ∈ runs p (zs.map Prod.snd) := by
  rw [← map_run]
  exact List.mem_map_of_mem h

theorem page_le {page : Nat} {zs : List (Bool × Nat)} {z : Packet} (hle : page ≤ p)
    (h : z ∈ packets page p zs) : z.page ≤ z.run.1 := by
  induction zs generalizing page p with
  | nil => cases h
  | cons y zs ih =>
    obtain ⟨start,n⟩ := y
    have hle' : (if start then p else page) ≤ p := by split <;> omega
    rcases List.mem_cons.mp h with rfl | h
    · exact hle'
    · exact ih (by omega) h

/-- A property of the state that every packet keeps, on the page it is on or on a new one. -/
theorem play_packets {step : S → Packet → S × Option C} {g : C → List Nat} {out : Packet → List Nat}
    {Q : C → Prop} {I : S → Nat → Nat → Prop} {zs : List (Bool × Nat)} {page : Nat}
    (hstep : ∀ s page' z, z ∈ packets page p zs → z.page = page' ∨ z.page = z.run.1 →
      I s page' z.run.1 → (step s z).2.elim [] g = out z ∧ (∀ c, (step s z).2 = some c → Q c) ∧
        I (step s z).1 z.page (z.run.1 + z.run.2)) {s : S} (h : I s page p) :
    (play step s (packets page p zs)).flatMap g = (packets page p zs).flatMap out ∧
      ∀ c ∈ play step s (packets page p zs), Q c := by
  induction zs generalizing p s page with
  | nil => exact ⟨rfl,nofun⟩
  | cons z zs ih =>
    obtain ⟨start,n⟩ := z
    obtain ⟨hout,hq,hnext⟩ := hstep s page ⟨if start then p else page,(p,n)⟩ (List.mem_cons_self ..)
      (by cases start <;> simp) h
    obtain ⟨hrest,hqs⟩ := ih (fun s page' z hz => hstep s page' z (List.mem_cons_of_mem _ hz)) hnext
    rw [packets,play,List.flatMap_append,List.flatMap_cons,hrest,← hout]
    constructor
    · cases (step s ⟨if start then p else page,(p,n)⟩).2 <;> simp
    · intro c hc
      rcases List.mem_append.mp hc with hc | hc
      · exact hq c (by simpa [Option.mem_toList] using hc)
      · exact hqs c hc

end Phiola.Runs
