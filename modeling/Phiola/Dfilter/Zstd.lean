import Mathlib.Data.List.Basic

/-!
# Compression and decompression

`zstdw_process()` and `zstdr_process()` over a codec that takes a part of the input and gives some output. What
they return depends on the output, on the result of the codec and on whether the filter is the first one, and
not on the input that is left. The conveyor calls a filter again after `PHI_DATA`, and with the next chunk
after `PHI_MORE`.
-/

namespace Phiola.Zstd

abbrev Bytes := List UInt8

variable {E : Type}

/-- What the codec does in a call: the new state, `in.pos`, the output, and the result. -/
structure Coded (E : Type) where
  zst : E
  pos : Nat
  out : Bytes
  r : Int

/-- `zstd_encode()`, with the flag `ZSTD_FFINISH`; `zstd_decode()` without a flag. -/
abbrev Encode (E : Type) := E → Bytes → Bool → Coded E
abbrev Decode (E : Type) := E → Bytes → Coded E

/-- `struct zstdw`, `struct zstdr` -/
structure Filter (E : Type) where
  zst : E
  input : Bytes

inductive Ret
  | more
  | data
  | done
  | err
  deriving DecidableEq

/-- What is returned -/
def answer (r : Int) (out : Bytes) (first : Bool) : Ret :=
  if r < 0 then .err
  else if out = [] ∧ first then .done
  else if out = [] ∧ r > 0 then .more
  else .data

/-- A call: the filter, what is returned with `t->data_out`, the bytes that the codec took, and what the codec
did. -/
structure Called (E : Type) where
  z : Filter E
  ret : Ret
  data_out : Bytes
  eaten : Bytes
  coded : Coded E

/-- What both functions do: `fwd` is `PHI_FFWD`, `first` is `PHI_FFIRST`, which the compression passes to the
codec. -/
def process (code : Encode E) (z : Filter E) (fwd first : Bool) (data_in : Bytes) : Called E :=
  let input := if fwd then data_in else z.input
  let c := code z.zst input first
  let ret := answer c.r c.out first
  ⟨⟨c.zst,input.drop c.pos⟩,ret,if ret = .data then c.out else [],input.take c.pos,c⟩

def zstdw_process (zstd_encode : Encode E) (z : Filter E) (fwd first : Bool) (data_in : Bytes) : Called E :=
  process zstd_encode z fwd first data_in

def zstdr_process (zstd_decode : Decode E) (z : Filter E) (fwd first : Bool) (data_in : Bytes) : Called E :=
  process (fun zst input _ => zstd_decode zst input) z fwd first data_in

/-! ## Under the conveyor -/

/-- The filter between two calls: the chunks that are still to come and the bytes of the others, what the codec
took and gave, what was passed on, and the last call. -/
structure Run (E : Type) where
  z : Filter E
  chunks : List Bytes
  given : Bytes
  eaten : Bytes
  emitted : Bytes
  passed : Bytes
  first : Bool
  out : Bytes
  r : Int
  ret : Ret

def Run.called (s : Run E) (c : Called E) : Run E :=
  { s with
    z := c.z,eaten := s.eaten ++ c.eaten,emitted := s.emitted ++ c.coded.out,
    passed := s.passed ++ c.data_out,out := c.coded.out,r := c.coded.r,ret := c.ret }

/-- The next call; the filters before leave the chain with the last chunk. -/
def next (f : Filter E → Bool → Bool → Bytes → Called E) (s : Run E) : Run E :=
  match s.ret with
  | .done | .err => s
  | .data => s.called (f s.z false s.first [])
  | .more =>
    match s.chunks with
    | [] => s
    | d :: ds =>
      { s with chunks := ds,given := s.given ++ d,first := ds.isEmpty }.called (f s.z true ds.isEmpty d)

def start (zst : E) (chunks : List Bytes) : Run E := ⟨⟨zst,[]⟩,chunks,[],[],[],[],false,[],1,.more⟩

/-- After so many calls -/
def run (f : Filter E → Bool → Bool → Bytes → Called E) (zst : E) (chunks : List Bytes) : Nat → Run E
  | 0 => start zst chunks
  | n + 1 => next f (run f zst chunks n)

/-- The codec takes all input when it has no output, and returns whether it holds data or is inside a frame. -/
structure Codes (code : Encode E) (held : E → Bool) : Prop where
  all : ∀ e b finish, (code e b finish).out = [] → 0 ≤ (code e b finish).r → b.length ≤ (code e b finish).pos
  result : ∀ e b finish, 0 ≤ (code e b finish).r → (0 < (code e b finish).r ↔ held (code e b finish).zst = true)

/-- When it is to finish, it has no output only after the complete frame. -/
def Finishes (code : Encode E) (held : E → Bool) : Prop :=
  ∀ e b, (code e b true).out = [] → 0 ≤ (code e b true).r → held (code e b true).zst = false

/-! ## What is expected -/

/-- Each byte goes to the codec once and in order, and each byte of its output is passed on; the filter is done
only after everything, outside of a frame, and fails when the input ended inside a frame. -/
structure Kept (held : E → Bool) (chunks : List Bytes) (s : Run E) : Prop where
  eaten : s.eaten ++ s.z.input = s.given
  given : s.given ++ s.chunks.flatten = chunks.flatten
  passed : s.ret ≠ .err → s.passed = s.emitted
  done : s.ret = .done → held s.z.zst = false ∧ s.eaten = chunks.flatten
  cut : s.first = true → s.out = [] → held s.z.zst = true → s.ret = .err

/-- The filter does not return `PHI_DATA` without output for ever. -/
def Live (s : Nat → Run E) : Prop := ¬ ∃ n, ∀ m ≥ n, (s m).ret = .data ∧ (s m).out = []

def Right (held : E → Bool) (chunks : List Bytes) (s : Nat → Run E) : Prop :=
  (∀ n, Kept held chunks (s n)) ∧ Live s

/-! ## When it is so -/

/-- The codec after calls without input -/
def idle (code : Encode E) (e : E) : Nat → E
  | 0 => e
  | k + 1 => (code (idle code e k) [] false).zst

/-- A call before the last chunk, in which the codec gave nothing and returned 0, and does so for ever without
input. -/
def Stays (code : Encode E) (s : Run E) : Prop :=
  s.first = false ∧ s.out = [] ∧ s.r = 0 ∧
    ∀ k, (code (idle code s.z.zst k) [] false).out = [] ∧ (code (idle code s.z.zst k) [] false).r = 0

/-- All is given and nothing is left to pass on, but the codec is inside a frame. -/
def CutOff (held : E → Bool) (s : Run E) : Prop :=
  s.first = true ∧ s.out = [] ∧ 0 ≤ s.r ∧ held s.z.zst = true

variable {code : Encode E} {held : E → Bool} {chunks : List Bytes} {e : E} {s : Run E}

/-- What every state of a run has. -/
structure Inv (code : Encode E) (chunks : List Bytes) (s : Run E) : Prop where
  eaten : s.eaten ++ s.z.input = s.given
  given : s.given ++ s.chunks.flatten = chunks.flatten
  passed : s.ret ≠ .err → s.passed = s.emitted
  ret : s.ret = answer s.r s.out s.first
  last : s.first = true → s.chunks = []
  input : s.out = [] → 0 ≤ s.r → s.z.input = []
  call : s.first = true →
    ∃ e b, s.z.zst = (code e b true).zst ∧ s.r = (code e b true).r ∧ s.out = (code e b true).out

theorem inv_start (code : Encode E) (e : E) (chunks : List Bytes) : Inv code chunks (start e chunks) :=
  ⟨rfl,rfl,fun _ => rfl,rfl,fun h => (by cases h),fun _ _ => rfl,fun h => (by cases h)⟩

theorem answer_data {r : Int} {out : Bytes} {first : Bool} (h : answer r out first ≠ .data)
    (herr : answer r out first ≠ .err) : out = [] ∧ 0 ≤ r := by
  unfold answer at h herr
  split at h
  · rename_i hr
    exact absurd (if_pos hr) herr
  · rename_i hr
    refine ⟨?_,Int.not_lt.mp hr⟩
    split at h
    · rename_i ho
      exact ho.1
    · split at h
      · rename_i ho
        exact ho.1
      · exact absurd rfl h

/-- What a call for `b` with the rest `rest` of the chunks does. -/
theorem Inv.called (hc : Codes code held) {s : Run E} {z : Filter E} {fwd : Bool} {d : Bytes}
    (heaten : s.eaten ++ (if fwd then d else z.input) = s.given)
    (hgiven : s.given ++ s.chunks.flatten = chunks.flatten) (hpassed : s.passed = s.emitted)
    (hlast : s.first = true → s.chunks = []) :
    Inv code chunks (s.called (process code z fwd s.first d)) := by
  have hall := hc.all z.zst (if fwd then d else z.input) s.first
  refine ⟨?_,hgiven,?_,rfl,hlast,?_,?_⟩
  · simp only [Run.called,process,List.append_assoc,List.take_append_drop]
    exact heaten
  · intro herr
    change s.passed ++ _ = s.emitted ++ _
    rw [hpassed]
    by_cases hd : (process code z fwd s.first d).ret = .data
    · exact congrArg (s.emitted ++ ·) (if_pos hd)
    · have hout := (answer_data hd herr).1
      change s.emitted ++ (if (process code z fwd s.first d).ret = .data then _ else []) = s.emitted ++ _
      rw [if_neg hd]
      exact congrArg (s.emitted ++ ·) hout.symm
  · intro hout hr
    exact List.drop_eq_nil_of_le (hall hout hr)
  · intro hf
    refine ⟨z.zst,if fwd then d else z.input,?_,?_,?_⟩
    · exact congrArg (fun b => (code z.zst (if fwd then d else z.input) b).zst) hf
    · exact congrArg (fun b => (code z.zst (if fwd then d else z.input) b).r) hf
    · exact congrArg (fun b => (code z.zst (if fwd then d else z.input) b).out) hf

theorem inv_next (hc : Codes code held) (h : Inv code chunks s) : Inv code chunks (next (process code) s) := by
  unfold next
  split
  · exact h
  · exact h
  · rename_i hret
    have hne : s.ret ≠ .err := by rw [hret]; decide
    exact Inv.called hc h.eaten h.given (h.passed hne) h.last
  · rename_i hret
    have hne : s.ret ≠ .err := by rw [hret]; decide
    have hnd : s.ret ≠ .data := by rw [hret]; decide
    have hidle := answer_data (h.ret ▸ hnd) (h.ret ▸ hne)
    have hin : s.z.input = [] := h.input hidle.1 hidle.2
    split
    · exact h
    · rename_i d ds hch
      have hg := h.given
      rw [hch] at hg
      apply Inv.called hc
      · have he := h.eaten
        rw [hin,List.append_nil] at he
        exact congrArg (· ++ d) he
      · simpa using hg
      · exact h.passed hne
      · exact fun hf => List.isEmpty_iff.mp hf

theorem inv_run (hc : Codes code held) (e : E) (chunks : List Bytes) (n : Nat) :
    Inv code chunks (run (process code) e chunks n) := by
  induction n with
  | zero => exact inv_start code e chunks
  | succ n ih => exact inv_next hc ih

theorem answer_done {r : Int} {out : Bytes} {first : Bool} (h : answer r out first = .done) :
    0 ≤ r ∧ out = [] ∧ first = true := by
  unfold answer at h
  split at h
  · cases h
  · rename_i hr
    split at h
    · rename_i ho
      exact ⟨Int.not_lt.mp hr,ho⟩
    · split at h <;> cases h

theorem Inv.kept_iff (h : Inv code chunks s) : Kept held chunks s ↔ ¬ CutOff held s := by
  constructor
  · rintro hk ⟨hf,ho,hr,hheld⟩
    have herr := (h.ret.symm.trans (hk.cut hf ho hheld))
    unfold answer at herr
    rw [if_neg (Int.not_lt.mpr hr),if_pos ⟨ho,hf⟩] at herr
    cases herr
  · intro hcut
    refine ⟨h.eaten,h.given,h.passed,fun hd => ?_,fun hf ho hheld => ?_⟩
    · obtain ⟨hr,ho,hf⟩ := answer_done (h.ret ▸ hd)
      constructor
      · cases hheld : held s.z.zst with
        | false => rfl
        | true => exact absurd ⟨hf,ho,hr,hheld⟩ hcut
      · have he := h.eaten
        have hg := h.given
        rw [h.input ho hr,List.append_nil] at he
        rw [h.last hf,List.flatten_nil,List.append_nil] at hg
        exact he.trans hg
    · rw [h.ret]
      refine if_pos (Int.not_le.mp fun hr => ?_)
      exact hcut ⟨hf,ho,hr,hheld⟩

/-! ## Data for ever -/

theorem silent_iff {r : Int} {out : Bytes} {first : Bool} :
    answer r out first = .data ∧ out = [] ↔ first = false ∧ out = [] ∧ r = 0 := by
  unfold answer
  constructor
  · rintro ⟨h,rfl⟩
    split at h
    · cases h
    · split at h
      · cases h
      · rename_i hf
        split at h
        · cases h
        · rename_i hr hr'
          refine ⟨?_,rfl,?_⟩
          · simpa using hf
          · simp only [true_and] at hr'
            omega
  · rintro ⟨rfl,rfl,rfl⟩
    exact ⟨by simp,rfl⟩

/-- A call after `PHI_DATA` without output -/
theorem next_silent (code : Encode E) {s : Run E} (hret : s.ret = .data) (hin : s.z.input = []) (hf : s.first = false) :
    (next (process code) s).z.zst = (code s.z.zst [] false).zst ∧
      (next (process code) s).out = (code s.z.zst [] false).out ∧
      (next (process code) s).r = (code s.z.zst [] false).r ∧ (next (process code) s).first = false := by
  unfold next
  rw [hret]
  simp only [Run.called,process,hin,hf,Bool.false_eq_true,if_false]
  exact ⟨trivial,trivial,trivial,trivial⟩

theorem stays_run (hc : Codes code held) (e : E) (chunks : List Bytes) {n : Nat}
    (h : Stays code (run (process code) e chunks n)) (k : Nat) :
    (run (process code) e chunks (n + k)).ret = .data ∧ (run (process code) e chunks (n + k)).out = [] ∧
      (run (process code) e chunks (n + k)).first = false ∧ (run (process code) e chunks (n + k)).r = 0 ∧
      (run (process code) e chunks (n + k)).z.zst = idle code (run (process code) e chunks n).z.zst k := by
  obtain ⟨hf,ho,hr,hidle⟩ := h
  induction k with
  | zero =>
    have hi := inv_run hc e chunks n
    exact ⟨hi.ret.trans (silent_iff.mpr ⟨hf,ho,hr⟩).1,ho,hf,hr,rfl⟩
  | succ k ih =>
    obtain ⟨hret,hout,hfirst,hres,hzst⟩ := ih
    have hi := inv_run hc e chunks (n + k)
    obtain ⟨hz,ho',hr',hf'⟩ := next_silent code hret (hi.input hout (Int.le_of_eq hres.symm)) hfirst
    have hi' := inv_run hc e chunks (n + k + 1)
    have hout' : (run (process code) e chunks (n + k + 1)).out = [] := by
      rw [run,ho',hzst]
      exact (hidle k).1
    have hr0 : (run (process code) e chunks (n + k + 1)).r = 0 := by
      rw [run,hr',hzst]
      exact (hidle k).2
    refine ⟨hi'.ret.trans (silent_iff.mpr ⟨hf',hout',hr0⟩).1,hout',hf',hr0,?_⟩
    rw [← Nat.add_assoc,run,hz,hzst]
    rfl

theorem live_iff (hc : Codes code held) (e : E) (chunks : List Bytes) :
    Live (run (process code) e chunks) ↔ ∀ n, ¬ Stays code (run (process code) e chunks n) := by
  constructor
  · intro hlive n hst
    refine hlive ⟨n,fun m hm => ?_⟩
    obtain ⟨k,rfl⟩ := Nat.exists_eq_add_of_le hm
    exact ⟨(stays_run hc e chunks hst k).1,(stays_run hc e chunks hst k).2.1⟩
  · rintro hst ⟨n,hn⟩
    have hsilent : ∀ k, (run (process code) e chunks (n + k)).first = false ∧
        (run (process code) e chunks (n + k)).out = [] ∧ (run (process code) e chunks (n + k)).r = 0 := by
      intro k
      have hi := inv_run hc e chunks (n + k)
      have hk := hn (n + k) (Nat.le_add_right ..)
      exact silent_iff.mp ⟨hi.ret ▸ hk.1,hk.2⟩
    have hidle : ∀ k, (run (process code) e chunks (n + k)).z.zst =
        idle code (run (process code) e chunks n).z.zst k := by
      intro k
      induction k with
      | zero => rfl
      | succ k ih =>
        have hi := inv_run hc e chunks (n + k)
        obtain ⟨hz,-⟩ := next_silent code (hn (n + k) (Nat.le_add_right ..)).1
          (hi.input (hsilent k).2.1 (Int.le_of_eq (hsilent k).2.2.symm)) (hsilent k).1
        rw [← Nat.add_assoc,run,hz,ih]
        rfl
    refine hst n ⟨(hsilent 0).1,(hsilent 0).2.1,(hsilent 0).2.2,fun k => ?_⟩
    have hi := inv_run hc e chunks (n + k)
    obtain ⟨-,ho,hr,-⟩ := next_silent code (hn (n + k) (Nat.le_add_right ..)).1
      (hi.input (hsilent k).2.1 (Int.le_of_eq (hsilent k).2.2.symm)) (hsilent k).1
    rw [← hidle k,← ho,← hr]
    exact ⟨(hsilent (k + 1)).2.1,(hsilent (k + 1)).2.2⟩

theorem right_iff (hc : Codes code held) (e : E) (chunks : List Bytes) :
    Right held chunks (run (process code) e chunks) ↔
      (∀ n, ¬ CutOff held (run (process code) e chunks n)) ∧ ∀ n, ¬ Stays code (run (process code) e chunks n) := by
  unfold Right
  rw [live_iff hc]
  exact and_congr_left fun _ => forall_congr' fun n => (inv_run hc e chunks n).kept_iff

theorem run_settled {f : Filter E → Bool → Bool → Bytes → Called E} {p : Run E → Prop} {n : Nat}
    (hdone : (run f e chunks n).ret = .done) (h : ∀ m ≤ n, p (run f e chunks m)) (m : Nat) :
    p (run f e chunks m) := by
  have hstay : ∀ k, run f e chunks (n + k) = run f e chunks n := by
    intro k
    induction k with
    | zero => rfl
    | succ k ih =>
      rw [← Nat.add_assoc,run,ih,next,hdone]
  rcases Nat.le_total m n with hm | hm
  · exact h m hm
  · obtain ⟨k,rfl⟩ := Nat.exists_eq_add_of_le hm
    rw [hstay k]
    exact h n (Nat.le_refl n)

theorem not_cutOff (hc : Codes code held) (hfin : Finishes code held) (e : E) (chunks : List Bytes) (n : Nat) :
    ¬ CutOff held (run (process code) e chunks n) := by
  rintro ⟨hf,ho,hr,hheld⟩
  obtain ⟨e',b,hz,hres,hout⟩ := (inv_run hc e chunks n).call hf
  have hno := hfin e' b (hout ▸ ho) (hres ▸ hr)
  rw [← hz,hheld] at hno
  cases hno

/-- The compression is right unless a call before the last chunk leaves an encoder that stays idle; the
decompression also needs that the input doesn't end inside a frame. -/
theorem complete_iff {D : Type} (encode : Encode E) (decode : Decode D) (held : E → Bool) (held_d : D → Bool)
    (he : Codes encode held) (hfin : Finishes encode held) (hd : Codes (fun d b _ => decode d b) held_d)
    (e : E) (d : D) (texts files : List Bytes) :
    (Right held texts (run (zstdw_process encode) e texts) ↔
        ∀ n, ¬ Stays encode (run (zstdw_process encode) e texts n)) ∧
      (Right held_d files (run (zstdr_process decode) d files) ↔
        (∀ n, ¬ CutOff held_d (run (zstdr_process decode) d files n)) ∧
          ∀ n, ¬ Stays (fun d b _ => decode d b) (run (zstdr_process decode) d files n)) := by
  refine ⟨?_,right_iff hd d files⟩
  refine (right_iff he e texts).trans ⟨fun h => h.2,fun h => ⟨not_cutOff he hfin e texts,h⟩⟩

/-! ## A codec that copies -/

/-- A frame is what comes until a zero; a zero ends it at the end of the input. The state says whether a frame
has begun. -/
def copy_encode (inside : Bool) (input : Bytes) (finish : Bool) : Coded Bool :=
  if input ≠ [] then ⟨true,input.length,input,1⟩
  else if finish ∧ inside then ⟨false,0,[0],0⟩
  else ⟨inside,0,[],if inside then 1 else 0⟩

def copy_decode (inside : Bool) (input : Bytes) : Coded Bool :=
  if input ≠ [] then
    ⟨input.getLast? ≠ some 0,input.length,input,if input.getLast? ≠ some 0 then 1 else 0⟩
  else ⟨inside,0,[],if inside then 1 else 0⟩

theorem codes_encode : Codes copy_encode id := by
  refine ⟨fun e b f h _ => ?_,fun e b f _ => ?_⟩
  · unfold copy_encode at h ⊢
    split at h
    · rename_i hb
      exact absurd h hb
    · rename_i hb
      rw [Decidable.not_not.mp hb]
      exact Nat.zero_le _
  · unfold copy_encode
    split
    · simp
    · split
      · simp
      · cases e <;> simp

theorem finishes_encode : Finishes copy_encode id := by
  intro e b h _
  unfold copy_encode at h ⊢
  split at h
  · rename_i hb
    exact absurd h hb
  · rename_i hb
    split at h
    · cases h
    · rename_i hno
      rw [if_neg hb,if_neg hno]
      cases e with
      | false => rfl
      | true => simp at hno

theorem codes_decode : Codes (fun d b _ => copy_decode d b) id := by
  refine ⟨fun e b f h _ => ?_,fun e b f _ => ?_⟩
  · unfold copy_decode at h ⊢
    split at h
    · rename_i hb
      exact absurd h hb
    · rename_i hb
      rw [Decidable.not_not.mp hb]
      exact Nat.zero_le _
  · unfold copy_decode
    split
    · by_cases hl : b.getLast? = some 0 <;> simp [hl]
    · cases e <;> simp

/-- Two chunks are compressed, and a file of a whole frame is decompressed. -/
theorem complete_two : Right id [[1],[2]] (run (zstdw_process copy_encode) false [[1],[2]]) ∧
    Right id [[1,0]] (run (zstdr_process copy_decode) false [[1,0]]) := by
  have h := complete_iff copy_encode copy_decode id id codes_encode finishes_encode codes_decode false false
    [[1],[2]] [[1,0]]
  have hencode : ∀ n, (run (zstdw_process copy_encode) false [[1],[2]] n).r ≠ 0 ∨
      (run (zstdw_process copy_encode) false [[1],[2]] n).first = true :=
    run_settled (p := fun s => s.r ≠ 0 ∨ s.first = true) (n := 5) rfl (by decide)
  have hdecode : ∀ n, (run (zstdr_process copy_decode) false [[1,0]] n).r ≠ 0 ∨
      (run (zstdr_process copy_decode) false [[1,0]] n).first = true :=
    run_settled (p := fun s => s.r ≠ 0 ∨ s.first = true) (n := 2) rfl (by decide)
  have hframe : ∀ n, ¬ CutOff id (run (zstdr_process copy_decode) false [[1,0]] n) :=
    run_settled (p := fun s => ¬ CutOff id s) (n := 2) rfl (by unfold CutOff; decide)
  refine ⟨h.1.mpr fun n hst => ?_,h.2.mpr ⟨hframe,fun n hst => ?_⟩⟩
  · exact (hencode n).elim (fun hr => hr hst.2.2.1) fun hf => by rw [hst.1] at hf; cases hf
  · exact (hdecode n).elim (fun hr => hr hst.2.2.1) fun hf => by rw [hst.1] at hf; cases hf

/-- A frame without its end is taken as a whole, and an empty chunk at the beginning gives data for ever. -/
theorem cut_off_done :
    (run (zstdr_process copy_decode) false [[5]] 2).ret = .done ∧
      (run (zstdr_process copy_decode) false [[5]] 2).z.zst = true ∧
      ¬ Right id [[5]] (run (zstdr_process copy_decode) false [[5]]) ∧
      ¬ Right id [[],[1]] (run (zstdw_process copy_encode) false [[],[1]]) := by
  refine ⟨rfl,rfl,fun h => ?_,fun h => ?_⟩
  · exact absurd ((h.1 2).done rfl).1 (by decide)
  · apply h.2
    refine ⟨1,fun m hm => ?_⟩
    obtain ⟨k,rfl⟩ := Nat.exists_eq_add_of_le hm
    have hst : Stays copy_encode (run (process copy_encode) false [[],[1]] 1) := by
      refine ⟨rfl,rfl,rfl,fun k => ?_⟩
      have hidle : idle copy_encode false k = false := by
        induction k with
        | zero => rfl
        | succ k ih => rw [idle,ih]; rfl
      change (copy_encode (idle copy_encode false k) [] false).out = [] ∧
        (copy_encode (idle copy_encode false k) [] false).r = 0
      rw [hidle]
      exact ⟨rfl,rfl⟩
    have hrun := stays_run codes_encode false [[],[1]] hst k
    exact ⟨hrun.1,hrun.2.1⟩

end Phiola.Zstd
