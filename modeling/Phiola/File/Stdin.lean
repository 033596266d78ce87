import Mathlib.Data.List.Basic

/-!
# Standard input

The bytes of a pipe come in blocks, and a seek drops bytes: a block that ends before the offset is read and
forgotten. Only the last block that was read is held.
-/

namespace Phiola.Stdin

abbrev Bytes := List UInt8

/-- `struct std_in` with the field of the track and with what `ffpipe_read()` is to return: a block, or none
for an error. `seek` is none for `~0ULL`. -/
structure State where
  total : Nat
  buf : Bytes
  seek : Option Nat
  pipe : List (Option Bytes)

inductive Ret
  | err
  | done
  | data (data_out : Bytes)
  deriving DecidableEq

def stdin_open (pipe : List (Option Bytes)) : State := ⟨0,[],none,pipe⟩

/-- The loop of `stdin_read()`; after the last block `ffpipe_read()` returns 0. -/
def read_loop (seek : Nat) : Nat → Bytes → List (Option Bytes) → Ret × State
  | total,buf,[] => (.done,⟨total,buf,none,[]⟩)
  | total,buf,none :: pipe => (.err,⟨total,buf,none,pipe⟩)
  | total,buf,some b :: pipe =>
    if b.length = 0 then (.done,⟨total,buf,none,pipe⟩)
    else
      let total := total + b.length
      if seek = 0 then (.data b,⟨total,b,none,pipe⟩)
      else if total > seek then
        let off := total - b.length
        (.data (b.drop (seek - off)),⟨total,b,none,pipe⟩)
      else read_loop seek total b pipe

def stdin_read (f : State) : Ret × State :=
  match f.seek with
  | some seek =>
    let off := f.total - f.buf.length
    if seek < off then (.err,f)
    else if f.total > seek then (.data (f.buf.drop (seek - off)),{ f with seek := none })
    else read_loop seek f.total f.buf f.pipe
  | none => read_loop 0 f.total f.buf f.pipe

/-- Calls of the filter, each with the offset that is requested before it. -/
def calls (f : State) : List (Option Nat) → List Ret × State
  | [] => ([],f)
  | r :: requests =>
    let (answer,f) := stdin_read { f with seek := r <|> f.seek }
    let (answers,f) := calls f requests
    (answer :: answers,f)

/-- The bytes that are passed on. -/
def Ret.out : Ret → Bytes
  | .data b => b
  | _ => []

def emitted (answers : List Ret) : Bytes := answers.flatMap Ret.out

/-! ## The block that is held -/

/-- The bytes of the first blocks. -/
def upto (blocks : List Bytes) (k : Nat) : Bytes := (blocks.take k).flatten

/-- So many blocks are read, and the last of them is held. -/
structure Held (blocks : List Bytes) (f : State) (k : Nat) : Prop where
  le : k ≤ blocks.length
  pipe : f.pipe = (blocks.drop k).map some
  total : f.total = (upto blocks k).length
  held : upto blocks k = upto blocks (k - 1) ++ f.buf

variable {blocks : List Bytes} {f : State} {k S : Nat}

theorem upto_succ {b : Bytes} (h : blocks[k]? = some b) : upto blocks (k + 1) = upto blocks k ++ b := by
  obtain ⟨hk,rfl⟩ := List.getElem?_eq_some_iff.mp h
  rw [upto,List.take_succ_eq_append_getElem hk,List.flatten_append,List.flatten_singleton,upto]

theorem upto_all (h : blocks.length ≤ k) : upto blocks k = blocks.flatten := by
  rw [upto,List.take_of_length_le h]

theorem upto_prefix (blocks : List Bytes) (k S : Nat) : (upto blocks k).drop S <+: blocks.flatten.drop S := by
  have h : blocks.flatten = upto blocks k ++ (blocks.drop k).flatten := by
    rw [upto,← List.flatten_append,List.take_append_drop]
  rw [h,List.drop_append]
  exact List.prefix_append ..

theorem Held.open_ (blocks : List Bytes) : Held blocks (stdin_open (blocks.map some)) 0 :=
  ⟨Nat.zero_le _,rfl,rfl,rfl⟩

theorem Held.request (h : Held blocks f k) (r : Option Nat) : Held blocks { f with seek := r } k :=
  ⟨h.le,h.pipe,h.total,h.held⟩

theorem Held.off (h : Held blocks f k) : f.total - f.buf.length = (upto blocks (k - 1)).length := by
  have hl := congrArg List.length h.held
  rw [List.length_append] at hl
  have ht := h.total
  omega

theorem Held.next {b : Bytes} {pipe : List (Option Bytes)} (h : Held blocks f k)
    (hp : f.pipe = some b :: pipe) :
    Held blocks ⟨f.total + b.length,b,none,pipe⟩ (k + 1) ∧ upto blocks (k + 1) = upto blocks k ++ b := by
  have hp' := h.pipe.symm.trans hp
  have hb : blocks[k]? = some b := by
    cases hd : blocks.drop k with
    | nil => simp [hd] at hp'
    | cons c rest =>
      have hc : (blocks.drop k)[0]? = some c := by rw [hd]; rfl
      rw [List.getElem?_drop,Nat.add_zero] at hc
      simp only [hd,List.map_cons,List.cons.injEq,Option.some.injEq] at hp'
      rw [hc,hp'.1]
  have hu := upto_succ hb
  refine ⟨⟨(List.getElem?_eq_some_iff.mp hb).1,?_,?_,?_⟩,hu⟩
  · have ht := congrArg List.tail hp'
    simpa [List.tail_drop] using ht.symm
  · simp [h.total,hu]
  · simpa using hu

/-- What a call has done when the requested offset is `S`: the bytes from there on to the end of the block
that is held, unless the stream is over. -/
def Answered (blocks : List Bytes) (S : Nat) (before : Bytes) (k : Nat) (x : Ret × State) : Prop :=
  x.2.seek = none ∧ ∃ k', k ≤ k' ∧ Held blocks x.2 k' ∧ before ++ x.1.out = (upto blocks k').drop S ∧
    ((x.1 = .done ∧ k' = blocks.length) ∨ ((∃ b, x.1 = .data b) ∧ k < k' ∧ S < x.2.total))

theorem Held.over (h : Held blocks f k) (hp : f.pipe = []) : k = blocks.length := by
  have hk := congrArg List.length (h.pipe.symm.trans hp)
  simp only [List.length_map,List.length_drop,List.length_nil] at hk
  have := h.le
  omega

theorem Held.block_ne {b : Bytes} {pipe : List (Option Bytes)} (h : Held blocks f k)
    (hb : ∀ b ∈ blocks, b ≠ []) (hp : f.pipe = some b :: pipe) : b.length ≠ 0 := by
  have hm : some b ∈ (blocks.drop k).map some := by
    rw [← h.pipe,hp]
    exact List.mem_cons_self ..
  obtain ⟨c,hc,hcb⟩ := List.mem_map.mp hm
  obtain rfl : c = b := Option.some.inj hcb
  have hne := hb c (List.mem_of_mem_drop hc)
  simpa using hne

theorem Held.no_error (h : Held blocks f k) (pipe : List (Option Bytes)) : f.pipe ≠ none :: pipe := by
  intro hp
  have hm : none ∈ (blocks.drop k).map some := by
    rw [← h.pipe,hp]
    exact List.mem_cons_self ..
  obtain ⟨b,-,hb⟩ := List.mem_map.mp hm
  cases hb

theorem Held.read_to (hb : ∀ b ∈ blocks, b ≠ []) {total : Nat} {buf : Bytes} {pipe : List (Option Bytes)}
    (h : Held blocks ⟨total,buf,none,pipe⟩ k) (hS : total ≤ S) :
    Answered blocks S [] k (read_loop S total buf pipe) := by
  induction pipe generalizing total buf k with
  | nil =>
    have hlen : (upto blocks k).length ≤ S := h.total ▸ hS
    refine ⟨rfl,k,Nat.le_refl _,h,?_,.inl ⟨rfl,h.over rfl⟩⟩
    rw [List.drop_eq_nil_of_le hlen]
    rfl
  | cons o pipe ih =>
    cases o with
    | none => exact absurd rfl (h.no_error pipe)
    | some b =>
      have hne := h.block_ne hb rfl
      have hn : Held blocks ⟨total + b.length,b,none,pipe⟩ (k + 1) := (h.next rfl).1
      have hu := (h.next rfl).2
      have ht : total = (upto blocks k).length := h.total
      rw [read_loop,if_neg hne]
      by_cases h0 : S = 0
      · subst h0
        have hnil : upto blocks k = [] := List.length_eq_zero_iff.mp (by omega)
        refine ⟨rfl,k + 1,by omega,hn,?_,.inr ⟨⟨b,rfl⟩,by omega,?_⟩⟩
        · simp [hu,hnil,Ret.out]
        · change 0 < total + b.length
          omega
      · simp only [if_neg h0]
        by_cases hgt : total + b.length > S
        · rw [if_pos hgt]
          refine ⟨rfl,k + 1,by omega,hn,?_,.inr ⟨⟨_,rfl⟩,by omega,hgt⟩⟩
          have hnil : (upto blocks k).drop S = [] := List.drop_eq_nil_of_le (by omega)
          rw [hu,List.drop_append,hnil,← ht,Nat.add_sub_cancel]
          rfl
        · rw [if_neg hgt]
          obtain ⟨hs,k',hk,hh,hout,hans⟩ := ih hn (by omega)
          refine ⟨hs,k',by omega,hh,hout,?_⟩
          rcases hans with hd | ⟨hd,hlt,hst⟩
          · exact .inl hd
          · exact .inr ⟨hd,by omega,hst⟩

theorem Held.read_next (hb : ∀ b ∈ blocks, b ≠ []) (h : Held blocks f k) {before : Bytes}
    (he : before = (upto blocks k).drop S) (hS : S < f.total ∨ k = blocks.length) :
    Answered blocks S before k (read_loop 0 f.total f.buf f.pipe) := by
  cases hp : f.pipe with
  | nil =>
    have hh : Held blocks ⟨f.total,f.buf,none,[]⟩ k := ⟨h.le,hp ▸ h.pipe,h.total,h.held⟩
    exact ⟨rfl,k,Nat.le_refl _,hh,by rw [he]; exact List.append_nil _,.inl ⟨rfl,h.over hp⟩⟩
  | cons o pipe =>
    cases o with
    | none => exact absurd hp (h.no_error pipe)
    | some b =>
      have hne := h.block_ne hb hp
      obtain ⟨hn,hu⟩ := h.next hp
      have hlt : S < f.total := by
        rcases hS with hS | rfl
        · exact hS
        · have hk := hn.le
          omega
      have ht := h.total
      rw [read_loop,if_neg hne]
      refine ⟨rfl,k + 1,by omega,hn,?_,.inr ⟨⟨b,rfl⟩,by omega,?_⟩⟩
      · rw [hu,List.drop_append_of_le_length (by omega),he]
        rfl
      · exact Nat.lt_of_lt_of_le hlt (Nat.le_add_right ..)

/-! ## A request and the calls after it -/

theorem Held.sought (hb : ∀ b ∈ blocks, b ≠ []) (h : Held blocks f k) (hS : f.seek = some S) :
    (S < (upto blocks (k - 1)).length → stdin_read f = (.err,f)) ∧
      ((upto blocks (k - 1)).length ≤ S → ∃ x, stdin_read f = x ∧ x.2.seek = none ∧
        ∃ k', Held blocks x.2 k' ∧ x.1.out = (upto blocks k').drop S ∧
          ((x.1 = .done ∧ k' = blocks.length) ∨ ((∃ b, x.1 = .data b) ∧ S < x.2.total))) := by
  simp only [stdin_read,hS,h.off]
  refine ⟨fun hlt => if_pos hlt,fun hle => ?_⟩
  rw [if_neg (by omega)]
  by_cases ht : f.total > S
  · rw [if_pos ht]
    refine ⟨_,rfl,rfl,k,h.request none,?_,.inr ⟨⟨_,rfl⟩,ht⟩⟩
    have hnil : (upto blocks (k - 1)).drop S = [] := List.drop_eq_nil_of_le (by omega)
    rw [h.held,List.drop_append,hnil]
    rfl
  · rw [if_neg ht]
    obtain ⟨hs,k',-,hh,hout,hans⟩ := (h.request none).read_to hb (Nat.le_of_not_gt ht)
    refine ⟨_,rfl,hs,k',hh,hout,?_⟩
    rcases hans with hd | ⟨hd,-,hst⟩
    · exact .inl hd
    · exact .inr ⟨hd,hst⟩

theorem Held.read (hb : ∀ b ∈ blocks, b ≠ []) (h : Held blocks f k) :
    ∃ k', Held blocks (stdin_read f).2 k' := by
  cases hS : f.seek with
  | none =>
    have hr : stdin_read f = read_loop 0 f.total f.buf f.pipe := by rw [stdin_read,hS]
    cases hp : f.pipe with
    | nil =>
      rw [hr,hp]
      exact ⟨k,⟨h.le,hp.symm.trans h.pipe,h.total,h.held⟩⟩
    | cons o pipe =>
      cases o with
      | none => exact absurd hp (h.no_error pipe)
      | some b =>
        rw [hr,hp,read_loop,if_neg (h.block_ne hb hp)]
        exact ⟨k + 1,(h.next hp).1⟩
  | some S =>
    rcases Nat.lt_or_ge S (upto blocks (k - 1)).length with hlt | hge
    · rw [(h.sought hb hS).1 hlt]
      exact ⟨k,h⟩
    · obtain ⟨x,hx,-,k',hk',-⟩ := (h.sought hb hS).2 hge
      exact ⟨k',hx ▸ hk'⟩

theorem Held.calls (hb : ∀ b ∈ blocks, b ≠ []) (requests : List (Option Nat)) (h : Held blocks f k) :
    ∃ k', Held blocks (calls f requests).2 k' := by
  induction requests generalizing f k with
  | nil => exact ⟨k,h⟩
  | cons r requests ih =>
    obtain ⟨k',hk'⟩ := (h.request (r <|> f.seek)).read hb
    exact ih hk'

theorem Held.goes_on (hb : ∀ b ∈ blocks, b ≠ []) (n : Nat) (h : Held blocks f k) (hf : f.seek = none)
    {before : Bytes} (he : before = (upto blocks k).drop S) (hS : S < f.total ∨ k = blocks.length) :
    .err ∉ (Stdin.calls f (List.replicate n none)).1 ∧
      ∃ k', k ≤ k' ∧ k' ≤ blocks.length ∧
        before ++ emitted (Stdin.calls f (List.replicate n none)).1 = (upto blocks k').drop S ∧
        (.done ∈ (Stdin.calls f (List.replicate n none)).1 → k' = blocks.length) ∧
        (blocks.length < k + n → .done ∈ (Stdin.calls f (List.replicate n none)).1) := by
  induction n generalizing f k before with
  | zero =>
    have hle := h.le
    refine ⟨by simp [Stdin.calls],k,Nat.le_refl _,hle,?_,by simp [Stdin.calls],fun hlt => by omega⟩
    simp [Stdin.calls,emitted,he]
  | succ n ih =>
    have hr : stdin_read { f with seek := none <|> f.seek } = read_loop 0 f.total f.buf f.pipe := by
      simp [stdin_read,hf]
    obtain ⟨hs,k',hk,hh,hout,hans⟩ := h.read_next hb he hS
    rw [← hr] at hs hh hout hans
    have hS' : S < (stdin_read { f with seek := none <|> f.seek }).2.total ∨ k' = blocks.length := by
      rcases hans with ⟨-,hk'⟩ | ⟨-,-,hst⟩
      · exact .inr hk'
      · exact .inl hst
    obtain ⟨herr,k'',hk',hle,hout',hdone,hall⟩ := ih hh hs hout hS'
    simp only [List.replicate_succ,Stdin.calls,List.mem_cons,not_or]
    refine ⟨⟨?_,herr⟩,k'',by omega,hle,?_,?_,?_⟩
    · rcases hans with ⟨hd,-⟩ | ⟨⟨b,hd⟩,-⟩ <;> rw [hd] <;> exact fun h => by cases h
    · rw [← hout']
      simp [emitted]
    · rintro (hd | hd)
      · rcases hans with ⟨-,hend⟩ | ⟨⟨b,hb'⟩,-⟩
        · omega
        · rw [hb'] at hd
          cases hd
      · exact hdone hd
    · intro hlt
      rcases hans with ⟨hd,-⟩ | ⟨-,hlt',-⟩
      · exact .inl hd.symm
      · exact .inr (hall (by omega))

/-- Calls with one request: a refused one is refused again and again. -/
theorem Held.refused (hb : ∀ b ∈ blocks, b ≠ []) (n : Nat) (h : Held blocks f k) (hS : f.seek = some S)
    (hlt : S < (upto blocks (k - 1)).length) :
    (Stdin.calls f (List.replicate n none)).1 = List.replicate n .err := by
  induction n with
  | zero => rfl
  | succ n ih =>
    have hf : { f with seek := none <|> f.seek } = f := by simp
    have hr := (h.sought hb hS).1 hlt
    simp only [List.replicate_succ,Stdin.calls,hf,hr,ih]

theorem emitted_refused (n : Nat) : emitted (List.replicate n .err) = [] := by
  simp [emitted,Ret.out]

/-- The blocks that are read after calls with any requests are some first ones. A request after that fails
when its offset is before the last of them; else what is passed on until the next request is the stream from
the offset on, to its end when the filter is done, and then it is done after as many calls as there are
blocks. -/
theorem seek_drops (blocks : List Bytes) (hb : ∀ b ∈ blocks, b ≠ []) (before : List (Option Nat))
    (S n : Nat) :
    ∃ k ≤ blocks.length,
      (calls (stdin_open (blocks.map some)) before).2.pipe = (blocks.drop k).map some ∧
        let answers := (calls (calls (stdin_open (blocks.map some)) before).2
          (some S :: List.replicate n none)).1
        (.err ∈ answers ↔ S < (blocks.take (k - 1)).flatten.length) ∧
          (.err ∈ answers → emitted answers = []) ∧
          (.err ∉ answers → emitted answers <+: blocks.flatten.drop S ∧
            (.done ∈ answers → emitted answers = blocks.flatten.drop S) ∧
            (blocks.length < n → .done ∈ answers)) := by
  obtain ⟨k,h⟩ := (Held.open_ blocks).calls hb before
  refine ⟨k,h.le,h.pipe,?_⟩
  generalize (calls (stdin_open (blocks.map some)) before).2 = f at h
  have hreq : { f with seek := some S <|> f.seek } = { f with seek := some S } := by simp
  have h' := h.request (some S)
  rcases Nat.lt_or_ge S (upto blocks (k - 1)).length with hlt | hge
  · have hans : (calls f (some S :: List.replicate n none)).1 = List.replicate (n + 1) .err := by
      simp only [calls,hreq,(h'.sought hb rfl).1 hlt,h'.refused hb n rfl hlt,List.replicate_succ]
    simp only [hans,emitted_refused]
    exact ⟨⟨fun _ => hlt,fun _ => by simp⟩,fun _ => trivial,fun hne => absurd (by simp) hne⟩
  · obtain ⟨x,hx,hs,k',hh,hout,hans⟩ := (h'.sought hb rfl).2 hge
    have hS' : S < x.2.total ∨ k' = blocks.length := by
      rcases hans with ⟨-,hk'⟩ | ⟨-,hst⟩
      · exact .inr hk'
      · exact .inl hst
    obtain ⟨herr,k'',hk',hle,hout',hdone,hall⟩ := hh.goes_on hb n hs hout hS'
    have hne : .err ∉ x.1 :: (calls x.2 (List.replicate n none)).1 := by
      rw [List.mem_cons,not_or]
      refine ⟨?_,herr⟩
      rcases hans with ⟨hd,-⟩ | ⟨⟨b,hd⟩,-⟩ <;> rw [hd] <;> exact fun h => by cases h
    have hem : emitted (x.1 :: (calls x.2 (List.replicate n none)).1) = (upto blocks k'').drop S := by
      rw [← hout']
      simp [emitted]
    simp only [calls,hreq,hx]
    refine ⟨⟨fun h => absurd h hne,fun hlt => absurd hlt (Nat.not_lt_of_le hge)⟩,fun h => absurd h hne,
      fun _ => ⟨hem ▸ upto_prefix blocks k'' S,fun hd => ?_,fun hlt => ?_⟩⟩
    · have hend : k'' = blocks.length := by
        rcases List.mem_cons.mp hd with hd | hd
        · rcases hans with ⟨-,hend⟩ | ⟨⟨b,hb'⟩,-⟩
          · omega
          · rw [hb'] at hd
            cases hd
        · exact hdone hd
      rw [hem,upto_all (Nat.le_of_eq hend.symm)]
    · exact List.mem_cons_of_mem _ (hall (by omega))

theorem seek_drops_inside :
    ∃ k ≤ 3,
      (calls (stdin_open (([[1,2],[3,4,5],[6]] : List Bytes).map some)) [some 1]).2.pipe =
          (([[1,2],[3,4,5],[6]] : List Bytes).drop k).map some ∧
        let answers := (calls (calls (stdin_open (([[1,2],[3,4,5],[6]] : List Bytes).map some)) [some 1]).2
          (some 3 :: List.replicate 4 none)).1
        (.err ∈ answers ↔ 3 < (([[1,2],[3,4,5],[6]] : List Bytes).take (k - 1)).flatten.length) ∧
          (.err ∈ answers → emitted answers = []) ∧
          (.err ∉ answers → emitted answers <+: [4,5,6] ∧
            (.done ∈ answers → emitted answers = [4,5,6]) ∧
            (3 < 4 → .done ∈ answers)) :=
  seek_drops [[1,2],[3,4,5],[6]] (by simp) [some 1] 3 4

end Phiola.Stdin
