import Mathlib.Data.List.Basic
import Mathlib.Data.List.Perm.Basic

/-!
# The frames of an edited tag

The new ID3v2 tag of an MP3 file is made of the frames of the old one and the user's pairs. A tag is a
number; `0` stands for a frame or a name that is not known.
-/

namespace Phiola.TagFrames

variable {K V : Type}

/-- A frame, as it is read and written. -/
inductive Frame (K V : Type)
  | known (tag : Nat) (v : V)
  | unknown (key : K) (v : V)
deriving DecidableEq

def Frame.tag : Frame K V → Nat
  | .known tag _ => tag
  | .unknown _ _ => 0

@[simp] theorem tag_known (tag : Nat) (v : V) : (.known tag v : Frame K V).tag = tag := rfl

/-- A `NAME=VALUE` of the user, split: the name is a tag or `0`. -/
inductive Pair (V : Type)
  | empty
  | invalid
  | named (tag : Nat) (v : V)

/-- `user_meta_split()` finds this tag: the value. -/
def Pair.value (tag : Nat) : Pair V → Option V
  | .named t v => if t = tag then some v else none
  | _ => none

/-- `user_meta_find()` -/
def user_meta_find (m : List (Pair V)) (tag : Nat) : Option V := m.findSome? (Pair.value tag)

/-- `id3v2write_add()`; `zero` is what it writes for the tag `0`. -/
def write_add (zero : V → List (Frame K V)) (tag : Nat) (v : V) : List (Frame K V) :=
  if tag = 0 then zero v else [.known tag v]

/-- The pass over the old frames: a frame is replaced, or copied. -/
def replace (zero : V → List (Frame K V)) (m : List (Pair V)) (f : Frame K V) : List (Frame K V) :=
  match user_meta_find m f.tag with
  | some v => write_add zero f.tag v
  | none => [f]

/-- The pass over the pairs: `none` for one that is invalid. -/
def add_new (zero : V → List (Frame K V)) (added : List Nat) : List (Pair V) → Option (List (Frame K V))
  | [] => some []
  | .empty :: m => add_new zero added m
  | .invalid :: _ => none
  | .named tag v :: m =>
    (add_new zero added m).map fun out => (if tag ∈ added then [] else write_add zero tag v) ++ out

/-- The frames that `mp3_id3v2()` writes. -/
def mp3_id3v2 (zero : V → List (Frame K V)) (clear : Bool) (fs : List (Frame K V)) (m : List (Pair V)) :
    Option (List (Frame K V)) :=
  if clear then add_new zero [] m
  else (add_new zero (fs.map Frame.tag) m).map fun out => fs.flatMap (replace zero m) ++ out

/-- The values of the pairs with a name. -/
def vals (m : List (Pair V)) (tag : Nat) : List V := m.filterMap (Pair.value tag)

/-- The user names the tag. -/
def named (m : List (Pair V)) (tag : Nat) : Bool := tag ≠ 0 && !(vals m tag).isEmpty

/-- The frames that are not named are as they were; of those that are, there is each pair once. -/
def Right (fs : List (Frame K V)) (m : List (Pair V)) (out : List (Frame K V)) : Prop :=
  out.filter (fun f => !named m f.tag) = fs.filter (fun f => !named m f.tag) ∧
    ∀ tag, named m tag → (out.filter fun f => f.tag = tag).Perm ((vals m tag).map (.known tag))

variable {zero : V → List (Frame K V)} {fs out : List (Frame K V)} {m : List (Pair V)} {tag : Nat}
  {added : List Nat}

theorem find_eq_head : user_meta_find m tag = (vals m tag).head? := by
  induction m with
  | nil => rfl
  | cons p m ih =>
    rw [user_meta_find,List.findSome?_cons,vals,List.filterMap_cons]
    cases p.value tag with
    | none => exact ih
    | some v => rfl

theorem vals_of_named (h : named m tag) : tag ≠ 0 ∧ vals m tag ≠ [] := by
  simpa [named] using h

theorem find_none (h : named m tag = false) (h0 : tag ≠ 0) : user_meta_find m tag = none := by
  rw [find_eq_head,List.head?_eq_none_iff]
  simpa [named,h0] using h

/-! ## The pairs that are added -/

theorem add_filter (hzero : ∀ v, zero v = []) (h : add_new zero added m = some out) :
    (∀ f ∈ out, named m f.tag) ∧ ∀ tag, tag ≠ 0 → (out.filter fun f => f.tag = tag) =
      if tag ∈ added then [] else (vals m tag).map (.known tag) := by
  induction m generalizing out with
  | nil =>
    obtain rfl := Option.some.inj h
    exact ⟨nofun,fun tag _ => by simp [vals]⟩
  | cons p m ih =>
    cases p with
    | empty =>
      obtain ⟨hn,hf⟩ := ih h
      exact ⟨hn,hf⟩
    | invalid => cases h
    | named t v =>
      obtain ⟨out',hout,rfl⟩ := Option.map_eq_some_iff.mp h
      obtain ⟨hn,hf⟩ := ih hout
      have hvals (tag : Nat) : vals (.named t v :: m) tag = (if t = tag then [v] else []) ++ vals m tag := by
        rw [vals,List.filterMap_cons,Pair.value]
        by_cases ht : t = tag
        · rw [if_pos ht,if_pos ht]
          rfl
        · rw [if_neg ht,if_neg ht]
          rfl
      constructor
      · intro f hf
        rcases List.mem_append.mp hf with hf | hf
        · split at hf
          · cases hf
          · unfold write_add at hf
            split at hf
            · rw [hzero] at hf
              cases hf
            · rename_i h0
              obtain rfl := List.mem_singleton.mp hf
              simp [named,hvals,h0]
        · obtain ⟨h0,hne⟩ := vals_of_named (hn f hf)
          simp [named,hvals,h0,hne]
      · intro tag h0
        rw [List.filter_append,hf tag h0,hvals]
        by_cases ht : t = tag
        · subst ht
          simp only [write_add,if_neg h0,if_pos]
          split <;> simp
        · have hnone : (if t ∈ added then [] else write_add zero t v).filter (fun f => decide (f.tag = tag)) = [] := by
            unfold write_add
            split
            · rfl
            · split
              · rw [hzero]
                rfl
              · simp [ht]
          rw [hnone,if_neg ht]
          rfl

/-! ## The frames that are replaced or copied -/

theorem replace_named (hn : named m tag) {f : Frame K V} (hf : f.tag = tag) {v : V}
    (hv : user_meta_find m tag = some v) : replace zero m f = [.known tag v] := by
  rw [replace,hf,hv]
  exact if_neg (vals_of_named hn).1

theorem replace_other (hzero : ∀ v, zero v = []) {f : Frame K V} (hf : named m f.tag = false) :
    replace zero m f = if f.tag = 0 ∧ vals m 0 ≠ [] then [] else [f] := by
  by_cases h0 : f.tag = 0
  · rw [replace,h0,find_eq_head]
    cases hv : vals m 0 with
    | nil => simp
    | cons v vs => simp [write_add,hzero]
  · rw [replace,find_none hf h0]
    simp [h0]

theorem replace_filter_other (hzero : ∀ v, zero v = []) :
    (fs.flatMap (replace zero m)).filter (fun f => !named m f.tag) =
      fs.filter (fun f => !named m f.tag && !(f.tag = 0 ∧ vals m 0 ≠ [])) := by
  induction fs with
  | nil => rfl
  | cons f fs ih =>
    rw [List.flatMap_cons,List.filter_append,ih,List.filter_cons]
    cases hf : named m f.tag with
    | true =>
      obtain ⟨v,hv⟩ : ∃ v, user_meta_find m f.tag = some v := by
        rw [find_eq_head]
        exact Option.isSome_iff_exists.mp (by simpa using (vals_of_named hf).2)
      rw [replace_named hf rfl hv]
      simp [hf]
    | false =>
      rw [replace_other hzero hf]
      by_cases h0 : f.tag = 0 ∧ vals m 0 ≠ []
      · rw [if_pos h0]
        simp [h0]
      · rw [if_neg h0]
        simp only [List.filter_cons,hf,h0,decide_false,Bool.not_false,Bool.and_self,if_true,List.filter_nil,
          List.singleton_append]

theorem replace_tag (hzero : ∀ v, zero v = []) {f g : Frame K V} (hg : g ∈ replace zero m f) :
    g.tag = f.tag := by
  unfold replace write_add at hg
  split at hg
  · split at hg
    · rw [hzero] at hg
      cases hg
    · rw [List.mem_singleton.mp hg,tag_known]
  · rw [List.mem_singleton.mp hg]

theorem replace_filter_named (hzero : ∀ v, zero v = []) (hn : named m tag) {v : V}
    (hv : user_meta_find m tag = some v) : (fs.flatMap (replace zero m)).filter (fun f => f.tag = tag) =
      List.replicate (List.count tag (fs.map Frame.tag)) (.known tag v) := by
  induction fs with
  | nil => rfl
  | cons f fs ih =>
    rw [List.flatMap_cons,List.filter_append,ih,List.map_cons,List.count_cons]
    by_cases hf : f.tag = tag
    · rw [replace_named hn hf hv,hf,beq_self_eq_true,if_pos rfl,List.replicate_succ,List.filter_cons_of_pos (by simp)]
      rfl
    · have hnone : (replace zero m f).filter (fun f => decide (f.tag = tag)) = [] := by
        rw [List.filter_eq_nil_iff]
        intro g hg
        simpa [replace_tag hzero hg] using hf
      rw [hnone,if_neg (by simpa using hf)]
      rfl

/-! ## The new tag -/

/-- A name that is not known does not meet a frame that is not, and a known name is given once for each of its
frames, with one value, unless it has none. -/
def Plain (fs : List (Frame K V)) (m : List (Pair V)) : Prop :=
  (vals m 0 = [] ∨ ∀ f ∈ fs, f.tag ≠ 0) ∧
    ∀ tag, named m tag → List.count tag (fs.map Frame.tag) = 0 ∨
      ∃ v, vals m tag = List.replicate (List.count tag (fs.map Frame.tag)) v

theorem clear_right (hzero : ∀ v, zero v = []) (h : mp3_id3v2 zero true fs m = some out) : Right [] m out := by
  obtain ⟨hn,hf⟩ := add_filter hzero (show add_new zero [] m = some out from h)
  constructor
  · rw [List.filter_nil,List.filter_eq_nil_iff]
    intro f hmem
    simp [hn f hmem]
  · intro tag htag
    rw [hf tag (vals_of_named htag).1,if_neg List.not_mem_nil]

theorem keep_right_iff (hzero : ∀ v, zero v = []) (h : mp3_id3v2 zero false fs m = some out) :
    Right fs m out ↔ Plain fs m := by
  obtain ⟨new,hnew,rfl⟩ := Option.map_eq_some_iff.mp (show Option.map _ _ = some out from h)
  obtain ⟨hn,hf⟩ := add_filter hzero hnew
  have hother : ((fs.flatMap (replace zero m)) ++ new).filter (fun f => !named m f.tag) =
      fs.filter (fun f => !named m f.tag && !(f.tag = 0 ∧ vals m 0 ≠ [])) := by
    have hnone : new.filter (fun f => !named m f.tag) = [] := by
      rw [List.filter_eq_nil_iff]
      intro f hmem
      simp [hn f hmem]
    rw [List.filter_append,replace_filter_other hzero,hnone,List.append_nil]
  have hnamed {tag : Nat} (htag : named m tag) : ∃ v vs, vals m tag = v :: vs ∧
      ((fs.flatMap (replace zero m)) ++ new).filter (fun f => f.tag = tag) =
        if List.count tag (fs.map Frame.tag) = 0 then (vals m tag).map (.known tag)
        else List.replicate (List.count tag (fs.map Frame.tag)) (.known tag v) := by
    obtain ⟨h0,hne⟩ := vals_of_named htag
    obtain ⟨v,vs,hvals⟩ := List.exists_cons_of_ne_nil hne
    have hfind : user_meta_find m tag = some v := by rw [find_eq_head,hvals,List.head?_cons]
    refine ⟨v,vs,hvals,?_⟩
    rw [List.filter_append,replace_filter_named hzero htag hfind,hf tag h0]
    by_cases hc : List.count tag (fs.map Frame.tag) = 0
    · rw [if_pos hc,if_neg (List.count_eq_zero.mp hc),hc]
      rfl
    · rw [if_neg hc,if_pos (List.count_pos_iff.mp (Nat.pos_of_ne_zero hc)),List.append_nil]
  refine and_congr ?_ (forall₂_congr fun tag htag => ?_)
  · rw [hother]
    constructor
    · intro heq
      refine or_iff_not_imp_left.mpr fun hv f hmem h0 => ?_
      have hin : f ∈ fs.filter (fun f => !named m f.tag) := by
        rw [List.mem_filter,h0]
        exact ⟨hmem,by simp [named]⟩
      rw [← heq,List.mem_filter] at hin
      simp [h0,hv] at hin
    · intro hall
      refine List.filter_congr fun f hmem => ?_
      rcases hall with hv | hknown
      · simp [hv]
      · simp [hknown f hmem]
  · obtain ⟨v,vs,hvals,heq⟩ := hnamed htag
    rw [heq]
    by_cases hc : List.count tag (fs.map Frame.tag) = 0
    · rw [if_pos hc]
      exact iff_of_true (.refl _) (.inl hc)
    · rw [if_neg hc,or_iff_right hc,List.replicate_perm]
      constructor
      · intro hmap
        refine ⟨v,?_⟩
        have hinj : Function.Injective (Frame.known (K := K) (V := V) tag) := fun x y h => (Frame.known.inj h).2
        rw [← List.map_replicate] at hmap
        exact (List.map_injective_iff.mpr hinj hmap).symm
      · rintro ⟨w,hw⟩
        have hv : v ∈ vals m tag := by
          rw [hvals]
          exact List.mem_cons_self ..
        rw [hw] at hv
        rw [hw,List.map_replicate,List.eq_of_mem_replicate hv]

/-- With `clear` on the new tag is made of the user's pairs; with `clear` off nothing else is lost and each pair
is there once if and only if the names are plain. -/
theorem frames_iff (hzero : ∀ v, zero v = []) (m : List (Pair V)) (fs out : List (Frame K V)) :
    (mp3_id3v2 zero true fs m = some out → Right [] m out) ∧
      (mp3_id3v2 zero false fs m = some out → (Right fs m out ↔ Plain fs m)) :=
  ⟨clear_right hzero,keep_right_iff hzero⟩

theorem frames_two : Right ([] : List (Frame Nat Nat)) [.named 3 7] [.known 3 7] ∧
    (Right [.known 3 1,.unknown 5 6] [.named 3 7] [.known 3 7,.unknown 5 6] ↔
      Plain [.known 3 1,.unknown 5 6] [.named 3 7]) :=
  ⟨(frames_iff (fun _ => rfl) [.named 3 7] [.known 3 1,.unknown 5 6] [.known 3 7]).1 (by decide),
    (frames_iff (fun _ => rfl) [.named 3 7] [.known 3 1,.unknown 5 6] [.known 3 7,.unknown 5 6]).2 (by decide)⟩

/-- A frame that is not known is lost when the user gives a name that is not known. -/
theorem unknown_frame_fails :
    mp3_id3v2 (fun _ => []) false [.unknown 5 6] [.named 0 7] = some ([] : List (Frame Nat Nat)) ∧
      ¬ Right [.unknown 5 6] [.named 0 7] ([] : List (Frame Nat Nat)) :=
  ⟨by decide,fun h => absurd h.1 (by decide)⟩

end Phiola.TagFrames
