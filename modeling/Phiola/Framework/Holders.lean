import Mathlib.Data.List.Basic
import Mathlib.Data.List.Nodup

/-!
# Blocks and their holders

A heap gives out blocks in the order of their numbers. Each block is held by one holder, which
releases it or passes it to another holder.
-/

/-- The blocks of each holder, the next block and the blocks that were released. -/
structure Holders (ι : Type*) where
  owns : ι → List Nat
  next : Nat
  released : List Nat

namespace Holders

variable {ι : Type*} {h h' : Holders ι} {r : List Nat}

/-- No block is held twice, released twice, or held after its release. -/
structure Sound (h : Holders ι) : Prop where
  nodup : ∀ x, (h.owns x).Nodup
  apart : ∀ x y b, b ∈ h.owns x → b ∈ h.owns y → x = y
  alive : ∀ x b, b ∈ h.owns x → b < h.next ∧ b ∉ h.released
  once : h.released.Nodup
  below : ∀ b ∈ h.released, b < h.next

/-- The blocks that are held afterwards were held or are new, and `r` was held and is not. -/
theorem Sound.step (hs : h.Sound) (hnodup : ∀ x, (h'.owns x).Nodup)
    (hone : ∀ x y b, b ∈ h'.owns x → b ∈ h'.owns y → x = y)
    (hsrc : ∀ x b, b ∈ h'.owns x → (∃ y, b ∈ h.owns y) ∨ h.next ≤ b ∧ b < h'.next)
    (hnext : h.next ≤ h'.next) (hreleased : h'.released = h.released ++ r) (hrel : r.Nodup)
    (hfree : ∀ b ∈ r, (∃ y, b ∈ h.owns y) ∧ ∀ x, b ∉ h'.owns x) : h'.Sound where
  nodup := hnodup
  apart := hone
  alive x b hb := by
    rw [hreleased,List.mem_append,not_or]
    have hkept : b ∉ r := fun hr => (hfree b hr).2 x hb
    rcases hsrc x b hb with ⟨y,hy⟩ | ⟨hge,hlt⟩
    · obtain ⟨hlt,hnot⟩ := hs.alive y b hy
      exact ⟨Nat.lt_of_lt_of_le hlt hnext,hnot,hkept⟩
    · exact ⟨hlt,fun hr => absurd (hs.below b hr) (Nat.not_lt.mpr hge),hkept⟩
  once := by
    rw [hreleased,List.nodup_append]
    refine ⟨hs.once,hrel,fun a ha b hb hab => ?_⟩
    obtain ⟨y,hy⟩ := (hfree b hb).1
    exact (hs.alive y b hy).2 (hab ▸ ha)
  below b hb := by
    rw [hreleased] at hb
    rcases List.mem_append.mp hb with hold | hnew
    · exact Nat.lt_of_lt_of_le (hs.below b hold) hnext
    · obtain ⟨y,hy⟩ := (hfree b hnew).1
      exact Nat.lt_of_lt_of_le (hs.alive y b hy).1 hnext

/-- One holder gets new blocks, keeps some of its own and releases others. -/
theorem Sound.replace (hs : h.Sound) (x : ι) (hother : ∀ z, z ≠ x → h'.owns z = h.owns z)
    (hx : (h'.owns x).Nodup)
    (hgot : ∀ b ∈ h'.owns x, b ∈ h.owns x ∨ h.next ≤ b ∧ b < h'.next)
    (hnext : h.next ≤ h'.next) (hreleased : h'.released = h.released ++ r) (hrel : r.Nodup)
    (hfree : ∀ b ∈ r, b ∈ h.owns x ∧ b ∉ h'.owns x) : h'.Sound := by
  have hback (y : ι) (b : Nat) (hne : y ≠ x) (hb : b ∈ h'.owns y) : b ∈ h.owns y := hother y hne ▸ hb
  have hapart (y : ι) (b : Nat) (hne : y ≠ x) (hy : b ∈ h'.owns y) (hb : b ∈ h'.owns x) : False := by
    have hheld := hback y b hne hy
    rcases hgot b hb with hold | ⟨hge,-⟩
    · exact hne (hs.apart y x b hheld hold)
    · exact absurd (hs.alive y b hheld).1 (Nat.not_lt.mpr hge)
  refine hs.step (fun y => ?_) (fun y z b hy hz => ?_) (fun y b hy => ?_) hnext hreleased hrel
    fun b hb => ⟨⟨x,(hfree b hb).1⟩,fun y hy => ?_⟩
  · by_cases hne : y = x
    · exact hne ▸ hx
    · exact hother y hne ▸ hs.nodup y
  · by_cases hyx : y = x
    · by_cases hzx : z = x
      · exact hyx.trans hzx.symm
      · exact (hapart z b hzx hz (hyx ▸ hy)).elim
    · by_cases hzx : z = x
      · exact (hapart y b hyx hy (hzx ▸ hz)).elim
      · exact hs.apart y z b (hback y b hyx hy) (hback z b hzx hz)
  · by_cases hne : y = x
    · subst hne
      exact (hgot b hy).imp (fun hold => ⟨y,hold⟩) id
    · exact .inl ⟨y,hback y b hne hy⟩
  · by_cases hne : y = x
    · exact (hfree b hb).2 (hne ▸ hy)
    · exact hne (hs.apart y x b (hback y b hne hy) (hfree b hb).1)

/-- One holder passes all its blocks to another. -/
theorem Sound.pass (hs : h.Sound) {x y : ι} (hother : ∀ z, z ≠ x → z ≠ y → h'.owns z = h.owns z)
    (hx : h'.owns x = []) (hy : (h'.owns y).Nodup)
    (hgot : ∀ b ∈ h'.owns y, b ∈ h.owns y ∨ b ∈ h.owns x ∨ h.next ≤ b ∧ b < h'.next)
    (hnext : h.next ≤ h'.next) (hreleased : h'.released = h.released ++ r) (hrel : r.Nodup)
    (hfree : ∀ b ∈ r, b ∈ h.owns y ∧ b ∉ h'.owns y) : h'.Sound := by
  have hback (z : ι) (b : Nat) (hne : z ≠ y) (hb : b ∈ h'.owns z) : z ≠ x ∧ b ∈ h.owns z := by
    have hzx : z ≠ x := by
      rintro rfl
      rw [hx] at hb
      cases hb
    exact ⟨hzx,hother z hzx hne ▸ hb⟩
  have hapart (z : ι) (b : Nat) (hne : z ≠ y) (hz : b ∈ h'.owns z) (hb : b ∈ h'.owns y) : False := by
    obtain ⟨hzx,hheld⟩ := hback z b hne hz
    rcases hgot b hb with hold | hpassed | ⟨hge,-⟩
    · exact hne (hs.apart z y b hheld hold)
    · exact hzx (hs.apart z x b hheld hpassed)
    · exact absurd (hs.alive z b hheld).1 (Nat.not_lt.mpr hge)
  refine hs.step (fun z => ?_) (fun z w b hz hw => ?_) (fun z b hz => ?_) hnext hreleased hrel
    fun b hb => ⟨⟨y,(hfree b hb).1⟩,fun z hz => ?_⟩
  · by_cases hzy : z = y
    · exact hzy ▸ hy
    · by_cases hzx : z = x
      · rw [hzx,hx]
        exact List.nodup_nil
      · exact hother z hzx hzy ▸ hs.nodup z
  · by_cases hzy : z = y
    · by_cases hwy : w = y
      · exact hzy.trans hwy.symm
      · exact (hapart w b hwy hw (hzy ▸ hz)).elim
    · by_cases hwy : w = y
      · exact (hapart z b hzy hz (hwy ▸ hw)).elim
      · exact hs.apart z w b (hback z b hzy hz).2 (hback w b hwy hw).2
  · by_cases hzy : z = y
    · subst hzy
      rcases hgot b hz with hold | hpassed | hnew
      · exact .inl ⟨z,hold⟩
      · exact .inl ⟨x,hpassed⟩
      · exact .inr hnew
    · exact .inl ⟨z,(hback z b hzy hz).2⟩
  · by_cases hzy : z = y
    · exact (hfree b hb).2 (hzy ▸ hz)
    · exact hzy (hs.apart z y b (hback z b hzy hz).2 (hfree b hb).1)

/-- The blocks `l` are the numbers from `n` up to `m` that an allocation has given out. -/
structure Fresh (l : List Nat) (n m : Nat) : Prop where
  nodup : l.Nodup
  range : ∀ b ∈ l, n ≤ b ∧ b < m
  le : n ≤ m

theorem Fresh.nil (n : Nat) : Fresh [] n n := ⟨List.nodup_nil,by simp,Nat.le_refl n⟩

theorem Fresh.single (n : Nat) : Fresh [n] n (n + 1) :=
  ⟨List.nodup_singleton n,by simp,Nat.le_succ n⟩

theorem Fresh.append {l r : List Nat} {n m k : Nat} (hl : Fresh l n m) (hr : Fresh r m k) :
    Fresh (l ++ r) n k where
  nodup := by
    refine List.nodup_append.mpr ⟨hl.nodup,hr.nodup,fun a ha b hb hab => ?_⟩
    exact absurd (hl.range a ha).2 (Nat.not_lt.mpr (hab ▸ (hr.range b hb).1))
  range b hb := by
    rcases List.mem_append.mp hb with h | h
    · exact ⟨(hl.range b h).1,Nat.lt_of_lt_of_le (hl.range b h).2 hr.le⟩
    · exact ⟨Nat.le_trans hl.le (hr.range b h).1,(hr.range b h).2⟩
  le := Nat.le_trans hl.le hr.le

end Holders
