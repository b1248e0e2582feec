import Mathlib.Algebra.Order.Field.Basic
import Mathlib.Algebra.Order.Field.Rat
import NwscriptBindings.Number.Binary32

namespace NwscriptBindings

namespace Digits

theorem roundDiv_cases (num den : Nat) :
    roundDiv num den = num / den ∧
        (2 * (num % den) < den ∨ 2 * (num % den) = den ∧ num / den % 2 = 0) ∨
      roundDiv num den = num / den + 1 ∧
        (den < 2 * (num % den) ∨ 2 * (num % den) = den ∧ num / den % 2 = 1) := by
  unfold roundDiv
  dsimp only
  split
  · exact .inl ⟨rfl, by omega⟩
  · split
    · exact .inr ⟨rfl, by omega⟩
    · split
      · exact .inl ⟨rfl, by omega⟩
      · exact .inr ⟨rfl, by omega⟩

theorem roundDiv_near (num : Nat) {den : Nat} (positive : 0 < den) :
    2 * (roundDiv num den * den) ≤ 2 * num + den ∧
      2 * num ≤ 2 * (roundDiv num den * den) + den := by
  have parts := Nat.div_add_mod' num den
  have small := Nat.mod_lt num positive
  rcases roundDiv_cases num den with ⟨same, _⟩ | ⟨same, _⟩
  · rw [same]
    omega
  · rw [same, Nat.add_one_mul (num / den)]
    omega

theorem roundDiv_even {num den : Nat} (positive : 0 < den)
    (half : 2 * (roundDiv num den * den) = 2 * num + den ∨
      2 * num = 2 * (roundDiv num den * den) + den) : roundDiv num den % 2 = 0 := by
  have parts := Nat.div_add_mod' num den
  have small := Nat.mod_lt num positive
  rcases roundDiv_cases num den with ⟨same, tie⟩ | ⟨same, tie⟩
  · rw [same] at half ⊢
    omega
  · rw [same, Nat.add_one_mul (num / den)] at half
    rw [same]
    omega

theorem roundDiv_unique {num den n : Nat} (above : 2 * (n * den) < 2 * num + den)
    (below : 2 * num < 2 * (n * den) + den) : roundDiv num den = n := by
  have positive : 0 < den := by omega
  obtain ⟨low, high⟩ := roundDiv_near num positive
  have less : roundDiv num den * den < (n + 1) * den := by
    rw [Nat.add_one_mul]
    omega
  have more : n * den < (roundDiv num den + 1) * den := by
    rw [Nat.add_one_mul]
    omega
  have one := Nat.lt_of_mul_lt_mul_right less
  have two := Nat.lt_of_mul_lt_mul_right more
  omega

theorem roundDiv_mul (num den : Nat) {c : Nat} (positive : 0 < c) :
    roundDiv (num * c) (den * c) = roundDiv num den := by
  have less : ∀ a b, 2 * (a * c) < b * c ↔ 2 * a < b := by
    intro a b
    rw [← Nat.mul_assoc]
    exact Nat.mul_lt_mul_right positive
  have more : ∀ a b, b * c < 2 * (a * c) ↔ b < 2 * a := by
    intro a b
    rw [← Nat.mul_assoc]
    exact Nat.mul_lt_mul_right positive
  simp only [roundDiv, Nat.mul_div_mul_right _ _ positive, Nat.mul_mod_mul_right, less, more]

end Digits

-- Of the numbers with so many decimal places the nearest, and of two such the even one.
def Closest (places : Nat) (x : ℚ) (n : Nat) : Prop :=
  ∀ k : Nat, k ≠ n → |x - n / 10 ^ places| < |x - k / 10 ^ places| ∨
    |x - n / 10 ^ places| = |x - k / 10 ^ places| ∧ n % 2 = 0

namespace Digits

theorem roundDiv_nearest {num den k : Nat} (positive : 0 < den) (other : k ≠ roundDiv num den) :
    ((num : Int) - (roundDiv num den * den : Nat)).natAbs < ((num : Int) - (k * den : Nat)).natAbs ∨
      ((num : Int) - (roundDiv num den * den : Nat)).natAbs =
        ((num : Int) - (k * den : Nat)).natAbs ∧ roundDiv num den % 2 = 0 := by
  obtain ⟨low, high⟩ := roundDiv_near num positive
  have even : (2 * (roundDiv num den * den) = 2 * num + den ∨
      2 * num = 2 * (roundDiv num den * den) + den) → roundDiv num den % 2 = 0 :=
    roundDiv_even positive
  rcases Nat.lt_or_gt_of_ne other with less | more
  · have apart := Nat.mul_le_mul_right den (Nat.succ_le_of_lt less)
    rw [Nat.succ_mul] at apart
    omega
  · have apart := Nat.mul_le_mul_right den (Nat.succ_le_of_lt more)
    rw [Nat.succ_mul] at apart
    omega

theorem distance_eq {den scale : Nat} (num k : Nat) (one : 0 < den) (two : 0 < scale) :
    |(num / den : ℚ) - k / scale| =
      (((num * scale : Nat) : Int) - (k * den : Nat)).natAbs / (den * scale : Nat) := by
  have first : (den : ℚ) ≠ 0 := by exact_mod_cast one.ne'
  have second : (scale : ℚ) ≠ 0 := by exact_mod_cast two.ne'
  have size : (0 : ℚ) ≤ (den : ℚ) * scale := mul_nonneg (Nat.cast_nonneg _) (Nat.cast_nonneg _)
  rw [div_sub_div _ _ first second, abs_div, abs_of_nonneg size, Nat.cast_natAbs, mul_comm k]
  push_cast
  rfl

theorem roundDiv_closest (num den places : Nat) (positive : 0 < den) :
    Closest places (num / den) (roundDiv (num * 10 ^ places) den) := by
  intro k other
  have scale : 0 < 10 ^ places := Nat.pow_pos (by decide)
  have size : (0 : ℚ) < (den * 10 ^ places : Nat) := by
    exact_mod_cast Nat.mul_pos positive scale
  have ten : (10 : ℚ) ^ places = (10 ^ places : Nat) := by push_cast; rfl
  rw [ten, distance_eq _ _ positive scale, distance_eq _ _ positive scale]
  rcases roundDiv_nearest positive other with nearer | ⟨same, even⟩
  · exact .inl (div_lt_div_of_pos_right (Nat.cast_lt.mpr nearer) size)
  · exact .inr ⟨by rw [same], even⟩

end Digits

namespace Binary32

variable {num den e : Nat}

-- The exponent with which a quotient has 24 significant bits, or the least if it has fewer.
structure Binade (num den e : Nat) : Prop where
  below : num < den * 2 ^ (e + 24)
  full : e = 0 ∨ den * 2 ^ (e + 23) ≤ num

theorem binade_iff : Binade num den e ↔
    num < 2 ^ 24 * (den * 2 ^ e) ∧ (e = 0 ∨ 2 ^ 23 * (den * 2 ^ e) ≤ num) := by
  have scaled : ∀ k, den * 2 ^ (e + k) = 2 ^ k * (den * 2 ^ e) := by
    intro k
    rw [Nat.pow_add, ← Nat.mul_assoc, Nat.mul_comm]
  rw [← scaled, ← scaled]
  exact ⟨fun binade => ⟨binade.below, binade.full⟩, fun bounds => ⟨bounds.1, bounds.2⟩⟩

theorem Binade.le {f : Nat} (one : Binade num den e) (two : Binade num den f) : e ≤ f := by
  rcases one.full with rfl | full
  · exact Nat.zero_le f
  · have less := Nat.lt_of_mul_lt_mul_left (Nat.lt_of_le_of_lt full two.below)
    have order := (Nat.pow_lt_pow_iff_right (by decide)).mp less
    omega

theorem binade_log2 (num : Nat) (positive : 0 < den) :
    Binade num den ((num / den).log2 - 23) := by
  refine ⟨?_, ?_⟩
  · rw [Nat.mul_comm, ← Nat.div_lt_iff_lt_mul positive]
    have less : num / den < 2 ^ ((num / den).log2 + 1) := Nat.lt_log2_self
    refine Nat.lt_of_lt_of_le less (Nat.pow_le_pow_right (by decide) (by omega))
  · rcases Nat.eq_zero_or_pos ((num / den).log2 - 23) with least | more
    · exact .inl least
    · right
      have some : num / den ≠ 0 := by
        intro none
        rw [none] at more
        cases more
      rw [Nat.sub_add_cancel (by omega), Nat.mul_comm, ← Nat.le_div_iff_mul_le positive]
      exact Nat.log2_self_le some

theorem nearest?_eq (negative : Bool) (positive : 0 < den) (binade : Binade (num * one) den e) :
    nearest? negative num den =
      if Digits.roundDiv (num * one) (den * 2 ^ e) = 2 ^ 24 then
        ofParts? negative (2 ^ 23) (e + 1)
      else ofParts? negative (Digits.roundDiv (num * one) (den * 2 ^ e)) e := by
  have found := binade_log2 (num * one) positive
  have same : (num * one / den).log2 - 23 = e :=
    Nat.le_antisymm (found.le binade) (binade.le found)
  simp only [nearest?, same, Nat.pow_eq]

theorem ofParts?_canonical {m : Nat} (negative : Bool) (canonical : Canonical m e) :
    ofParts? negative m e = some ⟨negative, m, e, canonical⟩ := by
  rw [ofParts?, dif_pos canonical]

theorem Binade.significand_le (binade : Binade num den e) (positive : 0 < den) :
    Digits.roundDiv num (den * 2 ^ e) ≤ 2 ^ 24 := by
  have size : 0 < den * 2 ^ e := Nat.mul_pos positive (Nat.two_pow_pos e)
  obtain ⟨low, _⟩ := Digits.roundDiv_near num size
  obtain ⟨below, _⟩ := binade_iff.mp binade
  apply Nat.le_of_not_lt
  intro more
  have long := Nat.mul_le_mul_right (den * 2 ^ e) (Nat.succ_le_of_lt more)
  omega

theorem Binade.le_significand (binade : Binade num den e) (positive : 0 < den) (some : e ≠ 0) :
    2 ^ 23 ≤ Digits.roundDiv num (den * 2 ^ e) := by
  have size : 0 < den * 2 ^ e := Nat.mul_pos positive (Nat.two_pow_pos e)
  obtain ⟨_, high⟩ := Digits.roundDiv_near num size
  have full := (binade_iff.mp binade).2.resolve_left some
  apply Nat.le_of_not_lt
  intro less
  have short := Nat.mul_le_mul_right (den * 2 ^ e) (Nat.succ_le_of_lt less)
  rw [Nat.succ_mul] at short
  omega

-- A significand that is rounded up to one bit more is the least one of the next exponent.
theorem nearest?_rounds (negative : Bool) (positive : 0 < den)
    (binade : Binade (num * one) den e) (bound : e ≤ 252) :
    ∃ w, nearest? negative num den = some w ∧ w.negative = negative ∧
      w.units = Digits.roundDiv (num * one) (den * 2 ^ e) * 2 ^ e := by
  have high := binade.significand_le positive
  have low : 2 ^ 23 ≤ Digits.roundDiv (num * one) (den * 2 ^ e) ∨ e = 0 := by
    by_cases least : e = 0
    · exact .inr least
    · exact .inl (binade.le_significand positive least)
  rw [nearest?_eq negative positive binade]
  split
  · rename_i carried
    have canonical : Canonical (2 ^ 23) (e + 1) := ⟨by decide, by omega, .inl (Nat.le_refl _)⟩
    refine ⟨_, ofParts?_canonical negative canonical, rfl, ?_⟩
    rw [carried]
    change 2 ^ 23 * 2 ^ (e + 1) = 2 ^ 24 * 2 ^ e
    rw [← Nat.pow_add, ← Nat.pow_add]
    congr 1
    omega
  · rename_i other
    have canonical : Canonical (Digits.roundDiv (num * one) (den * 2 ^ e)) e :=
      ⟨Nat.lt_of_le_of_ne high other, by omega, low⟩
    exact ⟨_, ofParts?_canonical negative canonical, rfl, rfl⟩

section near

variable {v : Binary32}

theorem nearest?_of_significand (positive : 0 < den)
    (binade : Binade (num * one) den v.exponent)
    (rounded : Digits.roundDiv (num * one) (den * 2 ^ v.exponent) = v.significand) :
    nearest? v.negative num den = some v := by
  have small : v.significand ≠ 2 ^ 24 := Nat.ne_of_lt v.canonical.1
  rw [nearest?_eq v.negative positive binade, rounded, if_neg small,
    ofParts?_canonical v.negative v.canonical]

theorem units_mul (v : Binary32) (den : Nat) :
    v.units * den = v.significand * (den * 2 ^ v.exponent) := by
  rw [units, Nat.pow_eq, Nat.mul_assoc, Nat.mul_comm den]

theorem nearest?_exact (positive : 0 < den) (exact : num * one = v.units * den) :
    nearest? v.negative num den = some v := by
  have size : 0 < den * 2 ^ v.exponent := Nat.mul_pos positive (Nat.two_pow_pos _)
  obtain ⟨small, _, full⟩ := v.canonical
  rw [units_mul] at exact
  refine nearest?_of_significand positive (binade_iff.mpr ⟨?_, ?_⟩) (Digits.roundDiv_unique ?_ ?_)
  · rw [exact]
    exact Nat.mul_lt_mul_of_pos_right small size
  · rw [exact]
    exact full.symm.imp_right (Nat.mul_le_mul_right _)
  · omega
  · omega

theorem nearest?_close (positive : 0 < den) (inner : 2 ^ 23 < v.significand)
    (above : 2 * (v.units * den) < 2 * (num * one) + den * 2 ^ v.exponent)
    (below : 2 * (num * one) < 2 * (v.units * den) + den * 2 ^ v.exponent) :
    nearest? v.negative num den = some v := by
  have small : v.significand < 2 ^ 24 := v.canonical.1
  rw [units_mul] at above below
  have least := Nat.mul_le_mul_right (den * 2 ^ v.exponent) (Nat.succ_le_of_lt inner)
  have most := Nat.mul_le_mul_right (den * 2 ^ v.exponent) (Nat.succ_le_of_lt small)
  rw [Nat.succ_mul] at least most
  have binade : Binade (num * one) den v.exponent :=
    binade_iff.mpr ⟨by omega, .inr (by omega)⟩
  exact nearest?_of_significand positive binade (Digits.roundDiv_unique above below)

end near

theorem nearest?_mul (negative : Bool) (num den : Nat) {c : Nat} (positive : 0 < c) :
    nearest? negative (num * c) (den * c) = nearest? negative num den := by
  have above : num * c * one = num * one * c := Nat.mul_right_comm ..
  have below : ∀ k, den * c * k = den * k * c := fun k => Nat.mul_right_comm ..
  simp only [nearest?, above, below, Nat.mul_div_mul_right _ _ positive,
    Digits.roundDiv_mul _ _ positive]

def rounded (v : Binary32) : Nat := Digits.roundDiv (v.units * 10 ^ 7) one

theorem one_pos : 0 < one := Nat.two_pow_pos 149

theorem rounded_near (v : Binary32) : 2 * (v.rounded * one) ≤ 2 * (v.units * 10 ^ 7) + one ∧
    2 * (v.units * 10 ^ 7) ≤ 2 * (v.rounded * one) + one :=
  Digits.roundDiv_near _ one_pos

theorem rounded_exact {v : Binary32} {n : Nat} (exact : n * one = v.units * 10 ^ 7) :
    v.rounded = n := by
  have positive := one_pos
  exact Digits.roundDiv_unique (by omega) (by omega)

section reread

variable {v : Binary32}

theorem reread_exact (exact : v.rounded * one = v.units * 10 ^ 7) :
    nearest? v.negative v.rounded (10 ^ 7) = some v :=
  nearest?_exact (by decide) exact

theorem exponent_ge (large : one ≤ v.units) : 126 ≤ v.exponent := by
  have small : v.significand < 2 ^ 24 := v.canonical.1
  apply Nat.le_of_not_lt
  intro less
  have short : v.units < 2 ^ 24 * 2 ^ 125 := by
    rw [units, Nat.pow_eq]
    calc v.significand * 2 ^ v.exponent
      _ < 2 ^ 24 * 2 ^ v.exponent := Nat.mul_lt_mul_of_pos_right small (Nat.two_pow_pos _)
      _ ≤ 2 ^ 24 * 2 ^ 125 := Nat.mul_le_mul_left _ (Nat.pow_le_pow_right (by decide) (by omega))
  have same : 2 ^ 24 * 2 ^ 125 = one := by decide
  omega

-- From one on a ten-millionth is less than the distance to the next number. Below the least
-- number of a binade the next one is nearer, but that number is whole.
theorem reread_large (large : one ≤ v.units) :
    nearest? v.negative v.rounded (10 ^ 7) = some v := by
  have exponent := exponent_ge large
  rcases v.canonical.2.2 with full | least
  · rcases Nat.eq_or_lt_of_le full with whole | inner
    · apply reread_exact
      have exponents : 23 + v.exponent = v.exponent - 126 + 149 := by omega
      have power : v.units = 2 ^ (v.exponent - 126) * one := by
        rw [units, ← whole, one, Nat.pow_eq, Nat.pow_eq, Nat.pow_eq, ← Nat.pow_add, ← Nat.pow_add,
          exponents]
      have exact : 2 ^ (v.exponent - 126) * 10 ^ 7 * one = v.units * 10 ^ 7 := by
        rw [power, Nat.mul_right_comm]
      rw [rounded_exact exact, exact]
    · have fine : one < 10 ^ 7 * 2 ^ v.exponent :=
        Nat.lt_of_lt_of_le (by decide : one < 10 ^ 7 * 2 ^ 126)
          (Nat.mul_le_mul_left _ (Nat.pow_le_pow_right (by decide) exponent))
      obtain ⟨low, high⟩ := v.rounded_near
      exact nearest?_close (by decide) inner (by omega) (by omega)
  · omega

theorem rounded_le (small : v.units < one) : v.rounded ≤ 10 ^ 7 := by
  obtain ⟨low, _⟩ := v.rounded_near
  apply Nat.le_of_not_lt
  intro more
  have long := Nat.mul_le_mul_right one (Nat.succ_le_of_lt more)
  omega

-- Below one the next numbers are nearer than a ten-millionth, so what is read is rounded back.
theorem reread_small (small : v.units < one) :
    ∃ w, nearest? v.negative v.rounded (10 ^ 7) = some w ∧ w.negative = v.negative ∧
      w.rounded = v.rounded := by
  rcases Nat.eq_or_lt_of_le (rounded_le small) with unit | less
  · let w : Binary32 := ⟨v.negative, 2 ^ 23, 126, by decide⟩
    have whole : w.units = one := by
      rw [units, one, Nat.pow_eq, Nat.pow_eq, ← Nat.pow_add]
      rfl
    have exact : v.rounded * one = w.units * 10 ^ 7 := by
      rw [unit, whole, Nat.mul_comm]
    exact ⟨w, nearest?_exact (by decide) exact, rfl, rounded_exact exact⟩
  · have binade := binade_log2 (v.rounded * one) (by decide : 0 < 10 ^ 7)
    generalize (v.rounded * one / 10 ^ 7).log2 - 23 = e at binade
    have exponent : e ≤ 125 := by
      rcases binade.full with rfl | full
      · exact Nat.zero_le _
      · have bound := Nat.mul_lt_mul_of_pos_right less one_pos
        have power := Nat.lt_of_mul_lt_mul_left (Nat.lt_of_le_of_lt full bound)
        rw [one, Nat.pow_eq, Nat.pow_lt_pow_iff_right (by decide)] at power
        omega
    have coarse : 10 ^ 7 * 2 ^ e < one :=
      Nat.lt_of_le_of_lt (Nat.mul_le_mul_left _ (Nat.pow_le_pow_right (by decide) exponent))
        (by decide : 10 ^ 7 * 2 ^ 125 < one)
    obtain ⟨w, read, sign, magnitude⟩ := nearest?_rounds v.negative (by decide) binade (by omega)
    obtain ⟨low, high⟩ :=
      Digits.roundDiv_near (v.rounded * one) (Nat.mul_pos (by decide : 0 < 10 ^ 7) (Nat.two_pow_pos e))
    have scaled : w.units * 10 ^ 7 =
        Digits.roundDiv (v.rounded * one) (10 ^ 7 * 2 ^ e) * (10 ^ 7 * 2 ^ e) := by
      rw [magnitude, Nat.mul_assoc, Nat.mul_comm (2 ^ e)]
    rw [← scaled] at low high
    exact ⟨w, read, sign, Digits.roundDiv_unique (by omega) (by omega)⟩

theorem reread (v : Binary32) : ∃ w, nearest? v.negative v.rounded (10 ^ 7) = some w ∧
    w.negative = v.negative ∧ w.rounded = v.rounded ∧ (one ≤ v.units ∨ v.units = 0 → w = v) := by
  by_cases kept : one ≤ v.units ∨ v.units = 0
  · refine ⟨v, ?_, rfl, rfl, fun _ => rfl⟩
    rcases kept with large | none
    · exact reread_large large
    · have exact : 0 * one = v.units * 10 ^ 7 := by rw [none, Nat.zero_mul, Nat.zero_mul]
      exact reread_exact ((rounded_exact exact).symm ▸ exact)
  · rw [not_or, Nat.not_le] at kept
    obtain ⟨w, read, sign, same⟩ := reread_small kept.1
    refine ⟨w, read, sign, same, fun either => ?_⟩
    omega

end reread

end Binary32

end NwscriptBindings
