import Mathlib.Tactic.Linarith
import NwscriptBindings.Proofs.Number.Rounding

namespace NwscriptBindings.Binary32

def magnitude (v : Binary32) : ℚ := v.units / one

def Nearest (x : ℚ) (v : Binary32) : Prop :=
  ∀ w : Binary32, w.magnitude ≠ v.magnitude → |x - v.magnitude| < |x - w.magnitude| ∨
    |x - v.magnitude| = |x - w.magnitude| ∧ v.significand % 2 = 0

def greatest : Binary32 := ⟨false, 2 ^ 24 - 1, 253, by decide⟩

-- The power of two stands where infinity begins, and a tie goes to it: `greatest` is odd.
def InRange (x : ℚ) : Prop := |x - greatest.magnitude| < |x - 2 ^ 128|

section Distances
variable {num den : Nat}

theorem distance_lt_iff (positive : 0 < den) (k l : Nat) :
    |(num / den : ℚ) - k / one| < |(num / den : ℚ) - l / one| ↔
      (((num * one : Nat) : Int) - (k * den : Nat)).natAbs <
        (((num * one : Nat) : Int) - (l * den : Nat)).natAbs := by
  have size : (0 : ℚ) < (den * one : Nat) := by exact_mod_cast Nat.mul_pos positive one_pos
  rw [Digits.distance_eq _ _ positive one_pos, Digits.distance_eq _ _ positive one_pos,
    div_lt_div_iff_of_pos_right size, Nat.cast_lt]

theorem distance_eq_iff (positive : 0 < den) (k l : Nat) :
    |(num / den : ℚ) - k / one| = |(num / den : ℚ) - l / one| ↔
      (((num * one : Nat) : Int) - (k * den : Nat)).natAbs =
        (((num * one : Nat) : Int) - (l * den : Nat)).natAbs := by
  have size : ((den * one : Nat) : ℚ) ≠ 0 := by
    exact_mod_cast (Nat.mul_pos positive one_pos).ne'
  rw [Digits.distance_eq _ _ positive one_pos, Digits.distance_eq _ _ positive one_pos,
    div_left_inj' size, Nat.cast_inj]

end Distances

theorem magnitude_inj {v w : Binary32} : v.magnitude = w.magnitude ↔ v.units = w.units := by
  have size : (one : ℚ) ≠ 0 := by exact_mod_cast one_pos.ne'
  rw [magnitude, magnitude, div_left_inj' size, Nat.cast_inj]

theorem magnitude_lt {v w : Binary32} : v.magnitude < w.magnitude ↔ v.units < w.units := by
  have size : (0 : ℚ) < one := by exact_mod_cast one_pos
  rw [magnitude, magnitude, div_lt_div_iff_of_pos_right size, Nat.cast_lt]

theorem eq_of_units {v w : Binary32} (sign : v.negative = w.negative) (same : v.units = w.units) :
    v = w := by
  have first : nearest? v.negative v.units one = some v := nearest?_exact one_pos rfl
  have second : nearest? w.negative v.units one = some w := nearest?_exact one_pos (by rw [same])
  rw [sign, second] at first
  exact (Option.some.inj first).symm

theorem units_below (w : Binary32) {e : Nat} (finer : w.exponent < e) :
    w.units < 2 ^ 23 * 2 ^ e := by
  have small : w.significand < 2 ^ 24 := w.canonical.1
  rw [units, Nat.pow_eq]
  calc w.significand * 2 ^ w.exponent
    _ < 2 ^ 24 * 2 ^ w.exponent := Nat.mul_lt_mul_of_pos_right small (Nat.two_pow_pos _)
    _ = 2 ^ 23 * 2 ^ (w.exponent + 1) := by rw [Nat.pow_succ, Nat.pow_succ]; omega
    _ ≤ 2 ^ 23 * 2 ^ e := Nat.mul_le_mul_left _ (Nat.pow_le_pow_right (by decide) finer)

theorem units_multiple (w : Binary32) {e : Nat} (coarser : e ≤ w.exponent) :
    ∃ k, w.units = k * 2 ^ e := by
  refine ⟨w.significand * 2 ^ (w.exponent - e), ?_⟩
  rw [units, Nat.pow_eq, Nat.mul_assoc, ← Nat.pow_add, Nat.sub_add_cancel coarser]

section Unique
variable {x : ℚ} {v w : Binary32}

theorem next_units (negative : Bool) (even : v.significand % 2 = 0) : ∃ s : Binary32,
    s.negative = negative ∧ s.significand = v.significand + 1 ∧
      s.units = v.units + 2 ^ v.exponent := by
  obtain ⟨small, bound, full⟩ := v.canonical
  have canonical : Canonical (v.significand + 1) v.exponent := by
    refine ⟨?_, bound, full.imp_left Nat.le_succ_of_le⟩
    have wide : Nat.pow 2 24 = 16777216 := by decide
    omega
  exact ⟨⟨negative, _, _, canonical⟩, rfl, rfl, Nat.succ_mul ..⟩

theorem next_le (less : v.units < w.units) : v.units + 2 ^ v.exponent ≤ w.units := by
  by_cases coarser : v.exponent ≤ w.exponent
  · obtain ⟨k, same⟩ := units_multiple w coarser
    rw [same] at less ⊢
    rw [units, Nat.pow_eq] at less ⊢
    rw [← Nat.succ_mul]
    exact Nat.mul_le_mul_right _ (Nat.lt_of_mul_lt_mul_right less)
  · have below := units_below w (Nat.lt_of_not_le coarser)
    have full : 2 ^ 23 ≤ v.significand := v.canonical.2.2.resolve_right (by omega)
    have above := Nat.mul_le_mul_right (2 ^ v.exponent) full
    rw [units, Nat.pow_eq] at less
    omega

-- Between two numbers with even significands there is another, so no two are equally near.
theorem Nearest.not_lt (one : Nearest x v) (two : Nearest x w) : ¬ v.units < w.units := by
  intro less
  have apart : v.magnitude < w.magnitude := magnitude_lt.mpr less
  obtain ⟨near, evenV⟩ : |x - v.magnitude| = |x - w.magnitude| ∧ v.significand % 2 = 0 := by
    rcases one w apart.ne' with nearer | tie
    · rcases two v apart.ne with farther | ⟨same, _⟩
      · exact absurd nearer (not_lt_of_gt farther)
      · exact absurd nearer (same ▸ lt_irrefl _)
    · exact tie
  have evenW : w.significand % 2 = 0 := by
    rcases two v apart.ne with nearer | tie
    · exact absurd nearer (near ▸ lt_irrefl _)
    · exact tie.2
  obtain ⟨s, sign, next, step⟩ := next_units w.negative evenV
  have positive := Nat.two_pow_pos v.exponent
  have above : v.magnitude < s.magnitude := magnitude_lt.mpr (by omega)
  have below : s.magnitude < w.magnitude := by
    refine magnitude_lt.mpr (Nat.lt_of_le_of_ne (step ▸ next_le less) fun same => ?_)
    have odd := congrArg significand (eq_of_units sign same)
    omega
  have middle : x - v.magnitude = w.magnitude - x := by
    rcases abs_eq_abs.mp near with same | same
    · linarith
    · linarith
  have nearer : |x - s.magnitude| < |x - v.magnitude| :=
    lt_of_lt_of_le (abs_lt.mpr ⟨by linarith, by linarith⟩) (le_abs_self (x - v.magnitude))
  rcases one s above.ne' with farther | ⟨same, _⟩
  · exact absurd nearer (not_lt_of_gt farther)
  · exact absurd nearer (same ▸ lt_irrefl _)

theorem Nearest.unique (one : Nearest x v) (two : Nearest x w)
    (sign : v.negative = w.negative) : v = w :=
  eq_of_units sign (Nat.le_antisymm (Nat.le_of_not_lt (two.not_lt one))
    (Nat.le_of_not_lt (one.not_lt two)))

end Unique

section Rounds
variable {num den e : Nat} {negative : Bool} {v : Binary32}

theorem ofParts?_some {significand exponent : Nat}
    (found : ofParts? negative significand exponent = some v) :
    v.negative = negative ∧ v.significand = significand ∧ v.exponent = exponent := by
  unfold ofParts? at found
  split at found
  · cases found
    exact ⟨rfl, rfl, rfl⟩
  · cases found

theorem nearest?_some (positive : 0 < den) (binade : Binade (num * one) den e)
    (found : nearest? negative num den = some v) : v.negative = negative ∧
      v.units = Digits.roundDiv (num * one) (den * 2 ^ e) * 2 ^ e ∧
      (Digits.roundDiv (num * one) (den * 2 ^ e) % 2 = 0 → v.significand % 2 = 0) := by
  rw [nearest?_eq negative positive binade] at found
  split at found
  · rename_i carried
    obtain ⟨sign, significand, exponent⟩ := ofParts?_some found
    refine ⟨sign, ?_, fun _ => by rw [significand]; decide⟩
    rw [units, significand, exponent, carried, Nat.pow_eq, Nat.pow_succ, Nat.pow_succ 2 23]
    omega
  · obtain ⟨sign, significand, exponent⟩ := ofParts?_some found
    refine ⟨sign, ?_, fun even => by rw [significand]; exact even⟩
    rw [units, significand, exponent, Nat.pow_eq]

-- Numbers of this binade and coarser ones are whole numbers of its last place. Finer ones lie below
-- its least number, which is as near as any of them.
theorem nearest?_nearest (positive : 0 < den) (found : nearest? negative num den = some v) :
    v.negative = negative ∧ Nearest (num / den) v := by
  have binade := binade_log2 (num * one) positive
  generalize (num * one / den).log2 - 23 = e at binade
  obtain ⟨sign, magnitude, even⟩ := nearest?_some positive binade found
  have size : 0 < den * 2 ^ e := Nat.mul_pos positive (Nat.two_pow_pos e)
  have scaled : ∀ k, k * 2 ^ e * den = k * (den * 2 ^ e) := by
    intro k
    rw [Nat.mul_assoc, Nat.mul_comm (2 ^ e)]
  refine ⟨sign, fun w other => ?_⟩
  rw [Ne, magnitude_inj, magnitude] at other
  unfold Binary32.magnitude
  rw [distance_lt_iff positive, distance_eq_iff positive, magnitude, scaled]
  by_cases coarser : e ≤ w.exponent
  · obtain ⟨k, same⟩ := units_multiple w coarser
    have apart : k ≠ Digits.roundDiv (num * one) (den * 2 ^ e) := by
      rintro rfl
      exact other same
    rw [same, scaled]
    exact (Digits.roundDiv_nearest size apart).imp_right (And.imp_right even)
  · have below := Nat.mul_lt_mul_of_pos_right (units_below w (Nat.lt_of_not_le coarser)) positive
    have full := (binade_iff.mp binade).2.resolve_left (by omega)
    rw [scaled] at below
    left
    by_cases least : 2 ^ 23 = Digits.roundDiv (num * one) (den * 2 ^ e)
    · rw [← least]
      omega
    · have near := Digits.roundDiv_nearest size least
      omega

theorem inRange_iff (positive : 0 < den) :
    InRange (num / den) ↔ 2 * (num * one) < (2 ^ 25 - 1) * (den * 2 ^ 253) := by
  have size : (one : ℚ) ≠ 0 := by exact_mod_cast one_pos.ne'
  have power : (2 : ℚ) ^ 128 = (2 ^ 277 : Nat) / one := by
    rw [eq_div_iff size, one, Nat.pow_eq, Nat.cast_pow, Nat.cast_pow, Nat.cast_ofNat, ← pow_add]
  have most : greatest.units * den = (2 ^ 24 - 1) * (den * 2 ^ 253) := units_mul greatest den
  have next : 2 ^ 277 * den = 2 ^ 24 * (den * 2 ^ 253) := by
    rw [Nat.mul_left_comm, ← Nat.pow_add, Nat.mul_comm]
  rw [InRange, power, magnitude, distance_lt_iff positive, most, next]
  omega

theorem ofParts?_large {significand exponent : Nat} (large : 253 < exponent) :
    ofParts? negative significand exponent = none := by
  rw [ofParts?, dif_neg]
  intro canonical
  exact absurd canonical.2.1 (Nat.not_le.mpr large)

theorem nearest?_last (positive : 0 < den) (binade : Binade (num * one) den 253) :
    (nearest? negative num den).isSome = true ↔
      2 * (num * one) < (2 ^ 25 - 1) * (den * 2 ^ 253) := by
  have size : 0 < den * 2 ^ 253 := Nat.mul_pos positive (Nat.two_pow_pos 253)
  have high := binade.significand_le positive
  have low := binade.le_significand positive (by decide)
  obtain ⟨above, below⟩ := Digits.roundDiv_near (num * one) size
  have even : 2 * (num * one) =
      2 * (Digits.roundDiv (num * one) (den * 2 ^ 253) * (den * 2 ^ 253)) + den * 2 ^ 253 → _ :=
    fun half => Digits.roundDiv_even size (.inr half)
  rw [nearest?_eq negative positive binade]
  generalize Digits.roundDiv (num * one) (den * 2 ^ 253) = m at *
  split
  · rename_i carried
    rw [ofParts?_large (by decide)]
    rw [carried] at above
    exact iff_of_false (by simp) (by omega)
  · rename_i other
    have canonical : Canonical m 253 := ⟨Nat.lt_of_le_of_ne high other, by decide, .inl low⟩
    rw [ofParts?_canonical negative canonical]
    refine iff_of_true rfl (Nat.lt_of_not_le fun tie => ?_)
    have bound := Nat.mul_le_mul_right (den * 2 ^ 253) (by omega : m ≤ 2 ^ 24 - 1)
    have half := even (by omega)
    have less := Nat.mul_le_mul_right (den * 2 ^ 253) (by omega : m ≤ 2 ^ 24 - 2)
    omega

theorem nearest?_isSome_iff (negative : Bool) (positive : 0 < den) :
    (nearest? negative num den).isSome = true ↔ InRange (num / den) := by
  have binade := binade_log2 (num * one) positive
  generalize (num * one / den).log2 - 23 = e at binade
  have size : 0 < den * 2 ^ 253 := Nat.mul_pos positive (Nat.two_pow_pos 253)
  have doubled : ∀ k, den * 2 ^ (k + 1) = 2 * (den * 2 ^ k) := by
    intro k
    rw [Nat.pow_succ, ← Nat.mul_assoc, Nat.mul_comm]
  obtain ⟨below, full⟩ := binade_iff.mp binade
  rw [inRange_iff positive]
  rcases Nat.lt_trichotomy e 253 with small | rfl | large
  · obtain ⟨w, found, _⟩ := nearest?_rounds negative positive binade (by omega)
    rw [found]
    have power := Nat.mul_le_mul_left den (Nat.pow_le_pow_right (by decide : 0 < 2) small)
    rw [doubled] at power
    exact iff_of_true rfl (by omega)
  · exact nearest?_last positive binade
  · have none : nearest? negative num den = none := by
      rw [nearest?_eq negative positive binade, ofParts?_large large,
        ofParts?_large (Nat.lt_succ_of_lt large), ite_self]
    rw [none]
    have power := Nat.mul_le_mul_left den (Nat.pow_le_pow_right (by decide : 0 < 2) large)
    rw [doubled] at power
    exact iff_of_false (by simp) (by omega)

end Rounds

end NwscriptBindings.Binary32
