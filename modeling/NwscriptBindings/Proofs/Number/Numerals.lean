import Mathlib.Algebra.Group.Nat.Defs
import Mathlib.Data.List.Induction
import Mathlib.Data.Nat.Digits.Defs
import NwscriptBindings.Number.Digits

namespace NwscriptBindings.Digits

theorem toNat_concat (base : Nat) (front : List UInt8) (c : UInt8) :
    toNat base (front ++ [c]) = toNat base front * base + value c := by
  simp [toNat]

theorem toNat_append (base : Nat) (front back : List UInt8) :
    toNat base (front ++ back) = toNat base front * base ^ back.length + toNat base back := by
  induction back using List.reverseRecOn with
  | nil => simp [toNat]
  | append_singleton back c ih =>
      rw [← List.append_assoc, toNat_concat, ih, toNat_concat, List.length_append,
        List.length_singleton, Nat.pow_succ, Nat.add_mul, Nat.mul_assoc, Nat.add_assoc]

-- Units come first in a list of digits and last in a text.
theorem toNat_eq_ofDigits (base : Nat) (digits : List UInt8) :
    toNat base digits = Nat.ofDigits base (digits.reverse.map value) := by
  induction digits using List.reverseRecOn with
  | nil => rfl
  | append_singleton front c ih =>
      rw [toNat_concat, ih, List.reverse_concat, List.map_cons, Nat.ofDigits_cons, Nat.mul_comm,
        Nat.add_comm]

theorem toNat_zeros (base k : Nat) : toNat base (List.replicate k (byte '0')) = 0 := by
  induction k with
  | zero => rfl
  | succ k ih =>
      rw [List.replicate_succ', toNat_concat, ih, Nat.zero_mul]
      rfl

theorem digit_value {d : Nat} (small : d < 10) :
    Bytes.isDigit (byte d.digitChar) = true ∧ value (byte d.digitChar) = d := by
  have all : ∀ d : Fin 10, Bytes.isDigit (byte (Nat.digitChar d)) = true ∧
      value (byte (Nat.digitChar d)) = d := by decide
  exact all ⟨d, small⟩

theorem ofNat_eq (n : Nat) : Bytes.ofNat n =
    (if n < 10 then [] else Bytes.ofNat (n / 10)) ++ [byte (Nat.digitChar (n % 10))] := by
  rw [Bytes.ofNat, Nat.toDigits_eq_if (by decide)]
  split
  · rename_i small
    rw [Nat.mod_eq_of_lt small]
    rfl
  · rw [List.map_append]
    rfl

theorem ofNat_ne_nil (n : Nat) : Bytes.ofNat n ≠ [] := by
  rw [ofNat_eq]
  simp

theorem ofNat_digits (n : Nat) : ∀ c ∈ Bytes.ofNat n, Bytes.isDigit c = true := by
  induction n using Nat.strongRecOn with
  | ind n ih =>
      rw [ofNat_eq]
      intro c present
      rcases List.mem_append.mp present with front | last
      · split at front
        · cases front
        · exact ih (n / 10) (by omega) c front
      · rw [List.mem_singleton.mp last]
        exact (digit_value (Nat.mod_lt n (by decide))).1

theorem toNat_ofNat (n : Nat) : toNat 10 (Bytes.ofNat n) = n := by
  induction n using Nat.strongRecOn with
  | ind n ih =>
      rw [ofNat_eq, toNat_concat, (digit_value (Nat.mod_lt n (by decide))).2]
      split
      · rename_i small
        rw [toNat, List.foldl_nil, Nat.zero_mul, Nat.zero_add, Nat.mod_eq_of_lt small]
      · rw [ih (n / 10) (by omega)]
        exact Nat.div_add_mod' n 10

theorem length_ofNat_le {n k : Nat} (some : 0 < k) (small : n < 10 ^ k) :
    (Bytes.ofNat n).length ≤ k := by
  induction k generalizing n with
  | zero => cases some
  | succ k ih =>
      rw [ofNat_eq, List.length_append, List.length_singleton]
      split
      · simp
      · rename_i more
        rw [Nat.pow_succ] at small
        have shorter : 0 < k := by
          cases k with
          | zero => omega
          | succ k => omega
        have rest := ih shorter (by omega : n / 10 < 10 ^ k)
        omega

theorem padded_digits (width n : Nat) : ∀ c ∈ padded width n, Bytes.isDigit c = true := by
  intro c present
  rcases List.mem_append.mp present with zero | digit
  · rw [List.eq_of_mem_replicate zero]
    decide
  · exact ofNat_digits n c digit

theorem toNat_padded (width n : Nat) : toNat 10 (padded width n) = n := by
  rw [padded, toNat_append, toNat_zeros, Nat.zero_mul, Nat.zero_add, toNat_ofNat]

theorem length_padded {width n : Nat} (some : 0 < width) (small : n < 10 ^ width) :
    (padded width n).length = width := by
  have short := length_ofNat_le some small
  rw [padded, List.length_append, List.length_replicate]
  omega

end NwscriptBindings.Digits
