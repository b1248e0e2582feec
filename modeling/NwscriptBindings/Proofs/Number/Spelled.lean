import Mathlib.Data.List.TakeWhile
import NwscriptBindings.Proofs.Number.Nearest
import NwscriptBindings.Proofs.Number.Numerals
import NwscriptBindings.Proofs.Text.Splitting

namespace NwscriptBindings

namespace Digits

inductive Numeral : List UInt8 → Nat → Prop where
  | decimal : digits ≠ [] → (∀ d ∈ digits, Bytes.isDigit d = true) →
      Numeral digits (Nat.ofDigits 10 (digits.reverse.map value))
  | hex : x = byte 'x' ∨ x = byte 'X' → digits ≠ [] → (∀ d ∈ digits, isHex d = true) →
      Numeral (byte '0' :: x :: digits) (Nat.ofDigits 16 (digits.reverse.map value))

def FloatMark (mark : List UInt8) : Prop := mark = [] ∨ mark = [byte 'f'] ∨ mark = [byte 'F']

inductive FloatNumeral : List UInt8 → ℚ → Prop where
  | marked : whole ≠ [] → (∀ d ∈ whole, Bytes.isDigit d = true) → mark ≠ [] → FloatMark mark →
      FloatNumeral (whole ++ mark) (Nat.ofDigits 10 (whole.reverse.map value) : Nat)
  | pointed : whole ≠ [] → (∀ d ∈ whole, Bytes.isDigit d = true) →
      (∀ d ∈ places, Bytes.isDigit d = true) → FloatMark mark →
      FloatNumeral (whole ++ byte '.' :: (places ++ mark))
        ((Nat.ofDigits 10 (whole.reverse.map value) : Nat) +
          (Nat.ofDigits 10 (places.reverse.map value) : Nat) / 10 ^ places.length)

theorem decimal?_eq {digits : List UInt8} (nonempty : digits ≠ [])
    (all : ∀ d ∈ digits, Bytes.isDigit d = true) : decimal? digits = some (toNat 10 digits) := by
  simp [decimal?, List.all_eq_true.mpr all, nonempty]

theorem minus_isPrefixOf {digits : List UInt8} (all : ∀ d ∈ digits, isHex d = true) :
    minus.isPrefixOf digits = false := by
  cases digits with
  | nil => rfl
  | cons d rest =>
      rw [Bool.eq_false_iff]
      intro fits
      have same : d = byte '-' := by
        obtain ⟨more, whole⟩ := List.isPrefixOf_iff_prefix.mp fits
        exact (List.cons.inj whole).1.symm
      have digit := all d List.mem_cons_self
      rw [same] at digit
      cases digit

theorem isHex_of_isDigit {d : UInt8} (digit : Bytes.isDigit d = true) : isHex d = true := by
  simp [isHex, digit]

theorem based_numeral {text : List UInt8} {n : Nat} (spelled : Numeral text n) :
    ∃ base digits, based text = (base, digits) ∧ read? base digits = some n ∧
      minus.isPrefixOf text = false ∧ minus.isPrefixOf digits = false := by
  cases spelled with
  | @decimal digits nonempty all =>
      have unsigned := minus_isPrefixOf fun d present => isHex_of_isDigit (all d present)
      refine ⟨10, text, ?_, ?_, unsigned, unsigned⟩
      · unfold based
        split
        · rename_i c x d rest
          have digit := all x (by simp)
          rw [if_neg]
          rintro ⟨-, rfl | rfl⟩
          · cases digit
          · cases digit
        · rfl
      · rw [← toNat_eq_ofDigits]
        exact decimal?_eq nonempty all
  | @hex x digits mark nonempty all =>
      cases digits with
      | nil => exact (nonempty rfl).elim
      | cons d rest =>
          refine ⟨16, d :: rest, if_pos ⟨rfl, mark⟩, ?_, rfl, minus_isPrefixOf all⟩
          rw [← toNat_eq_ofDigits, read?, if_pos rfl, hex?, List.all_eq_true.mpr all]
          rfl

section Words
variable {base n : Nat} {digits text : List UInt8}

theorem dropMinus_minus (text : List UInt8) : dropMinus (minus ++ text) = text := by
  rw [dropMinus, Bytes.stripStart?_iff.mpr rfl, Option.getD_some]

theorem stripStart?_plain (plain : minus.isPrefixOf text = false) :
    Bytes.stripStart? minus text = none := by
  rw [Bytes.stripStart?, plain]
  rfl

theorem dropMinus_plain (plain : minus.isPrefixOf text = false) : dropMinus text = text := by
  rw [dropMinus, stripStart?_plain plain, Option.getD_none]

theorem signed32?_minus (read : read? base digits = some n) :
    signed32? base (minus ++ digits) =
      if n ≤ 2 ^ 31 then some (Int32.ofInt (-(n : Int))) else none := by
  rw [signed32?, Bytes.stripStart?_iff.mpr rfl]
  dsimp only
  rw [read]
  rfl

theorem signed32?_plain (read : read? base digits = some n)
    (plain : minus.isPrefixOf digits = false) :
    signed32? base digits = if n < 2 ^ 31 then some (Int32.ofNat n) else none := by
  rw [signed32?, stripStart?_plain plain]
  dsimp only
  rw [read]
  rfl

theorem unsigned32?_eq (read : read? base digits = some n) :
    unsigned32? base digits = if n < 2 ^ 32 then some (UInt32.ofNat n) else none := by
  rw [unsigned32?, read]
  rfl

-- The bits of the unsigned word are those of the signed one, so the second reading goes on where
-- the first one stops.
theorem word32?_plain (spelled : Numeral text n) :
    word32? text = if n < 2 ^ 32 then some (Int32.ofInt n) else none := by
  obtain ⟨base, digits, found, read, plainText, plainDigits⟩ := based_numeral spelled
  have stages : word32? text =
      (signed32? base digits).or ((unsigned32? base digits).map UInt32.toInt32) := by
    simp [word32?, plainText, dropMinus_plain plainText, found, dropMinus_plain plainDigits]
  rw [stages, signed32?_plain read plainDigits, unsigned32?_eq read, Int32.ofInt_eq_ofNat]
  by_cases low : n < 2 ^ 31
  · rw [if_pos low, Option.some_or, if_pos (Nat.lt_trans low (by decide))]
  · rw [if_neg low, Option.none_or]
    split <;> simp [UInt32.toInt32_ofNat']

theorem word32?_minus (spelled : Numeral text n) :
    word32? (minus ++ text) = if n < 2 ^ 32 then some (Int32.ofInt (-(n : Int))) else none := by
  obtain ⟨base, digits, found, read, plainText, plainDigits⟩ := based_numeral spelled
  have marked : minus.isPrefixOf (minus ++ text) = true :=
    List.isPrefixOf_iff_prefix.mpr (List.prefix_append minus text)
  have stages : word32? (minus ++ text) = (signed32? base (minus ++ digits)).or
      ((unsigned32? base digits).map fun u => -u.toInt32) := by
    simp [word32?, marked, dropMinus_minus, found]
  rw [stages, signed32?_minus read, unsigned32?_eq read]
  by_cases low : n ≤ 2 ^ 31
  · rw [if_pos low, Option.some_or, if_pos (Nat.lt_of_le_of_lt low (by decide))]
  · rw [if_neg low, Option.none_or, Int32.ofInt_neg, Int32.ofInt_eq_ofNat]
    split <;> simp [UInt32.toInt32_ofNat']

end Words

end Digits

namespace Binary32
open Digits

section Read
variable {whole places mark : List UInt8} (negative : Bool)

theorem trimEnd_mark {front : List UInt8} (nonempty : front ≠ [])
    (all : ∀ b ∈ front, Bytes.isDigit b = true ∨ b = byte '.') (marked : FloatMark mark) :
    Bytes.trimEnd (fun c => c == byte 'f' || c == byte 'F') (front ++ mark) = front := by
  have kept : ∀ b, front.getLast? = some b → (b == byte 'f' || b == byte 'F') = false := by
    intro b last
    have spelled := all b (List.mem_of_getLast? last)
    rw [Bool.or_eq_false_iff, beq_eq_false_iff_ne, beq_eq_false_iff_ne]
    constructor
    · rintro rfl
      exact absurd spelled (by decide)
    · rintro rfl
      exact absurd spelled (by decide)
  rw [Bytes.trimEnd_append nonempty kept]
  rcases marked with rfl | rfl | rfl <;> exact List.append_nil front

variable (nonempty : whole ≠ []) (digits : ∀ d ∈ whole, Bytes.isDigit d = true)
  (marked : FloatMark mark)
include nonempty digits marked

theorem ofText?_whole :
    ofText? negative (whole ++ mark) = nearest? negative (toNat 10 whole) 1 := by
  have front := trimEnd_mark nonempty (fun b present => .inl (digits b present)) marked
  have taken : whole.takeWhile Bytes.isDigit = whole := List.takeWhile_eq_self_iff.mpr digits
  have dropped : whole.dropWhile Bytes.isDigit = [] := List.dropWhile_eq_nil_iff.mpr digits
  unfold ofText?
  rw [front]
  dsimp only
  rw [taken, dropped]
  dsimp only
  rw [decimal?_eq nonempty digits]
  exact Option.bind_some ..

theorem ofText?_pointed (fraction : ∀ d ∈ places, Bytes.isDigit d = true) :
    ofText? negative (whole ++ byte '.' :: (places ++ mark)) =
      nearest? negative (toNat 10 (whole ++ places)) (Nat.pow 10 places.length) := by
  have pieces : whole ++ byte '.' :: (places ++ mark) = (whole ++ byte '.' :: places) ++ mark := by
    rw [List.append_assoc, List.cons_append]
  have spelled : ∀ b ∈ whole ++ byte '.' :: places, Bytes.isDigit b = true ∨ b = byte '.' := by
    intro b present
    rcases List.mem_append.mp present with first | later
    · exact .inl (digits b first)
    · rcases List.mem_cons.mp later with point | place
      · exact .inr point
      · exact .inl (fraction b place)
  have front := trimEnd_mark (by simp) spelled marked
  obtain ⟨taken, dropped⟩ := Bytes.digits_cut digits (c := byte '.') (by decide) places
  have all : ∀ d ∈ whole ++ places, Bytes.isDigit d = true := by
    intro d present
    exact (List.mem_append.mp present).elim (digits d) (fraction d)
  have some : whole ++ places ≠ [] := List.append_ne_nil_of_left_ne_nil nonempty places
  unfold ofText?
  rw [pieces, front]
  dsimp only
  rw [taken, dropped]
  dsimp only
  rw [if_pos rfl, decimal?_eq some all]
  exact Option.bind_some ..

end Read

variable {text : List UInt8} {x : ℚ} (spelled : FloatNumeral text x)
include spelled

-- The places count as digits of one whole number over a power of ten.
theorem ofText?_eq_nearest? : ∃ num den : Nat, 0 < den ∧ x = num / den ∧
    ∀ negative, ofText? negative text = nearest? negative num den := by
  cases spelled with
  | @marked whole mark nonempty digits _ marked =>
      refine ⟨toNat 10 whole, 1, by decide, ?_, fun negative => ?_⟩
      · rw [toNat_eq_ofDigits, Nat.cast_one, div_one]
      · exact ofText?_whole negative nonempty digits marked
  | @pointed whole places mark nonempty digits fraction marked =>
      have scale : ((10 ^ places.length : Nat) : ℚ) ≠ 0 :=
        Nat.cast_ne_zero.mpr (Nat.pow_pos (by decide)).ne'
      refine ⟨toNat 10 (whole ++ places), 10 ^ places.length, Nat.pow_pos (by decide), ?_,
        fun negative => ofText?_pointed negative nonempty digits marked fraction⟩
      rw [← toNat_eq_ofDigits, ← toNat_eq_ofDigits, toNat_append, Nat.cast_add, Nat.cast_mul,
        add_div, mul_div_cancel_right₀ _ scale, Nat.cast_pow, Nat.cast_ofNat]

theorem ofText?_rounds (negative : Bool) (range : InRange x) : ∃ v,
    ofText? negative text = some v ∧ v.negative = negative ∧ Nearest x v := by
  obtain ⟨num, den, positive, rfl, read⟩ := ofText?_eq_nearest? spelled
  obtain ⟨v, found⟩ :=
    Option.isSome_iff_exists.mp ((nearest?_isSome_iff negative positive).mpr range)
  exact ⟨v, (read negative).trans found, nearest?_nearest positive found⟩

theorem ofText?_large (negative : Bool) (large : ¬ InRange x) : ofText? negative text = none := by
  obtain ⟨num, den, positive, rfl, read⟩ := ofText?_eq_nearest? spelled
  rw [read, ← Option.not_isSome_iff_eq_none, nearest?_isSome_iff negative positive]
  exact large

end Binary32

end NwscriptBindings
