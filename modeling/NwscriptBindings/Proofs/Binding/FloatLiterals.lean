import NwscriptBindings.Binding.Value
import NwscriptBindings.Proofs.Grammar.Values
import NwscriptBindings.Proofs.Number.Spelled
import NwscriptBindings.Proofs.Token.Lossless
import NwscriptBindings.Proofs.Token.Relex

namespace NwscriptBindings

-- Digits, a point and one to seven places, with no zero at the end that could go.
structure FloatText (n : Nat) (whole places : List UInt8) : Prop where
  whole_some : whole ≠ []
  whole_digits : ∀ c ∈ whole, Bytes.isDigit c = true
  places_some : 1 ≤ places.length
  places_bound : places.length ≤ 7
  places_digits : ∀ c ∈ places, Bytes.isDigit c = true
  trimmed : places.length = 1 ∨ places.getLast? ≠ some (byte '0')
  value : Digits.toNat 10 (whole ++ places) * 10 ^ (7 - places.length) = n

namespace Binary32

def kept (places : List UInt8) : List UInt8 :=
  if Bytes.trimEnd (· == byte '0') places = [] then [byte '0']
  else Bytes.trimEnd (· == byte '0') places

theorem not_point {c : UInt8} (digit : Bytes.isDigit c = true) : c ≠ byte '.' := by
  intro point
  rw [point] at digit
  exact absurd digit (by decide)

theorem kept_spec {places : List UInt8} (length : places.length = 7)
    (digits : ∀ c ∈ places, Bytes.isDigit c = true) :
    (1 ≤ (kept places).length ∧ (kept places).length ≤ 7) ∧
      (∀ c ∈ kept places, Bytes.isDigit c = true) ∧
      ((kept places).length = 1 ∨ (kept places).getLast? ≠ some (byte '0')) ∧
      Digits.toNat 10 (kept places) * 10 ^ (7 - (kept places).length) = Digits.toNat 10 places := by
  obtain ⟨k, parts⟩ := Bytes.trimEnd_parts (byte '0') places
  have last : (Bytes.trimEnd (· == byte '0') places).getLast? ≠ some (byte '0') := by
    intro zero
    have dropped := Bytes.trimEnd_last _ _ zero
    cases dropped
  unfold kept
  generalize Bytes.trimEnd (· == byte '0') places = front at parts last
  have size := congrArg List.length parts
  rw [length, List.length_append, List.length_replicate] at size
  split
  · rename_i none
    refine ⟨by decide, List.forall_mem_singleton.mpr (by decide), .inl rfl, ?_⟩
    rw [parts, none, List.nil_append, Digits.toNat_zeros]
    rfl
  · rename_i more
    have long := List.length_pos_iff.mpr more
    refine ⟨⟨long, by omega⟩, fun c present => digits c ?_, .inr last, ?_⟩
    · rw [parts]
      exact List.mem_append_left _ present
    · have zeros : 7 - front.length = k := by omega
      rw [parts, Digits.toNat_append, Digits.toNat_zeros, List.length_replicate, zeros,
        Nat.add_zero]

theorem trimEnd_fixed {whole places shown : List UInt8}
    (digits : ∀ c ∈ places, Bytes.isDigit c = true)
    (cut : shown = Bytes.trimEnd (· == byte '0') (whole ++ [byte '.'] ++ places)) :
    shown ++ (if shown.getLast? = some (byte '.') then [byte '0'] else []) =
      whole ++ byte '.' :: kept places := by
  have point : ∀ c, (whole ++ [byte '.']).getLast? = some c → (c == byte '0') = false := by
    intro c last
    rw [List.getLast?_concat] at last
    cases last
    decide
  obtain ⟨k, parts⟩ := Bytes.trimEnd_parts (byte '0') places
  rw [cut, Bytes.trimEnd_append (by simp) point]
  unfold kept
  generalize Bytes.trimEnd (· == byte '0') places = front at parts
  by_cases none : front = []
  · have last : (whole ++ [byte '.'] ++ front).getLast? = some (byte '.') := by
      rw [none, List.append_nil, List.getLast?_concat]
    rw [if_pos last, if_pos none, none]
    simp
  · have last : (whole ++ [byte '.'] ++ front).getLast? ≠ some (byte '.') := by
      rw [List.getLast?_append, List.getLast?_eq_some_getLast none, Option.some_or]
      intro point
      refine not_point (digits (front.getLast none) ?_) (Option.some.inj point)
      rw [parts]
      exact List.mem_append_left _ (List.getLast_mem none)
    rw [if_neg last, if_neg none]
    simp

theorem fixed_eq (v : Binary32) : v.fixed 7 = Bytes.ofNat (v.rounded / 10 ^ 7) ++ [byte '.'] ++
    Digits.padded 7 (v.rounded % 10 ^ 7) := by
  have point : utf8 "." = [byte '.'] := rfl
  simp only [fixed, Nat.pow_eq, point, rounded]

theorem literalText_eq (v : Binary32) : v.literalText = signText v.negative ++
    (Bytes.ofNat (v.rounded / 10 ^ 7) ++ byte '.' ::
      (kept (Digits.padded 7 (v.rounded % 10 ^ 7)) ++ [byte 'f'])) := by
  have zero : utf8 "0" = [byte '0'] := rfl
  have mark : utf8 "f" = [byte 'f'] := rfl
  have cut := congrArg (Bytes.trimEnd (· == byte '0')) v.fixed_eq
  have body := trimEnd_fixed (Digits.padded_digits 7 _) cut
  simp only [literalText, zero, mark, signText]
  rw [List.append_assoc (if v.negative then _ else _), body, List.append_assoc, List.append_assoc,
    List.cons_append]

theorem literalText_floatText (v : Binary32) : ∃ whole places,
    FloatText v.rounded whole places ∧
      v.literalText = signText v.negative ++ (whole ++ byte '.' :: (places ++ [byte 'f'])) := by
  have small : v.rounded % 10 ^ 7 < 10 ^ 7 := Nat.mod_lt _ (by decide)
  have length := Digits.length_padded (by decide) small
  obtain ⟨⟨some, bound⟩, digits, trimmed, value⟩ :=
    kept_spec length (Digits.padded_digits 7 _)
  refine ⟨_, _, ⟨Digits.ofNat_ne_nil _, Digits.ofNat_digits _, some, bound, digits, trimmed, ?_⟩,
    literalText_eq v⟩
  rw [Digits.toNat_padded] at value
  generalize kept (Digits.padded 7 (v.rounded % 10 ^ 7)) = places at some bound value
  have scale : 10 ^ places.length * 10 ^ (7 - places.length) = 10 ^ 7 := by
    rw [← Nat.pow_add, Nat.add_sub_cancel' bound]
  rw [Digits.toNat_append, Digits.toNat_ofNat, Nat.add_mul, Nat.mul_assoc, scale, value]
  exact Nat.div_add_mod' _ _

end Binary32

theorem Scan.lexeme_digit (context : ScanContext) {c : UInt8} (rest : List UInt8)
    (digit : Bytes.isDigit c = true) :
    lexeme context c rest = (.literal (number (c :: rest)).1, (number (c :: rest)).2) := by
  have other : ∀ b, Bytes.isDigit b = false → c ≠ b := by
    intro b plain same
    rw [same, plain] at digit
    cases digit
  rw [lexeme_wordByte (fun hash => (other (byte '#') (by decide) hash).elim) rest
    (wordByte_of_digit digit), if_neg (other (byte '"') (by decide)), if_pos digit]

namespace FloatText

variable {n : Nat} {whole places : List UInt8} (written : FloatText n whole places)
include written

theorem decimal_eq : Scan.decimal (whole ++ byte '.' :: (places ++ [byte 'f'])) =
    (.float (whole ++ byte '.' :: (places ++ [byte 'f'])), []) := by
  have point : Bytes.isDigit (byte '.') = false := by decide
  have mark : Bytes.isDigit (byte 'f') = false := by decide
  obtain ⟨first, behind⟩ :=
    Bytes.digits_cut written.whole_digits point (places ++ [byte 'f'])
  obtain ⟨second, last⟩ := Bytes.digits_cut written.places_digits mark []
  have fraction : Scan.fraction (byte '.' :: (places ++ [byte 'f'])) =
      (byte '.' :: places, [byte 'f']) := by
    rw [Scan.fraction, if_pos rfl, second, last]
  have floatMark : Scan.floatMark [byte 'f'] = ([byte 'f'], []) := rfl
  simp [Scan.decimal, first, behind, fraction, floatMark]

theorem not_hex : ¬ Scan.HexBegins (whole ++ byte '.' :: (places ++ [byte 'f'])) := by
  intro hex
  obtain ⟨x, d, rest, same, mark, _⟩ := hex
  have digits := written.whole_digits
  cases shown : whole with
  | nil => exact written.whole_some shown
  | cons c more =>
      rw [shown] at same digits
      cases more with
      | nil =>
          obtain ⟨_, rest⟩ := List.cons.inj same
          obtain ⟨rfl, _⟩ := List.cons.inj rest
          exact absurd mark (by decide)
      | cons b more =>
          obtain ⟨_, rest⟩ := List.cons.inj same
          obtain ⟨rfl, _⟩ := List.cons.inj rest
          have digit := digits b (by simp)
          rcases mark with rfl | rfl
          · exact absurd digit (by decide)
          · exact absurd digit (by decide)

theorem tokens_eq {s : Scanner} (start : s.rest = whole ++ byte '.' :: (places ++ [byte 'f'])) :
    ∃ t, s.tokens = [t] ∧
      t.lexeme = .literal (.float (whole ++ byte '.' :: (places ++ [byte 'f']))) := by
  have number : Scan.number (whole ++ byte '.' :: (places ++ [byte 'f'])) = _ :=
    (Scan.number_decimal written.not_hex).trans written.decimal_eq
  obtain ⟨c, more, shown⟩ := List.exists_cons_of_ne_nil written.whole_some
  have digit : Bytes.isDigit c = true := written.whole_digits c (by simp [shown])
  have begins : s.rest = c :: (more ++ byte '.' :: (places ++ [byte 'f'])) := by
    rw [start, shown, List.cons_append]
  have read := Scan.lexeme_digit s.context (more ++ byte '.' :: (places ++ [byte 'f'])) digit
  rw [← begins, start, number] at read
  obtain ⟨t, after, tokens, same, ended, _⟩ := Scanner.tokens_of_lexeme begins read
  exact ⟨t, by rw [tokens, Scanner.tokens_of_empty ended], same⟩

theorem tokenize_eq (negative : Bool) : ∃ ts t,
    tokenize (signText negative ++ (whole ++ byte '.' :: (places ++ [byte 'f']))) = ts ++ [t] ∧
      t.lexeme = .literal (.float (whole ++ byte '.' :: (places ++ [byte 'f']))) ∧
      (negative = true → Parser.Terminal (.operator .minus) ts) ∧ (negative = false → ts = []) := by
  cases negative with
  | false =>
      obtain ⟨t, tokens, same⟩ := written.tokens_eq (s := { rest := _ }) rfl
      exact ⟨[], t, tokens, same, nofun, fun _ => rfl⟩
  | true =>
      have minus := Scan.lexeme_operator {} (whole ++ byte '.' :: (places ++ [byte 'f']))
        (o := .minus) nofun
      let s : Scanner := { rest := byte '-' :: (whole ++ byte '.' :: (places ++ [byte 'f'])) }
      obtain ⟨m, after, tokens, sign, left, _⟩ := Scanner.tokens_of_lexeme (s := s) rfl minus
      obtain ⟨t, rest, same⟩ := written.tokens_eq left
      refine ⟨[m], t, ?_, same, fun _ => Parser.terminal_of_token [] (by simp) sign rfl, nofun⟩
      rw [rest] at tokens
      exact tokens

-- Trailing zeros that are not written change neither term of the quotient but by one factor.
theorem ofText?_eq (negative : Bool) :
    Binary32.ofText? negative (whole ++ byte '.' :: (places ++ [byte 'f'])) =
      Binary32.nearest? negative n (10 ^ 7) := by
  have scale : 10 ^ places.length * 10 ^ (7 - places.length) = 10 ^ 7 := by
    rw [← Nat.pow_add, Nat.add_sub_cancel' written.places_bound]
  have scaled := Binary32.nearest?_mul negative (Digits.toNat 10 (whole ++ places))
    (10 ^ places.length) (Nat.pow_pos (by decide) : 0 < 10 ^ (7 - places.length))
  rw [written.value, scale] at scaled
  rw [Binary32.ofText?_pointed negative written.whole_some written.whole_digits (.inr (.inl rfl))
    written.places_digits, Nat.pow_eq]
  exact scaled.symm

theorem numberRule {negative : Bool} {w : Binary32}
    (read : Binary32.nearest? negative n (10 ^ 7) = some w) :
    Grammar.NumberRule
      (.float w (signText negative ++ (whole ++ byte '.' :: (places ++ [byte 'f']))))
      (tokenize (signText negative ++ (whole ++ byte '.' :: (places ++ [byte 'f'])))) := by
  obtain ⟨ts, t, tokens, same, minus, plain⟩ := written.tokenize_eq negative
  have mark : Parser.Terminal
      (.literal (.float (whole ++ byte '.' :: (places ++ [byte 'f'])))) [t] :=
    Parser.terminal_of_token [] (by simp) same rfl
  have valued : Parser.numberLiteral negative
      (.float (whole ++ byte '.' :: (places ++ [byte 'f']))) =
        some (.float w (signText negative ++ (whole ++ byte '.' :: (places ++ [byte 'f'])))) := by
    rw [Parser.numberLiteral, written.ofText?_eq, read, Option.map_some]
  rw [tokens]
  cases negative with
  | false =>
      rw [plain rfl]
      exact .plain mark valued
  | true => exact .negative (minus rfl) mark valued

end FloatText

theorem literalOf?_of_rule {l : Literal} {ts : List Token} (derived : Grammar.LiteralRule l ts) :
    literalOf? ts = some ⟨l, Grammar.ownTokens ts⟩ := by
  have read : Parser.Reads (Parser.traced Parser.literal) ⟨l, Grammar.ownTokens ts⟩ ts [] :=
    Parser.reads_traced_iff.mpr ⟨Parser.reads_literal_iff.mpr derived, rfl⟩
  rw [Parser.Reads, List.append_nil] at read
  rw [literalOf?, read]
  simp

namespace Binary32

theorem literalText_congr {v w : Binary32} (sign : w.negative = v.negative)
    (same : w.rounded = v.rounded) : w.literalText = v.literalText := by
  rw [literalText_eq, literalText_eq, sign, same]

theorem literalText_stable (v : Binary32) :
    (∃ whole places n, v.literalText =
        signText v.negative ++ (whole ++ byte '.' :: (places ++ [byte 'f'])) ∧
      FloatText n whole places ∧ Closest 7 (v.units / one) n) ∧
    ∃ w own, literalOf? (tokenize v.literalText) = some ⟨.float w v.literalText, own⟩ ∧
      w.literalText = v.literalText ∧ (one ≤ v.units ∨ v.units = 0 → w = v) := by
  obtain ⟨whole, places, written, text⟩ := v.literalText_floatText
  obtain ⟨w, read, sign, same, kept⟩ := v.reread
  have literal := literalOf?_of_rule (.number (written.numberRule read))
  rw [← text] at literal
  have closest := Digits.roundDiv_closest v.units one 7 one_pos
  exact ⟨⟨whole, places, v.rounded, text, written, closest⟩,
    w, _, literal, literalText_congr sign same, kept⟩

end Binary32

end NwscriptBindings
