import NwscriptBindings.Proofs.Grammar.Values
import NwscriptBindings.Proofs.Number.Spelled
import NwscriptBindings.Proofs.Token.Closing

namespace NwscriptBindings

open Digits

namespace Scan

inductive Numeric : RawLiteral → Prop where
  | int : Numeral text n → Numeric (.int text)
  | float : FloatNumeral text x → Numeric (.float text)

theorem fraction_cases (text : List UInt8) : (fraction text).1 = [] ∨
    ∃ places, (fraction text).1 = byte '.' :: places ∧ ∀ d ∈ places, Bytes.isDigit d = true := by
  unfold fraction
  split
  · exact .inl rfl
  · split
    · rename_i c rest point
      exact .inr ⟨_, by rw [point], List.all_eq_true.mp List.all_takeWhile⟩
    · exact .inl rfl

theorem floatMark_cases (text : List UInt8) : FloatMark (floatMark text).1 := by
  unfold floatMark
  split
  · exact .inl rfl
  · split
    · rename_i c rest mark
      rcases mark with rfl | rfl
      · exact .inr (.inl rfl)
      · exact .inr (.inr rfl)
    · exact .inl rfl

theorem decimal_numeric {c : UInt8} (digit : Bytes.isDigit c = true) (rest : List UInt8) :
    Numeric (decimal (c :: rest)).1 := by
  have nonempty : (c :: rest).takeWhile Bytes.isDigit ≠ [] := by
    rw [List.takeWhile_cons_of_pos digit]
    exact List.cons_ne_nil _ _
  have digits : ∀ d ∈ (c :: rest).takeWhile Bytes.isDigit, Bytes.isDigit d = true :=
    List.all_eq_true.mp List.all_takeWhile
  have marked := floatMark_cases (fraction ((c :: rest).dropWhile Bytes.isDigit)).2
  simp only [decimal]
  generalize (floatMark (fraction ((c :: rest).dropWhile Bytes.isDigit)).2).1 = mark at marked ⊢
  rcases fraction_cases ((c :: rest).dropWhile Bytes.isDigit) with none | ⟨places, point, fraction⟩
  · rw [none]
    by_cases plain : mark = []
    · rw [plain]
      simpa using Numeric.int (.decimal nonempty digits)
    · simpa [plain] using Numeric.float (.marked nonempty digits plain marked)
  · rw [point]
    simpa using Numeric.float (.pointed nonempty digits fraction marked)

theorem number_numeric {c : UInt8} (digit : Bytes.isDigit c = true) (rest : List UInt8) :
    Numeric (number (c :: rest)).1 := by
  by_cases hex : HexBegins (c :: rest)
  · obtain ⟨x, d, more, same, mark, first⟩ := hex
    have shown : (number (byte '0' :: x :: d :: more)).1 =
        .int (byte '0' :: x :: d :: more.takeWhile isHex) := by
      simp [number, mark, first]
    rw [same, shown]
    refine .int (.hex mark (List.cons_ne_nil _ _) fun b present => ?_)
    rcases List.mem_cons.mp present with rfl | later
    · exact first
    · exact List.all_eq_true.mp List.all_takeWhile b later
  · rw [number_decimal hex]
    exact decimal_numeric digit rest

end Scan

theorem Scanner.tokenize_numeric {text : List UInt8} {t : Token} {l : RawLiteral}
    (present : t ∈ tokenize text) (same : t.lexeme = .literal l) (other : l.kind ≠ .string) :
    Scan.Numeric l := by
  obtain ⟨before, more, parts⟩ := List.append_of_mem present
  obtain ⟨here, behind, _, _, found, _⟩ := tokenize_step parts
  obtain ⟨c, rest, _, takes⟩ := next?_takes found
  rw [same] at takes
  rcases Scan.takes_literal takes with ⟨_, rfl, _⟩ | ⟨digit, rfl, _⟩
  · exact (other rfl).elim
  · exact Scan.number_numeric digit rest

def signed (negative : Bool) (n : Nat) : Int := if negative then -(n : Int) else n

section Words
variable {text : List UInt8} {n : Nat}

theorem intValue?_eq (spelled : Numeral text n) (negative : Bool) :
    intValue? negative text =
      if n < 2 ^ 32 then some (Int32.ofInt (signed negative n)) else none := by
  cases negative with
  | false => exact word32?_plain spelled
  | true => exact word32?_minus spelled

theorem intValue?_small (spelled : Numeral text n) (negative : Bool) (small : n < 2 ^ 32) :
    ∃ v, intValue? negative text = some v ∧ (2 ^ 32 : Int) ∣ v.toInt - signed negative n := by
  refine ⟨Int32.ofInt (signed negative n), ?_, ?_⟩
  · rw [intValue?_eq spelled, if_pos small]
  · rw [Int32.toInt_ofInt]
    exact Int.dvd_bmod_sub_self

theorem intValue?_large (spelled : Numeral text n) (negative : Bool) (large : ¬ n < 2 ^ 32) :
    intValue? negative text = none := by
  rw [intValue?_eq spelled, if_neg large]

theorem toInt_eq_of_dvd {v : Int32} {z : Int} (congruent : (2 ^ 32 : Int) ∣ v.toInt - z)
    (low : -2 ^ 31 ≤ z) (high : z < 2 ^ 31) : v.toInt = z := by
  obtain ⟨k, apart⟩ := congruent
  have above := v.le_toInt
  have below := v.toInt_lt
  omega

end Words

namespace Parser

inductive Sign : Bool → List Token → Prop where
  | none : (∀ g ∈ gap, g.isTrivia = true) → Sign false gap
  | minus : Terminal (.operator .minus) us → (∀ g ∈ gap, g.isTrivia = true) → Sign true (us ++ gap)

section Number
variable {negative : Bool} {lead rest : List Token} {t : Token} {l : RawLiteral} {v : Literal}

theorem number_accepts (sign : Sign negative lead) (same : t.lexeme = .literal l)
    (valued : numberLiteral negative l = some v) :
    number (lead ++ t :: rest) = .accepted v (lead.length + 1) := by
  have read : Reads number v (lead ++ [t]) rest := by
    rw [reads_number_iff]
    cases sign with
    | none skipped => exact .plain (terminal_of_token _ skipped same rfl) valued
    | minus mark skipped =>
        rw [List.append_assoc]
        exact .negative mark (terminal_of_token _ skipped same rfl) valued
  rwa [Reads, List.append_assoc, List.length_append] at read

theorem unsigned_refuses {ts : List Token} (next : nextLexeme ts = some (.literal l))
    (unvalued : numberLiteral negative l = none) : unsigned negative ts = .declined := by
  refine significant_declines fun u found => ?_
  have shown : u.lexeme = .literal l := by
    rw [next] at found
    exact (Option.some.inj found).symm
  rw [shown]
  dsimp only
  rw [unvalued]
  rfl

theorem number_refuses (sign : Sign negative lead) (same : t.lexeme = .literal l)
    (unvalued : numberLiteral negative l = none) : number (lead ++ t :: rest) = .declined := by
  have next : ∀ {gap : List Token}, (∀ g ∈ gap, g.isTrivia = true) →
      nextLexeme (gap ++ t :: rest) = some (.literal l) := by
    intro gap skipped
    rw [List.append_cons]
    exact nextLexeme_append (terminal_of_token gap skipped same rfl).begins
  cases sign with
  | none skipped =>
      have shown := next skipped
      refine choice_declines (bind_declines (lexeme_declines ?_)) (unsigned_refuses shown unvalued)
      simp [shown]
  | @minus us gap mark skipped =>
      rw [List.append_assoc]
      have read : Reads (operator .minus) () us (gap ++ t :: rest) := reads_lexeme_iff.mpr mark
      refine choice_declines
        (bind_declines_later read (unsigned_refuses (next skipped) unvalued)) (unsigned_declines ?_)
      simp [nextLexeme_append mark.begins]

end Number

theorem number_denotes {text : List UInt8} {t : Token} (present : t ∈ tokenize text)
    {negative : Bool} {lead : List Token} (sign : Sign negative lead) (rest : List Token) :
    (∀ spelled, t.lexeme = .literal (.int spelled) → (∃ n, Numeral spelled n) ∧
      ∀ n, Numeral spelled n →
        (n < 2 ^ 32 → ∃ v,
          number (lead ++ t :: rest) =
            .accepted (.int v (signText negative ++ t.raw)) (lead.length + 1) ∧
          (2 ^ 32 : Int) ∣ v.toInt - signed negative n ∧
          (-2 ^ 31 ≤ signed negative n → signed negative n < 2 ^ 31 →
            v.toInt = signed negative n)) ∧
        (¬ n < 2 ^ 32 → number (lead ++ t :: rest) = .declined)) ∧
    ∀ spelled, t.lexeme = .literal (.float spelled) → (∃ x, FloatNumeral spelled x) ∧
      ∀ x, FloatNumeral spelled x →
        (Binary32.InRange x → ∃ v,
          number (lead ++ t :: rest) =
            .accepted (.float v (signText negative ++ t.raw)) (lead.length + 1) ∧
          v.negative = negative ∧ v.Nearest x ∧
          ∀ w : Binary32, w.negative = negative → w.Nearest x → w = v) ∧
        (¬ Binary32.InRange x → number (lead ++ t :: rest) = .declined) := by
  constructor
  · intro spelled same
    have raw : t.raw = spelled := by rw [Token.raw, same]; rfl
    refine ⟨?_, fun n numeral => ⟨fun small => ?_, fun large => ?_⟩⟩
    · cases Scanner.tokenize_numeric present same (by simp [RawLiteral.kind]) with
      | int numeral => exact ⟨_, numeral⟩
    · obtain ⟨v, valued, congruent⟩ := intValue?_small numeral negative small
      refine ⟨v, number_accepts sign same ?_, congruent, toInt_eq_of_dvd congruent⟩
      rw [numberLiteral, valued, raw]
      rfl
    · apply number_refuses sign same
      rw [numberLiteral, intValue?_large numeral negative large]
      rfl
  · intro spelled same
    have raw : t.raw = spelled := by rw [Token.raw, same]; rfl
    refine ⟨?_, fun x numeral => ⟨fun range => ?_, fun large => ?_⟩⟩
    · cases Scanner.tokenize_numeric present same (by simp [RawLiteral.kind]) with
      | float numeral => exact ⟨_, numeral⟩
    · obtain ⟨v, valued, sameSign, near⟩ := Binary32.ofText?_rounds numeral negative range
      refine ⟨v, number_accepts sign same ?_, sameSign, near, fun w signW nearW => ?_⟩
      · rw [numberLiteral, valued, raw]
        rfl
      · exact nearW.unique near (signW.trans sameSign.symm)
    · apply number_refuses sign same
      rw [numberLiteral, Binary32.ofText?_large numeral negative large]
      rfl

-- The greatest magnitude, and a whole number half way between two floats.
theorem number_denotes_edges :
    let text := utf8 "-0XffFFffff,16777217."
    let minus : Token := ⟨.operator .minus, ⟨⟨1, 1⟩, ⟨1, 1⟩⟩⟩
    let hex : Token := ⟨.literal (.int (utf8 "0XffFFffff")), ⟨⟨1, 2⟩, ⟨1, 11⟩⟩⟩
    let float : Token := ⟨.literal (.float (utf8 "16777217.")), ⟨⟨1, 13⟩, ⟨1, 21⟩⟩⟩
    hex ∈ tokenize text ∧ float ∈ tokenize text ∧ Sign true [minus] ∧ Sign false [] ∧
      (∃ v, number [minus, hex] = .accepted (.int v (utf8 "-0XffFFffff")) 2 ∧
        (2 ^ 32 : Int) ∣ v.toInt - -4294967295) ∧
      ∃ v, number [float] = .accepted (.float v (utf8 "16777217.")) 1 ∧ v.Nearest 16777217 := by
  intro text minus hex float
  have first : hex ∈ tokenize text := by decide +kernel
  have second : float ∈ tokenize text := by decide +kernel
  have mark : Terminal (.operator .minus) [minus] := terminal_of_token [] (by simp) rfl rfl
  have negative : Sign true [minus] := .minus mark (List.forall_mem_nil _)
  have positive : Sign false [] := .none (List.forall_mem_nil _)
  have magnitude : Numeral (utf8 "0XffFFffff") 4294967295 := by
    have digits : Nat.ofDigits 16 ((utf8 "ffFFffff").reverse.map Digits.value) = 4294967295 := by
      decide +kernel
    rw [← digits]
    exact .hex (.inr rfl) (by decide) (by decide +kernel)
  have whole : FloatNumeral (utf8 "16777217.") 16777217 := by
    have digits : Nat.ofDigits 10 ((utf8 "16777217").reverse.map Digits.value) = 16777217 := by
      decide +kernel
    have read : FloatNumeral (utf8 "16777217" ++ byte '.' :: ([] ++ [])) _ :=
      .pointed (by decide) (by decide +kernel) (by simp) (.inl rfl)
    have spelled : utf8 "16777217" ++ [byte '.'] = utf8 "16777217." := by decide +kernel
    rw [digits] at read
    simpa [spelled] using read
  have range : Binary32.InRange 16777217 := by
    have scaled : Binary32.InRange ((16777217 : Nat) / (1 : Nat)) :=
      (Binary32.inRange_iff (by decide)).mpr (by decide +kernel)
    simpa using scaled
  obtain ⟨_, int⟩ := (number_denotes first negative []).1 _ rfl
  obtain ⟨v, readInt, congruent, _⟩ := (int _ magnitude).1 (by decide)
  obtain ⟨_, rational⟩ := (number_denotes second positive []).2 _ rfl
  obtain ⟨w, readFloat, _, near, _⟩ := (rational _ whole).1 range
  exact ⟨first, second, negative, positive, ⟨v, readInt, congruent⟩, w, readFloat, near⟩

end Parser

end NwscriptBindings
