import NwscriptBindings.Proofs.Text.Encoding
import NwscriptBindings.Proofs.Token.Closing

namespace NwscriptBindings

-- The texts that a lexeme is made with. A keyword, a separator and an operator hold none.
def Lexeme.texts : Lexeme → List (List UInt8)
  | directive text | comment (.line text) | comment (.block text _) | word text => [text]
  | literal (.int text) | literal (.float text) | literal (.string text _) => [text]
  | separator _ | operator _ | keyword _ => []

namespace Scan

open Utf8

-- What is well formed in front of a lexeme is well formed in it and behind it.
structure Whole (l : Lexeme) (left : List UInt8) : Prop where
  raw : isValid l.raw = true
  texts : ∀ text ∈ l.texts, isValid text = true
  left : isValid left = true

theorem boundary_dropWhile {keep : UInt8 → Bool} (ascii : ∀ b, keep b = false → b < 0x80)
    (text : List UInt8) : Boundary (text.dropWhile keep) := by
  cases behind : text.dropWhile keep with
  | nil => simp [Boundary]
  | cons b rest =>
      have stops := List.head?_dropWhile_not keep text
      rw [behind] at stops
      exact boundary_ascii (ascii b stops) rest

theorem valid_takeWhile {keep : UInt8 → Bool} (ascii : ∀ b, keep b = false → b < 0x80)
    {text : List UInt8} (valid : isValid text = true) :
    isValid (text.takeWhile keep) = true ∧ isValid (text.dropWhile keep) = true := by
  rw [← List.takeWhile_append_dropWhile (p := keep) (l := text)] at valid
  exact isValid_cut valid (boundary_dropWhile ascii text)

theorem lineByte_ascii (b : UInt8) (ends : (b != Bytes.newline) = false) : b < 0x80 := by
  rw [bne_eq_false_iff_eq] at ends
  subst ends
  decide

theorem wordByte_ascii (b : UInt8) (ends : isWordByte b = false) : b < 0x80 := by
  by_cases found : (Separator.ofByte? b).isSome
  · obtain ⟨s, found⟩ := Option.isSome_iff_exists.mp found
    rw [separator_byte found]
    cases s <;> decide
  · have other : (Operator.ofByte? b).isSome := by
      simpa [isWordByte, Option.not_isSome_iff_eq_none.mp found] using ends
    obtain ⟨o, found⟩ := Option.isSome_iff_exists.mp other
    rw [operator_byte found]
    cases o <;> decide

theorem hex_ascii (b : UInt8) (hex : Digits.isHex b = true) : b < 0x80 := by
  simp only [Digits.isHex, Bytes.isDigit, Bool.or_eq_true, Bool.and_eq_true,
    decide_eq_true_eq] at hex
  rcases hex with (digit | lower) | upper
  · exact Nat.lt_of_le_of_lt digit.2 (by decide)
  · exact Nat.lt_of_le_of_lt lower.2 (by decide)
  · exact Nat.lt_of_le_of_lt upper.2 (by decide)

theorem whole_byte {c : UInt8} {rest : List UInt8} {l : Lexeme} (ascii : c < 0x80)
    (raw : l.raw = [c]) (none : l.texts = []) (valid : isValid (c :: rest) = true) :
    Whole l rest := by
  rw [isValid_cons ascii] at valid
  refine ⟨?_, by simp [none], valid⟩
  rw [raw]
  exact isValid_ascii (List.forall_mem_singleton.mpr ascii)

theorem valid_cut {mark : String} {cut : Cut} {text : List UInt8}
    (ascii : ∀ b ∈ utf8 mark, b < 0x80) (marked : utf8 mark ≠ []) (valid : isValid text = true)
    (parts : cut.inside ++ closingMark mark cut.closed ++ cut.rest = text)
    (opened : cut.closed = false → cut.rest = []) :
    isValid cut.inside = true ∧ isValid (closingMark mark cut.closed) = true ∧
      isValid cut.rest = true := by
  have nothing : isValid [] = true := isValid_ascii (by simp)
  subst parts
  cases closed : cut.closed with
  | false =>
      rw [closed, opened closed] at valid
      rw [opened closed]
      simpa [closingMark, nothing] using valid
  | true =>
      rw [closed, closingMark, List.append_assoc] at valid
      have boundary : Boundary (utf8 mark ++ cut.rest) := by
        cases shown : utf8 mark with
        | nil => exact (marked shown).elim
        | cons b more => exact boundary_ascii (ascii b (by simp [shown])) _
      obtain ⟨inside, behind⟩ := isValid_cut valid boundary
      rw [isValid_append (isValid_ascii ascii)] at behind
      exact ⟨inside, isValid_ascii ascii, behind⟩

theorem whole_cut {opening mark : String} {cut : Cut} {l : Lexeme}
    (raw : l.raw = utf8 opening ++ cut.inside ++ closingMark mark cut.closed)
    (texts : l.texts = [cut.inside]) (ascii : ∀ b ∈ utf8 opening, b < 0x80)
    (pieces : isValid cut.inside = true ∧ isValid (closingMark mark cut.closed) = true ∧
      isValid cut.rest = true) : Whole l cut.rest := by
  obtain ⟨inside, closing, behind⟩ := pieces
  refine ⟨?_, by simpa [texts] using inside, behind⟩
  rw [raw, List.append_assoc, isValid_append (isValid_ascii ascii), isValid_append inside]
  exact closing

theorem Takes.whole {context : ScanContext} {c : UInt8} {rest left : List UInt8} {l : Lexeme}
    (takes : Takes context c rest l left) (valid : isValid (c :: rest) = true) : Whole l left := by
  cases takes with
  | directive hash _ =>
      have ascii : c < 0x80 := by
        rw [hash]
        decide
      rw [isValid_cons ascii] at valid
      obtain ⟨line, behind⟩ := valid_takeWhile lineByte_ascii valid
      have whole := (isValid_cons ascii _).trans line
      exact ⟨whole, List.forall_mem_singleton.mpr whole, behind⟩
  | @line more slash next =>
      rw [slash, next, isValid_cons (by decide), isValid_cons (by decide)] at valid
      obtain ⟨line, behind⟩ := valid_takeWhile lineByte_ascii valid
      refine ⟨?_, List.forall_mem_singleton.mpr line, behind⟩
      exact (isValid_append (isValid_ascii (by decide +kernel)) _).trans line
  | @block more slash next =>
      rw [slash, next, isValid_cons (by decide), isValid_cons (by decide)] at valid
      exact whole_cut rfl rfl (by decide +kernel) (valid_cut (by decide +kernel) (by decide) valid
        (commentCut_parts more) (commentCut_open more))
  | @separator s same =>
      refine whole_byte ?_ (congrArg (fun b => [b]) same.symm) rfl valid
      rw [same]
      cases s <;> decide
  | @operator o same _ =>
      refine whole_byte ?_ (congrArg (fun b => [b]) same.symm) rfl valid
      rw [same]
      cases o <;> decide
  | string quote =>
      rw [quote, isValid_cons (by decide)] at valid
      exact whole_cut rfl rfl (by decide +kernel) (valid_cut (by decide +kernel) (by decide) valid
        (stringCut_parts rest) (stringCut_open rest))
  | number digit =>
      have ascii : ∀ b ∈ (Scan.number (c :: rest)).1.raw, b < 0x80 :=
        number_forall hex_ascii (by decide +kernel) (c :: rest)
      have whole := isValid_ascii ascii
      rw [← number_parts (c :: rest), isValid_append whole] at valid
      refine ⟨whole, ?_, valid⟩
      have plain := number_kind (c :: rest)
      cases shown : (Scan.number (c :: rest)).1 with
      | int text =>
          rw [shown] at whole
          exact List.forall_mem_singleton.mpr whole
      | float text =>
          rw [shown] at whole
          exact List.forall_mem_singleton.mpr whole
      | string body closed =>
          rw [shown] at plain
          exact (plain rfl).elim
  | word held _ _ _ =>
      obtain ⟨whole, behind⟩ := valid_takeWhile wordByte_ascii valid
      rw [List.takeWhile_cons_of_pos held] at whole
      rw [List.dropWhile_cons_of_pos held] at behind
      refine ⟨by rwa [raw_wordLexeme], ?_, behind⟩
      rcases wordLexeme_cases context (c :: rest.takeWhile isWordByte)
        (rest.dropWhile isWordByte) with ⟨k, shown, _⟩ | shown
      · simp [shown, Lexeme.texts]
      · rw [shown]
        exact List.forall_mem_singleton.mpr whole

end Scan

namespace Scanner

open Utf8

theorem next?_whole {s after : Scanner} {t : Token} (found : s.next? = some (t, after))
    (valid : isValid s.rest = true) : Scan.Whole t.lexeme after.rest := by
  obtain ⟨c, rest, start, takes⟩ := next?_takes found
  rw [start] at valid
  exact takes.whole valid

-- The invariant of a run: what is left to read is well formed.
theorem run_whole {s after : Scanner} {ts : List Token} (path : Run s ts after)
    (valid : isValid s.rest = true) :
    (∀ t ∈ ts, isValid t.raw = true ∧ ∀ text ∈ t.lexeme.texts, isValid text = true) ∧
      decode s.rest = ts.flatMap (decode ·.raw) ++ decode after.rest := by
  induction path with
  | stop => simp
  | step found _ ih =>
      have whole := next?_whole found valid
      obtain ⟨_, parts⟩ := next?_parts _ _ _ found
      obtain ⟨each, later⟩ := ih whole.left
      refine ⟨List.forall_mem_cons.mpr ⟨⟨whole.raw, whole.texts⟩, each⟩, ?_⟩
      rw [← parts, Token.raw, decode_append whole.raw, later, List.flatMap_cons, List.append_assoc]
      rfl

theorem tokenize_characters {text : List UInt8} (valid : isValid text = true) :
    (∀ t ∈ tokenize text, isValid t.raw = true ∧
      ∀ held ∈ t.lexeme.texts, isValid held = true) ∧
      (tokenize text).flatMap (decode ·.raw) = decode text := by
  obtain ⟨last, path, ended⟩ := run_tokens { rest := text }
  obtain ⟨each, read⟩ := run_whole path valid
  rw [(next?_none_iff last).mp ended, decode, List.append_nil] at read
  exact ⟨each, read.symm⟩

-- The backslash passes over the first byte of a character of two.
theorem tokenize_characters_escaped :
    let text := utf8 "é=\"\\é\""
    isValid text = true ∧ (tokenize text).map Token.raw = [utf8 "é", utf8 "=", utf8 "\"\\é\""] ∧
      ∀ t ∈ tokenize text, isValid t.raw = true := by
  intro text
  have valid : isValid text = true := by decide +kernel
  exact ⟨valid, by decide +kernel, fun t present => ((tokenize_characters valid).1 t present).1⟩

end Scanner
end NwscriptBindings
