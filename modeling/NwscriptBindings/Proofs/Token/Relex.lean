import NwscriptBindings.Token.Scan

namespace NwscriptBindings.Scan

section bytes

theorem separator_ofByte? (s : Separator) : Separator.ofByte? (byte s.char) = some s := by
  cases s <;> decide

theorem operator_ofByte? (o : Operator) : Operator.ofByte? (byte o.char) = some o := by
  cases o <;> decide

theorem operator_no_separator (o : Operator) : Separator.ofByte? (byte o.char) = none := by
  cases o <;> decide

theorem separator_byte {c : UInt8} {s : Separator} (found : Separator.ofByte? c = some s) :
    c = byte s.char := by
  have same := List.find?_some found
  exact (eq_of_beq same).symm

theorem operator_byte {c : UInt8} {o : Operator} (found : Operator.ofByte? c = some o) :
    c = byte o.char := by
  have same := List.find?_some found
  exact (eq_of_beq same).symm

theorem wordByte_iff {c : UInt8} : isWordByte c = true ↔
    Separator.ofByte? c = none ∧ Operator.ofByte? c = none := by
  simp [isWordByte]

theorem wordByte_of {holds : UInt8 → Bool} (separators : ∀ s : Separator, holds (byte s.char) = false)
    (operators : ∀ o : Operator, holds (byte o.char) = false) {c : UInt8} (held : holds c = true) :
    isWordByte c = true := by
  rw [wordByte_iff]
  constructor
  · cases found : Separator.ofByte? c with
    | none => rfl
    | some s =>
        rw [separator_byte found, separators s] at held
        cases held
  · cases found : Operator.ofByte? c with
    | none => rfl
    | some o =>
        rw [operator_byte found, operators o] at held
        cases held

theorem wordByte_of_hex {c : UInt8} (hex : Digits.isHex c = true) : isWordByte c = true :=
  wordByte_of (fun s => by cases s <;> decide) (fun o => by cases o <;> decide) hex

theorem wordByte_of_digit {c : UInt8} (digit : Bytes.isDigit c = true) : isWordByte c = true :=
  wordByte_of (fun s => by cases s <;> decide) (fun o => by cases o <;> decide) digit

end bytes

section munching

-- `other` may stand where `rest` stood: a byte that could go on with a word is the old one.
def Follows (rest other : List UInt8) : Prop :=
  ∀ b, other.head? = some b → isWordByte b = true → rest.head? = some b

theorem follows_append {rest other : List UInt8} (piece : List UInt8)
    (follows : Follows rest other) : Follows (piece ++ rest) (piece ++ other) := by
  cases piece with
  | nil => exact follows
  | cons c piece => intro b first _; simpa using first

def Stable (munch : List UInt8 → List UInt8 × List UInt8) : Prop :=
  ∀ text, (munch text).1 ++ (munch text).2 = text ∧
    ∀ other, Follows (munch text).2 other → munch ((munch text).1 ++ other) = ((munch text).1, other)

theorem stable_takeWhile {holds : UInt8 → Bool} (word : ∀ c, holds c = true → isWordByte c = true) :
    Stable fun text => (text.takeWhile holds, text.dropWhile holds) := by
  intro text
  refine ⟨List.takeWhile_append_dropWhile, fun other follows => ?_⟩
  have all := List.all_eq_true.mp (List.all_takeWhile (p := holds) (l := text))
  have stops : other.takeWhile holds = [] ∧ other.dropWhile holds = other := by
    cases other with
    | nil => simp
    | cons b more =>
        cases held : holds b with
        | false => simp [held]
        | true =>
            have same := follows b rfl (word b held)
            have ended := List.head?_dropWhile_not holds text
            rw [same] at ended
            simp [held] at ended
  simp only [List.takeWhile_append_of_pos all, List.dropWhile_append_of_pos all, stops.1, stops.2,
    List.append_nil]

theorem stable_digits : Stable fun text => (text.takeWhile Bytes.isDigit, text.dropWhile Bytes.isDigit) :=
  stable_takeWhile fun _ => wordByte_of_digit

theorem absent_follows {rest other : List UInt8} {mark : UInt8} (word : isWordByte mark = true)
    (follows : Follows rest other) (absent : rest.head? ≠ some mark) : other.head? ≠ some mark :=
  fun present => absent (follows mark present word)

theorem fraction_none {text : List UInt8} (absent : text.head? ≠ some (byte '.')) :
    fraction text = ([], text) := by
  cases text with
  | nil => rfl
  | cons c rest =>
      have other : c ≠ byte '.' := fun same => absent (by simp [same])
      simp [fraction, other]

theorem stable_fraction : Stable fraction := by
  intro text
  refine ⟨fraction_parts text, fun other follows => ?_⟩
  by_cases point : text.head? = some (byte '.')
  · cases text with
    | nil => cases point
    | cons c rest =>
        obtain rfl : c = byte '.' := Option.some.inj point
        have again := (stable_digits rest).2 other (by simpa [fraction] using follows)
        simpa [fraction] using again
  · rw [fraction_none point] at follows ⊢
    exact fraction_none (absent_follows (by decide) follows point)

theorem floatMark_none {text : List UInt8} (lower : text.head? ≠ some (byte 'f'))
    (upper : text.head? ≠ some (byte 'F')) : floatMark text = ([], text) := by
  cases text with
  | nil => rfl
  | cons c rest =>
      have other : ¬ (c = byte 'f' ∨ c = byte 'F') := by
        rintro (rfl | rfl)
        · exact lower rfl
        · exact upper rfl
      simp [floatMark, other]

theorem stable_floatMark : Stable floatMark := by
  intro text
  refine ⟨floatMark_parts text, fun other follows => ?_⟩
  by_cases marked : text.head? = some (byte 'f') ∨ text.head? = some (byte 'F')
  · cases text with
    | nil => simp at marked
    | cons c rest =>
        have mark : c = byte 'f' ∨ c = byte 'F' := by simpa using marked
        simp [floatMark, mark]
  · rw [not_or] at marked
    rw [floatMark_none marked.1 marked.2] at follows ⊢
    exact floatMark_none (absent_follows (by decide) follows marked.1)
      (absent_follows (by decide) follows marked.2)

theorem raw_decimal (text : List UInt8) : (decimal text).1.raw =
    text.takeWhile Bytes.isDigit ++ ((fraction (text.dropWhile Bytes.isDigit)).1 ++
      (floatMark (fraction (text.dropWhile Bytes.isDigit)).2).1) := by
  simp only [decimal]
  split <;> simp [RawLiteral.raw]

-- Each of the three pieces is cut off again in front of the next one.
theorem decimal_again {text other : List UInt8} (follows : Follows (decimal text).2 other) :
    decimal ((decimal text).1.raw ++ other) = ((decimal text).1, other) := by
  obtain ⟨whole, digits⟩ := stable_digits text
  obtain ⟨behind, point⟩ := stable_fraction (text.dropWhile Bytes.isDigit)
  obtain ⟨last, mark⟩ := stable_floatMark (fraction (text.dropWhile Bytes.isDigit)).2
  have third := mark other follows
  have second := point _ (last ▸ follows_append _ follows)
  have first := digits _ (behind ▸ follows_append _ (last ▸ follows_append _ follows))
  simp only [Prod.mk.injEq] at first
  rw [raw_decimal, List.append_assoc, List.append_assoc]
  simp only [decimal, first.1, first.2, second, third]

def HexBegins (text : List UInt8) : Prop :=
  ∃ x d rest, text = byte '0' :: x :: d :: rest ∧ (x = byte 'x' ∨ x = byte 'X') ∧
    Digits.isHex d = true

theorem number_decimal {text : List UInt8} (plain : ¬ HexBegins text) :
    number text = decimal text := by
  unfold number
  split
  · rename_i c x d rest
    rw [if_neg]
    rintro ⟨rfl, mark, hex⟩
    exact plain ⟨x, d, rest, rfl, mark, hex⟩
  · rfl

theorem decimal_zero_mark {x : UInt8} (mark : x = byte 'x' ∨ x = byte 'X') (rest : List UInt8) :
    decimal (byte '0' :: x :: rest) = (.int [byte '0'], x :: rest) := by
  rcases mark with rfl | rfl <;> rfl

theorem number_again (text other : List UInt8) (follows : Follows (number text).2 other)
    (hexed : ∀ x d more, other = x :: d :: more → x = byte 'x' ∨ x = byte 'X' →
      Digits.isHex d = true → ∃ more', (number text).2 = x :: d :: more') :
    number ((number text).1.raw ++ other) = ((number text).1, other) := by
  by_cases hex : HexBegins text
  · obtain ⟨x, d, rest, rfl, mark, digit⟩ := hex
    have again := (stable_takeWhile (fun _ => wordByte_of_hex) rest).2 other
      (by simpa [number, mark, digit] using follows)
    simp only [Prod.mk.injEq] at again
    simp [number, mark, digit, RawLiteral.raw, again]
  · rw [number_decimal hex] at follows hexed ⊢
    have again := decimal_again follows
    rw [number_decimal, again]
    rintro ⟨x, d, more, begins, mark, digit⟩
    rw [begins, decimal_zero_mark mark] at again
    obtain ⟨zero, rfl⟩ := Prod.mk.inj again
    obtain ⟨more', left⟩ := hexed x d more rfl mark digit
    have parts := decimal_parts text
    rw [← zero, left] at parts
    exact hex ⟨x, d, more', parts.symm, mark, digit⟩

end munching

theorem number_forall {holds : UInt8 → Prop} (hexes : ∀ b, Digits.isHex b = true → holds b)
    (marks : ∀ b ∈ [byte '.', byte 'x', byte 'X'], holds b) (text : List UInt8) :
    ∀ b ∈ (number text).1.raw, holds b := by
  have digit : ∀ {b}, Bytes.isDigit b = true → holds b :=
    fun held => hexes _ (by simp [Digits.isHex, held])
  have digits : ∀ {rest : List UInt8} {b}, b ∈ rest.takeWhile Bytes.isDigit → holds b :=
    fun present => digit (List.all_eq_true.mp List.all_takeWhile _ present)
  intro b present
  by_cases hex : HexBegins text
  · obtain ⟨x, d, rest, rfl, mark, first⟩ := hex
    simp only [number, mark, first, and_self, if_true, RawLiteral.raw, List.mem_cons] at present
    rcases present with rfl | rfl | rfl | later
    · exact digit (by decide)
    · exact marks _ (by rcases mark with rfl | rfl <;> decide)
    · exact hexes _ first
    · exact hexes _ (List.all_eq_true.mp List.all_takeWhile _ later)
  · rw [number_decimal hex, raw_decimal, List.mem_append, List.mem_append] at present
    rcases present with whole | part | mark
    · exact digits whole
    · unfold fraction at part
      split at part
      · cases part
      · split at part
        · rename_i point
          rcases List.mem_cons.mp part with rfl | later
          · exact marks _ (by rw [point]; decide)
          · exact digits later
        · cases part
    · unfold floatMark at mark
      split at mark
      · cases mark
      · split at mark
        · rename_i marked
          obtain rfl := List.mem_singleton.mp mark
          exact hexes _ (by rcases marked with rfl | rfl <;> decide)
        · cases mark

theorem number_wordBytes (text : List UInt8) : ∀ b ∈ (number text).1.raw, isWordByte b = true :=
  number_forall (fun _ => wordByte_of_hex) (by decide +kernel) text

theorem stringCut_quote (other : List UInt8) : stringCut (byte '"' :: other) = ⟨[], true, other⟩ := by
  cases other with
  | nil => rfl
  | cons c rest => simp [stringCut]

theorem stringCut_plain {c : UInt8} {text : List UInt8} (notQuote : c ≠ byte '"')
    (notEscape : c ≠ byte '\\') (nonempty : text ≠ []) :
    stringCut (c :: text) = (stringCut text).cons c := by
  cases text with
  | nil => exact (nonempty rfl).elim
  | cons d rest => simp [stringCut, notQuote, notEscape]

-- A closed string does not look behind its quote.
theorem stringCut_again (text other : List UInt8) (closed : (stringCut text).closed = true) :
    stringCut ((stringCut text).inside ++ byte '"' :: other) =
      ⟨(stringCut text).inside, true, other⟩ := by
  fun_induction stringCut text with
  | case1 => cases closed
  | case2 => exact stringCut_quote other
  | case3 c notQuote => cases closed
  | case4 d rest => exact stringCut_quote other
  | case5 d rest notQuote ih =>
      have again := ih closed
      simp only [Cut.cons, List.cons_append, stringCut, notQuote, if_false, if_true, again]
  | case6 c d rest notQuote notEscape ih =>
      have again := ih closed
      simp only [Cut.cons, List.cons_append]
      rw [stringCut_plain notQuote notEscape (by simp), again]
      rfl

theorem stringCut_open (text : List UInt8) (opened : (stringCut text).closed = false) :
    (stringCut text).rest = [] := by
  fun_induction stringCut text with
  | case1 => rfl
  | case2 => cases opened
  | case3 c notQuote => rfl
  | case4 d rest => cases opened
  | case5 d rest notQuote ih => exact ih opened
  | case6 c d rest notQuote notEscape ih => exact ih opened

theorem stringCut_closed {text body left : List UInt8} {closed : Bool}
    (cut : stringCut text = ⟨body, closed, left⟩) (more : left ≠ []) : closed = true := by
  cases closed with
  | true => rfl
  | false =>
      have ended := stringCut_open text (by rw [cut])
      rw [cut] at ended
      exact (more ended).elim

-- The branches of `lexeme` with all that decides between them. The order in which they are tried
-- shows only in what an operator and a word exclude.
inductive Takes (context : ScanContext) (c : UInt8) (rest : List UInt8) :
    Lexeme → List UInt8 → Prop where
  | directive : c = byte '#' → context.lineStart = true →
      Takes context c rest (.directive (c :: rest.takeWhile (· != Bytes.newline)))
        (rest.dropWhile (· != Bytes.newline))
  | line : c = byte '/' → rest = byte '/' :: more →
      Takes context c rest (.comment (.line (more.takeWhile (· != Bytes.newline))))
        (more.dropWhile (· != Bytes.newline))
  | block : c = byte '/' → rest = byte '*' :: more →
      Takes context c rest (.comment (.block (commentCut more).inside (commentCut more).closed))
        (commentCut more).rest
  | separator : c = byte s.char → Takes context c rest (.separator s) rest
  | operator : c = byte o.char →
      (o = .slash → rest.head? ≠ some (byte '/') ∧ rest.head? ≠ some (byte '*')) →
      Takes context c rest (.operator o) rest
  | string : c = byte '"' →
      Takes context c rest (.literal (.string (stringCut rest).inside (stringCut rest).closed))
        (stringCut rest).rest
  | number : Bytes.isDigit c = true →
      Takes context c rest (.literal (number (c :: rest)).1) (number (c :: rest)).2
  | word : isWordByte c = true → c ≠ byte '"' → Bytes.isDigit c = false →
      (c = byte '#' → context.lineStart = false) →
      Takes context c rest
        (wordLexeme context (c :: rest.takeWhile isWordByte) (rest.dropWhile isWordByte))
        (rest.dropWhile isWordByte)

theorem lexeme_takes (context : ScanContext) (c : UInt8) (rest : List UInt8) :
    Takes context c rest (lexeme context c rest).1 (lexeme context c rest).2 := by
  unfold lexeme
  split
  · rename_i hash
    exact .directive hash.1 hash.2
  split
  · rename_i line
    obtain ⟨more, rfl⟩ := List.head?_eq_some_iff.mp line.2
    exact .line line.1 rfl
  split
  · rename_i block
    obtain ⟨more, rfl⟩ := List.head?_eq_some_iff.mp block.2
    exact .block block.1 rfl
  rename_i noHash noLine noBlock
  split
  · rename_i s found
    exact .separator (separator_byte found)
  split
  · rename_i o found
    have same := operator_byte found
    refine .operator same ?_
    intro slash
    subst slash
    exact ⟨fun line => noLine ⟨same, line⟩, fun block => noBlock ⟨same, block⟩⟩
  rename_i _ noSeparator _ noOperator
  split
  · rename_i quote
    exact .string quote
  split
  · rename_i digit
    exact .number digit
  · rename_i notQuote notDigit
    refine .word (wordByte_iff.mpr ⟨noSeparator, noOperator⟩) notQuote (by simpa using notDigit) ?_
    intro hash
    cases first : context.lineStart with
    | false => rfl
    | true => exact (noHash ⟨hash, first⟩).elim

inductive Shape (c : UInt8) (rest left : List UInt8) : Lexeme → Prop where
  | directive : Shape c rest left (.directive text)
  | comment : Shape c rest left (.comment k)
  | separator : c = byte s.char → left = rest → Shape c rest left (.separator s)
  | operator : c = byte o.char → left = rest →
      (o = .slash → rest.head? ≠ some (byte '/') ∧ rest.head? ≠ some (byte '*')) →
      Shape c rest left (.operator o)
  | string : c = byte '"' → stringCut rest = ⟨body, closed, left⟩ →
      Shape c rest left (.literal (.string body closed))
  | number : Bytes.isDigit c = true → number (c :: rest) = (l, left) → Shape c rest left (.literal l)
  | keyword : isWordByte c = true → c ≠ byte '"' → Bytes.isDigit c = false →
      k.spelling = c :: rest.takeWhile isWordByte → left = rest.dropWhile isWordByte →
      Shape c rest left (.keyword k)
  | word : isWordByte c = true → c ≠ byte '"' → Bytes.isDigit c = false →
      text = c :: rest.takeWhile isWordByte → left = rest.dropWhile isWordByte →
      Shape c rest left (.word text)

theorem wordLexeme_cases (context : ScanContext) (word rest : List UInt8) :
    (∃ k, wordLexeme context word rest = .keyword k ∧ k.spelling = word) ∨
      wordLexeme context word rest = .word word := by
  unfold wordLexeme
  split
  · rename_i k found
    split
    · exact .inl ⟨k, rfl, by simpa [Keyword.ofSpelling?] using List.find?_some found⟩
    · exact .inr rfl
  · exact .inr rfl

theorem wordLexeme_ne {context : ScanContext} {word rest : List UInt8} {l : Lexeme}
    (keyword : l.kind ≠ .keyword) (plain : l.kind ≠ .word) : l ≠ wordLexeme context word rest := by
  rintro rfl
  rcases wordLexeme_cases context word rest with ⟨k, shown, _⟩ | shown
  · rw [shown] at keyword
    exact keyword rfl
  · rw [shown] at plain
    exact plain rfl

theorem takes_literal {context : ScanContext} {c : UInt8} {rest left : List UInt8} {l : RawLiteral}
    (takes : Takes context c rest (.literal l) left) :
    c = byte '"' ∧ l = .string (stringCut rest).inside (stringCut rest).closed ∧
        left = (stringCut rest).rest ∨
      Bytes.isDigit c = true ∧ l = (number (c :: rest)).1 ∧ left = (number (c :: rest)).2 := by
  generalize shown : Lexeme.literal l = lexeme at takes
  cases takes with
  | string quote => exact .inl ⟨quote, Lexeme.literal.inj shown, rfl⟩
  | number digit => exact .inr ⟨digit, Lexeme.literal.inj shown, rfl⟩
  | word => exact (wordLexeme_ne (by simp [Lexeme.kind]) (by simp [Lexeme.kind]) shown).elim
  | _ => cases shown

theorem lexeme_shape (context : ScanContext) (c : UInt8) (rest : List UInt8) :
    Shape c rest (lexeme context c rest).2 (lexeme context c rest).1 := by
  have takes := lexeme_takes context c rest
  generalize (lexeme context c rest).1 = l, (lexeme context c rest).2 = left at takes ⊢
  cases takes with
  | directive => exact .directive
  | line => exact .comment
  | block => exact .comment
  | separator same => exact .separator same rfl
  | operator same alone => exact .operator same rfl alone
  | string quote => exact .string quote rfl
  | number digit => exact .number digit rfl
  | word inside notQuote notDigit =>
      rcases wordLexeme_cases context (c :: rest.takeWhile isWordByte)
        (rest.dropWhile isWordByte) with ⟨k, shown, spelled⟩ | shown
      · rw [shown]
        exact .keyword inside notQuote notDigit spelled rfl
      · rw [shown]
        exact .word inside notQuote notDigit rfl rfl

-- What may stand behind a lexeme that `left` stood behind.
def Fits (left other : List UInt8) : Lexeme → Prop
  | .operator _ => ∀ b, b = byte '/' ∨ b = byte '*' → other.head? = some b → left.head? = some b
  | .literal _ => Follows left other ∧ ∀ x d more, other = x :: d :: more →
      x = byte 'x' ∨ x = byte 'X' → Digits.isHex d = true → ∃ more', left = x :: d :: more'
  | .keyword _ | .word _ => ∀ b, other.head? = some b → isWordByte b = false
  | _ => True

theorem lexeme_separator (context : ScanContext) (rest : List UInt8) (s : Separator) :
    lexeme context (byte s.char) rest = (.separator s, rest) := by
  have noHash : byte s.char ≠ byte '#' := by cases s <;> decide
  have noSlash : byte s.char ≠ byte '/' := by cases s <;> decide
  simp [lexeme, noHash, noSlash, separator_ofByte?]

theorem lexeme_operator (context : ScanContext) (rest : List UInt8) {o : Operator}
    (free : o = .slash → rest.head? ≠ some (byte '/') ∧ rest.head? ≠ some (byte '*')) :
    lexeme context (byte o.char) rest = (.operator o, rest) := by
  have noHash : byte o.char ≠ byte '#' := by cases o <;> decide
  by_cases slash : o = .slash
  · subst slash
    have free := free rfl
    simp [lexeme, noHash, free, operator_no_separator, operator_ofByte?]
  · have noSlash : byte o.char ≠ byte '/' := by
      cases o <;> first | exact (slash rfl).elim | decide
    simp [lexeme, noHash, noSlash, operator_no_separator, operator_ofByte?]

theorem lexeme_wordByte {context : ScanContext} {c : UInt8}
    (inLine : c = byte '#' → context.lineStart = false) (rest : List UInt8)
    (word : isWordByte c = true) :
    lexeme context c rest =
    if c = byte '"' then
      (.literal (.string (stringCut rest).inside (stringCut rest).closed), (stringCut rest).rest)
    else if Bytes.isDigit c then (.literal (number (c :: rest)).1, (number (c :: rest)).2)
    else (wordLexeme context (c :: rest.takeWhile isWordByte) (rest.dropWhile isWordByte),
      rest.dropWhile isWordByte) := by
  have other : c ≠ byte '/' := by
    rintro rfl
    exact absurd word (by decide)
  have noHash : ¬ (c = byte '#' ∧ context.lineStart = true) := by
    rintro ⟨hash, first⟩
    rw [inLine hash] at first
    cases first
  obtain ⟨noSeparator, noOperator⟩ := wordByte_iff.mp word
  simp [lexeme, noHash, other, noSeparator, noOperator]

theorem word_again {c : UInt8} {word other : List UInt8} {context : ScanContext}
    (inLine : context.lineStart = false) (first : isWordByte c = true) (notQuote : c ≠ byte '"')
    (notDigit : Bytes.isDigit c = false) (inner : ∀ b ∈ word, isWordByte b = true)
    (ends : ∀ b, other.head? = some b → isWordByte b = false) :
    (lexeme context c (word ++ other)).2 = other ∧
      (lexeme context c (word ++ other)).1.isSpace = false := by
  have stops : other.dropWhile isWordByte = other := by
    cases other with
    | nil => rfl
    | cons b more => simp [ends b rfl]
  rw [lexeme_wordByte (fun _ => inLine) _ first, if_neg notQuote, notDigit]
  simp only [List.dropWhile_append_of_pos inner, stops, Bool.false_eq_true, if_false, true_and]
  rcases wordLexeme_cases context (c :: (word ++ other).takeWhile isWordByte) other with
    ⟨k, shown, _⟩ | shown <;> simp [shown, Lexeme.isSpace]

theorem string_again {rest body left : List UInt8} (context : ScanContext) (other : List UInt8)
    (cut : stringCut rest = ⟨body, true, left⟩) :
    lexeme context (byte '"') (body ++ byte '"' :: other) = (.literal (.string body true), other) := by
  have again := stringCut_again rest other (by rw [cut])
  rw [cut] at again
  rw [lexeme_wordByte (fun hash => absurd hash (by decide)) _ (by decide), if_pos rfl, again]

theorem numeral_again {c : UInt8} {rest left other : List UInt8} {l : RawLiteral}
    (context : ScanContext) (digit : Bytes.isDigit c = true)
    (read : number (c :: rest) = (l, left)) (fits : Fits left other (.literal l)) :
    ∃ digits, l.raw = c :: digits ∧ lexeme context c (digits ++ other) = (.literal l, other) := by
  have nonempty := raw_number_ne_nil c rest digit
  have parts := number_parts (c :: rest)
  have again := number_again (c :: rest) other
    (by rw [read]; exact fits.1) (by rw [read]; exact fits.2)
  rw [read] at nonempty parts again
  obtain ⟨d, digits, spelled⟩ := List.exists_cons_of_ne_nil nonempty
  simp only [spelled, List.cons_append] at parts again
  obtain ⟨rfl, _⟩ := List.cons.inj parts
  have notQuote : d ≠ byte '"' := by
    rintro rfl
    exact absurd digit (by decide)
  have noHash : d ≠ byte '#' := by
    rintro rfl
    exact absurd digit (by decide)
  refine ⟨digits, spelled, ?_⟩
  rw [lexeme_wordByte (fun hash => (noHash hash).elim) _ (wordByte_of_digit digit),
    if_neg notQuote, if_pos digit, again]

-- Only the bytes of the lexeme come back: a keyword may be read as a word in another context.
theorem lexeme_again {before context : ScanContext} {c : UInt8} {rest left other : List UInt8}
    {l : Lexeme} (found : lexeme before c rest = (l, left)) (inLine : context.lineStart = false)
    (visible : l.isTrivia = false) (plain : l.kind ≠ .directive) (more : left ≠ [])
    (fits : Fits left other l) :
    ∃ rest' l', l.raw ++ other = c :: rest' ∧ lexeme context c rest' = (l', other) ∧
      l'.raw = l.raw ∧ l'.isSpace = false := by
  have shape := lexeme_shape before c rest
  rw [found] at shape
  -- The bytes follow from what is left, since a lexeme and what it leaves are the whole text.
  suffices again : ∃ rest', l.raw ++ other = c :: rest' ∧ (lexeme context c rest').2 = other ∧
      (lexeme context c rest').1.isSpace = false by
    obtain ⟨rest', whole, left', space⟩ := again
    have raw := raw_lexeme_append context c rest'
    rw [left', ← whole] at raw
    exact ⟨rest', (lexeme context c rest').1, whole, by rw [← left'], List.append_cancel_right raw,
      space⟩
  cases shape with
  | directive => exact (plain rfl).elim
  | comment => cases visible
  | @separator s same =>
      subst same
      refine ⟨other, rfl, ?_⟩
      rw [lexeme_separator]
      exact ⟨rfl, visible⟩
  | @operator o same kept free =>
      subst same kept
      refine ⟨other, rfl, ?_⟩
      rw [lexeme_operator context other fun slash =>
        ⟨fun line => (free slash).1 (fits _ (.inl rfl) line),
          fun block => (free slash).2 (fits _ (.inr rfl) block)⟩]
      exact ⟨rfl, rfl⟩
  | @string body closed quote cut =>
      subst quote
      obtain rfl := stringCut_closed cut more
      have mark : utf8 "\"" = [byte '"'] := rfl
      refine ⟨body ++ byte '"' :: other, by simp [Lexeme.raw, RawLiteral.raw, closingMark, mark], ?_⟩
      rw [string_again context other cut]
      exact ⟨rfl, rfl⟩
  | number digit read =>
      obtain ⟨digits, spelled, again⟩ := numeral_again context digit read fits
      refine ⟨digits ++ other, by rw [Lexeme.raw, spelled, List.cons_append], ?_⟩
      rw [again]
      exact ⟨rfl, rfl⟩
  | @keyword k word notQuote notDigit spelled kept =>
      have inner := List.all_eq_true.mp (List.all_takeWhile (p := isWordByte) (l := rest))
      exact ⟨_, by rw [Lexeme.raw, spelled, List.cons_append],
        word_again inLine word notQuote notDigit inner fits⟩
  | @word text word notQuote notDigit spelled kept =>
      have inner := List.all_eq_true.mp (List.all_takeWhile (p := isWordByte) (l := rest))
      exact ⟨_, by rw [Lexeme.raw, spelled, List.cons_append],
        word_again inLine word notQuote notDigit inner fits⟩

-- No lexeme but a directive, a comment or an unfinished string ends in a blank.
theorem lexeme_ends {context : ScanContext} {c : UInt8} {rest left : List UInt8} {l : Lexeme}
    (found : lexeme context c rest = (l, left)) (visible : l.isTrivia = false)
    (plain : l.kind ≠ .directive) (more : left ≠ []) : l.raw.getLast? ≠ some (byte ' ') := by
  have shape := lexeme_shape context c rest
  rw [found] at shape
  have blank : isWordByte (byte ' ') = false := by decide
  have wordBytes : (∀ b ∈ l.raw, isWordByte b = true) → l.raw.getLast? ≠ some (byte ' ') := by
    intro all last
    rw [all _ (List.mem_of_getLast? last)] at blank
    cases blank
  have words : l.raw = c :: rest.takeWhile isWordByte → isWordByte c = true →
      l.raw.getLast? ≠ some (byte ' ') := by
    intro spelled first
    refine wordBytes fun b present => ?_
    rw [spelled] at present
    rcases List.mem_cons.mp present with rfl | later
    · exact first
    · exact List.all_eq_true.mp List.all_takeWhile _ later
  cases shape with
  | directive => exact (plain rfl).elim
  | comment => cases visible
  | @separator s => cases s <;> first | decide | cases visible
  | @operator o => cases o <;> decide
  | @string body closed quote cut =>
      obtain rfl := stringCut_closed cut more
      have mark : utf8 "\"" = [byte '"'] := rfl
      simp only [Lexeme.raw, RawLiteral.raw, closingMark, mark, List.getLast?_append,
        List.getLast?_singleton, Option.some_or]
      decide
  | number digit read =>
      have all := number_wordBytes (c :: rest)
      rw [read] at all
      exact wordBytes all
  | keyword word _ _ spelled => exact words spelled word
  | word word _ _ spelled => exact words spelled word

structure Begins (c : UInt8) (l : Lexeme) : Prop where
  operator : c = byte '/' ∨ c = byte '*' → l.kind = .operator
  word : isWordByte c = true → l.kind = .literal ∨ l.kind = .keyword ∨ l.kind = .word
  hexMark : c = byte 'x' ∨ c = byte 'X' → l.kind = .keyword ∨ l.kind = .word

theorem lexeme_begins {context : ScanContext} {c : UInt8} {rest left : List UInt8} {l : Lexeme}
    (found : lexeme context c rest = (l, left)) (visible : l.isTrivia = false)
    (plain : l.kind ≠ .directive) : Begins c l := by
  have shape := lexeme_shape context c rest
  rw [found] at shape
  have noOperator : isWordByte c = true → ¬(c = byte '/' ∨ c = byte '*') := by
    rintro word (rfl | rfl) <;> exact absurd word (by decide)
  cases shape with
  | directive => exact (plain rfl).elim
  | comment => cases visible
  | @separator s same =>
      subst same
      cases s <;> exact ⟨by decide, by decide, by decide⟩
  | @operator o same =>
      subst same
      cases o <;> exact ⟨fun _ => rfl, by decide, by decide⟩
  | string quote =>
      subst quote
      exact ⟨fun mark => absurd mark (by decide), fun _ => .inl rfl,
        fun mark => absurd mark (by decide)⟩
  | number digit =>
      refine ⟨fun mark => (noOperator (wordByte_of_digit digit) mark).elim, fun _ => .inl rfl, ?_⟩
      rintro (rfl | rfl) <;> exact absurd digit (by decide)
  | keyword word =>
      exact ⟨fun mark => (noOperator word mark).elim, fun _ => .inr (.inl rfl), fun _ => .inl rfl⟩
  | word word =>
      exact ⟨fun mark => (noOperator word mark).elim, fun _ => .inr (.inr rfl), fun _ => .inr rfl⟩

end NwscriptBindings.Scan
