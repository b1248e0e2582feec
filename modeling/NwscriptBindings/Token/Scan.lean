import NwscriptBindings.Number.Digits
import NwscriptBindings.Token.Basic

namespace NwscriptBindings

structure ScanContext where
  -- Only blanks precede on the line, so a hash begins a directive.
  lineStart : Bool := true
  -- Nothing, a separator or an operator precedes, so a word can be a keyword.
  wordStart : Bool := true
deriving DecidableEq

def ScanContext.after (before : ScanContext) : Lexeme → ScanContext
  | .separator .newline => ⟨true, true⟩
  | .separator .space | .separator .tab => ⟨before.lineStart, true⟩
  | .separator _ | .operator _ => ⟨false, true⟩
  | _ => ⟨false, false⟩

namespace Scan

structure Cut where
  inside : List UInt8
  closed : Bool
  rest : List UInt8

def Cut.cons (c : UInt8) (cut : Cut) : Cut := { cut with inside := c :: cut.inside }

def commentCut : List UInt8 → Cut
  | [] => ⟨[], false, []⟩
  | [c] => ⟨[c], false, []⟩
  | c :: d :: rest =>
      if c = byte '*' ∧ d = byte '/' then ⟨[], true, rest⟩
      else (commentCut (d :: rest)).cons c

-- Only a quote that no backslash escapes closes.
def stringCut : List UInt8 → Cut
  | [] => ⟨[], false, []⟩
  | [c] => if c = byte '"' then ⟨[], true, []⟩ else ⟨[c], false, []⟩
  | c :: d :: rest =>
      if c = byte '"' then ⟨[], true, d :: rest⟩
      else if c = byte '\\' then ((stringCut rest).cons d).cons c
      else (stringCut (d :: rest)).cons c

def fraction : List UInt8 → List UInt8 × List UInt8
  | [] => ([], [])
  | c :: rest =>
      if c = byte '.' then (c :: rest.takeWhile Bytes.isDigit, rest.dropWhile Bytes.isDigit)
      else ([], c :: rest)

def floatMark : List UInt8 → List UInt8 × List UInt8
  | [] => ([], [])
  | c :: rest => if c = byte 'f' ∨ c = byte 'F' then ([c], rest) else ([], c :: rest)

def decimal (text : List UInt8) : RawLiteral × List UInt8 :=
  let part := fraction (text.dropWhile Bytes.isDigit)
  let mark := floatMark part.2
  let spelled := text.takeWhile Bytes.isDigit ++ part.1 ++ mark.1
  (if part.1.isEmpty && mark.1.isEmpty then .int spelled else .float spelled, mark.2)

-- The mark of a hexadecimal number counts only in front of a digit.
def number (text : List UInt8) : RawLiteral × List UInt8 :=
  match text with
  | c :: x :: d :: rest =>
      if c = byte '0' ∧ (x = byte 'x' ∨ x = byte 'X') ∧ Digits.isHex d then
        (.int (c :: x :: d :: rest.takeWhile Digits.isHex), rest.dropWhile Digits.isHex)
      else decimal text
  | _ => decimal text

-- Words end at separators and operators and nowhere else.
def isWordByte (c : UInt8) : Bool :=
  (Separator.ofByte? c).isNone && (Operator.ofByte? c).isNone

def wordLexeme (context : ScanContext) (word rest : List UInt8) : Lexeme :=
  match Keyword.ofSpelling? word with
  | some k =>
      if context.wordStart && (!k.needsBlank || rest.head?.any Bytes.isBlank) then .keyword k
      else .word word
  | none => .word word

def lexeme (context : ScanContext) (c : UInt8) (rest : List UInt8) : Lexeme × List UInt8 :=
  if c = byte '#' ∧ context.lineStart then
    (.directive (c :: rest.takeWhile (· != Bytes.newline)), rest.dropWhile (· != Bytes.newline))
  else if c = byte '/' ∧ rest.head? = some (byte '/') then
    (.comment (.line (rest.tail.takeWhile (· != Bytes.newline))),
      rest.tail.dropWhile (· != Bytes.newline))
  else if c = byte '/' ∧ rest.head? = some (byte '*') then
    let cut := commentCut rest.tail
    (.comment (.block cut.inside cut.closed), cut.rest)
  else match Separator.ofByte? c with
  | some s => (.separator s, rest)
  | none => match Operator.ofByte? c with
    | some o => (.operator o, rest)
    | none =>
        if c = byte '"' then
          let cut := stringCut rest
          (.literal (.string cut.inside cut.closed), cut.rest)
        else if Bytes.isDigit c then
          let found := number (c :: rest)
          (.literal found.1, found.2)
        else
          let after := rest.dropWhile isWordByte
          (wordLexeme context (c :: rest.takeWhile isWordByte) after, after)

theorem commentCut_parts (text : List UInt8) :
    (commentCut text).inside ++ closingMark "*/" (commentCut text).closed ++
      (commentCut text).rest = text := by
  fun_induction commentCut text with
  | case1 => rfl
  | case2 c => rfl
  | case3 c d rest found => obtain ⟨rfl, rfl⟩ := found; rfl
  | case4 c d rest other ih => simpa [Cut.cons] using ih

theorem stringCut_parts (text : List UInt8) :
    (stringCut text).inside ++ closingMark "\"" (stringCut text).closed ++
      (stringCut text).rest = text := by
  fun_induction stringCut text with
  | case1 => rfl
  | case2 => rfl
  | case3 c other => rfl
  | case4 d rest => rfl
  | case5 d rest notQuote ih => simpa [Cut.cons] using ih
  | case6 c d rest notQuote notEscape ih => simpa [Cut.cons] using ih

theorem fraction_parts (text : List UInt8) : (fraction text).1 ++ (fraction text).2 = text := by
  cases text with
  | nil => rfl
  | cons c rest => simp only [fraction]; split <;> simp

theorem floatMark_parts (text : List UInt8) : (floatMark text).1 ++ (floatMark text).2 = text := by
  cases text with
  | nil => rfl
  | cons c rest => simp only [floatMark]; split <;> simp

theorem decimal_parts (text : List UInt8) : (decimal text).1.raw ++ (decimal text).2 = text := by
  have spelled : ∀ whole : List UInt8, (if (fraction (text.dropWhile Bytes.isDigit)).1.isEmpty &&
      (floatMark (fraction (text.dropWhile Bytes.isDigit)).2).1.isEmpty
      then RawLiteral.int whole else RawLiteral.float whole).raw = whole := by
    intro whole; split <;> rfl
  simp only [decimal, spelled, List.append_assoc, floatMark_parts, fraction_parts,
    List.takeWhile_append_dropWhile]

theorem number_parts (text : List UInt8) : (number text).1.raw ++ (number text).2 = text := by
  unfold number
  split
  · split
    · simp [RawLiteral.raw]
    · exact decimal_parts _
  · exact decimal_parts _

theorem raw_number_ne_nil (c : UInt8) (rest : List UInt8) (digit : Bytes.isDigit c) :
    (number (c :: rest)).1.raw ≠ [] := by
  have plain : (decimal (c :: rest)).1.raw ≠ [] := by
    simp only [decimal, List.takeWhile_cons, digit, if_true]
    split <;> simp [RawLiteral.raw]
  unfold number
  split
  · split
    · simp [RawLiteral.raw]
    · exact plain
  · exact plain

theorem raw_wordLexeme (context : ScanContext) (word rest : List UInt8) :
    (wordLexeme context word rest).raw = word := by
  unfold wordLexeme
  split
  · rename_i k found
    split
    · simpa [Keyword.ofSpelling?, Lexeme.raw] using List.find?_some found
    · rfl
  · rfl

theorem raw_lexeme_append (context : ScanContext) (c : UInt8) (rest : List UInt8) :
    (lexeme context c rest).1.raw ++ (lexeme context c rest).2 = c :: rest := by
  unfold lexeme
  split
  · simp [Lexeme.raw]
  split
  · rename_i line
    obtain ⟨rfl, next⟩ := line
    cases rest with
    | nil => simp at next
    | cons d more =>
        simp only [List.head?_cons, Option.some.injEq] at next
        subst next
        simp only [Lexeme.raw, Comment.raw, List.tail_cons, List.append_assoc,
          List.takeWhile_append_dropWhile]
        rfl
  split
  · rename_i block
    obtain ⟨rfl, next⟩ := block
    cases rest with
    | nil => simp at next
    | cons d more =>
        simp only [List.head?_cons, Option.some.injEq] at next
        subst next
        have parts := commentCut_parts more
        rw [List.append_assoc] at parts
        simp only [Lexeme.raw, Comment.raw, List.tail_cons, List.append_assoc, parts]
        rfl
  split
  · rename_i s found
    have same : byte s.char = c := by
      simpa [Separator.ofByte?] using List.find?_some found
    simp [Lexeme.raw, same]
  split
  · rename_i o found
    have same : byte o.char = c := by
      simpa [Operator.ofByte?] using List.find?_some found
    simp [Lexeme.raw, same]
  split
  · rename_i isQuote
    subst isQuote
    have parts := stringCut_parts rest
    rw [List.append_assoc] at parts
    simp only [Lexeme.raw, RawLiteral.raw, List.append_assoc, parts]
    rfl
  split
  · exact number_parts (c :: rest)
  · simp [raw_wordLexeme]

theorem raw_lexeme_ne_nil (context : ScanContext) (c : UInt8) (rest : List UInt8) :
    (lexeme context c rest).1.raw ≠ [] := by
  unfold lexeme
  split
  · simp [Lexeme.raw]
  split
  · intro empty; have := congrArg List.length empty; simp [Lexeme.raw, Comment.raw, utf8] at this
  split
  · intro empty; have := congrArg List.length empty; simp [Lexeme.raw, Comment.raw, utf8] at this
  split
  · simp [Lexeme.raw]
  split
  · simp [Lexeme.raw]
  split
  · intro empty; have := congrArg List.length empty; simp [Lexeme.raw, RawLiteral.raw, utf8] at this
  split
  · exact raw_number_ne_nil c rest (by assumption)
  · simp [raw_wordLexeme]

end Scan
end NwscriptBindings
