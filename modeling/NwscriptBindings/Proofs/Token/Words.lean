import NwscriptBindings.Proofs.Token.Closing

namespace NwscriptBindings

namespace Bytes

def LineStart (front : List UInt8) : Prop :=
  ∀ b ∈ front.reverse.takeWhile (· != newline), isBlank b = true

theorem lineStart_nil : LineStart [] := by
  intro b present
  cases present

theorem lineStart_newline (front : List UInt8) : LineStart (front ++ [newline]) := by
  intro b present
  rw [List.reverse_concat, List.takeWhile_cons_of_neg (by simp)] at present
  cases present

theorem lineStart_blank (front : List UInt8) {b : UInt8} (blank : isBlank b = true) :
    LineStart (front ++ [b]) ↔ LineStart front := by
  have inLine : (b != newline) = true := by
    rw [bne_iff_ne]
    intro ends
    rw [ends] at blank
    cases blank
  unfold LineStart
  simp only [List.reverse_concat, List.takeWhile_cons, inLine, if_true, List.forall_mem_cons, blank,
    true_and]

def Inked (text : List UInt8) : Prop :=
  ∃ front b tail, text = front ++ b :: tail ∧ isBlank b = false ∧ newline ∉ b :: tail

theorem Inked.not_lineStart {text : List UInt8} (inked : Inked text) (front : List UInt8) :
    ¬ LineStart (front ++ text) := by
  obtain ⟨start, b, tail, rfl, ink, plain⟩ := inked
  intro blanks
  have inLine : ∀ d ∈ (b :: tail).reverse, (d != newline) = true := by
    intro d present
    rw [bne_iff_ne]
    intro ends
    exact plain (ends ▸ List.mem_reverse.mp present)
  have shown : isBlank b = true := by
    apply blanks
    rw [← List.append_assoc, List.reverse_append, List.takeWhile_append_of_pos inLine]
    simp
  rw [shown] at ink
  cases ink

end Bytes

namespace Scan

theorem wordByte_ne {b d : UInt8} (word : isWordByte b = true) (plain : isWordByte d = false) :
    b ≠ d := by
  rintro rfl
  rw [plain] at word
  cases word

theorem wordByte_inked {raw : List UInt8} (nonempty : raw ≠ [])
    (all : ∀ b ∈ raw, isWordByte b = true) : Bytes.Inked raw := by
  have word := all _ (List.getLast_mem nonempty)
  refine ⟨raw.dropLast, raw.getLast nonempty, [], (List.dropLast_concat_getLast nonempty).symm,
    ?_, ?_⟩
  · rw [Bytes.isBlank, Bool.or_eq_false_iff, beq_eq_false_iff_ne, beq_eq_false_iff_ne]
    exact ⟨wordByte_ne word (by decide), wordByte_ne word (by decide)⟩
  · rw [List.mem_singleton]
    exact (wordByte_ne word (by decide)).symm

theorem line_inked {c : UInt8} (ink : Bytes.isBlank c = false) (inLine : c ≠ Bytes.newline)
    (rest : List UInt8) : Bytes.Inked (c :: rest.takeWhile (· != Bytes.newline)) := by
  refine ⟨[], c, _, rfl, ink, ?_⟩
  rw [List.mem_cons, not_or]
  refine ⟨inLine.symm, fun present => ?_⟩
  have kept := List.all_eq_true.mp List.all_takeWhile _ present
  exact absurd rfl (bne_iff_ne.mp kept)

theorem closed_inked {b : UInt8} (ink : Bytes.isBlank b = false) (inLine : b ≠ Bytes.newline)
    (front : List UInt8) : Bytes.Inked (front ++ [b]) :=
  ⟨front, b, [], rfl, ink, by rw [List.mem_singleton]; exact inLine.symm⟩

-- Only what the end of the text cuts short may end in an empty line.
theorem raw_inked {context : ScanContext} {c : UInt8} {rest left : List UInt8} {l : Lexeme}
    (takes : Takes context c rest l left) (visible : l.isSpace = false) (more : left ≠ []) :
    Bytes.Inked l.raw := by
  cases takes with
  | directive hash =>
      rw [hash]
      exact line_inked (by decide) (by decide) rest
  | @line behind slash next =>
      have second := line_inked (c := byte '/') (by decide) (by decide) behind
      obtain ⟨front, b, tail, shown, ink⟩ := second
      refine ⟨byte '/' :: front, b, tail, ?_, ink⟩
      rw [List.cons_append, ← shown]
      rfl
  | @block behind slash next =>
      cases closed : (commentCut behind).closed with
      | false => exact (more (commentCut_open behind closed)).elim
      | true =>
          have raw : (Lexeme.comment (.block (commentCut behind).inside true)).raw =
              utf8 "/*" ++ (commentCut behind).inside ++ [byte '*'] ++ [byte '/'] := by
            simp [Lexeme.raw, Comment.raw, closingMark]
            rfl
          rw [raw]
          exact closed_inked (by decide) (by decide) _
  | @separator s same =>
      cases s with
      | newline | space | tab => cases visible
      | _ => exact closed_inked (by decide) (by decide) []
  | @operator o same => cases o <;> exact closed_inked (by decide) (by decide) []
  | string quote =>
      cases closed : (stringCut rest).closed with
      | false => exact (more (stringCut_open rest closed)).elim
      | true => exact closed_inked (by decide) (by decide) (utf8 "\"" ++ (stringCut rest).inside)
  | number digit =>
      exact wordByte_inked (raw_number_ne_nil c rest digit) (number_wordBytes (c :: rest))
  | word first =>
      rw [raw_wordLexeme]
      apply wordByte_inked (by simp)
      intro b present
      rcases List.mem_cons.mp present with rfl | later
      · exact first
      · exact List.all_eq_true.mp List.all_takeWhile b later

-- What a scanner knows of its line is what the text before it shows, as long as text follows.
theorem lineStart_step {context : ScanContext} {c : UInt8} {rest left front : List UInt8}
    {l : Lexeme} (takes : Takes context c rest l left)
    (here : context.lineStart = true ↔ Bytes.LineStart front) (more : left ≠ []) :
    (context.after l).lineStart = true ↔ Bytes.LineStart (front ++ l.raw) := by
  cases visible : l.isSpace with
  | false =>
      rw [Scanner.lineStart_after visible]
      exact iff_of_false Bool.false_ne_true ((raw_inked takes visible more).not_lineStart front)
  | true =>
      cases l with
      | separator s =>
          cases s with
          | newline => exact iff_of_true rfl (Bytes.lineStart_newline front)
          | space => exact here.trans (Bytes.lineStart_blank front rfl).symm
          | tab => exact here.trans (Bytes.lineStart_blank front rfl).symm
          | _ => cases visible
      | _ => cases visible

theorem wordStart_after (context : ScanContext) (l : Lexeme) :
    (context.after l).wordStart = true ↔ l.kind = .separator ∨ l.kind = .operator := by
  cases l with
  | separator s => cases s <;> simp [ScanContext.after, Lexeme.kind]
  | _ => simp [ScanContext.after, Lexeme.kind]

-- A word of the text behind `front`: nothing else begins with its first byte there, it holds no
-- separator and no operator, and one of them or the end of the text follows.
structure WordAt (front word behind : List UInt8) : Prop where
  begins : ∃ c more, word = c :: more ∧ c ≠ byte '"' ∧ Bytes.isDigit c = false ∧
    ¬ (c = byte '#' ∧ Bytes.LineStart front)
  inside : ∀ b ∈ word, isWordByte b = true
  ends : ∀ b, behind.head? = some b → isWordByte b = false

theorem WordAt.takeWhile {front word behind : List UInt8} (here : WordAt front word behind) :
    (word ++ behind).takeWhile isWordByte = word ∧
      (word ++ behind).dropWhile isWordByte = behind := by
  rw [List.takeWhile_append_of_pos here.inside, List.dropWhile_append_of_pos here.inside]
  cases behind with
  | nil => simp
  | cons b behind => simp [here.ends b rfl]

theorem ofSpelling?_spelling (k : Keyword) : Keyword.ofSpelling? k.spelling = some k := by
  cases k with
  | basic type => cases type <;> decide +kernel
  | _ => decide +kernel

theorem wordLexeme_keyword_iff {context : ScanContext} {word rest : List UInt8} {k : Keyword} :
    wordLexeme context word rest = .keyword k ↔ word = k.spelling ∧ context.wordStart = true ∧
      (k.needsBlank = true → ∃ b, rest.head? = some b ∧ Bytes.isBlank b = true) := by
  have blank : rest.head?.any Bytes.isBlank = true ↔
      ∃ b, rest.head? = some b ∧ Bytes.isBlank b = true := by
    cases rest with
    | nil => simp
    | cons b rest => simp
  have spelled : wordLexeme context word rest = .keyword k → word = k.spelling := by
    intro read
    have raw := raw_wordLexeme context word rest
    rw [read] at raw
    exact raw.symm
  rw [← blank]
  constructor
  · intro read
    obtain rfl := spelled read
    simp only [wordLexeme, ofSpelling?_spelling] at read
    split at read
    · rename_i allowed
      exact ⟨rfl, by simpa [Decidable.imp_iff_not_or] using allowed⟩
    · cases read
  · rintro ⟨rfl, start, needs⟩
    simp only [wordLexeme, ofSpelling?_spelling]
    rw [if_pos]
    simpa [start, Decidable.imp_iff_not_or] using needs

section Step
variable {context : ScanContext} {c : UInt8} {rest left front : List UInt8} {l : Lexeme}

theorem takes_wordAt (takes : Takes context c rest l left)
    (here : context.lineStart = true ↔ Bytes.LineStart front)
    (shown : l.kind = .word ∨ l.kind = .keyword) : WordAt front l.raw left := by
  cases takes with
  | word first notQuote notDigit notHash =>
      rw [raw_wordLexeme]
      refine ⟨⟨c, _, rfl, notQuote, notDigit, ?_⟩, ?_, ?_⟩
      · rintro ⟨hash, start⟩
        have inLine := notHash hash
        rw [here.mpr start] at inLine
        cases inLine
      · intro b present
        rcases List.mem_cons.mp present with rfl | later
        · exact first
        · exact List.all_eq_true.mp List.all_takeWhile b later
      · intro b next
        have stop := List.head?_dropWhile_not isWordByte rest
        rw [next] at stop
        simpa using stop
  | _ => rcases shown with shown | shown <;> cases shown

theorem takes_word {word behind : List UInt8} (takes : Takes context c rest l left)
    (here : context.lineStart = true ↔ Bytes.LineStart front) (parts : c :: rest = word ++ behind)
    (stands : WordAt front word behind) :
    l = wordLexeme context word behind ∧ left = behind := by
  obtain ⟨taken, dropped⟩ := stands.takeWhile
  obtain ⟨d, more, rfl, notQuote, notDigit, notDirective⟩ := stands.begins
  obtain ⟨rfl, -⟩ := List.cons.inj parts
  have first := stands.inside c (by simp)
  rw [← parts, List.takeWhile_cons_of_pos first] at taken
  rw [← parts, List.dropWhile_cons_of_pos first] at dropped
  cases takes with
  | directive hash start => exact (notDirective ⟨hash, here.mp start⟩).elim
  | line slash => exact (wordByte_ne first (by decide) slash).elim
  | block slash => exact (wordByte_ne first (by decide) slash).elim
  | @separator s same => exact (wordByte_ne first (by cases s <;> decide) same).elim
  | @operator o same => exact (wordByte_ne first (by cases o <;> decide) same).elim
  | string quote => exact (notQuote quote).elim
  | number digit =>
      rw [notDigit] at digit
      cases digit
  | word => rw [taken, dropped]; exact ⟨rfl, rfl⟩

theorem kind_behind_word (takes : Takes context c rest l left) (ends : isWordByte c = false) :
    l.kind = .separator ∨ l.kind = .operator ∨ l.kind = .comment := by
  cases takes with
  | directive hash => exact (wordByte_ne (by decide) ends hash.symm).elim
  | line | block => exact .inr (.inr rfl)
  | separator => exact .inl rfl
  | operator => exact .inr (.inl rfl)
  | string quote => exact (wordByte_ne (by decide) ends quote.symm).elim
  | number digit => exact (wordByte_ne (wordByte_of_digit digit) ends rfl).elim
  | word first => exact (wordByte_ne first ends rfl).elim

end Step

end Scan

namespace Scanner
open Scan

theorem run_lineStart {s after : Scanner} {ts : List Token} {front : List UInt8}
    (path : Run s ts after) (here : s.context.lineStart = true ↔ Bytes.LineStart front)
    (more : after.rest ≠ []) :
    after.context.lineStart = true ↔ Bytes.LineStart (front ++ Token.rawText ts) := by
  induction path generalizing front with
  | stop => simpa [Token.rawText] using here
  | @step t middle ts after s found path ih =>
      obtain ⟨c, rest, _, takes⟩ := next?_takes found
      have left : middle.rest ≠ [] := by
        rw [← run_parts path]
        exact List.append_ne_nil_of_right_ne_nil _ more
      have next := lineStart_step takes here left
      rw [← next?_context found] at next
      have shown := ih next more
      rwa [List.append_assoc] at shown

theorem run_wordStart {text : List UInt8} {before : List Token} {here : Scanner}
    (path : Run { rest := text } before here) : here.context.wordStart = true ↔
      ∀ u, before.getLast? = some u → u.kind = .separator ∨ u.kind = .operator := by
  rcases List.eq_nil_or_concat before with rfl | ⟨before, u, rfl⟩
  · cases path
    simp
  · rw [List.concat_eq_append] at path ⊢
    obtain ⟨middle, _, last⟩ := run_append_iff.mp path
    cases last with
    | step found stopped =>
        cases stopped
        rw [next?_context found, wordStart_after]
        simp [Token.kind]

theorem tokenize_place {text : List UInt8} {before more : List Token} {t : Token}
    (parts : tokenize text = before ++ t :: more) :
    ∃ (context : ScanContext) (c : UInt8) (rest : List UInt8),
      Takes context c rest t.lexeme (Token.rawText more) ∧
      c :: rest = t.raw ++ Token.rawText more ∧ text = Token.rawText before ++ c :: rest ∧
      (context.lineStart = true ↔ Bytes.LineStart (Token.rawText before)) ∧
      (context.wordStart = true ↔
        ∀ u, before.getLast? = some u → u.kind = .separator ∨ u.kind = .operator) := by
  obtain ⟨here, behind, last, path, found, later, ended, whole⟩ := tokenize_step parts
  obtain ⟨c, rest, start, takes⟩ := next?_takes found
  have left : behind.rest = Token.rawText more := by
    rw [← run_parts later, ended, List.append_nil]
  have taken := (next?_parts _ _ _ found).2
  rw [start, left] at taken
  rw [left] at takes
  rw [start] at whole
  refine ⟨here.context, c, rest, takes, taken.symm, whole, ?_, run_wordStart path⟩
  have first : ({ rest := text } : Scanner).context.lineStart = true ↔ Bytes.LineStart [] :=
    iff_of_true rfl Bytes.lineStart_nil
  exact run_lineStart path first (by rw [start]; exact List.cons_ne_nil c rest)

-- The second part says that no word is cut: where a word stands, the token is all of it.
theorem tokenize_words {text : List UInt8} {before more : List Token} {t : Token}
    (parts : tokenize text = before ++ t :: more) :
    (t.kind = .word ∨ t.kind = .keyword ↔
      WordAt (Token.rawText before) t.raw (Token.rawText more)) ∧
    (∀ word behind, text = Token.rawText before ++ (word ++ behind) →
      WordAt (Token.rawText before) word behind → t.raw = word ∧ Token.rawText more = behind) ∧
    (t.kind = .word ∨ t.kind = .keyword → ∀ u, more.head? = some u →
      u.kind = .separator ∨ u.kind = .operator ∨ u.kind = .comment) ∧
    (∀ k, t.lexeme = .keyword k ↔
      WordAt (Token.rawText before) t.raw (Token.rawText more) ∧ t.raw = k.spelling ∧
      (∀ u, before.getLast? = some u → u.kind = .separator ∨ u.kind = .operator) ∧
      (k.needsBlank = true →
        ∃ b, (Token.rawText more).head? = some b ∧ Bytes.isBlank b = true)) := by
  obtain ⟨context, c, rest, takes, taken, whole, line, word⟩ := tokenize_place parts
  have kinds : t.kind = .word ∨ t.kind = .keyword ↔
      WordAt (Token.rawText before) t.raw (Token.rawText more) := by
    refine ⟨takes_wordAt takes line, fun stands => ?_⟩
    rw [Token.kind, (takes_word takes line taken stands).1]
    rcases wordLexeme_cases context t.raw (Token.rawText more) with ⟨k, shown, _⟩ | shown
    · exact .inr (by rw [shown]; rfl)
    · exact .inl (by rw [shown]; rfl)
  refine ⟨kinds, ?_, ?_, ?_⟩
  · intro word behind stretch stands
    have front : c :: rest = word ++ behind := List.append_cancel_left (whole.symm.trans stretch)
    obtain ⟨same, left⟩ := takes_word takes line front stands
    exact ⟨by rw [Token.raw, same, raw_wordLexeme], left⟩
  · intro shown u next
    obtain ⟨later, rfl⟩ := List.head?_eq_some_iff.mp next
    have again : tokenize text = (before ++ [t]) ++ u :: later := by
      rw [parts, List.append_assoc]
      rfl
    obtain ⟨_, d, behind, takesNext, start, _⟩ := tokenize_place again
    refine kind_behind_word takesNext ((kinds.mp shown).ends d ?_)
    have text : Token.rawText (u :: later) = d :: behind := start.symm
    rw [text]
    rfl
  · intro k
    rw [← word]
    constructor
    · intro read
      have stands := kinds.mp (.inr (by rw [Token.kind, read]; rfl))
      rw [(takes_word takes line taken stands).1] at read
      exact ⟨stands, wordLexeme_keyword_iff.mp read⟩
    · rintro ⟨stands, held⟩
      rw [(takes_word takes line taken stands).1]
      exact wordLexeme_keyword_iff.mpr held

-- One spelling twice: a keyword where a blank follows it, else a word.
theorem tokenize_words_blank :
    let text := utf8 "int int("
    let type : Token := ⟨.keyword (.basic .int), ⟨⟨1, 1⟩, ⟨1, 3⟩⟩⟩
    let named : Token := ⟨.word (utf8 "int"), ⟨⟨1, 5⟩, ⟨1, 7⟩⟩⟩
    tokenize text = [] ++ type :: (tokenize text).drop 1 ∧
      (∃ b, (Token.rawText ((tokenize text).drop 1)).head? = some b ∧ Bytes.isBlank b = true) ∧
      tokenize text = (tokenize text).take 2 ++ named :: (tokenize text).drop 3 ∧
      WordAt (Token.rawText ((tokenize text).take 2)) named.raw
        (Token.rawText ((tokenize text).drop 3)) := by
  intro text type named
  have first : tokenize text = [] ++ type :: (tokenize text).drop 1 := by decide +kernel
  have second : tokenize text = (tokenize text).take 2 ++ named :: (tokenize text).drop 3 := by
    decide +kernel
  obtain ⟨_, _, _, keyword⟩ := tokenize_words first
  obtain ⟨_, _, _, blank⟩ := (keyword (.basic .int)).mp rfl
  exact ⟨first, blank rfl, second, (tokenize_words second).1.mp (.inl rfl)⟩

end Scanner

end NwscriptBindings
