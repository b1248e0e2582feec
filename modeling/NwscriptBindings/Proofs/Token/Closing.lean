import NwscriptBindings.Proofs.Token.Lossless
import NwscriptBindings.Proofs.Token.Relex

namespace NwscriptBindings

namespace Scan

-- Backslashes pair up from the first of a row on, so the byte behind `front` is escaped if an odd
-- number of them stands directly before it.
def Escaped (front : List UInt8) : Prop :=
  (front.reverse.takeWhile (· == byte '\\')).length % 2 = 1

def StringEnd (behind : List UInt8) (n : Nat) : Prop :=
  behind[n]? = some (byte '"') ∧ ¬ Escaped (behind.take n)

def CommentEnd (behind : List UInt8) (n : Nat) : Prop :=
  behind[n]? = some (byte '*') ∧ behind[n + 1]? = some (byte '/')

theorem escaped_plain {c : UInt8} (front : List UInt8) (other : c ≠ byte '\\') :
    Escaped (c :: front) ↔ Escaped front := by
  unfold Escaped
  rw [List.reverse_cons, List.takeWhile_append]
  split
  · rename_i all
    rw [List.takeWhile_cons_of_neg (by simpa using other), List.append_nil, all]
  · rfl

theorem escaped_pair (d : UInt8) (front : List UInt8) :
    Escaped (byte '\\' :: d :: front) ↔ Escaped front := by
  unfold Escaped
  rw [List.reverse_cons, List.reverse_cons, List.append_assoc, List.takeWhile_append]
  split
  · rename_i all
    rw [all, List.length_append]
    by_cases again : d = byte '\\'
    · simp [again]
    · simp [again]
  · rfl

theorem stringEnd_plain {c : UInt8} (behind : List UInt8) (other : c ≠ byte '\\') (n : Nat) :
    StringEnd (c :: behind) (n + 1) ↔ StringEnd behind n := by
  rw [StringEnd, StringEnd, List.getElem?_cons_succ, List.take_succ_cons, escaped_plain _ other]

theorem stringEnd_pair (d : UInt8) (behind : List UInt8) (n : Nat) :
    StringEnd (byte '\\' :: d :: behind) (n + 2) ↔ StringEnd behind n := by
  rw [StringEnd, StringEnd, List.getElem?_cons_succ, List.getElem?_cons_succ, List.take_succ_cons,
    List.take_succ_cons, escaped_pair]

-- What stands inside reaches up to the first end, and a cut without one is not closed.
structure Cut.AtFirst (ends : Nat → Prop) (cut : Cut) : Prop where
  closes : cut.closed = true → ends cut.inside.length
  first : ∀ n, ends n → cut.closed = true ∧ cut.inside.length ≤ n

namespace Cut.AtFirst

variable {ends later : Nat → Prop} {cut : Cut}

theorem here (rest : List UInt8) (closes : ends 0) : AtFirst ends ⟨[], true, rest⟩ :=
  ⟨fun _ => closes, fun n _ => ⟨rfl, Nat.zero_le n⟩⟩

theorem none (inside : List UInt8) (never : ∀ n, ¬ ends n) : AtFirst ends ⟨inside, false, []⟩ :=
  ⟨nofun, fun n closes => (never n closes).elim⟩

theorem cons (c : UInt8) (shift : ∀ n, ends (n + 1) ↔ later n) (not : ¬ ends 0)
    (found : cut.AtFirst later) : (cut.cons c).AtFirst ends := by
  constructor
  · intro closed
    exact (shift _).mpr (found.closes closed)
  · intro n closes
    cases n with
    | zero => exact (not closes).elim
    | succ n =>
        obtain ⟨closed, order⟩ := found.first n ((shift n).mp closes)
        exact ⟨closed, Nat.succ_le_succ order⟩

theorem least (found : cut.AtFirst ends) {n : Nat} (closes : ends n)
    (first : ∀ m < n, ¬ ends m) : cut.closed = true ∧ cut.inside.length = n := by
  obtain ⟨closed, order⟩ := found.first n closes
  refine ⟨closed, Nat.le_antisymm order (Nat.le_of_not_lt fun less => ?_)⟩
  exact first _ less (found.closes closed)

end Cut.AtFirst

theorem stringCut_atFirst (text : List UInt8) : (stringCut text).AtFirst (StringEnd text) := by
  have quote : ∀ rest, StringEnd (byte '"' :: rest) 0 := fun _ => ⟨rfl, Nat.zero_ne_one⟩
  have other : ∀ {c : UInt8} {rest : List UInt8}, c ≠ byte '"' → ¬ StringEnd (c :: rest) 0 :=
    fun differs closes => differs (Option.some.inj closes.1)
  fun_induction stringCut text with
  | case1 => exact .none _ fun n closes => absurd closes.1 (by simp)
  | case2 => exact .here _ (quote _)
  | case3 c notQuote =>
      refine .none _ fun n closes => ?_
      cases n with
      | zero => exact other notQuote closes
      | succ n => exact absurd closes.1 (by simp)
  | case4 d rest => exact .here _ (quote _)
  | case5 d rest notQuote ih =>
      -- The byte behind the backslash ends nothing, whatever it is.
      have escaped : ¬ StringEnd (byte '\\' :: d :: rest) 1 := fun closes => closes.2 rfl
      exact .cons _ (fun _ => Iff.rfl) (other notQuote) (.cons _ (stringEnd_pair d rest) escaped ih)
  | case6 c d rest notQuote notEscape ih =>
      exact .cons _ (stringEnd_plain _ notEscape) (other notQuote) ih

theorem commentCut_atFirst (text : List UInt8) : (commentCut text).AtFirst (CommentEnd text) := by
  fun_induction commentCut text with
  | case1 => exact .none _ fun n closes => absurd closes.1 (by simp)
  | case2 c => exact .none _ fun n closes => absurd closes.2 (by simp)
  | case3 c d rest found => exact .here _ ⟨congrArg some found.1, congrArg some found.2⟩
  | case4 c d rest other ih =>
      refine .cons _ (fun _ => Iff.rfl) (fun closes => other ?_) ih
      exact ⟨Option.some.inj closes.1, Option.some.inj closes.2⟩

theorem commentCut_open (text : List UInt8) (opened : (commentCut text).closed = false) :
    (commentCut text).rest = [] := by
  fun_induction commentCut text with
  | case1 => rfl
  | case2 c => rfl
  | case3 c d rest found => cases opened
  | case4 c d rest other ih => exact ih opened

theorem number_kind (text : List UInt8) : (number text).1.kind ≠ .string := by
  have plain : (decimal text).1.kind ≠ .string := by
    simp only [decimal]
    split
    · simp [RawLiteral.kind]
    · simp [RawLiteral.kind]
  unfold number
  split
  · split
    · simp [RawLiteral.kind]
    · exact plain
  · exact plain

end Scan

namespace Token

def Unfinished (t : Token) : Prop :=
  (∃ body, t.lexeme = .literal (.string body false)) ∨
    ∃ text, t.lexeme = .comment (.block text false)

-- Of the text behind its opening, the token takes all up to the first end and the mark that stands
-- there, or all that is left; and it is closed in the first case only.
structure Delimited (t : Token) (opening mark : String) (ends : List UInt8 → Nat → Prop)
    (closed : Bool) (behind : List UInt8) : Prop where
  closed_iff : closed = true ↔ ∃ n, ends behind n
  stops : ∀ n, ends behind n → (∀ m < n, ¬ ends behind m) →
    t.raw = utf8 opening ++ behind.take (n + (utf8 mark).length)
  runs : (∀ n, ¬ ends behind n) → t.raw = utf8 opening ++ behind

theorem delimited_of_cut {t : Token} {opening mark : String} {ends : List UInt8 → Nat → Prop}
    {behind : List UInt8} {cut : Scan.Cut}
    (raw : t.raw = utf8 opening ++ (cut.inside ++ closingMark mark cut.closed))
    (parts : cut.inside ++ closingMark mark cut.closed ++ cut.rest = behind)
    (found : cut.AtFirst (ends behind)) (opened : cut.closed = false → cut.rest = []) :
    t.Delimited opening mark ends cut.closed behind where
  closed_iff := ⟨fun closed => ⟨_, found.closes closed⟩, fun ⟨n, closes⟩ => (found.first n closes).1⟩
  stops n closes first := by
    obtain ⟨closed, length⟩ := found.least closes first
    rw [closed] at raw parts
    have size : n + (utf8 mark).length = (cut.inside ++ utf8 mark).length := by
      rw [List.length_append, length]
    rw [raw, size, ← parts, closingMark, List.take_left]
  runs never := by
    have open_ : cut.closed = false := by
      cases closed : cut.closed with
      | false => rfl
      | true => exact (never _ (found.closes closed)).elim
    rw [opened open_, List.append_nil] at parts
    rw [raw, parts]

end Token

namespace Scanner

variable {s after : Scanner} {t : Token}

theorem next?_takes (found : s.next? = some (t, after)) :
    ∃ c rest, s.rest = c :: rest ∧ Scan.Takes s.context c rest t.lexeme after.rest := by
  obtain ⟨c, rest, left, read⟩ := next?_lexeme found
  have takes := Scan.lexeme_takes s.context c rest
  rw [read] at takes
  exact ⟨c, rest, left, takes⟩

theorem next?_string {body : List UInt8} {closed : Bool} (found : s.next? = some (t, after))
    (same : t.lexeme = .literal (.string body closed)) :
    ∃ behind, s.rest = byte '"' :: behind ∧
      Scan.stringCut behind = ⟨body, closed, after.rest⟩ := by
  obtain ⟨c, rest, left, takes⟩ := next?_takes found
  rw [same] at takes
  rcases Scan.takes_literal takes with ⟨quote, shown, ended⟩ | ⟨_, shown, _⟩
  · obtain ⟨rfl, rfl⟩ := RawLiteral.string.inj shown
    exact ⟨rest, by rw [left, quote], by rw [ended]⟩
  · have kind := Scan.number_kind (c :: rest)
    rw [← shown] at kind
    exact (kind rfl).elim

theorem next?_block {text : List UInt8} {closed : Bool} (found : s.next? = some (t, after))
    (same : t.lexeme = .comment (.block text closed)) :
    ∃ behind, s.rest = byte '/' :: byte '*' :: behind ∧
      Scan.commentCut behind = ⟨text, closed, after.rest⟩ := by
  obtain ⟨c, rest, left, takes⟩ := next?_takes found
  generalize shown : t.lexeme = l, after.rest = more at takes
  rw [same] at shown
  cases takes with
  | @block behind slash next =>
      cases shown
      exact ⟨behind, by rw [left, slash, next], rfl⟩
  | word => exact (Scan.wordLexeme_ne (by simp [Lexeme.kind]) (by simp [Lexeme.kind]) shown).elim
  | _ => cases shown

theorem next?_unfinished (found : s.next? = some (t, after)) (unfinished : t.Unfinished) :
    after.rest = [] := by
  rcases unfinished with ⟨body, same⟩ | ⟨text, same⟩
  · obtain ⟨behind, _, cut⟩ := next?_string found same
    have ended := Scan.stringCut_open behind (by rw [cut])
    rwa [cut] at ended
  · obtain ⟨behind, _, cut⟩ := next?_block found same
    have ended := Scan.commentCut_open behind (by rw [cut])
    rwa [cut] at ended

theorem tokenize_step {text : List UInt8} {before more : List Token}
    (parts : tokenize text = before ++ t :: more) :
    ∃ here behind last, Run { rest := text } before here ∧ here.next? = some (t, behind) ∧
      Run behind more last ∧ last.rest = [] ∧ text = Token.rawText before ++ here.rest := by
  obtain ⟨last, path, ended⟩ := run_tokens { rest := text }
  rw [← tokenize, parts] at path
  obtain ⟨here, front, path⟩ := run_append_iff.mp path
  cases path with
  | @step _ behind _ _ _ found later =>
      exact ⟨here, behind, last, front, found, later, (next?_none_iff last).mp ended,
        (run_parts front).symm⟩

theorem tokenize_string {text body : List UInt8} {closed : Bool} {before more : List Token}
    (parts : tokenize text = before ++ t :: more)
    (same : t.lexeme = .literal (.string body closed)) :
    ∃ behind, text = Token.rawText before ++ (utf8 "\"" ++ behind) ∧
      t.Delimited "\"" "\"" Scan.StringEnd closed behind := by
  obtain ⟨here, after, _, _, found, _, _, whole⟩ := tokenize_step parts
  obtain ⟨behind, left, cut⟩ := next?_string found same
  have inside := Scan.stringCut_parts behind
  have first := Scan.stringCut_atFirst behind
  have opened := Scan.stringCut_open behind
  rw [cut] at inside first opened
  have raw : t.raw = utf8 "\"" ++ (body ++ closingMark "\"" closed) := by
    rw [Token.raw, same, Lexeme.raw, RawLiteral.raw, List.append_assoc]
  refine ⟨behind, ?_, Token.delimited_of_cut raw inside first opened⟩
  rw [whole, left]
  rfl

theorem tokenize_block {text body : List UInt8} {closed : Bool} {before more : List Token}
    (parts : tokenize text = before ++ t :: more)
    (same : t.lexeme = .comment (.block body closed)) :
    ∃ behind, text = Token.rawText before ++ (utf8 "/*" ++ behind) ∧
      t.Delimited "/*" "*/" Scan.CommentEnd closed behind := by
  obtain ⟨here, after, _, _, found, _, _, whole⟩ := tokenize_step parts
  obtain ⟨behind, left, cut⟩ := next?_block found same
  have inside := Scan.commentCut_parts behind
  have first := Scan.commentCut_atFirst behind
  have opened := Scan.commentCut_open behind
  rw [cut] at inside first opened
  have raw : t.raw = utf8 "/*" ++ (body ++ closingMark "*/" closed) := by
    rw [Token.raw, same, Lexeme.raw, Comment.raw, List.append_assoc]
  refine ⟨behind, ?_, Token.delimited_of_cut raw inside first opened⟩
  rw [whole, left]
  rfl

theorem tokenize_unfinished {text : List UInt8} {before more : List Token}
    (parts : tokenize text = before ++ t :: more) (unfinished : t.Unfinished) :
    more = [] ∧ Token.rawText before ++ t.raw = text := by
  obtain ⟨here, after, last, _, found, later, _, whole⟩ := tokenize_step parts
  have ended := next?_unfinished found unfinished
  obtain ⟨_, inside⟩ := next?_parts _ _ _ found
  rw [ended, List.append_nil] at inside
  refine ⟨?_, by rw [inside, whole]⟩
  cases later with
  | stop => rfl
  | step next _ =>
      rw [(next?_none_iff after).mpr ended] at next
      cases next

end Scanner

namespace Token

theorem warning?_finished {t : Token} (finished : ¬ t.Unfinished) : t.warning? = none := by
  unfold warning? Lexeme.defect?
  split
  · rename_i text same
    exact (finished (.inr ⟨text, same⟩)).elim
  · rename_i body same
    exact (finished (.inl ⟨body, same⟩)).elim
  · rfl

def complaint (t : Token) : String :=
  if t.isComment then "unterminated block comment" else "unterminated string literal"

theorem warning?_unfinished {t : Token} (unfinished : t.Unfinished) :
    t.warning? = some ⟨t.span, utf8 t.complaint⟩ := by
  rcases unfinished with ⟨body, same⟩ | ⟨text, same⟩
  · simp [warning?, complaint, isComment, kind, same, Lexeme.defect?, Lexeme.kind]
  · simp [warning?, complaint, isComment, kind, same, Lexeme.defect?, Lexeme.kind]

end Token

theorem warnings_finished {ts : List Token} (finished : ∀ t ∈ ts, ¬ t.Unfinished) :
    warnings ts = [] :=
  List.filterMap_eq_nil_iff.mpr fun t present => t.warning?_finished (finished t present)

namespace Reading

-- Reading on, one token after the other. The handler is called when a token gives a warning.
inductive Run : Reading → List Token → Reading → Prop where
  | stop : Run r [] r
  | step : r.advance? = some middle → Run middle ts last → Run r (middle.current :: ts) last

variable {r last : Reading} {ts : List Token}

theorem advance?_iff {after : Reading} : r.advance? = some after ↔
    r.scanner.next? = some (after.current, after.scanner) ∧
      after.warnings = r.warnings ++ after.current.warning?.toList := by
  unfold advance?
  cases r.scanner.next? with
  | none => simp
  | some found =>
      obtain ⟨t, scanner⟩ := found
      obtain ⟨scanner', t', ws⟩ := after
      simp only [Option.map_some, Option.some.injEq, mk.injEq, Prod.mk.injEq]
      constructor
      · intro same
        obtain ⟨rfl, rfl, rfl⟩ := same
        exact ⟨⟨rfl, rfl⟩, rfl⟩
      · intro same
        obtain ⟨⟨rfl, rfl⟩, rfl⟩ := same
        exact ⟨rfl, rfl, rfl⟩

theorem run_warnings (path : Run r ts last) : Scanner.Run r.scanner ts last.scanner ∧
    last.warnings = r.warnings ++ NwscriptBindings.warnings ts := by
  induction path with
  | stop => exact ⟨.stop, (List.append_nil _).symm⟩
  | @step middle ts last r found _ ih =>
      obtain ⟨next, noted⟩ := advance?_iff.mp found
      refine ⟨.step next ih.1, ?_⟩
      rw [ih.2, noted, List.append_assoc]
      congr 1
      unfold NwscriptBindings.warnings
      cases complaint : middle.current.warning? with
      | none => simp [complaint]
      | some w => simp [complaint]

theorem run_of_scanner {s : Scanner} (path : Scanner.Run r.scanner ts s) :
    ∃ last, Run r ts last ∧ last.scanner = s := by
  generalize begun : r.scanner = start at path
  induction path generalizing r with
  | stop => exact ⟨r, .stop, begun⟩
  | @step t middle ts s start found _ ih =>
      let next : Reading := ⟨middle, t, r.warnings ++ t.warning?.toList⟩
      have advanced : r.advance? = some next := advance?_iff.mpr ⟨by rw [begun, found], rfl⟩
      obtain ⟨last, later, ended⟩ := ih (r := next) rfl
      exact ⟨last, .step advanced later, ended⟩

theorem advance?_none_iff : r.advance? = none ↔ r.scanner.rest = [] := by
  rw [advance?, Option.map_eq_none_iff, Scanner.next?_none_iff]

-- A whole text gives the warning of its last token, or none.
theorem warnings_tokenize (text : List UInt8) :
    (∀ t ∈ tokenize text, ¬ t.Unfinished) ∧ NwscriptBindings.warnings (tokenize text) = [] ∨
      ∃ before t, tokenize text = before ++ [t] ∧ t.Unfinished ∧
        (∀ u ∈ before, ¬ u.Unfinished) ∧ Token.rawText before ++ t.raw = text ∧
        NwscriptBindings.warnings (tokenize text) = [⟨t.span, utf8 t.complaint⟩] := by
  by_cases all : ∀ t ∈ tokenize text, ¬ t.Unfinished
  · exact .inl ⟨all, warnings_finished all⟩
  · simp only [Classical.not_forall, Classical.not_not] at all
    obtain ⟨t, present, unfinished⟩ := all
    obtain ⟨before, more, parts⟩ := List.append_of_mem present
    obtain ⟨rfl, whole⟩ := Scanner.tokenize_unfinished parts unfinished
    have others : ∀ u ∈ before, ¬ u.Unfinished := by
      intro u earlier opened
      obtain ⟨front, back, rfl⟩ := List.append_of_mem earlier
      rw [List.append_assoc, List.cons_append] at parts
      cases (List.append_eq_nil_iff.mp (Scanner.tokenize_unfinished parts opened).1).2
    refine .inr ⟨before, t, parts, unfinished, others, whole, ?_⟩
    rw [parts, NwscriptBindings.warnings, List.filterMap_append]
    have none := warnings_finished others
    rw [NwscriptBindings.warnings] at none
    simp [none, t.warning?_unfinished unfinished]

end Reading

namespace Scanner

theorem tokenize_delimited (text : List UInt8) :
    (∀ before t more, tokenize text = before ++ t :: more →
      (∀ body closed, t.lexeme = .literal (.string body closed) →
        ∃ behind, text = Token.rawText before ++ (utf8 "\"" ++ behind) ∧
          t.Delimited "\"" "\"" Scan.StringEnd closed behind) ∧
      ∀ body closed, t.lexeme = .comment (.block body closed) →
        ∃ behind, text = Token.rawText before ++ (utf8 "/*" ++ behind) ∧
          t.Delimited "/*" "*/" Scan.CommentEnd closed behind) ∧
    (∃ r, Reading.Run (.ofText text) (tokenize text) r ∧ r.advance? = none) ∧
    ∀ ts r, Reading.Run (.ofText text) ts r → r.advance? = none → ts = tokenize text ∧
      ((∀ t ∈ ts, ¬ t.Unfinished) ∧ r.warnings = [] ∨
        ∃ before t, ts = before ++ [t] ∧ t.Unfinished ∧ (∀ u ∈ before, ¬ u.Unfinished) ∧
          Token.rawText before ++ t.raw = text ∧ r.warnings = [⟨t.span, utf8 t.complaint⟩]) := by
  refine ⟨?_, ?_, ?_⟩
  · intro before t more parts
    exact ⟨fun body closed => tokenize_string parts, fun body closed => tokenize_block parts⟩
  · obtain ⟨last, path, ended⟩ := run_tokens { rest := text }
    obtain ⟨r, read, rfl⟩ := Reading.run_of_scanner (r := .ofText text) path
    exact ⟨r, read, Reading.advance?_none_iff.mpr ((next?_none_iff _).mp ended)⟩
  · intro ts r read ended
    obtain ⟨path, noted⟩ := Reading.run_warnings read
    obtain rfl : tokenize text = ts := tokens_of_run path (Reading.advance?_none_iff.mp ended)
    rw [noted]
    exact ⟨rfl, Reading.warnings_tokenize text⟩

-- An escaped backslash and an escaped quote in front of the closing one, and a comment that its own
-- opening does not close.
theorem tokenize_delimited_open :
    let text := utf8 "s=\"\\\\\\\"\"/*/ \"*"
    let str : Token := ⟨.literal (.string (utf8 "\\\\\\\"") true), ⟨⟨1, 3⟩, ⟨1, 8⟩⟩⟩
    let remark : Token := ⟨.comment (.block (utf8 "/ \"*") false), ⟨⟨1, 9⟩, ⟨1, 14⟩⟩⟩
    tokenize text = (tokenize text).take 2 ++ str :: [remark] ∧
      (∃ behind, text = Token.rawText ((tokenize text).take 2) ++ (utf8 "\"" ++ behind) ∧
        str.Delimited "\"" "\"" Scan.StringEnd true behind) ∧
      ∃ r, Reading.Run (.ofText text) (tokenize text) r ∧
        r.warnings = [⟨remark.span, utf8 "unterminated block comment"⟩] := by
  intro text str remark
  have parts : tokenize text = (tokenize text).take 2 ++ str :: [remark] := by decide +kernel
  have last : (tokenize text).getLast? = some remark := by decide +kernel
  obtain ⟨each, ⟨r, read, ended⟩, whole⟩ := tokenize_delimited text
  refine ⟨parts, (each _ _ _ parts).1 _ _ rfl, r, read, ?_⟩
  rcases (whole _ r read ended).2 with ⟨finished, _⟩ | ⟨before, t, same, _, _, _, noted⟩
  · exact (finished remark (List.mem_of_getLast? last) (.inr ⟨_, rfl⟩)).elim
  · rw [same, List.getLast?_concat] at last
    obtain rfl : t = remark := Option.some.inj last
    exact noted

end Scanner

end NwscriptBindings
