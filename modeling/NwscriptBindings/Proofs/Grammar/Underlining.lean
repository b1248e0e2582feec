import NwscriptBindings.Proofs.Grammar.ViablePrefix
import NwscriptBindings.Proofs.Token.Extent
import NwscriptBindings.Proofs.Token.Relex

namespace NwscriptBindings

namespace Bytes

-- A text that ends on the line on which it begins, but for its last byte, is all on that line.
theorem prefix_line {left tail text rest : List UInt8}
    (same : left ++ newline :: tail = text ++ rest)
    (plain : newline ∉ text.dropLast) : text <+: left ++ [newline] := by
  rcases List.append_eq_append_iff.mp same with ⟨more, rfl, behind⟩ | ⟨more, rfl, _⟩
  · cases more with
    | nil => simp
    | cons c more =>
        obtain ⟨rfl, _⟩ := List.cons.inj behind
        cases more with
        | nil => exact List.prefix_rfl
        | cons d more => simp at plain
  · simp

theorem takeWhile_line {left tail text rest : List UInt8}
    (same : left ++ newline :: tail = text ++ rest)
    (plain : newline ∉ left) (ends : newline ∈ text) : text.takeWhile (· != newline) = left := by
  obtain ⟨front, back, rfl⟩ := List.append_of_mem ends
  rw [List.append_assoc, List.cons_append] at same
  rw [takeWhile_append_stop, ← takeWhile_append_stop front (back ++ rest), ← same,
    takeWhile_append_plain plain]
  simp

end Bytes

theorem Source.lineAt_of_getElem? {lines : List (List UInt8)} {n : UInt32} {line : List UInt8}
    (counted : 1 ≤ n.toNat) (found : lines[n.toNat - 1]? = some line) : lineAt lines n = line := by
  have some : n ≠ 0 := by
    intro none
    rw [none] at counted
    cases counted
  rw [lineAt, if_neg some, List.getD_eq_getElem?_getD, found, Option.getD_some]

namespace Scanner

theorem next?_newline {s after : Scanner} {t : Token} {more : List UInt8}
    (found : s.next? = some (t, after)) (begins : t.raw = Bytes.newline :: more) : more = [] := by
  obtain ⟨c, rest, left, read⟩ := next?_lexeme found
  obtain ⟨_, parts⟩ := next?_parts _ _ _ found
  rw [begins, left] at parts
  obtain ⟨rfl, _⟩ := List.cons.inj parts
  have ended := Scan.lexeme_separator s.context rest .newline
  have shown : t.lexeme = .separator .newline := (Prod.mk.inj (read.symm.trans ended)).1
  rw [Token.raw, shown] at begins
  exact (List.cons.inj begins).2.symm

theorem tokenize_newline {text : List UInt8} {t : Token} {more : List UInt8}
    (present : t ∈ tokenize text) (begins : t.raw = Bytes.newline :: more) : more = [] := by
  obtain ⟨before, after, parts⟩ := List.append_of_mem present
  obtain ⟨final, path, _⟩ := run_tokens { rest := text }
  rw [← tokenize, parts] at path
  obtain ⟨_, _, path⟩ := run_append_iff.mp path
  cases path with
  | step found _ => exact next?_newline found begins

end Scanner

namespace Diagnostic

-- Under a tab stands a tab, so that the carets keep their place.
def filler (c : UInt8) : UInt8 := if c = byte '\t' then byte '\t' else byte ' '

theorem fillers_margin (margin left : List UInt8) :
    fillers (margin ++ left) margin.length = margin.map filler := by
  apply List.ext_getElem
  · simp [fillers]
  · intro i _ inside
    rw [List.length_map] at inside
    simp [fillers, filler, List.getElem?_append_left inside, List.getElem?_eq_getElem inside]

theorem caretLine_margin {margin left : List UInt8} {span : Span} {k : Nat}
    (column : span.first.col.toNat = 1 + margin.length)
    (count : (if span.last.line = span.first.line then span.last.col.toNat
      else (margin ++ left).length) = margin.length + k) (some : 0 < k) :
    caretLine (margin ++ left) span = margin.map filler ++ List.replicate k (byte '^') := by
  have start : max span.first.col.toNat 1 - 1 = margin.length := by omega
  have carets : max (margin.length + k + 1 - max span.first.col.toNat 1) 1 = k := by omega
  simp only [caretLine, count, start, carets, fillers_margin]

end Diagnostic

namespace Token

def firstLine (t : Token) : List UInt8 :=
  if t.span.last.line = t.span.first.line then t.raw
  else t.raw.takeWhile (· != Bytes.newline)

-- A token behind `front` on its line, which is cut in front of the token.
structure OnLine (t : Token) (front margin left : List UInt8) : Prop where
  first : t.span.first.Follows front
  last : t.span.last.Follows (front ++ t.raw.dropLast)
  column : t.span.first.col.toNat = 1 + margin.length
  follows : ∃ tail rest, left ++ Bytes.newline :: tail = t.raw ++ rest
  plain : Bytes.newline ∉ left
  nonempty : t.raw ≠ []
  lineEnd : ∀ more, t.raw = Bytes.newline :: more → more = []

namespace OnLine

variable {t : Token} {front margin left : List UInt8} (here : t.OnLine front margin left)
include here

theorem one_line_iff : t.span.last.line = t.span.first.line ↔ Bytes.newline ∉ t.raw.dropLast := by
  rw [← UInt32.toNat_inj, here.first.1, here.last.1, Bytes.lineAfter_append, ← List.count_eq_zero]
  omega

theorem last_column (plain : Bytes.newline ∉ t.raw.dropLast) :
    t.span.last.col.toNat = margin.length + t.raw.length := by
  have size := List.length_pos_iff.mpr here.nonempty
  rw [here.last.2, Bytes.columnAfter_append _ plain, ← here.first.2, here.column,
    List.length_dropLast]
  omega

theorem fills_line (broken : Bytes.newline ∈ t.raw.dropLast) :
    t.raw.takeWhile (· != Bytes.newline) = left ∧ left ≠ [] := by
  obtain ⟨tail, rest, same⟩ := here.follows
  refine ⟨Bytes.takeWhile_line same here.plain ((List.dropLast_sublist _).subset broken), ?_⟩
  intro none
  rw [none, List.nil_append] at same
  cases shown : t.raw with
  | nil => exact here.nonempty shown
  | cons c more =>
      rw [shown] at same
      obtain ⟨rfl, _⟩ := List.cons.inj same
      rw [shown, here.lineEnd more shown] at broken
      cases broken

theorem firstLine_prefix : t.firstLine <+: left ++ [Bytes.newline] := by
  unfold firstLine
  split
  · rename_i one
    obtain ⟨tail, rest, same⟩ := here.follows
    exact Bytes.prefix_line same (here.one_line_iff.mp one)
  · rename_i more
    rw [here.one_line_iff, Classical.not_not] at more
    rw [(here.fills_line more).1]
    exact List.prefix_append ..

theorem caretLine_eq : Diagnostic.caretLine (margin ++ left) t.span =
    margin.map Diagnostic.filler ++ List.replicate t.firstLine.length (byte '^') := by
  unfold firstLine
  split
  · rename_i one
    apply Diagnostic.caretLine_margin here.column _ (List.length_pos_iff.mpr here.nonempty)
    rw [if_pos one, here.last_column (here.one_line_iff.mp one)]
  · rename_i more
    have broken : Bytes.newline ∈ t.raw.dropLast := by
      rwa [here.one_line_iff, Classical.not_not] at more
    obtain ⟨filled, some⟩ := here.fills_line broken
    rw [filled]
    apply Diagnostic.caretLine_margin here.column _ (List.length_pos_iff.mpr some)
    rw [if_neg more, List.length_append]

end OnLine

end Token

theorem Scanner.tokenize_onLine {source : Source} {before after : List Token} {t : Token}
    (split : source.Split) (short : source.text.length < UInt32.size - 1)
    (parts : tokenize source.text = before ++ t :: after) : ∃ margin left,
      source.lines[t.span.first.line.toNat - 1]? = some (margin ++ left) ∧
      t.OnLine (Token.rawText before) margin left := by
  obtain ⟨rest, whole, nonempty, _⟩ := tokenize_token parts
  obtain ⟨first, last⟩ := tokenize_follows short parts
  have some : source.lines ≠ [] := by
    intro none
    rw [Source.text, none] at whole
    simp [Bytes.unlines, List.intercalate, nonempty] at whole
  have ended : Bytes.endLines source.lines =
      Token.rawText before ++ (t.raw ++ (rest ++ [Bytes.newline])) := by
    rw [Bytes.endLines_unlines some, ← Source.text, whole]
    simp
  obtain ⟨margin, left, tail, shown, _, column, follows⟩ :=
    Bytes.line_after split ended (by simp [nonempty])
  have plain : Bytes.newline ∉ left := fun present =>
    split _ (List.mem_of_getElem? shown) (List.mem_append_right margin present)
  have present : t ∈ tokenize source.text := by simp [parts]
  refine ⟨margin, left, by rw [first.1, shown], ?_⟩
  exact ⟨first, last, first.2.trans column, ⟨tail, _, follows.symm⟩, plain, nonempty,
    fun _ => tokenize_newline present⟩

namespace ScriptUnit

open Grammar (UnitRule)

theorem parse_nil (name : List UInt8) (lines : List (List UInt8)) :
    ∃ u, parse name lines [] = .ok u := by
  have empty : UnitRule false ⟨name, [], [] ++ []⟩ ([] ++ []) := .intro .nil (by simp)
  exact parseWith_complete StmtForm.mem_order empty

theorem parse_error_token {name : List UInt8} {lines : List (List UInt8)} {tokens : List Token}
    {err : SyntaxError} (failed : parse name lines tokens = .error err) :
    err.token ∈ tokens ∧ err.line = Source.lineAt lines err.token.span.first.line := by
  obtain ⟨f, us, parts, _, rfl, _⟩ := parseWith_fails failed
  unfold Failure.report
  split
  · rename_i place
    exact ⟨by simp [parts, place], rfl⟩
  · rename_i last
    exact ⟨List.mem_of_getLast? last, rfl⟩
  · rename_i none
    obtain ⟨u, parsed⟩ := parse_nil name lines
    rw [List.getLast?_eq_none_iff.mp none, parsed] at failed
    cases failed

theorem parse_error_underlined {source : Source} {name : List UInt8} {err : SyntaxError}
    (split : source.Split) (short : source.text.length < UInt32.size - 1)
    (failed : parse name source.lines (tokenize source.text) = .error err) :
    ∃ before after margin left, tokenize source.text = before ++ err.token :: after ∧
      err.diagnostic.token = err.token ∧ err.diagnostic.span = err.token.span ∧
      err.token.span.first.Follows (Token.rawText before) ∧
      err.line = margin ++ left ∧
      source.lines[Bytes.lineAfter (Token.rawText before) - 1]? = some err.line ∧
      err.token.span.first.col.toNat = 1 + margin.length ∧
      err.diagnostic.report.drop 3 = [err.line,
        margin.map Diagnostic.filler ++ List.replicate err.token.firstLine.length (byte '^')] ∧
      err.token.firstLine <+: left ++ [Bytes.newline] := by
  obtain ⟨present, line⟩ := parse_error_token failed
  obtain ⟨before, after, parts⟩ := List.append_of_mem present
  obtain ⟨margin, left, shown, here⟩ := Scanner.tokenize_onLine split short parts
  have cut : err.line = margin ++ left := by
    rw [line, Source.lineAt_of_getElem? (here.first.1 ▸ Nat.le_add_right 1 _) shown]
  refine ⟨before, after, margin, left, parts, rfl, rfl, here.first, cut, ?_, here.column, ?_,
    here.firstLine_prefix⟩
  · rw [← here.first.1, shown, cut]
  · rw [← here.caretLine_eq, ← cut]
    rfl

-- A string over two lines where a declaration is due, behind a tab.
theorem parse_error_underlined_lines : ∃ source err before after margin left,
    source = Source.ofText (utf8 "s.nss") (utf8 "int i;\n\t\"a\nb\"") ∧
    parse [] source.lines (tokenize source.text) = .error err ∧
    err.token.raw = utf8 "\"a\nb\"" ∧ err.token.firstLine = utf8 "\"a" ∧
    tokenize source.text = before ++ err.token :: after ∧
    err.diagnostic.report.drop 3 = [margin ++ left,
      margin.map Diagnostic.filler ++ List.replicate 2 (byte '^')] ∧
    err.token.firstLine <+: left ++ [Bytes.newline] := by
  let source := Source.ofText (utf8 "s.nss") (utf8 "int i;\n\t\"a\nb\"")
  let isString (t : Token) : Bool :=
    t.raw == utf8 "\"a\nb\"" && t.firstLine == utf8 "\"a"
  have refused : (((parse [] source.lines (tokenize source.text)).map fun _ => false).tryCatch
      fun err => .ok (isString err.token)).toOption = some true := by decide +kernel
  cases outcome : parse [] source.lines (tokenize source.text) with
  | ok u =>
      rw [outcome] at refused
      cases refused
  | error err =>
      rw [outcome] at refused
      have string : isString err.token = true := Option.some.inj refused
      obtain ⟨raw, shown⟩ := Bool.and_eq_true_iff.mp string
      obtain ⟨before, after, margin, left, parts, _, _, _, line, _, _, marks, under⟩ :=
        parse_error_underlined (Source.ofText_split _ _) (by decide +kernel) outcome
      rw [eq_of_beq shown, line] at marks
      exact ⟨source, err, before, after, margin, left, rfl, outcome, eq_of_beq raw,
        eq_of_beq shown, parts, marks, under⟩

end ScriptUnit

end NwscriptBindings
