import NwscriptBindings.Proofs.Token.Position
import NwscriptBindings.Source

namespace NwscriptBindings

namespace Bytes

-- Counted in all that stands before a place, from one. A line end belongs to the line it ends.
def lineAfter (front : List UInt8) : Nat := 1 + front.count newline

def columnAfter (front : List UInt8) : Nat :=
  1 + (front.reverse.takeWhile (· != newline)).length

theorem takeWhile_append_stop (front back : List UInt8) :
    (front ++ newline :: back).takeWhile (· != newline) = front.takeWhile (· != newline) := by
  induction front with
  | nil => simp
  | cons c front ih =>
      by_cases ends : c = newline
      · simp [ends]
      · simpa [ends] using ih

theorem columnAfter_line_end (line front : List UInt8) :
    columnAfter (line ++ newline :: front) = columnAfter front := by
  unfold columnAfter
  rw [List.reverse_append, List.reverse_cons, List.append_assoc, List.singleton_append,
    takeWhile_append_stop]

theorem takeWhile_append_plain {text : List UInt8} (plain : newline ∉ text) (back : List UInt8) :
    (text ++ back).takeWhile (· != newline) = text ++ back.takeWhile (· != newline) := by
  apply List.takeWhile_append_of_pos
  intro c present
  rw [bne_iff_ne]
  intro ends
  exact plain (ends ▸ present)

theorem columnAfter_append {text : List UInt8} (front : List UInt8) (plain : newline ∉ text) :
    columnAfter (front ++ text) = columnAfter front + text.length := by
  rw [← List.mem_reverse] at plain
  rw [columnAfter, columnAfter, List.reverse_append, takeWhile_append_plain plain,
    List.length_append, List.length_reverse]
  omega

theorem columnAfter_plain {front : List UInt8} (plain : newline ∉ front) :
    columnAfter front = 1 + front.length :=
  columnAfter_append [] plain

theorem lineAfter_append (front text : List UInt8) :
    lineAfter (front ++ text) = lineAfter front + text.count newline := by
  rw [lineAfter, lineAfter, List.count_append, Nat.add_assoc]

theorem lineAfter_plain {front : List UInt8} (plain : newline ∉ front) : lineAfter front = 1 := by
  rw [lineAfter, List.count_eq_zero_of_not_mem plain]

theorem lineAfter_line_end {line : List UInt8} (plain : newline ∉ line) (front : List UInt8) :
    lineAfter (line ++ newline :: front) = lineAfter front + 1 := by
  rw [lineAfter_append, lineAfter_plain plain, List.count_cons_self, lineAfter]
  omega

theorem splitOn_plain (sep : UInt8) (text : List UInt8) : ∀ piece ∈ splitOn sep text, sep ∉ piece := by
  induction text with
  | nil => simp [splitOn]
  | cons c rest ih =>
      unfold splitOn
      split
      · intro piece present
        rcases List.mem_cons.mp present with rfl | later
        · simp
        · exact ih piece later
      · rename_i other
        cases pieces : splitOn sep rest with
        | nil => simpa using Ne.symm other
        | cons first more =>
            rw [pieces] at ih
            intro piece present
            rcases List.mem_cons.mp present with rfl | later
            · have unbroken := ih first (List.mem_cons_self ..)
              simpa [Ne.symm other] using unbroken
            · exact ih piece (List.mem_cons_of_mem _ later)

theorem endLines_unlines {ls : List (List UInt8)} (some : ls ≠ []) :
    endLines ls = unlines ls ++ [newline] := by
  induction ls with
  | nil => exact (some rfl).elim
  | cons l ls ih =>
      cases ls with
      | nil => simp [endLines, unlines, List.intercalate]
      | cons next more =>
          have later := ih (by simp)
          simp only [endLines, unlines, List.intercalate, List.flatMap_cons,
            List.intersperse_cons_cons, List.flatten_cons] at later ⊢
          rw [later]
          simp

-- The line of a place, cut there. The lines before it are full, and what follows the place goes on
-- with the second half.
theorem line_after {lines : List (List UInt8)} {front rest : List UInt8}
    (plain : ∀ line ∈ lines, newline ∉ line) (parts : endLines lines = front ++ rest)
    (more : rest ≠ []) :
    ∃ margin left tail, lines[lineAfter front - 1]? = some (margin ++ left) ∧
      front = endLines (lines.take (lineAfter front - 1)) ++ margin ∧
      columnAfter front = 1 + margin.length ∧ rest = left ++ newline :: tail := by
  induction lines generalizing front with
  | nil => exact (more (List.append_eq_nil_iff.mp parts.symm).2).elim
  | cons line lines ih =>
      obtain ⟨first, others⟩ := List.forall_mem_cons.mp plain
      have cut : line ++ newline :: endLines lines = front ++ rest := by
        rw [← parts]
        simp [endLines]
      rcases List.append_eq_append_iff.mp cut with ⟨behind, rfl, later⟩ | ⟨left, rfl, later⟩
      · cases behind with
        | nil =>
            rw [List.append_nil]
            refine ⟨line, [], endLines lines, ?_, ?_, columnAfter_plain first, later.symm⟩
            · rw [lineAfter_plain first, List.append_nil]
              rfl
            · rw [lineAfter_plain first]
              rfl
        | cons c behind =>
            obtain ⟨rfl, deeper⟩ := List.cons.inj later
            obtain ⟨margin, left, tail, shown, full, column, follows⟩ := ih others deeper
            have below : lineAfter behind = lineAfter behind - 1 + 1 := by
              rw [lineAfter]
              omega
            rw [lineAfter_line_end first, Nat.add_sub_cancel, below, columnAfter_line_end]
            refine ⟨margin, left, tail, ?_, ?_, column, follows⟩
            · rw [List.getElem?_cons_succ, shown]
            · rw [List.take_succ_cons, endLines, List.flatMap_cons, ← endLines, List.append_assoc,
                ← full, List.append_assoc, List.singleton_append]
      · have short : newline ∉ front := fun present => first (List.mem_append_left _ present)
        refine ⟨front, left, endLines lines, ?_, ?_, columnAfter_plain short, later⟩
        · rw [lineAfter_plain short]
          rfl
        · rw [lineAfter_plain short]
          rfl

end Bytes

namespace Pos

def Follows (p : Pos) (front : List UInt8) : Prop :=
  p.line.toNat = Bytes.lineAfter front ∧ p.col.toNat = Bytes.columnAfter front

theorem follows_start : start.Follows [] := ⟨rfl, rfl⟩

theorem follows_room {p : Pos} {front : List UInt8} {n : Nat} (here : p.Follows front)
    (short : front.length + n < UInt32.size - 1) : p.Room n := by
  obtain ⟨line, col⟩ := here
  have lines : front.count Bytes.newline ≤ front.length := List.count_le_length
  have cols := (List.takeWhile_prefix (l := front.reverse) (· != Bytes.newline)).length_le
  rw [List.length_reverse] at cols
  rw [Bytes.lineAfter] at line
  rw [Bytes.columnAfter] at col
  constructor <;> omega

theorem follows_advance {p : Pos} {front : List UInt8} (c : UInt8) (here : p.Follows front)
    (short : front.length + 1 < UInt32.size - 1) : (p.advance c).Follows (front ++ [c]) := by
  obtain ⟨lines, cols⟩ := follows_room here short
  obtain ⟨line, col⟩ := here
  unfold advance
  split
  · rename_i ends
    subst ends
    refine ⟨?_, ?_⟩
    · rw [toNat_next lines, line]
      simp [Bytes.lineAfter]
      omega
    · rw [Bytes.columnAfter_line_end]
      rfl
  · rename_i other
    refine ⟨?_, ?_⟩
    · rw [line]
      simp [Bytes.lineAfter, other]
    · rw [toNat_next cols, col]
      simp [Bytes.columnAfter, other]
      omega

theorem follows_advanceBy {p : Pos} {front text : List UInt8} (here : p.Follows front)
    (short : (front ++ text).length < UInt32.size - 1) :
    (p.advanceBy text).Follows (front ++ text) := by
  induction text generalizing p front with
  | nil => simpa [advanceBy] using here
  | cons c text ih =>
      rw [List.length_append, List.length_cons] at short
      have step := follows_advance c here (by omega)
      have rest := ih step (by simp only [List.length_append, List.length_cons, List.length_nil]; omega)
      rw [List.append_assoc, List.singleton_append] at rest
      exact rest

theorem follows_text {front : List UInt8} (short : front.length < UInt32.size - 1) :
    (start.advanceBy front).Follows front :=
  follows_advanceBy follows_start short

theorem advanceBy_append (p : Pos) (front text : List UInt8) :
    p.advanceBy (front ++ text) = (p.advanceBy front).advanceBy text := List.foldl_append

theorem advanceBy_last {p : Pos} {text : List UInt8} (nonempty : text ≠ []) :
    p.advanceBy text = (p.advanceBy text.dropLast).advance (text.getLast nonempty) := by
  have parts := congrArg p.advanceBy (List.dropLast_concat_getLast nonempty)
  rw [← parts, advanceBy_append]
  rfl

end Pos

namespace Source

-- Where a line and a column are in the joined lines. Each line before it takes its end along.
def offset (lines : List (List UInt8)) (line col : Nat) : Nat :=
  (Bytes.endLines (lines.take (line - 1))).length + (col - 1)

def between (s : Source) (span : Span) : List UInt8 :=
  let first := offset s.lines span.first.line.toNat span.first.col.toNat
  let last := offset s.lines span.last.line.toNat span.last.col.toNat
  (s.text.drop first).take (last + 1 - first)

def Split (s : Source) : Prop := ∀ line ∈ s.lines, Bytes.newline ∉ line

theorem ofText_split (name text : List UInt8) : (ofText name text).Split :=
  Bytes.splitOn_plain Bytes.newline (unifyLineEnds text)

theorem offset_after {lines : List (List UInt8)} {front rest : List UInt8}
    (plain : ∀ line ∈ lines, Bytes.newline ∉ line) (parts : Bytes.endLines lines = front ++ rest)
    (more : rest ≠ []) :
    offset lines (Bytes.lineAfter front) (Bytes.columnAfter front) = front.length := by
  obtain ⟨margin, _, _, _, full, column, _⟩ := Bytes.line_after plain parts more
  rw [offset, column, Nat.add_sub_cancel_left, ← List.length_append, ← full]

theorem offset_follows {s : Source} {p : Pos} {front rest : List UInt8} (split : s.Split)
    (here : p.Follows front) (parts : s.text = front ++ rest) (some : s.lines ≠ []) :
    offset s.lines p.line.toNat p.col.toNat = front.length := by
  have ended : Bytes.endLines s.lines = front ++ (rest ++ [Bytes.newline]) := by
    rw [Bytes.endLines_unlines some, ← text, parts, List.append_assoc]
  rw [here.1, here.2]
  exact offset_after split ended (by simp)

theorem between_follows {s : Source} {span : Span} {front inside rest : List UInt8}
    (split : s.Split) (parts : s.text = front ++ (inside ++ rest)) (nonempty : inside ≠ [])
    (first : span.first.Follows front) (last : span.last.Follows (front ++ inside.dropLast)) :
    s.between span = inside := by
  have some : s.lines ≠ [] := by
    intro none
    rw [text, none] at parts
    simp [Bytes.unlines, List.intercalate, nonempty] at parts
  have begins := offset_follows split first parts some
  have whole : s.text = front ++ inside.dropLast ++ ([inside.getLast nonempty] ++ rest) := by
    rw [parts, ← List.append_assoc (front ++ _), List.append_assoc front (inside.dropLast),
      List.dropLast_concat_getLast, List.append_assoc]
  have ends := offset_follows split last whole some
  have size := List.length_pos_iff.mpr nonempty
  have count : (front ++ inside.dropLast).length + 1 - front.length = inside.length := by
    rw [List.length_append, List.length_dropLast]
    omega
  simp only [between, begins, ends, count, parts, List.drop_left, List.take_left]

end Source

namespace Scanner

theorem next?_span {s after : Scanner} {t : Token} (found : s.next? = some (t, after)) :
    t.span = .ofText s.pos t.raw := by
  unfold next? at found
  split at found
  · cases found
  · cases found
    rfl

-- The invariant of a run: the position is behind all that was read.
theorem run_position {s after : Scanner} {ts : List Token} (path : Run s ts after) :
    after.pos = s.pos.advanceBy (Token.rawText ts) := by
  induction path with
  | stop => rfl
  | @step t middle ts after s found _ ih =>
      have shown : Token.rawText (t :: ts) = t.raw ++ Token.rawText ts := by simp [Token.rawText]
      rw [ih, (next?_position found).2, shown, Pos.advanceBy_append]

theorem tokenize_token {text : List UInt8} {before after : List Token} {t : Token}
    (parts : tokenize text = before ++ t :: after) :
    ∃ rest, text = Token.rawText before ++ (t.raw ++ rest) ∧ t.raw ≠ [] ∧
      t.span = .ofText (Pos.start.advanceBy (Token.rawText before)) t.raw ∧
      ∀ u more, after = u :: more →
        u.span.first = (Pos.start.advanceBy (Token.rawText before)).advanceBy t.raw := by
  obtain ⟨final, path, _⟩ := run_tokens { rest := text }
  rw [← tokenize, parts] at path
  obtain ⟨here, front, path⟩ := run_append_iff.mp path
  have place : here.pos = Pos.start.advanceBy (Token.rawText before) := run_position front
  cases path with
  | @step _ behind _ _ _ found later =>
      obtain ⟨nonempty, inside⟩ := next?_parts _ _ _ found
      have whole : text = Token.rawText before ++ here.rest := (run_parts front).symm
      refine ⟨behind.rest, by rw [inside, whole], nonempty, by rw [next?_span found, place], ?_⟩
      intro u more follows
      subst follows
      cases later with
      | step next _ => rw [(next?_position next).1, (next?_position found).2, place]

-- In a text this short both ends of a token are where counting finds them.
theorem tokenize_follows {text : List UInt8} (short : text.length < UInt32.size - 1)
    {before after : List Token} {t : Token} (parts : tokenize text = before ++ t :: after) :
    t.span.first.Follows (Token.rawText before) ∧
      t.span.last.Follows (Token.rawText before ++ t.raw.dropLast) := by
  obtain ⟨rest, whole, _, span, _⟩ := tokenize_token parts
  rw [whole, List.length_append, List.length_append] at short
  rw [span, Span.ofText, ← Pos.advanceBy_append]
  constructor
  · exact Pos.follows_text (by omega)
  · refine Pos.follows_text ?_
    rw [List.length_append, List.length_dropLast]
    omega

-- The bytes of a token are those from `start` up to `stop`. That the numbers are words is seen
-- nowhere: the bound on the text leaves room for each of them.
theorem tokenize_spans_exact {text : List UInt8} (short : text.length < UInt32.size - 1)
    {before after : List Token} {t : Token} (parts : tokenize text = before ++ t :: after) :
    let start := (Token.rawText before).length
    let stop := start + t.raw.length
    (start < stop ∧ (text.drop start).take (stop - start) = t.raw) ∧
      t.span.first.Follows (text.take start) ∧ t.span.last.Follows (text.take (stop - 1)) ∧
      (∀ source : Source, source.text = text → source.Split → source.between t.span = t.raw) ∧
      (∀ name given, (Source.ofText name given).text = text →
        (Source.ofText name given).between t.span = t.raw) ∧
      ∀ u rest, after = u :: rest → u.span.first =
        if t.raw.getLast? = some Bytes.newline then ⟨t.span.last.line + 1, 1⟩
        else ⟨t.span.last.line, t.span.last.col + 1⟩ := by
  obtain ⟨rest, whole, nonempty, span, next⟩ := tokenize_token parts
  obtain ⟨first, last⟩ := tokenize_follows short parts
  have size := List.length_pos_iff.mpr nonempty
  have reading : ∀ source : Source, source.text = text → source.Split →
      source.between t.span = t.raw := by
    intro source same split
    exact Source.between_follows split (same.trans whole) nonempty first last
  intro start stop
  have cut : text.take (stop - 1) = Token.rawText before ++ t.raw.dropLast := by
    have place : stop - 1 = (Token.rawText before).length + (t.raw.length - 1) := by omega
    rw [place, whole, List.take_length_add_append, List.take_append_of_le_length (by omega),
      List.dropLast_eq_take]
  refine ⟨⟨by omega, ?_⟩, ?_, ?_, reading, ?_, ?_⟩
  · rw [whole, List.drop_left, Nat.add_sub_cancel_left, List.take_left]
  · rw [whole, List.take_left]
    exact first
  · rw [cut]
    exact last
  · intro name given same
    exact reading _ same (Source.ofText_split name given)
  · intro u more follows
    rw [next u more follows, Pos.advanceBy_last nonempty, span]
    simp only [List.getLast?_eq_some_getLast nonempty, Option.some.injEq]
    rfl

-- A string over two lines: its last byte is on the second, and the semicolon follows there.
theorem tokenize_spans_exact_lines :
    let text := utf8 "s=\"a\n b\";"
    let t : Token := ⟨.literal (.string (utf8 "a\n b") true), ⟨⟨1, 3⟩, ⟨2, 3⟩⟩⟩
    let last : Token := ⟨.separator .semicolon, ⟨⟨2, 4⟩, ⟨2, 4⟩⟩⟩
    tokenize text = (tokenize text).take 2 ++ t :: [last] ∧
      t.span.last.Follows (text.take 7) ∧
      (Source.ofText (utf8 "s.nss") (utf8 "s=\"a\r\n b\";")).between t.span = t.raw := by
  intro text t last
  have parts : tokenize text = (tokenize text).take 2 ++ t :: [last] := by decide +kernel
  obtain ⟨_, _, ends, _, reading, _⟩ := tokenize_spans_exact (by decide +kernel) parts
  have place : (Token.rawText ((tokenize text).take 2)).length + t.raw.length - 1 = 7 := by
    decide +kernel
  rw [place] at ends
  exact ⟨parts, ends, reading _ _ (by decide +kernel)⟩

end Scanner
end NwscriptBindings
