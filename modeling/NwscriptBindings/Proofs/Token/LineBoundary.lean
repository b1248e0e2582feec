import NwscriptBindings.Proofs.Token.Extent
import NwscriptBindings.Proofs.Token.Relex

namespace NwscriptBindings

namespace Scan

-- What is left behind a lexeme ends a line; so more text does not touch the lexeme.
def EndsLine (left : List UInt8) : Prop := left.getLast? = some Bytes.newline

variable {rest left more : List UInt8}

theorem EndsLine.nonempty (ends : EndsLine left) : left ≠ [] := by
  intro none
  rw [EndsLine, none] at ends
  cases ends

theorem head?_further (ends : left ≠ []) : (left ++ more).head? = left.head? := by
  cases left with
  | nil => exact (ends rfl).elim
  | cons c left => rfl

theorem while_further {holds : UInt8 → Bool} (more : List UInt8)
    (stops : rest.dropWhile holds ≠ []) :
    (rest ++ more).takeWhile holds = rest.takeWhile holds ∧
      (rest ++ more).dropWhile holds = rest.dropWhile holds ++ more := by
  induction rest with
  | nil => exact (stops rfl).elim
  | cons c rest ih =>
      cases held : holds c with
      | false => simp [held]
      | true =>
          rw [List.dropWhile_cons_of_pos held] at stops
          simpa [held] using ih stops

theorem commentCut_further {text : List UInt8} (ends : (commentCut text).rest ≠ []) :
    commentCut (text ++ more) =
      { commentCut text with rest := (commentCut text).rest ++ more } := by
  fun_induction commentCut text with
  | case1 => exact (ends rfl).elim
  | case2 c => exact (ends rfl).elim
  | case3 c d rest found => simp [commentCut, found]
  | case4 c d rest other ih =>
      have later := ih ends
      rw [List.cons_append] at later
      simp [commentCut, other, later, Cut.cons]

theorem stringCut_further {text : List UInt8} (ends : (stringCut text).rest ≠ []) :
    stringCut (text ++ more) =
      { stringCut text with rest := (stringCut text).rest ++ more } := by
  fun_induction stringCut text with
  | case1 => exact (ends rfl).elim
  | case2 => exact (ends rfl).elim
  | case3 c other => exact (ends rfl).elim
  | case4 d rest => simp [stringCut]
  | case5 d rest notQuote ih =>
      have later := ih ends
      simp [stringCut, notQuote, later, Cut.cons]
  | case6 c d rest notQuote notEscape ih =>
      have later := ih ends
      rw [List.cons_append] at later
      simp [stringCut, notQuote, notEscape, later, Cut.cons]

-- The mark of a hexadecimal number looks two bytes ahead, so one byte that is left is not enough;
-- but then that byte is the line end.
theorem number_further {text : List UInt8} (ends : EndsLine (number text).2) :
    number (text ++ more) = ((number text).1, (number text).2 ++ more) := by
  have parts := number_parts text
  have nonempty := ends.nonempty
  have again := number_again text ((number text).2 ++ more)
  rw [← List.append_assoc, parts] at again
  apply again
  · intro b first _
    rwa [head?_further nonempty] at first
  · intro x d behind spelled mark _
    generalize (number text).2 = left at *
    cases left with
    | nil => exact (nonempty rfl).elim
    | cons y left =>
        obtain ⟨rfl, next⟩ : y = x ∧ left ++ more = d :: behind := List.cons.inj spelled
        cases left with
        | nil =>
            obtain rfl : y = Bytes.newline := Option.some.inj ends
            rcases mark with same | same <;> exact absurd same (by decide)
        | cons z left =>
            obtain ⟨rfl, _⟩ : z = d ∧ left ++ more = behind := List.cons.inj next
            exact ⟨left, rfl⟩

theorem wordLexeme_further (context : ScanContext) (word : List UInt8) (ends : left ≠ []) :
    wordLexeme context word (left ++ more) = wordLexeme context word left := by
  unfold wordLexeme
  rw [head?_further ends]

theorem rest_nonempty {context : ScanContext} {c : UInt8} {l : Lexeme}
    (found : lexeme context c rest = (l, left)) (stays : left ≠ []) : rest ≠ [] := by
  intro none
  have size := List.length_pos_iff.mpr (raw_lexeme_ne_nil context c rest)
  have room := List.length_pos_iff.mpr stays
  have total := congrArg List.length (raw_lexeme_append context c rest)
  rw [found] at size total
  simp only [none, List.length_append, List.length_cons, List.length_nil] at size total
  omega

theorem lexeme_further {context : ScanContext} {c : UInt8} {l : Lexeme}
    (found : lexeme context c rest = (l, left)) (ends : EndsLine left) :
    lexeme context c (rest ++ more) = (l, left ++ more) := by
  have stays := ends.nonempty
  have inside := rest_nonempty found stays
  have tail : (rest ++ more).tail = rest.tail ++ more := List.tail_append_of_ne_nil inside
  unfold lexeme at found ⊢
  rw [head?_further inside, tail]
  split
  · rename_i hash
    rw [if_pos hash] at found
    obtain ⟨rfl, rfl⟩ := Prod.mk.inj found
    obtain ⟨taken, dropped⟩ := while_further more stays
    rw [taken, dropped]
  rename_i noHash
  rw [if_neg noHash] at found
  split
  · rename_i line
    rw [if_pos line] at found
    obtain ⟨rfl, rfl⟩ := Prod.mk.inj found
    obtain ⟨taken, dropped⟩ := while_further more stays
    rw [taken, dropped]
  rename_i noLine
  rw [if_neg noLine] at found
  split
  · rename_i block
    rw [if_pos block] at found
    obtain ⟨rfl, rfl⟩ := Prod.mk.inj found
    rw [commentCut_further stays]
  rename_i noBlock
  rw [if_neg noBlock] at found
  cases separator : Separator.ofByte? c with
  | some s =>
      simp only [separator] at found ⊢
      obtain ⟨rfl, rfl⟩ := Prod.mk.inj found
      rfl
  | none =>
      simp only [separator] at found ⊢
      cases operator : Operator.ofByte? c with
      | some o =>
          simp only [operator] at found ⊢
          obtain ⟨rfl, rfl⟩ := Prod.mk.inj found
          rfl
      | none =>
          simp only [operator] at found ⊢
          split
          · rename_i quote
            rw [if_pos quote] at found
            obtain ⟨rfl, rfl⟩ := Prod.mk.inj found
            rw [stringCut_further stays]
          rename_i noQuote
          rw [if_neg noQuote] at found
          split
          · rename_i digit
            rw [if_pos digit] at found
            obtain ⟨rfl, rfl⟩ := Prod.mk.inj found
            rw [← List.cons_append, number_further ends]
          · rename_i noDigit
            rw [if_neg noDigit] at found
            obtain ⟨rfl, rfl⟩ := Prod.mk.inj found
            obtain ⟨taken, dropped⟩ := while_further more stays
            rw [taken, dropped, wordLexeme_further context _ stays]

end Scan

def Pos.below (lines : Nat) (p : Pos) : Pos := ⟨UInt32.ofNat (p.line.toNat + lines), p.col⟩

def Span.below (lines : Nat) (s : Span) : Span := ⟨s.first.below lines, s.last.below lines⟩

def Token.below (lines : Nat) (t : Token) : Token := ⟨t.lexeme, t.span.below lines⟩

def Warning.below (lines : Nat) (w : Warning) : Warning := ⟨w.span.below lines, w.message⟩

theorem Pos.below_eq (lines : Nat) (p : Pos) : p.below lines = ⟨p.line + .ofNat lines, p.col⟩ := by
  rw [below, UInt32.ofNat_add, UInt32.ofNat_toNat]

theorem Pos.below_advanceBy (lines : Nat) (p : Pos) (text : List UInt8) :
    (p.below lines).advanceBy text = (p.advanceBy text).below lines := by
  induction text generalizing p with
  | nil => rfl
  | cons c text ih =>
      have step : (p.below lines).advance c = (p.advance c).below lines := by
        simp only [below_eq, advance]
        split
        · simp only [UInt32.add_assoc, UInt32.add_comm (UInt32.ofNat lines)]
        · rfl
      simp only [advanceBy, List.foldl_cons, step] at ih ⊢
      exact ih (p.advance c)

theorem Token.warning?_below (lines : Nat) (t : Token) :
    (t.below lines).warning? = t.warning?.map (Warning.below lines) := by
  unfold warning? below
  cases t.lexeme.defect? with
  | none => rfl
  | some defect => rfl

theorem warnings_below (lines : Nat) (tokens : List Token) :
    warnings (tokens.map (Token.below lines)) = (warnings tokens).map (Warning.below lines) := by
  unfold warnings
  rw [List.filterMap_map, List.map_filterMap]
  congr 1
  funext t
  exact t.warning?_below lines

namespace Scanner

variable {s last : Scanner} {ts : List Token}

def below (lines : Nat) (s : Scanner) : Scanner := { s with pos := s.pos.below lines }

def further (more : List UInt8) (s : Scanner) : Scanner := { s with rest := s.rest ++ more }

theorem run_below (lines : Nat) (path : Run s ts last) :
    Run (s.below lines) (ts.map (Token.below lines)) (last.below lines) := by
  induction path with
  | stop => exact .stop
  | @step t middle ts last s found _ ih =>
      apply Run.step _ ih
      unfold next? at found ⊢
      cases left : s.rest with
      | nil =>
          rw [left] at found
          cases found
      | cons c rest =>
          rw [left] at found
          cases found
          simp only [below, left, Token.below, Span.below, Span.ofText, Pos.below_advanceBy]

theorem next?_further {after : Scanner} {t : Token} (more : List UInt8)
    (found : s.next? = some (t, after))
    (kept : ∀ c rest, s.rest = c :: rest → Scan.lexeme s.context c (rest ++ more) =
      (t.lexeme, after.rest ++ more)) :
    (s.further more).next? = some (t, after.further more) := by
  unfold next? at found ⊢
  cases left : s.rest with
  | nil =>
      rw [left] at found
      cases found
  | cons c rest =>
      have again := kept c rest left
      rw [left] at found
      cases found
      simp only [further, left, List.cons_append, again]

-- A line end is the last token. All lexemes before it leave a text that ends a line.
theorem run_further (more : List UInt8) (path : Run s ts last) (ended : last.rest = [])
    (final : ts.getLast?.map Token.lexeme = some (.separator .newline)) :
    Run (s.further more) ts (last.further more) := by
  induction path with
  | stop => exact .stop
  | @step t middle ts last s found path ih =>
      have left := run_parts path
      rw [ended, List.append_nil] at left
      cases ts with
      | nil =>
          replace final : t.lexeme = .separator .newline := Option.some.inj final
          cases path
          apply Run.step _ .stop
          apply next?_further more found
          intro c rest begins
          obtain ⟨_, parts⟩ := next?_parts _ _ _ found
          rw [begins, ended, List.append_nil, Token.raw, final] at parts
          obtain ⟨rfl, rfl⟩ := List.cons.inj parts
          rw [final, ended]
          exact Scan.lexeme_separator s.context more .newline
      | cons u ts =>
          rw [List.getLast?_cons_cons] at final
          apply Run.step _ (ih ended final)
          apply next?_further more found
          intro c rest begins
          obtain ⟨_, _, same, read⟩ := next?_lexeme found
          obtain ⟨rfl, rfl⟩ := List.cons.inj (begins.symm.trans same)
          apply Scan.lexeme_further read
          obtain ⟨e, shown, newline⟩ := Option.map_eq_some_iff.mp final
          obtain ⟨front, whole⟩ := List.getLast?_eq_some_iff.mp shown
          rw [Scan.EndsLine, ← left, whole]
          simp [Token.rawText, Token.raw, newline, Lexeme.raw, Separator.char]

theorem run_context (path : Run s ts last)
    (final : ts.getLast?.map Token.lexeme = some (.separator .newline)) : last.context = {} := by
  obtain ⟨t, shown, newline⟩ := Option.map_eq_some_iff.mp final
  obtain ⟨front, rfl⟩ := List.getLast?_eq_some_iff.mp shown
  obtain ⟨middle, _, path⟩ := run_append_iff.mp path
  cases path with
  | step found stopped =>
      cases stopped
      rw [next?_context found, newline]
      rfl

theorem follows_line_end {p : Pos} {text : List UInt8}
    (here : p.Follows (text ++ [Bytes.newline])) :
    p = Pos.start.below ((text ++ [Bytes.newline]).count Bytes.newline) := by
  obtain ⟨line, col⟩ := here
  rw [Bytes.columnAfter_line_end] at col
  have first : p.col = 1 := UInt32.toNat_inj.mp col
  have below : p.line = UInt32.ofNat (1 + (text ++ [Bytes.newline]).count Bytes.newline) := by
    rw [Bytes.lineAfter] at line
    rw [← line, UInt32.ofNat_toNat]
  calc p = ⟨p.line, p.col⟩ := rfl
    _ = _ := by rw [first, below]; rfl

theorem tokenize_ends {text : List UInt8} {t : Token} (short : text.length < UInt32.size - 1)
    (present : t ∈ tokenize text) : ∀ p, p = t.span.first ∨ p = t.span.last →
      ∃ front, front.length ≤ text.length ∧ p.Follows front := by
  obtain ⟨before, after, parts⟩ := List.append_of_mem present
  obtain ⟨rest, whole, _⟩ := tokenize_token parts
  obtain ⟨first, last⟩ := tokenize_follows short parts
  have size := congrArg List.length whole
  simp only [List.length_append] at size
  intro p ends
  rcases ends with rfl | rfl
  · exact ⟨Token.rawText before, by omega, first⟩
  · have inside : (Token.rawText before ++ t.raw.dropLast).length ≤ text.length := by
      rw [List.length_append, List.length_dropLast]
      omega
    exact ⟨_, inside, last⟩

theorem below_exact {p : Pos} {front : List UInt8} {lines : Nat} (here : p.Follows front)
    (room : front.length + lines < UInt32.size - 1) :
    (p.below lines).line.toNat = p.line.toNat + lines := by
  have few : front.count Bytes.newline ≤ front.length := List.count_le_length
  have line := here.1
  rw [Bytes.lineAfter] at line
  rw [UInt32.size] at room
  simp only [Pos.below, UInt32.toNat_ofNat']
  omega

-- The scanner behind the line end is the one that begins the second text, but for its position.
theorem run_line_boundary {a b : List UInt8} (short : a.length + b.length < UInt32.size - 2)
    (final : (tokenize (a ++ [Bytes.newline])).getLast?.map Token.lexeme =
      some (.separator .newline)) :
    ∃ last, last.rest = [] ∧ Run { rest := a ++ Bytes.newline :: b }
      (tokenize (a ++ [Bytes.newline]) ++ (tokenize b).map
        (Token.below ((a ++ [Bytes.newline]).count Bytes.newline))) last := by
  obtain ⟨middle, first, ended⟩ := run_tokens { rest := a ++ [Bytes.newline] }
  obtain ⟨last, second, nothing⟩ := run_tokens { rest := b }
  rw [next?_none_iff] at ended nothing
  have place : middle.pos.Follows (a ++ [Bytes.newline]) := by
    have parts := run_parts first
    rw [ended, List.append_nil] at parts
    rw [run_position first, parts]
    refine Pos.follows_text ?_
    simp only [List.length_append, List.length_cons, List.length_nil]
    omega
  have joined : middle.further b =
      below ((a ++ [Bytes.newline]).count Bytes.newline) { rest := b } := by
    unfold further below
    rw [ended, run_context first final, follows_line_end place]
    rfl
  have front := run_further b first ended final
  rw [joined] at front
  have path := run_append_iff.mpr ⟨_, front, run_below _ second⟩
  simp only [further, List.append_assoc, List.singleton_append] at path
  exact ⟨last.below _, nothing, path⟩

-- Moving down is by numbers, and in a text this short none of them runs over.
theorem tokenize_line_boundary {a b : List UInt8}
    (short : a.length + b.length < UInt32.size - 2)
    (final : (tokenize (a ++ [Bytes.newline])).getLast?.map Token.lexeme =
      some (.separator .newline)) :
    let lines := (a ++ [Bytes.newline]).count Bytes.newline
    tokenize (a ++ Bytes.newline :: b) =
        tokenize (a ++ [Bytes.newline]) ++ (tokenize b).map (Token.below lines) ∧
      warnings (tokenize (a ++ Bytes.newline :: b)) =
        warnings (tokenize (a ++ [Bytes.newline])) ++
          (warnings (tokenize b)).map (Warning.below lines) ∧
      ∀ t ∈ tokenize b,
        (t.below lines).span.first.line.toNat = t.span.first.line.toNat + lines ∧
          (t.below lines).span.last.line.toNat = t.span.last.line.toNat + lines := by
  intro lines
  obtain ⟨last, ended, path⟩ := run_line_boundary short final
  have tokens : tokenize (a ++ Bytes.newline :: b) =
      tokenize (a ++ [Bytes.newline]) ++ (tokenize b).map (Token.below lines) :=
    tokens_of_run path ended
  refine ⟨tokens, ?_, ?_⟩
  · rw [tokens, ← warnings_below]
    exact List.filterMap_append
  · intro t present
    have few : lines ≤ a.length + 1 := by
      have bound : (a ++ [Bytes.newline]).count Bytes.newline ≤ (a ++ [Bytes.newline]).length :=
        List.count_le_length
      rwa [List.length_append] at bound
    have moved : ∀ p, p = t.span.first ∨ p = t.span.last →
        (p.below lines).line.toNat = p.line.toNat + lines := by
      intro p ends
      obtain ⟨front, inside, here⟩ := tokenize_ends (by omega) present p ends
      exact below_exact here (by omega)
    exact ⟨moved _ (.inl rfl), moved _ (.inr rfl)⟩

-- The mark of a number in front of the line end, a directive and an open string behind it.
theorem tokenize_line_boundary_open :
    let a := utf8 "/* two\nlines */ x = 0x"
    let b := utf8 "#f\n \"open"
    let unclosed : Warning := ⟨⟨⟨2, 2⟩, ⟨2, 6⟩⟩, utf8 "unterminated string literal"⟩
    warnings (tokenize b) = [unclosed] ∧
      tokenize (a ++ Bytes.newline :: b) =
        tokenize (a ++ [Bytes.newline]) ++ (tokenize b).map (Token.below 2) ∧
      warnings (tokenize (a ++ Bytes.newline :: b)) = [unclosed.below 2] := by
  intro a b unclosed
  have lines : (a ++ [Bytes.newline]).count Bytes.newline = 2 := by decide +kernel
  have alone : warnings (tokenize b) = [unclosed] := by decide +kernel
  have none : warnings (tokenize (a ++ [Bytes.newline])) = [] := by decide +kernel
  obtain ⟨tokens, composed, _⟩ :=
    tokenize_line_boundary (a := a) (b := b) (by decide +kernel) (by decide +kernel)
  rw [lines] at tokens composed
  rw [alone, none] at composed
  exact ⟨alone, tokens, composed⟩

end Scanner
end NwscriptBindings
