import NwscriptBindings.Proofs.Grammar.Failures
import NwscriptBindings.Proofs.Grammar.Recognition
import NwscriptBindings.Proofs.Token.Position

namespace NwscriptBindings

open Grammar

namespace Parser

variable {α : Type} {p : Parser α} {e : Failure} {ts rest : List Token} {s : Stmt}

def Ahead (begins : List Token → Prop) (e : Failure) (ts : List Token) : Prop :=
  ∃ us, ts = us ++ e.place ∧ begins us

section ahead

variable {begins goal : List Token → Prop}

theorem ahead_skipped {skip : Token → Bool} (problem : Problem)
    (blank : ∀ us, (∀ t ∈ us, skip t = true) → begins us) :
    Ahead begins ⟨problem, ts.dropWhile skip⟩ ts := by
  have skipped : ∀ t ∈ ts.takeWhile skip, skip t = true :=
    fun t => List.all_eq_true.mp List.all_takeWhile t
  exact ⟨_, List.takeWhile_append_dropWhile.symm, blank _ skipped⟩

theorem Ahead.behind {front : List Token} (found : Ahead begins e ts)
    (step : ∀ us, begins us → goal (front ++ us)) : Ahead goal e (front ++ ts) := by
  obtain ⟨us, rfl, begun⟩ := found
  exact ⟨front ++ us, by simp, step us begun⟩

theorem ahead_manyTill {stop : Parser Unit} (quiet : Confined false stop) (bound : Confined true p)
    (advances : Advances p) (last : ∀ ts, p ts = .failed e → Ahead begins e ts)
    (more : ∀ a us vs rest, Reads p a us rest → begins vs → begins (us ++ vs))
    (failed : manyTill stop p ts = .failed e) : Ahead begins e ts := by
  induction size : ts.length using Nat.strongRecOn generalizing ts with
  | ind n ih =>
      obtain ⟨_, here | ⟨rest, accepted, later⟩⟩ := (failed_manyTill_iff quiet advances).mp failed
      · exact last ts here
      · have shorter := accepted.shorter advances
        obtain ⟨a, us, rfl, read⟩ := accepted.reads bound
        exact (ih _ (size ▸ shorter) later rfl).behind fun vs => more a us vs rest read

end ahead

theorem accepts_lexeme {l : Lexeme} (accepted : Accepts (lexeme l) ts rest) :
    ∃ us, ts = us ++ rest ∧ Terminal l us := by
  obtain ⟨_, us, same, read⟩ := accepted.reads (confined_lexeme l)
  exact ⟨us, same, reads_lexeme_iff.mp read⟩

theorem accepts_logical (accepted : Accepts logical ts rest) :
    ∃ e us, ts = us ++ rest ∧ LogicalRule e us := by
  obtain ⟨e, us, same, read⟩ := accepted.reads confined_logical
  exact ⟨e, us, same, reads_logical_iff.mp read⟩

theorem accepts_arithmetic {stop : Separator} (accepted : Accepts (arithmetic stop) ts rest) :
    ∃ e us, ts = us ++ rest ∧ ArithmeticRule stop e us := by
  obtain ⟨e, us, same, read⟩ := accepted.reads (confined_arithmetic stop)
  exact ⟨e, us, same, reads_arithmetic_iff.mp read⟩

-- A token to complete a derivation with. Where it stands does not matter.
def mark (l : Lexeme) : Token := ⟨l, .zero⟩

theorem mark_terminal {gap : List Token} {l : Lexeme} (skipped : ∀ t ∈ gap, t.isTrivia = true)
    (kept : l.isTrivia = false) : Terminal l (gap ++ [mark l]) :=
  terminal_of_token gap skipped rfl kept

theorem mark_alone {l : Lexeme} (kept : l.isTrivia = false) : Terminal l [mark l] :=
  terminal_of_token [] (by simp) rfl kept

theorem mark_closes {gap : List Token} (skipped : ∀ t ∈ gap, t.isSpace = true) :
    CloseRule (gap ++ [mark (.separator .closeBrace)]) :=
  ⟨mark _, ⟨gap, rfl, skipped, rfl⟩, rfl⟩

def BeginsStmt (ts : List Token) : Prop := ∃ more s, StmtRule false s (ts ++ more)

def BeginsBlock (ts : List Token) : Prop := ∃ more b, BlockRule false b (ts ++ more)

def BeginsItems (ts : List Token) : Prop :=
  ∃ more stmts is cs, ts ++ more = is ++ cs ∧ ItemsRule false stmts is ∧ CloseRule cs

theorem beginsStmt_of {us : List Token} (derived : StmtRule false s us) (more : List Token)
    (whole : us = ts ++ more) : BeginsStmt ts := ⟨more, s, whole ▸ derived⟩

theorem beginsStmt_front (begins : BeginsStmt (ts ++ rest)) : BeginsStmt ts := by
  obtain ⟨more, s, derived⟩ := begins
  exact beginsStmt_of derived (rest ++ more) (by simp)

theorem trivia_begins (skipped : ∀ t ∈ ts, t.isTrivia = true) : BeginsStmt ts := by
  have closed : CloseRule ([] ++ [mark (.separator .closeBrace)]) := mark_closes (by simp)
  exact beginsStmt_of (.block (.intro (mark_terminal skipped rfl) .nil closed))
    [mark (.separator .openBrace), mark (.separator .closeBrace)] (by simp)

theorem space_begins (skipped : ∀ t ∈ ts, t.isSpace = true) : BeginsItems ts :=
  ⟨[mark (.separator .closeBrace)], [], [], _, rfl, .nil, mark_closes skipped⟩

-- Every `do` with its body can be given the end `while ( ) ;`.
theorem do_completes {body : Stmt} {ks bs gap : List Token} (word : Terminal (.keyword .doWord) ks)
    (nests : StmtRule false body bs) (skipped : ∀ t ∈ gap, t.isTrivia = true) :
    BeginsStmt (ks ++ (bs ++ gap)) := by
  have opened : Terminal (.separator .openParen) [mark (.separator .openParen)] := mark_alone rfl
  have enclosed : LogicalRule _ ([mark (.separator .openParen)] ++
      ([] ++ [mark (.separator .closeParen)])) := ⟨_, _, _, rfl, opened, rfl, rfl⟩
  have ends : Terminal (.separator .semicolon) [mark (.separator .semicolon)] := mark_alone rfl
  exact beginsStmt_of (.doLoop word nests (mark_terminal skipped rfl) enclosed ends)
    [mark (.keyword .whileWord), mark (.separator .openParen), mark (.separator .closeParen),
      mark (.separator .semicolon)] (by simp)

theorem uncommented_other {more : List Token} (free : Uncommented (ts ++ rest))
    (seen : ¬ ∀ t ∈ ts, t.isSpace = true) : Uncommented (ts ++ more) := by
  cases shown : ts.dropWhile Token.isSpace with
  | nil =>
      have whole := List.takeWhile_append_dropWhile (p := Token.isSpace) (l := ts)
      rw [shown, List.append_nil] at whole
      exact (seen (whole ▸ List.all_eq_true.mp List.all_takeWhile)).elim
  | cons u others =>
      intro t behind found
      simp only [List.dropWhile_append, shown, List.isEmpty_cons] at found
      obtain ⟨rfl, _⟩ := List.cons.inj found
      exact free u (others ++ rest) (by simp [List.dropWhile_append, shown])

theorem unsupported_begins (failed : unsupportedStmt ts = .failed e) : Ahead BeginsStmt e ts := by
  rcases failed_unsupportedStmt_iff.mp failed with ⟨_, rfl⟩ | ⟨_, rfl⟩
  · exact ahead_skipped _ fun _ => trivia_begins
  · exact ahead_skipped _ fun _ => trivia_begins

section nesting

variable {nested : Parser Stmt} (inner : ∀ ts, nested ts = .failed e → Ahead BeginsStmt e ts)
include inner

theorem body_begins (failed : body nested ts = .failed e) : Ahead BeginsStmt e ts := by
  rcases failed_body_iff.mp failed with deeper | ⟨_, rfl⟩
  · exact inner ts deeper
  · exact ahead_skipped _ fun _ => trivia_begins

theorem item_begins (failed : item nested ts = .failed e) : Ahead BeginsItems e ts := by
  obtain ⟨uncommented, deeper | ⟨_, rfl⟩⟩ := failed_item_iff.mp failed
  · obtain ⟨us, rfl, more, s, derived⟩ := inner ts deeper
    refine ⟨us, rfl, ?_⟩
    by_cases blank : ∀ t ∈ us, t.isSpace = true
    · exact space_begins blank
    · have free : Uncommented (us ++ more) :=
        uncommented_other (comment_declined_iff.mp uncommented) blank
      have closed : CloseRule ([] ++ [mark (.separator .closeBrace)]) := mark_closes (by simp)
      exact ⟨more ++ [mark (.separator .closeBrace)], _, _, _, by simp,
        .stmt free derived .nil, closed⟩
  · exact ahead_skipped _ fun _ => space_begins

theorem while_begins (failed : whileStmt nested ts = .failed e) : Ahead BeginsStmt e ts := by
  obtain ⟨_, word, _, enclosed, deeper⟩ := failed_whileStmt_iff.mp failed
  obtain ⟨ks, rfl, start⟩ := accepts_lexeme word
  obtain ⟨test, cs, rfl, condition⟩ := accepts_logical enclosed
  obtain ⟨us, rfl, more, body, nests⟩ := body_begins inner deeper
  refine ⟨ks ++ (cs ++ us), by simp, ?_⟩
  exact beginsStmt_of (.whileLoop start condition nests) more (by simp)

theorem for_begins (failed : forStmt nested ts = .failed e) : Ahead BeginsStmt e ts := by
  obtain ⟨_, word, _, opened, _, one, _, two, _, three, deeper⟩ := failed_forStmt_iff.mp failed
  obtain ⟨ks, rfl, start⟩ := accepts_lexeme word
  obtain ⟨os, rfl, front⟩ := accepts_lexeme opened
  obtain ⟨init, is, rfl, first⟩ := accepts_arithmetic one
  obtain ⟨test, cs, rfl, second⟩ := accepts_arithmetic two
  obtain ⟨post, ps, rfl, third⟩ := accepts_arithmetic three
  obtain ⟨us, rfl, more, body, nests⟩ := body_begins inner deeper
  refine ⟨ks ++ (os ++ (is ++ (cs ++ (ps ++ us)))), by simp, ?_⟩
  exact beginsStmt_of (.forLoop start front first second third nests) more (by simp)

variable (bound : Confined true nested)
  (sound : ∀ s ts rest, Reads nested s ts rest → StmtRule false s ts)
include bound sound

theorem do_begins (failed : doStmt nested ts = .failed e) : Ahead BeginsStmt e ts := by
  obtain ⟨_, word, deeper⟩ := failed_doStmt_iff.mp failed
  obtain ⟨ks, rfl, start⟩ := accepts_lexeme word
  rcases deeper with deeper | ⟨_, read, _, rfl⟩
  · refine (body_begins inner deeper).behind fun us begun => ?_
    obtain ⟨more, s, nests⟩ := begun
    have ended : BeginsStmt (ks ++ (us ++ more ++ [])) := do_completes start nests (by simp)
    rw [List.append_nil, ← List.append_assoc] at ended
    exact beginsStmt_front ended
  · obtain ⟨s, bs, rfl, found⟩ := read.reads (confined_body bound)
    have nests := sound _ _ _ (reads_body_iff.mp found)
    rw [← List.append_assoc]
    refine (ahead_skipped _ fun _ => id).behind fun gap skipped => ?_
    rw [List.append_assoc]
    exact do_completes start nests fun t present => trivia_of_space (skipped t present)

theorem if_begins (failed : ifStmt nested ts = .failed e) : Ahead BeginsStmt e ts := by
  obtain ⟨_, word, _, enclosed, deeper⟩ := failed_ifStmt_iff.mp failed
  obtain ⟨ks, rfl, start⟩ := accepts_lexeme word
  obtain ⟨test, cs, rfl, condition⟩ := accepts_logical enclosed
  rcases deeper with deeper | ⟨_, read, deeper⟩
  · obtain ⟨us, rfl, more, s, nests⟩ := body_begins inner deeper
    refine ⟨ks ++ (cs ++ us), by simp, ?_⟩
    exact beginsStmt_of (.ifThen start condition nests) more (by simp)
  · obtain ⟨s, bs, rfl, found⟩ := read.reads (confined_body bound)
    have nests := sound _ _ _ (reads_body_iff.mp found)
    obtain ⟨_, again, follows⟩ := failed_otherwise_iff.mp deeper
    obtain ⟨ws, rfl, branch⟩ := accepts_lexeme again
    obtain ⟨us, rfl, more, other, follows⟩ := body_begins inner follows
    refine ⟨ks ++ (cs ++ (bs ++ (ws ++ us))), by simp, ?_⟩
    exact beginsStmt_of (.ifElse start condition nests branch follows) more (by simp)

variable (advances : Advances nested)
include advances

theorem items_begin (failed : manyTill blockEnd (item nested) ts = .failed e) :
    Ahead BeginsItems e ts := by
  refine ahead_manyTill confined_blockEnd (confined_item bound) (advances_item advances)
    (fun _ deeper => item_begins inner deeper) ?_ failed
  intro s us vs rest read ⟨more, stmts, is, cs, whole, listed, closed⟩
  have same : us ++ vs ++ more = us ++ is ++ cs := by
    rw [List.append_assoc, whole, List.append_assoc]
  rcases reads_item_iff.mp read with ⟨c, noted, rfl⟩ | ⟨free, nests⟩
  · exact ⟨more, _, _, cs, same, .comment noted listed, closed⟩
  · exact ⟨more, _, _, cs, same, .stmt (uncommented_front free) (sound _ _ _ nests) listed, closed⟩

theorem block_begins (failed : block nested ts = .failed e) : Ahead BeginsBlock e ts := by
  obtain ⟨_, opened, deeper⟩ := failed_block_iff.mp failed
  obtain ⟨os, rfl, front⟩ := accepts_lexeme opened
  refine (items_begin inner bound sound advances deeper).behind fun us begun => ?_
  obtain ⟨more, stmts, is, cs, whole, listed, closed⟩ := begun
  have derived : BlockRule false _ _ := .intro front listed closed
  rw [← whole, ← List.append_assoc] at derived
  exact ⟨more, _, derived⟩

theorem switch_begins (failed : switchStmt nested ts = .failed e) : Ahead BeginsStmt e ts := by
  obtain ⟨_, word, _, enclosed, deeper⟩ := failed_switchStmt_iff.mp failed
  obtain ⟨ks, rfl, start⟩ := accepts_lexeme word
  obtain ⟨tag, cs, rfl, inside⟩ := accepts_logical enclosed
  obtain ⟨us, rfl, more, b, derived⟩ := block_begins inner bound sound advances deeper
  refine ⟨ks ++ (cs ++ us), by simp, ?_⟩
  exact beginsStmt_of (.switch start inside derived) more (by simp)

theorem ofForm_begins {form : StmtForm} (failed : ofForm nested form ts = .failed e) :
    Ahead BeginsStmt e ts := by
  cases form with
  | block =>
      obtain ⟨us, rfl, more, b, derived⟩ :=
        block_begins inner bound sound advances (failed_blockStmt_iff.mp failed)
      exact ⟨us, rfl, more, _, .block derived⟩
  | whileLoop => exact while_begins inner failed
  | forLoop => exact for_begins inner failed
  | doLoop => exact do_begins inner bound sound failed
  | ifThen => exact if_begins inner bound sound failed
  | switch => exact switch_begins inner bound sound advances failed
  | unsupported => exact unsupported_begins failed
  | var => exact (quiet_never_fails confined_varStmt failed).elim
  | assign => exact (quiet_never_fails confined_assignStmt failed).elim
  | step => exact (quiet_never_fails confined_stepStmt failed).elim
  | call => exact (quiet_never_fails confined_callStmt failed).elim
  | leave => exact (quiet_never_fails confined_leaveStmt failed).elim
  | label => exact (quiet_never_fails confined_labelStmt failed).elim
  | branch => exact (quiet_never_fails confined_branchStmt failed).elim

end nesting

theorem statement_begins {forms : List StmtForm} (failed : statement forms ts = .failed e) :
    Ahead BeginsStmt e ts := by
  induction size : ts.length using Nat.strongRecOn generalizing ts with
  | ind n ih =>
      rw [statement_eq, size] at failed
      obtain ⟨_, form, _, _, _, found⟩ := failed_firstOf_iff.mp failed
      refine ofForm_begins (fun us deeper => ?_) (confined_below forms n)
        (fun s us more read => statement_sound (reads_below_iff.mp read).2)
        (advances_below forms n) found
      unfold below at deeper
      split at deeper
      · rename_i shorter
        exact ih _ shorter deeper rfl
      · cases deeper

def BeginsDecl (ts : List Token) : Prop := ∃ more d, DeclRule false d (ts ++ more)

theorem function_begins {forms : List StmtForm} (free : Uncommented ts)
    (failed : functionDecl forms ts = .failed e) : Ahead BeginsDecl e ts := by
  obtain ⟨_, read, _, deeper⟩ := failed_functionDecl_iff.mp failed
  obtain ⟨sig, us, rfl, signed⟩ := read.reads confined_signature
  rw [reads_signature_iff] at signed
  obtain ⟨k, found⟩ := signature_begins signed
  refine (block_begins (fun _ deeper => statement_begins deeper) (confined_statement forms)
    (fun _ _ _ nests => statement_sound nests) (advances_statement forms) deeper).behind ?_
  intro vs ⟨more, b, derived⟩
  have visible : Uncommented (us ++ (vs ++ more)) :=
    uncommented_append (uncommented_front free) found
  exact ⟨more, _, by simpa using DeclRule.function visible signed derived⟩

theorem decl_begins {forms : List StmtForm} (failed : decl forms ts = .failed e) :
    Ahead BeginsDecl e ts := by
  obtain ⟨_, uncommented, deeper⟩ := failed_decl_iff.mp failed
  exact function_begins (comment_declined_iff.mp uncommented) deeper

def BeginsDecls (ts : List Token) : Prop :=
  ∃ more ds us es, ts ++ more = us ++ es ∧ ListRule (TracedRule (DeclRule false)) ds us ∧
    ∀ t ∈ es, t.isSpace = true

theorem decls_begin {forms : List StmtForm} (failed : decls forms ts = .failed e) :
    Ahead BeginsDecls e ts := by
  have bound : Confined true (unitDecl forms) := confined_orFail
    (confined_traced (confined_decl forms)) (by decide) fun _ => List.dropWhile_suffix _
  refine ahead_manyTill confined_endOfTokens bound (advances_unitDecl forms)
    (fun us deeper => ?_) ?_ failed
  · rcases failed_orFail_iff.mp deeper with deeper | ⟨_, rfl⟩
    · obtain ⟨us, rfl, more, d, derived⟩ := decl_begins (failed_traced_iff.mp deeper)
      have single : TracedRule (DeclRule false) ⟨d, ownTokens (us ++ more)⟩ (us ++ more) :=
        ⟨derived, rfl⟩
      exact ⟨us, rfl, more, _, _, [], by simp, .cons single .nil, by simp⟩
    · exact ahead_skipped _ fun us skipped => ⟨[], [], [], us, by simp, .nil, skipped⟩
  · intro d us vs rest read ⟨more, ds, is, es, whole, listed, blank⟩
    rw [unitDecl, reads_orFail_iff, reads_traced_iff] at read
    refine ⟨more, d :: ds, us ++ is, es, ?_, .cons ⟨decl_sound read.1, read.2⟩ listed, blank⟩
    rw [List.append_assoc, whole, List.append_assoc]

end Parser

-- The place in the token list that an error points at: its end where the input ended too early,
-- and otherwise the token whose span the error shows.
def SyntaxError.PointsAt (err : SyntaxError) (tokens : List Token) (i : Nat) : Prop :=
  if err.problem = .endOfInput then i = tokens.length
  else ∃ t, tokens[i]? = some t ∧ t.span = err.token.span

theorem index_of_span {tokens : List Token} {t u : Token} {i j : Nat}
    (distinct : tokens.Pairwise fun a b => a.span ≠ b.span) (first : tokens[i]? = some t)
    (second : tokens[j]? = some u) (same : t.span = u.span) : i = j := by
  rw [List.pairwise_iff_getElem] at distinct
  obtain ⟨small, rfl⟩ := List.getElem?_eq_some_iff.mp first
  obtain ⟨large, rfl⟩ := List.getElem?_eq_some_iff.mp second
  rcases Nat.lt_trichotomy i j with less | equal | more
  · exact (distinct i j small large less same).elim
  · exact equal
  · exact (distinct j i large small more same.symm).elim

-- The report of a failure points at the place of the failure and at nothing else.
theorem report_pointsAt {lines : List (List UInt8)} {f : Failure} {us : List Token}
    (distinct : (us ++ f.place).Pairwise fun a b => a.span ≠ b.span)
    (nonempty : us ++ f.place ≠ []) (known : f.problem ≠ .endOfInput) (i : Nat) :
    (f.report lines (us ++ f.place)).PointsAt (us ++ f.place) i ↔ i = us.length := by
  obtain ⟨problem, place⟩ := f
  cases place with
  | nil =>
      rw [List.append_nil] at nonempty ⊢
      have ended : (Failure.report lines us ⟨problem, []⟩).problem = .endOfInput := by
        rw [Failure.report, List.getLast?_eq_some_getLast nonempty]
      rw [SyntaxError.PointsAt, if_pos ended]
  | cons t more =>
      have shown : Failure.report lines (us ++ t :: more) ⟨problem, t :: more⟩ =
        ⟨problem, t, Source.lineAt lines t.span.first.line⟩ := rfl
      have here : (us ++ t :: more)[us.length]? = some t := by simp
      rw [shown, SyntaxError.PointsAt, if_neg known]
      constructor
      · rintro ⟨u, found, same⟩
        exact index_of_span distinct found here same
      · rintro rfl
        exact ⟨t, here, rfl⟩

namespace ScriptUnit

theorem parseWith_fails {forms : List StmtForm} {name : List UInt8} {lines : List (List UInt8)}
    {tokens : List Token} {err : SyntaxError}
    (failed : parseWith forms name lines tokens = .error err) :
    ∃ (f : Failure) (us : List Token), tokens = us ++ f.place ∧ f.problem ≠ .endOfInput ∧
      err = f.report lines tokens ∧ Parser.BeginsDecls us := by
  unfold parseWith at failed
  split at failed
  · cases failed
  · cases failed
    exact ⟨⟨.strayAtTopLevel, tokens⟩, [], rfl, by simp, rfl, [], [], [], [], rfl, .nil, by simp⟩
  · rename_i f found
    cases failed
    have inside := Parser.confined_decls forms tokens
    rw [found] at inside
    obtain ⟨us, parts, begun⟩ := Parser.decls_begin found
    exact ⟨f, us, parts, inside.2.1, rfl, begun⟩

theorem parse_of_begins {us : List Token} (begins : Parser.BeginsDecls us) (name : List UInt8)
    (lines : List (List UInt8)) : ∃ more u, parse name lines (us ++ more) = .ok u := by
  obtain ⟨more, ds, vs, es, whole, listed, blank⟩ := begins
  have derived : UnitRule false ⟨name, ds, vs ++ es⟩ (vs ++ es) := .intro listed blank
  rw [← whole] at derived
  exact ⟨more, parseWith_complete StmtForm.mem_order derived⟩

-- Everything in front of the reported place is the beginning of a unit that is accepted.
theorem parse_error_viable (text name : List UInt8) (lines : List (List UInt8)) (err : SyntaxError)
    (short : text.length < UInt32.size - 1) (failed : parse name lines (tokenize text) = .error err) :
    ∃ i, (∀ j, err.PointsAt (tokenize text) j ↔ j = i) ∧
      ∃ more u, parse name lines ((tokenize text).take i ++ more) = .ok u := by
  obtain ⟨f, us, parts, known, rfl, begins⟩ := parseWith_fails failed
  have distinct := Scanner.spans_distinct short
  have nonempty : us ++ f.place ≠ [] := by
    intro none
    rw [parts, none] at failed
    have empty : UnitRule false ⟨name, [], [] ++ []⟩ ([] ++ []) := .intro .nil (by simp)
    obtain ⟨u, parsed⟩ : ∃ u, parse name lines [] = .ok u :=
      parseWith_complete StmtForm.mem_order empty
    rw [failed] at parsed
    cases parsed
  rw [parts] at distinct ⊢
  refine ⟨us.length, report_pointsAt distinct nonempty known, ?_⟩
  rw [List.take_left]
  exact parse_of_begins begins name lines

-- A `do` inside two open blocks that lacks its end.
theorem parse_error_viable_nested : ∃ err,
    parse [] [] (tokenize (utf8 "void f() { if (a) { do x(); } }")) = .error err ∧
      ∃ i, (∀ j, err.PointsAt (tokenize (utf8 "void f() { if (a) { do x(); } }")) j ↔ j = i) ∧
        ∃ more u, parse [] []
          ((tokenize (utf8 "void f() { if (a) { do x(); } }")).take i ++ more) = .ok u := by
  have refused : (parse [] [] (tokenize (utf8 "void f() { if (a) { do x(); } }"))).isOk = false := by
    decide +kernel
  cases outcome : parse [] [] (tokenize (utf8 "void f() { if (a) { do x(); } }")) with
  | ok u =>
      rw [outcome] at refused
      cases refused
  | error err => exact ⟨err, rfl, parse_error_viable _ _ _ err (by decide) outcome⟩

end ScriptUnit
end NwscriptBindings
