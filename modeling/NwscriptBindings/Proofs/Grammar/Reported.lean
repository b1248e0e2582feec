import NwscriptBindings.Proofs.Grammar.Attempts

namespace NwscriptBindings

theorem Token.isTrivia_eq (t : Token) : t.isTrivia = (t.isSpace || t.isComment) := by
  rw [isTrivia, isSpace, isComment, kind]
  cases t.lexeme <;> simp [Lexeme.isTrivia, Lexeme.isSpace, Lexeme.kind]

namespace Parser

variable {forms : List StmtForm} {ts more : List Token} {t : Token}

theorem first_kept {skip : Token → Bool} (found : ts.dropWhile skip = t :: more) :
    skip t = false := by
  have kept := List.head?_dropWhile_not skip ts
  rwa [found] at kept

theorem decl_declined_uncommented (none : decl forms ts = .declined) : comment ts = .declined := by
  obtain ⟨_, others⟩ := orElse_declined_iff.mp none
  obtain ⟨free, _⟩ := orElse_declined_iff.mp others
  exact map_declined_iff.mp free

-- A comment behind the body of a do loop, with something other than `while` to follow. The loop is
-- one that reading the tokens gets to.
inductive BehindDoBody (forms : List StmtForm) (tokens : List Token) : Token → Prop where
  | intro {ts bs gap more : List Token} {t : Token}
      (tried : Relation.ReflTransGen (Attempt.Asks forms) ⟨.unit, tokens⟩ ⟨.form .doLoop, ts⟩)
      (mark : Accepts (keyword .doWord) ts bs)
      (read : Accepts (body (statement forms)) bs (gap ++ t :: more))
      (blank : ∀ g ∈ gap, g.isSpace = true) (remark : t.isComment = true)
      (other : nextLexeme more ≠ some (.keyword .whileWord)) : BehindDoBody forms tokens t

namespace Attempt

variable {a : Attempt} {f : Failure} {tokens : List Token}

theorem records_visible (records : Records forms a f) (shown : f.place = t :: more) :
    t.isSpace = false := by
  have counts : t.isTrivia = false → t.isSpace = false := by
    rw [Token.isTrivia_eq]
    intro neither
    exact (Bool.or_eq_false_iff.mp neither).1
  cases records with
  | strayAtTopLevel | strayInBlock | missingWhile => exact first_kept shown
  | missingStatement | directiveInBlock | structInBlock => exact counts (first_kept shown)

theorem records_significant (records : Records forms a f) (shown : f.place = t :: more)
    (known : f.problem ≠ .missingWhile) : t.isTrivia = false := by
  cases records with
  | strayAtTopLevel going none =>
      exact comment_declined_iff.mp (decl_declined_uncommented none) t more shown
  | strayInBlock free none => exact comment_declined_iff.mp free t more shown
  | missingWhile => exact (known rfl).elim
  | missingStatement | directiveInBlock | structInBlock => exact first_kept shown

theorem keyword_behind_comment {k : Keyword} {gap : List Token}
    (blank : ∀ g ∈ gap, g.isSpace = true) (remark : t.isComment = true) :
    keyword k (gap ++ t :: more) = .declined ↔ nextLexeme more ≠ some (.keyword k) := by
  have skipped : ∀ g ∈ gap ++ [t], g.isTrivia = true := by
    intro g present
    rw [Token.isTrivia_eq]
    rcases List.mem_append.mp present with front | last
    · simp [blank g front]
    · simp [List.mem_singleton.mp last, remark]
  have next : nextLexeme (gap ++ [t] ++ more) = nextLexeme more := nextLexeme_skip skipped
  rw [List.append_assoc, List.singleton_append] at next
  rw [keyword, lexeme_declined_iff, next]

theorem behindDoBody_iff : BehindDoBody forms tokens t ↔
    t.isComment = true ∧ ∃ more, Recorded forms ⟨.unit, tokens⟩ ⟨.missingWhile, t :: more⟩ := by
  constructor
  · intro behind
    cases behind with
    | @intro ts bs gap more t tried mark read blank remark other =>
        have visible : t.isSpace = false := by
          rw [Token.isSpace, Token.isComment, Token.kind] at *
          cases same : t.lexeme <;> simp_all [Lexeme.kind, Lexeme.isSpace]
        have place : (gap ++ t :: more).dropWhile Token.isSpace = t :: more := by
          rw [List.dropWhile_append_of_pos blank, List.dropWhile_cons_of_neg (by simp [visible])]
        have records := Records.missingWhile mark read
          ((keyword_behind_comment blank remark).mpr other)
        rw [place] at records
        exact ⟨remark, more, _, tried, records⟩
  · intro found
    obtain ⟨remark, more, ⟨p, ts⟩, tried, records⟩ := found
    generalize shown : t :: more = place at records
    cases records with
    | @missingWhile ts bs rest mark read none =>
        have cut := List.takeWhile_append_dropWhile (p := Token.isSpace) (l := rest)
        rw [← shown] at cut
        have blank : ∀ g ∈ rest.takeWhile Token.isSpace, g.isSpace = true :=
          List.all_eq_true.mp List.all_takeWhile
        rw [← cut] at read none
        exact .intro tried mark read blank remark ((keyword_behind_comment blank remark).mp none)

end Attempt

end Parser

namespace ScriptUnit

open NwscriptBindings.Parser

theorem parse_error_recorded {name : List UInt8} {lines : List (List UInt8)} {tokens : List Token}
    {err : SyntaxError} (failed : parse name lines tokens = .error err) :
    ∃ f, err = f.report lines tokens ∧
      ∀ g, Attempt.Recorded StmtForm.order ⟨.unit, tokens⟩ g ↔ g = f := by
  have recorded : ∀ g, Parser.decls StmtForm.order tokens = .failed g ↔
      Attempt.Recorded StmtForm.order ⟨.unit, tokens⟩ g :=
    fun g => Attempt.fails_iff_recorded (a := ⟨.unit, tokens⟩)
  rw [parse, parseWith] at failed
  cases outcome : Parser.decls StmtForm.order tokens with
  | accepted ds n => simp [outcome] at failed
  | declined => exact (decls_decide _ _ outcome).elim
  | failed f =>
      simp only [outcome, Except.error.injEq] at failed
      refine ⟨f, failed.symm, fun g => ?_⟩
      rw [← recorded g, outcome, Outcome.failed.injEq, eq_comm]

theorem report_shown {lines : List (List UInt8)} {tokens : List Token} {f : Failure}
    {err : SyntaxError} (reported : err = f.report lines tokens) (some : tokens ≠ [])
    (known : err.diagnostic.message ≠ utf8 "unexpected end of input") :
    err.problem = f.problem ∧ ∃ more, f.place = err.token :: more := by
  cases place : f.place with
  | cons t more =>
      simp only [Failure.report, place] at reported
      rw [reported]
      exact ⟨rfl, more, rfl⟩
  | nil =>
      rw [Failure.report, place, List.getLast?_eq_some_getLast some] at reported
      rw [reported] at known
      exact (known rfl).elim

-- A refusal never shows a blank, and it shows a comment exactly behind the body of a do loop that
-- lacks its `while`; then there is one such comment, and no other problem to report.
theorem parse_error_comment_iff {text name : List UInt8} {lines : List (List UInt8)}
    {err : SyntaxError} (failed : parse name lines (tokenize text) = .error err)
    (known : err.diagnostic.message ≠ utf8 "unexpected end of input") :
    err.token.isSpace = false ∧
      (∀ t, BehindDoBody StmtForm.order (tokenize text) t ↔ t = err.token ∧ t.isComment = true) ∧
      (err.problem ≠ .missingWhile → err.token.isTrivia = false) := by
  obtain ⟨f, reported, only⟩ := parse_error_recorded failed
  obtain ⟨a, path, records⟩ := (only f).mpr rfl
  have some : tokenize text ≠ [] :=
    decls_nonempty (Attempt.fails_iff_recorded.mpr ⟨a, path, records⟩)
  obtain ⟨problem, more, place⟩ := report_shown reported some known
  refine ⟨Attempt.records_visible records place, ?_, ?_⟩
  · intro t
    rw [Attempt.behindDoBody_iff]
    constructor
    · intro found
      obtain ⟨remark, more', recorded⟩ := found
      have same := (only _).mp recorded
      rw [← same] at place
      exact ⟨(List.cons.inj place).1, remark⟩
    · intro shown
      obtain ⟨rfl, remark⟩ := shown
      have missing : f.problem = .missingWhile := by
        apply Classical.byContradiction
        intro other
        have significant := Attempt.records_significant records place other
        rw [Token.isTrivia_eq, remark, Bool.or_true] at significant
        cases significant
      refine ⟨remark, more, (only _).mpr ?_⟩
      rw [← missing, ← place]
  · intro other
    rw [problem] at other
    exact Attempt.records_significant records place other

def refusal? : Except SyntaxError ScriptUnit → Option SyntaxError
  | .error err => some err
  | .ok _ => none

theorem refused_of_check {outcome : Except SyntaxError ScriptUnit} {check : SyntaxError → Bool}
    (checked : (refusal? outcome).any check = true) :
    ∃ err, outcome = .error err ∧ check err = true := by
  cases outcome with
  | ok u => cases checked
  | error err => exact ⟨err, rfl, checked⟩

-- The loop is inside a branch, and its line comment ends where the next statement begins.
theorem parse_error_comment_iff_nested :
    let text := utf8 "void f()\n\x7b\n\tif (a) do x(); // again\n\ty();\n\x7d\n"
    ∃ err, parse [] [] (tokenize text) = .error err ∧
      err.diagnostic.message ≠ utf8 "unexpected end of input" ∧
      err.token.raw = utf8 "// again" ∧ err.token.isSpace = false ∧
      BehindDoBody StmtForm.order (tokenize text) err.token := by
  intro text
  let shown (err : SyntaxError) : Bool :=
    err.diagnostic.message != utf8 "unexpected end of input" &&
      (err.token.raw == utf8 "// again" && err.token.isComment)
  have checked : (refusal? (parse [] [] (tokenize text))).any shown = true := by decide +kernel
  obtain ⟨err, refused, held⟩ := refused_of_check checked
  obtain ⟨message, token⟩ := Bool.and_eq_true_iff.mp held
  obtain ⟨raw, remark⟩ := Bool.and_eq_true_iff.mp token
  have known := bne_iff_ne.mp message
  obtain ⟨visible, behind, _⟩ := parse_error_comment_iff refused known
  exact ⟨err, refused, known, eq_of_beq raw, visible, (behind _).mpr ⟨rfl, remark⟩⟩

-- The comment is skipped on the way to `while`, and shown all the same.
theorem skipped_comment_reported :
    let text := utf8 "void main() \x7b do x(); /* c */ y(); \x7d"
    ∃ err, parse (utf8 "test.nss") (Bytes.lines text) (tokenize text) = .error err ∧
      err.diagnostic.message ≠ utf8 "unexpected end of input" ∧
      err.token.isTrivia = true ∧ err.token.raw = utf8 "/* c */" := by
  intro text
  let shown (err : SyntaxError) : Bool :=
    err.diagnostic.message != utf8 "unexpected end of input" &&
      (err.token.isTrivia && err.token.raw == utf8 "/* c */")
  have checked : (refusal? (parse (utf8 "test.nss") (Bytes.lines text) (tokenize text))).any shown =
      true := by decide +kernel
  obtain ⟨err, refused, held⟩ := refused_of_check checked
  obtain ⟨message, token⟩ := Bool.and_eq_true_iff.mp held
  obtain ⟨trivia, raw⟩ := Bool.and_eq_true_iff.mp token
  exact ⟨err, refused, bne_iff_ne.mp message, trivia, eq_of_beq raw⟩

end ScriptUnit

end NwscriptBindings
