import NwscriptBindings.Proofs.Grammar.Confined
import NwscriptBindings.Proofs.Grammar.Statements

namespace NwscriptBindings.Parser

open Grammar

variable {α : Type} {ts rest : List Token} {s : Stmt}

theorem firstOf_reads {ps : List (Parser α)} {a : α} (read : Reads (firstOf ps) a ts rest) :
    ∃ p ∈ ps, Reads p a ts rest := by
  induction ps with
  | nil => exact (reads_decline_iff.mp read).elim
  | cons p ps ih =>
      rcases reads_orElse_iff.mp read with first | ⟨_, later⟩
      · exact ⟨p, by simp, first⟩
      · obtain ⟨q, present, found⟩ := ih later
        exact ⟨q, by simp [present], found⟩

theorem uncommented_front (free : Uncommented (ts ++ rest)) : Uncommented ts := by
  intro t more found
  refine free t (more ++ rest) ?_
  simp [List.dropWhile_append, found]

theorem unsupported_never_accepts {n : Nat} : unsupportedStmt ts ≠ .accepted s n := by
  intro accepted
  rw [unsupportedStmt] at accepted
  split at accepted
  · cases accepted
  · split at accepted <;> cases accepted

section nesting

variable {nested : Parser Stmt}
  (inner : ∀ s ts rest, Reads nested s ts rest → StmtRule false s ts)
include inner

theorem items_sound {stmts : List Stmt}
    (read : Reads (manyTill blockEnd (item nested)) stmts ts rest) :
    ∃ is cs, ts = is ++ cs ∧ ItemsRule false stmts is ∧ CloseRule cs := by
  induction stmts generalizing ts with
  | nil =>
      rcases reads_manyTill_cases read with ⟨_, ended⟩ | ⟨_, _, _, _, same, _⟩
      · exact ⟨[], ts, rfl, .nil, reads_blockEnd_iff.mp ended⟩
      · cases same
  | cons s stmts ih =>
      rcases reads_manyTill_cases read with ⟨same, _⟩ | ⟨_, _, us, vs, same, rfl, _, _, first, more⟩
      · cases same
      · cases same
        obtain ⟨is, cs, rfl, others, closed⟩ := ih more
        rcases reads_item_iff.mp first with ⟨c, noted, rfl⟩ | ⟨free, nests⟩
        · exact ⟨us ++ is, cs, by simp, .comment noted others, closed⟩
        · exact ⟨us ++ is, cs, by simp, .stmt (uncommented_front free) (inner _ _ _ nests) others,
            closed⟩

theorem block_sound {b : Traced (List Stmt)} (read : Reads (block nested) b ts rest) :
    BlockRule false b ts := by
  obtain ⟨os, us, rfl, opened, listed, own⟩ := reads_block_iff.mp read
  obtain ⟨is, cs, rfl, derived, closed⟩ := items_sound inner listed
  obtain ⟨stmts, tokens⟩ := b
  subst own
  exact .intro opened derived closed

theorem ofForm_sound {form : StmtForm} (read : Reads (ofForm nested form) s ts rest) :
    StmtRule false s ts := by
  cases form with
  | block =>
      obtain ⟨b, found, rfl⟩ := reads_blockStmt_iff.mp read
      exact .block (block_sound inner found)
  | var =>
      obtain ⟨d, derived, rfl⟩ := reads_varStmt_iff.mp read
      exact .var derived
  | assign =>
      obtain ⟨us, os, es, target, op, value, rfl, named, mark, assigned, rfl⟩ :=
        reads_assignStmt_iff.mp read
      exact .assign named mark assigned
  | step =>
      obtain ⟨us, es, target, op, rfl, derived, ends, rfl⟩ := reads_stepStmt_iff.mp read
      exact .step derived ends
  | call =>
      obtain ⟨ns, as, es, name, args, rfl, named, enclosed, ends, rfl⟩ := reads_callStmt_iff.mp read
      exact .call named enclosed ends
  | whileLoop =>
      obtain ⟨ks, cs, bs, test, body, rfl, mark, enclosed, nests, rfl⟩ :=
        reads_whileStmt_iff.mp read
      exact .whileLoop mark enclosed (inner _ _ _ nests)
  | forLoop =>
      obtain ⟨ks, os, is, cs, ps, bs, init, test, post, body, rfl, mark, opened, first, second, third,
        nests, rfl⟩ := reads_forStmt_iff.mp read
      exact .forLoop mark opened first second third (inner _ _ _ nests)
  | doLoop =>
      obtain ⟨ks, bs, ws, cs, es, body, test, rfl, mark, nests, again, enclosed, ends, rfl⟩ :=
        reads_doStmt_iff.mp read
      exact .doLoop mark (inner _ _ _ nests) again enclosed ends
  | ifThen =>
      rcases reads_ifStmt_iff.mp read with
        ⟨ks, cs, bs, test, body, rfl, mark, enclosed, nests, _, rfl⟩ |
        ⟨ks, cs, bs, ws, os, test, body, other, rfl, mark, enclosed, nests, again, follows, rfl⟩
      · exact .ifThen mark enclosed (inner _ _ _ nests)
      · exact .ifElse mark enclosed (inner _ _ _ nests) again (inner _ _ _ follows)
  | leave => exact leaveStmt_sound read
  | switch =>
      obtain ⟨ks, cs, bs, tag, b, rfl, mark, enclosed, nests, rfl⟩ := reads_switchStmt_iff.mp read
      exact .switch mark enclosed (block_sound inner nests)
  | label =>
      obtain ⟨ls, es, value, rfl, derived, ends, rfl⟩ := reads_labelStmt_iff.mp read
      exact .label derived ends
  | branch =>
      obtain ⟨ks, es, rfl, ends, ⟨mark, rfl⟩ | ⟨mark, rfl⟩⟩ := reads_branchStmt_iff.mp read
      · exact .breakOut mark ends
      · exact .continueOn mark ends
  | unsupported => exact (unsupported_never_accepts read).elim

end nesting

def below (forms : List StmtForm) (size : Nat) : Parser Stmt := fun ts =>
  if ts.length < size then statement forms ts else .declined

theorem statement_eq (forms : List StmtForm) (ts : List Token) :
    statement forms ts = firstOf (forms.map (ofForm (below forms ts.length))) ts := by
  rw [statement]
  rfl

theorem reads_below_iff {forms : List StmtForm} {size : Nat} :
    Reads (below forms size) s ts rest ↔
      (ts ++ rest).length < size ∧ Reads (statement forms) s ts rest := by
  by_cases shorter : (ts ++ rest).length < size
  · simp only [Reads, below, shorter, if_true, true_and]
  · simp only [Reads, below, shorter, if_false, false_and, reduceCtorEq]

theorem confined_below (forms : List StmtForm) (size : Nat) : Confined true (below forms size) := by
  intro ts
  rw [below]
  split
  · exact confined_statement forms ts
  · trivial

-- What each form makes hold of its statements if it holds of what nests in them.
theorem statement_induction_before {forms : List StmtForm}
    (holds : Stmt → List Token → List Token → Prop)
    (step : ∀ nested : Parser Stmt, (∀ s ts rest, Reads nested s ts rest → holds s ts rest) →
      ∀ form s ts rest, Reads (ofForm nested form) s ts rest → holds s ts rest)
    (read : Reads (statement forms) s ts rest) : holds s ts rest := by
  induction size : (ts ++ rest).length using Nat.strongRecOn generalizing s ts rest with
  | ind n ih =>
      unfold Reads at read
      rw [statement_eq, size] at read
      have tried : Reads (firstOf (forms.map (ofForm (below forms n)))) s ts rest := read
      obtain ⟨_, present, found⟩ := firstOf_reads tried
      obtain ⟨form, _, rfl⟩ := List.mem_map.mp present
      refine step (below forms n) (fun t us more nests => ?_) form s ts rest found
      obtain ⟨shorter, deeper⟩ := reads_below_iff.mp nests
      exact ih _ shorter deeper rfl

theorem statement_induction {forms : List StmtForm} (holds : Stmt → List Token → Prop)
    (step : ∀ nested : Parser Stmt, (∀ s ts rest, Reads nested s ts rest → holds s ts) →
      ∀ form s ts rest, Reads (ofForm nested form) s ts rest → holds s ts)
    (read : Reads (statement forms) s ts rest) : holds s ts :=
  statement_induction_before (fun s ts _ => holds s ts) step read

theorem statement_sound {forms : List StmtForm} (read : Reads (statement forms) s ts rest) :
    StmtRule false s ts :=
  statement_induction (StmtRule false)
    (fun _ inner _ _ _ _ found => ofForm_sound inner found) read

theorem functionDecl_reads {forms : List StmtForm} {d : Decl}
    (read : Reads (functionDecl forms) d ts rest) : ∃ sig us vs, ts = us ++ vs ∧
      SignatureRule sig us ∧ (Terminal (.separator .semicolon) vs ∧ d = .prototype sig ∨
        ∃ b, Reads (block (statement forms)) b vs rest ∧ d = .function sig b) := by
  simp only [functionDecl, separator, reads_bind_iff, reads_signature_iff, reads_choice_iff,
    reads_lexeme_iff, reads_pure_iff] at read
  obtain ⟨sig, us, _, rfl, derived, ⟨_, es, _, rfl, ends, rfl, rfl⟩ |
    ⟨_, b, bs, _, rfl, found, rfl, rfl⟩⟩ := read
  · exact ⟨sig, us, es, by simp, derived, .inl ⟨ends, rfl⟩⟩
  · exact ⟨sig, us, bs, by simp, derived, .inr ⟨b, by simpa using found, rfl⟩⟩

theorem functionDecl_sound {forms : List StmtForm} {d : Decl}
    (read : Reads (functionDecl forms) d ts rest) (free : Uncommented ts) : DeclRule false d ts := by
  obtain ⟨sig, us, vs, rfl, derived, ⟨ends, rfl⟩ | ⟨b, found, rfl⟩⟩ := functionDecl_reads read
  · exact .prototype free derived ends
  · exact .function free derived (block_sound (fun _ _ _ nests => statement_sound nests) found)

theorem reads_directiveDecl_iff {d : Decl} : Reads directiveDecl d ts rest ↔
    ∃ t text, Next Token.isSpace t ts ∧ t.lexeme = .directive text ∧ d = .directive text := by
  rw [directiveDecl, reads_bind_iff]
  constructor
  · rintro ⟨t, us, vs, rfl, next, found⟩
    rw [visible, reads_nextAfter_iff] at next
    split at found
    · rename_i text same
      obtain ⟨rfl, rfl⟩ := reads_pure_iff.mp found
      exact ⟨t, text, by simpa using next, same, rfl⟩
    · exact (reads_decline_iff.mp found).elim
  · rintro ⟨t, text, next, same, rfl⟩
    refine ⟨t, ts, [], by simp, reads_nextAfter_iff.mpr next, ?_⟩
    rw [same]
    exact reads_pure_iff.mpr ⟨rfl, rfl⟩

theorem decl_reads {forms : List StmtForm} {d : Decl} (read : Reads (decl forms) d ts rest) :
    (∃ t text, Next Token.isSpace t ts ∧ t.lexeme = .directive text ∧ d = .directive text) ∨
      (∃ c, CommentRule c ts ∧ d = .comment c) ∨
      Uncommented ts ∧ (Reads (functionDecl forms) d ts rest ∨
        (∃ v, VarRule false v ts ∧ d = .var v) ∨ ∃ v, StructRule false v ts ∧ d = .struct v) := by
  simp only [decl, commentDecl, firstOf, reads_orElse_iff, reads_directiveDecl_iff, reads_map_iff,
    reads_comment_iff, map_declined_iff, comment_declined_iff, reads_varDecl_iff,
    reads_structDecl_iff, reads_decline_iff, and_false, or_false] at read
  rcases read with directive | ⟨_, comment | ⟨free, function | ⟨_, var | ⟨_, struct⟩⟩⟩⟩
  · exact .inl directive
  · exact .inr (.inl comment)
  · exact .inr (.inr ⟨uncommented_front free, .inl function⟩)
  · exact .inr (.inr ⟨uncommented_front free, .inr (.inl var)⟩)
  · exact .inr (.inr ⟨uncommented_front free, .inr (.inr struct)⟩)

theorem decl_sound {forms : List StmtForm} {d : Decl} (read : Reads (decl forms) d ts rest) :
    DeclRule false d ts := by
  rcases decl_reads read with ⟨t, text, next, same, rfl⟩ | ⟨c, noted, rfl⟩ |
    ⟨free, function | ⟨v, derived, rfl⟩ | ⟨v, derived, rfl⟩⟩
  · exact .directive next same
  · exact .comment noted
  · exact functionDecl_sound function free
  · exact .var free derived
  · exact .struct free derived

theorem reads_endOfTokens_iff {u : Unit} : Reads endOfTokens u ts rest ↔
    (∀ t ∈ ts, t.isSpace = true) ∧ rest = [] := by
  rw [Reads, endOfTokens]
  split
  · rename_i blank
    simp only [List.all_append, Bool.and_eq_true, List.all_eq_true] at blank
    constructor
    · intro whole
      have length := (Outcome.accepted.inj whole).2
      exact ⟨blank.1, by simpa using length⟩
    · rintro ⟨_, rfl⟩
      simp
  · rename_i visible
    simp only [reduceCtorEq, false_iff, not_and]
    rintro blank rfl
    exact visible (by simpa using blank)

theorem decls_reads {forms : List StmtForm} {ds : List (Traced Decl)}
    (holds : Traced Decl → List Token → Prop)
    (each : ∀ d us more, Reads (traced (decl forms)) d us more → holds d us)
    (read : Reads (decls forms) ds ts rest) :
    rest = [] ∧ ∃ us es, ts = us ++ es ∧ ListRule holds ds us ∧ ∀ t ∈ es, t.isSpace = true := by
  induction ds generalizing ts with
  | nil =>
      rcases reads_manyTill_cases read with ⟨_, ended⟩ | ⟨_, _, _, _, same, _⟩
      · obtain ⟨blank, none⟩ := reads_endOfTokens_iff.mp ended
        exact ⟨none, [], ts, rfl, .nil, blank⟩
      · cases same
  | cons d ds ih =>
      rcases reads_manyTill_cases read with ⟨same, _⟩ | ⟨_, _, us, vs, same, rfl, _, _, first, more⟩
      · cases same
      · cases same
        obtain ⟨none, vs, es, rfl, others, blank⟩ := ih more
        rw [reads_orFail_iff] at first
        exact ⟨none, us ++ vs, es, by simp, .cons (each _ _ _ first) others, blank⟩

theorem decls_sound {forms : List StmtForm} {ds : List (Traced Decl)}
    (read : Reads (decls forms) ds ts rest) :
    rest = [] ∧ ∃ us es, ts = us ++ es ∧ ListRule (TracedRule (DeclRule false)) ds us ∧
      ∀ t ∈ es, t.isSpace = true :=
  decls_reads _ (fun _ _ _ first =>
    have parts := reads_traced_iff.mp first
    ⟨decl_sound parts.1, parts.2⟩) read

end NwscriptBindings.Parser
