import NwscriptBindings.Proofs.Grammar.Recognition

namespace NwscriptBindings

open Grammar

-- Only names and the word `struct` begin more than one form.
theorem Lexeme.leads_cases (l : Lexeme) : l.leads = [] ∨ (∃ form, l.leads = [form]) ∨
    l = .keyword .structWord ∨ ∃ text, l = .word text := by
  cases l with
  | directive text => exact .inr (.inl ⟨_, rfl⟩)
  | comment c => exact .inl rfl
  | literal x => exact .inl rfl
  | word text => exact .inr (.inr (.inr ⟨text, rfl⟩))
  | separator s => cases s <;> simp [leads]
  | operator o => cases o <;> simp [leads]
  | keyword k => cases k <;> simp [leads]

namespace Parser

variable {ts : List Token} {nested : Parser Stmt} {form other : StmtForm}

theorem ofForm_led (tried : ofForm nested form ts ≠ .declined) :
    ∃ l, nextLexeme ts = some l ∧ form ∈ l.leads := by
  cases found : nextLexeme ts with
  | none => exact (tried (ofForm_declines_unless (by simp [found]))).elim
  | some l =>
      refine ⟨l, rfl, ?_⟩
      cases led : form.begins l with
      | true => simpa [StmtForm.begins] using led
      | false => exact (tried (ofForm_declines found led)).elim

theorem quiet_reads {α : Type} {p : Parser α} (quiet : Confined false p) (tried : p ts ≠ .declined) :
    ∃ a us rest, ts = us ++ rest ∧ Reads p a us rest := by
  cases outcome : p ts with
  | declined => exact (tried outcome).elim
  | failed e => exact (quiet_never_fails quiet outcome).elim
  | accepted a n =>
      exact ⟨a, ts.take n, ts.drop n, (List.take_append_drop n ts).symm, confined_reads quiet outcome⟩

theorem var_excludes (tried : ofForm nested .var ts ≠ .declined) (differs : other ≠ .var) :
    ofForm nested other ts = .declined := by
  obtain ⟨s, us, rest, rfl, read⟩ := quiet_reads confined_varStmt tried
  obtain ⟨d, derived, _⟩ := reads_varStmt_iff.mp read
  exact var_others_decline derived other differs

theorem assign_excludes (tried : ofForm nested .assign ts ≠ .declined) (differs : other ≠ .assign) :
    ofForm nested other ts = .declined := by
  obtain ⟨s, us, rest, rfl, read⟩ := quiet_reads confined_assignStmt tried
  obtain ⟨ns, os, es, target, op, value, rfl, named, mark, _, _⟩ := reads_assignStmt_iff.mp read
  rw [List.append_assoc, List.append_assoc]
  exact assign_others_decline named mark other differs

theorem step_excludes (tried : ofForm nested .step ts ≠ .declined) (differs : other ≠ .step) :
    ofForm nested other ts = .declined := by
  obtain ⟨s, us, rest, rfl, read⟩ := quiet_reads confined_stepStmt tried
  obtain ⟨vs, es, target, op, rfl, derived, _⟩ := reads_stepStmt_iff.mp read
  rw [List.append_assoc]
  exact step_others_decline derived other differs

-- Of two forms that do more than decline, a shared first lexeme leaves only those that begin with a
-- name or with `struct`, and there one that reads a statement makes the other decline.
theorem ofForm_exclusive (first : ofForm nested form ts ≠ .declined)
    (second : ofForm nested other ts ≠ .declined) : form = other := by
  by_cases differs : form = other
  · exact differs
  exfalso
  obtain ⟨l, found, led⟩ := ofForm_led first
  obtain ⟨m, again, led'⟩ := ofForm_led second
  obtain rfl := Option.some.inj (found.symm.trans again)
  rcases l.leads_cases with none | ⟨only, alone⟩ | rfl | ⟨text, rfl⟩
  · rw [none] at led
    cases led
  · rw [alone, List.mem_singleton] at led led'
    exact differs (led.trans led'.symm)
  · simp only [Lexeme.leads, List.mem_cons, List.not_mem_nil, or_false] at led led'
    rcases led with rfl | rfl
    · exact second (var_excludes first (Ne.symm differs))
    · rcases led' with rfl | rfl
      · exact first (var_excludes second differs)
      · exact differs rfl
  · simp only [Lexeme.leads, List.mem_cons, List.not_mem_nil, or_false] at led led'
    rcases led with rfl | rfl | rfl
    · exact second (assign_excludes first (Ne.symm differs))
    · exact second (step_excludes first (Ne.symm differs))
    · rcases led' with rfl | rfl | rfl
      · exact first (assign_excludes second differs)
      · exact first (step_excludes second differs)
      · exact differs rfl

theorem orElse_exchange {α : Type} {p q r : Parser α} (either : p ts = .declined ∨ q ts = .declined) :
    p.orElse (q.orElse r) ts = q.orElse (p.orElse r) ts := by
  unfold orElse
  rcases either with declined | declined
  · rw [declined]
  · rw [declined]

theorem firstOf_reordered {forms forms' : List StmtForm} (reordered : forms.Perm forms')
    (ts : List Token) :
    firstOf (forms.map (ofForm nested)) ts = firstOf (forms'.map (ofForm nested)) ts := by
  induction reordered with
  | nil => rfl
  | cons form _ ih =>
      simp only [List.map_cons, firstOf, orElse]
      rw [ih]
  | swap form other forms =>
      simp only [List.map_cons, firstOf]
      by_cases same : other = form
      · rw [same]
      · apply orElse_exchange
        by_cases declined : ofForm nested other ts = .declined
        · exact .inl declined
        · by_cases declined' : ofForm nested form ts = .declined
          · exact .inr declined'
          · exact (same (ofForm_exclusive declined declined')).elim
  | trans _ _ ih ih' => exact ih.trans ih'

theorem statement_reordered {forms forms' : List StmtForm} (reordered : forms.Perm forms')
    (ts : List Token) : statement forms ts = statement forms' ts := by
  induction size : ts.length using Nat.strongRecOn generalizing ts with
  | ind n ih =>
      have inner : below forms n = below forms' n := by
        funext rest
        unfold below
        by_cases shorter : rest.length < n
        · rw [if_pos shorter, if_pos shorter]
          exact ih rest.length shorter rest rfl
        · rw [if_neg shorter, if_neg shorter]
      rw [statement_eq, statement_eq, size, inner]
      exact firstOf_reordered reordered ts

theorem decls_reordered {forms forms' : List StmtForm} (reordered : forms.Perm forms') :
    decls forms = decls forms' := by
  have same : statement forms = statement forms' := funext (statement_reordered reordered)
  unfold decls decl functionDecl
  rw [same]

end Parser

namespace ScriptUnit

-- Whatever is read inside a statement, no two forms get anywhere at one place, and the order in
-- which they are tried shows neither in a unit nor in an error.
theorem parse_reordered {forms : List StmtForm} (reordered : forms.Perm StmtForm.order)
    (name : List UInt8) (lines : List (List UInt8)) (tokens : List Token) :
    parseWith forms name lines tokens = parse name lines tokens ∧
      ∀ nested place form other,
        Parser.ofForm nested form (tokens.drop place) ≠ .declined →
          Parser.ofForm nested other (tokens.drop place) ≠ .declined → form = other := by
  constructor
  · rw [parse, parseWith, parseWith, Parser.decls_reordered reordered]
  · intro nested place form other
    exact Parser.ofForm_exclusive

-- Backwards the form that only refuses is tried first. A struct variable is read all the same, and a
-- struct declaration behind it is refused with the same error.
theorem parse_reordered_backwards :
    let fine := tokenize (utf8 "void f() \x7b struct S s; s = a; g(s); s++; \x7d")
    let refused := tokenize (utf8 "void f() \x7b struct S s; struct S \x7b int n; \x7d; \x7d")
    StmtForm.order.reverse.Perm StmtForm.order ∧
      (∃ u, parseWith StmtForm.order.reverse [] [] fine = .ok u ∧ parse [] [] fine = .ok u) ∧
      ∃ e, parseWith StmtForm.order.reverse [] [] refused = .error e ∧
        parse [] [] refused = .error e := by
  intro fine refused
  have reordered := List.reverse_perm StmtForm.order
  have accepted : (parse [] [] fine).isOk = true := by decide +kernel
  have rejected : (parse [] [] refused).isOk = false := by decide +kernel
  refine ⟨reordered, ?_, ?_⟩
  · rw [(parse_reordered reordered [] [] fine).1]
    cases outcome : parse [] [] fine with
    | ok u => exact ⟨u, rfl, rfl⟩
    | error e =>
        rw [outcome] at accepted
        cases accepted
  · rw [(parse_reordered reordered [] [] refused).1]
    cases outcome : parse [] [] refused with
    | error e => exact ⟨e, rfl, rfl⟩
    | ok u =>
        rw [outcome] at rejected
        cases rejected

end ScriptUnit
end NwscriptBindings
