import NwscriptBindings.Proofs.Grammar.Statements

namespace NwscriptBindings

open Grammar

def Lexeme.leads : Lexeme → List StmtForm
  | .separator .openBrace => [.block]
  | .keyword .constWord | .keyword (.basic _) => [.var]
  | .keyword .structWord => [.var, .unsupported]
  | .word _ => [.assign, .step, .call]
  | .operator .plus | .operator .minus => [.step]
  | .keyword .whileWord => [.whileLoop]
  | .keyword .forWord => [.forLoop]
  | .keyword .doWord => [.doLoop]
  | .keyword .ifWord => [.ifThen]
  | .keyword .returnWord => [.leave]
  | .keyword .switchWord => [.switch]
  | .keyword .defaultWord | .keyword .caseWord => [.label]
  | .keyword .breakWord | .keyword .continueWord => [.branch]
  | .directive _ => [.unsupported]
  | _ => []

def StmtForm.begins (form : StmtForm) (l : Lexeme) : Bool := l.leads.contains form

namespace Parser

variable {α β : Type} {ts rest : List Token} {s : Stmt} {l : Lexeme}

theorem blockEnd_declines (other : nextVisible ts ≠ some (.separator .closeBrace)) :
    blockEnd ts = .declined := by
  refine visible_declines fun t found => ?_
  have differs : t.lexeme ≠ .separator .closeBrace := fun same => other (same ▸ found)
  simp [ensure, differs]

theorem scriptType_declines (struct : nextLexeme ts ≠ some (.keyword .structWord))
    (basic : ∀ type, nextLexeme ts ≠ some (.keyword (.basic type))) :
    scriptType ts = .declined := by
  refine significant_declines fun t found => ?_
  split
  · rename_i same
    exact (struct (same ▸ found)).elim
  · rename_i type same
    exact (basic type (same ▸ found)).elim
  · rfl

theorem varDecl_declines (constant : nextLexeme ts ≠ some (.keyword .constWord))
    (struct : nextLexeme ts ≠ some (.keyword .structWord))
    (basic : ∀ type, nextLexeme ts ≠ some (.keyword (.basic type))) : varDecl ts = .declined := by
  have none : optional (keyword .constWord) ts = .accepted none 0 :=
    optional_declines (lexeme_declines constant)
  have typeless := traced_declines (scriptType_declines struct basic)
  simp only [varDecl, bind_eq, none, List.drop_zero, typeless, Outcome.after]

theorem unsupportedStmt_declines (directive : ∀ text, nextLexeme ts ≠ some (.directive text))
    (struct : structDecl ts = .declined) : unsupportedStmt ts = .declined := by
  rw [unsupportedStmt, struct]
  cases found : ts.dropWhile Token.isTrivia with
  | nil => rfl
  | cons t more =>
      have other : ∀ text, t.lexeme ≠ .directive text := by
        intro text same
        exact directive text (by simp [nextLexeme, found, same])
      cases shown : t.lexeme with
      | directive text => exact (other text shown).elim
      | _ => simp only [shown]

theorem ofForm_declines_unless {nested : Parser Stmt} {form : StmtForm}
    (differs : ∀ m, form.begins m = true → nextLexeme ts ≠ some m) :
    ofForm nested form ts = .declined := by
  cases form with
  | block => exact bind_declines (traced_declines (bind_declines (lexeme_declines (differs _ rfl))))
  | var =>
      exact withTokens_declines (bind_declines
        (varDecl_declines (differs _ rfl) (differs _ rfl) fun _ => differs _ rfl))
  | assign =>
      exact withTokens_declines (bind_declines (traced_declines
        (word_declines fun _ => differs _ rfl)))
  | step =>
      have unmarked : doubled ts = .declined :=
        choice_declines (bind_declines (lexeme_declines (differs _ rfl)))
          (bind_declines (lexeme_declines (differs _ rfl)))
      exact withTokens_declines (bind_declines (choice_declines (bind_declines unmarked)
        (bind_declines (traced_declines (word_declines fun _ => differs _ rfl)))))
  | call => exact withTokens_declines (bind_declines (word_declines fun _ => differs _ rfl))
  | whileLoop => exact withTokens_declines (bind_declines (lexeme_declines (differs _ rfl)))
  | forLoop => exact withTokens_declines (bind_declines (lexeme_declines (differs _ rfl)))
  | doLoop => exact withTokens_declines (bind_declines (lexeme_declines (differs _ rfl)))
  | ifThen => exact withTokens_declines (bind_declines (lexeme_declines (differs _ rfl)))
  | leave => exact withTokens_declines (bind_declines (lexeme_declines (differs _ rfl)))
  | switch => exact withTokens_declines (bind_declines (lexeme_declines (differs _ rfl)))
  | label =>
      exact withTokens_declines (bind_declines (choice_declines
        (bind_declines (lexeme_declines (differs _ rfl)))
        (bind_declines (lexeme_declines (differs _ rfl)))))
  | branch =>
      exact withTokens_declines (bind_declines (choice_declines
        (bind_declines (lexeme_declines (differs _ rfl)))
        (bind_declines (lexeme_declines (differs _ rfl)))))
  | unsupported =>
      exact unsupportedStmt_declines (fun _ => differs _ rfl)
        (bind_declines (lexeme_declines (differs _ rfl)))

theorem ofForm_declines {nested : Parser Stmt} {form : StmtForm} (found : nextLexeme ts = some l)
    (other : form.begins l = false) : ofForm nested form ts = .declined := by
  apply ofForm_declines_unless
  intro m begins same
  obtain rfl := Option.some.inj (found.symm.trans same)
  rw [other] at begins
  cases begins

-- All other forms decline, so the place of a form in the list does not matter.
theorem forms_reads {nested : Parser Stmt} {forms : List StmtForm} {form : StmtForm}
    (present : form ∈ forms) (read : Reads (ofForm nested form) s ts rest)
    (others : ∀ other, other ≠ form → ofForm nested other (ts ++ rest) = .declined) :
    Reads (firstOf (forms.map (ofForm nested))) s ts rest := by
  induction forms with
  | nil => cases present
  | cons first forms ih =>
      rw [List.map_cons, firstOf, reads_orElse_iff]
      by_cases same : first = form
      · subst same
        exact .inl read
      · rcases List.mem_cons.mp present with rfl | later
        · exact (same rfl).elim
        · exact .inr ⟨others first same, ih later⟩

section rivals

variable {nested : Parser Stmt}

theorem others_decline {form : StmtForm} (found : nextLexeme ts = some l)
    (only : l.leads = [form]) :
    ∀ other, other ≠ form → ofForm nested other (ts ++ rest) = .declined := by
  intro other differs
  exact ofForm_declines (nextLexeme_append found) (by simpa [StmtForm.begins, only] using differs)

section named

-- Behind a name the next operator tells assignments, steps and calls apart.
variable {name : List UInt8} {ns : List Token} (named : NameRule name ns)
include named

theorem assignStmt_declines (unmarked : assignOp rest = .declined) :
    assignStmt (ns ++ rest) = .declined := by
  have target : Reads variableName ⟨name, ownTokens ns⟩ ns rest :=
    reads_variableName_iff.mpr ⟨named, rfl⟩
  exact withTokens_declines (bind_declines_later target (bind_declines unmarked))

theorem stepStmt_declines (unmarked : doubled rest = .declined) :
    stepStmt (ns ++ rest) = .declined := by
  have target : Reads variableName ⟨name, ownTokens ns⟩ ns rest :=
    reads_variableName_iff.mpr ⟨named, rfl⟩
  have front : doubled (ns ++ rest) = .declined := by
    refine choice_declines (bind_declines (lexeme_declines ?_)) (bind_declines (lexeme_declines ?_))
    · simp [nextLexeme_append named.begins]
    · simp [nextLexeme_append named.begins]
  exact withTokens_declines (bind_declines (choice_declines (bind_declines front)
    (bind_declines_later target (bind_declines unmarked))))

theorem callStmt_declines (other : nextLexeme rest ≠ some (.separator .openParen)) :
    callStmt (ns ++ rest) = .declined :=
  withTokens_declines (bind_declines_later (reads_word_iff.mpr named)
    (bind_declines (bind_declines (lexeme_declines other))))

end named

theorem marked_declines {o p q : Operator} {f : Unit → Parser β} {us : List Token} {t : Token}
    (mark : Terminal (.operator o) us) (other : t.lexeme ≠ .operator q) :
    (operator p >>= fun _ => touching q >>= f) (us ++ t :: rest) = .declined := by
  by_cases same : o = p
  · subst same
    exact bind_declines_later (a := ()) (reads_lexeme_iff.mpr mark)
      (bind_declines (by simp [touching_eq, other]))
  · refine bind_declines (lexeme_declines ?_)
    simp [nextLexeme_append mark.begins, same]

theorem doubled_declines_assign {op : AssignOp} {os behind : List Token}
    (derived : AssignOpRule op os behind) : doubled (os ++ rest) = .declined := by
  cases derived with
  | set equals =>
      refine choice_declines (bind_declines (lexeme_declines ?_))
        (bind_declines (lexeme_declines ?_))
      · simp [nextLexeme_append equals.1.begins]
      · simp [nextLexeme_append equals.1.begins]
  | compound mark known equals =>
      rw [List.append_assoc]
      exact choice_declines (marked_declines mark (by simp [equals]))
        (marked_declines mark (by simp [equals]))

theorem doubled_declines (plus : nextLexeme ts ≠ some (.operator .plus))
    (minus : nextLexeme ts ≠ some (.operator .minus)) : doubled ts = .declined :=
  choice_declines (bind_declines (lexeme_declines plus)) (bind_declines (lexeme_declines minus))

theorem doubled_begins {up : Bool} (derived : DoubledRule up ts) :
    nextLexeme ts = some (.operator .plus) ∨ nextLexeme ts = some (.operator .minus) := by
  cases derived with
  | up mark _ => exact .inl (nextLexeme_append mark.begins)
  | down mark _ => exact .inr (nextLexeme_append mark.begins)

theorem assignOp_begins {op : AssignOp} {behind : List Token} (derived : AssignOpRule op ts behind) :
    ∃ o, nextLexeme ts = some (.operator o) := by
  cases derived with
  | set equals => exact ⟨_, equals.1.begins⟩
  | compound mark _ _ => exact ⟨_, nextLexeme_append mark.begins⟩

theorem compoundOp_declines {o : Operator} {us : List Token} {t : Token}
    (mark : Terminal (.operator o) us) (other : t.lexeme ≠ .operator .equals) :
    compoundOp (us ++ t :: rest) = .declined := by
  obtain ⟨u, next, same⟩ := mark
  refine bind_declines_later (reads_nextAfter_iff.mpr next) ?_
  simp only [same]
  cases compoundOp? o with
  | some op => exact bind_declines (by simp [touching_eq, other])
  | none => rfl

theorem assignOp_declines_doubled {up : Bool} {ds : List Token} (derived : DoubledRule up ds) :
    assignOp (ds ++ rest) = .declined := by
  have plain : (do plainEquals; pure AssignOp.set) (ds ++ rest) = .declined := by
    refine bind_declines (bind_declines (lexeme_declines ?_))
    rcases doubled_begins derived with found | found <;> simp [nextLexeme_append found]
  refine choice_declines plain ?_
  cases derived with
  | up mark same =>
      rw [List.append_assoc]
      exact compoundOp_declines mark (by simp [same])
  | down mark same =>
      rw [List.append_assoc]
      exact compoundOp_declines mark (by simp [same])

theorem assignOp_declines_paren (found : nextLexeme ts = some (.separator .openParen)) :
    assignOp ts = .declined := by
  refine choice_declines (bind_declines (bind_declines (lexeme_declines (by simp [found])))) ?_
  refine significant_declines fun t next => ?_
  have same : t.lexeme = .separator .openParen := Option.some.inj (next.symm.trans found)
  simp [same]

-- A struct type with a name behind it is no struct declaration.
theorem structDecl_declines_type {x : ScriptType} (derived : TypeRule x ts)
    (other : nextLexeme rest ≠ some (.separator .openBrace)) :
    structDecl (ts ++ rest) = .declined := by
  cases derived with
  | basic mark =>
      refine bind_declines (lexeme_declines ?_)
      simp [nextLexeme_append mark.begins]
  | struct mark named =>
      rw [List.append_assoc]
      exact bind_declines_later (a := ()) (reads_lexeme_iff.mpr mark) (bind_declines_later
        (reads_word_iff.mpr named) (bind_declines (lexeme_declines other)))

theorem structDecl_declines_var {bare : Bool} {d : VarDecl} (derived : VarRule bare d ts) :
    structDecl (ts ++ rest) = .declined := by
  have front : ∀ {isConst cs us ns} {type : Traced ScriptType} {name : List UInt8}
      {vs : List Token}, ConstRule isConst cs → TracedRule TypeRule type us → NameRule name ns →
        structDecl (cs ++ (us ++ (ns ++ vs))) = .declined := by
    intro isConst cs us ns type name vs mark typed named
    cases mark with
    | absent =>
        rw [List.nil_append]
        exact structDecl_declines_type typed.1 (by simp [nextLexeme_append named.begins])
    | present mark =>
        exact bind_declines (lexeme_declines (by simp [nextLexeme_append mark.begins]))
  cases derived with
  | plain mark typed named => simpa using front mark typed named
  | initialized mark typed named => simpa using front mark typed named

theorem var_others_decline {bare : Bool} {d : VarDecl} (derived : VarRule bare d ts) :
    ∀ other, other ≠ .var → ofForm nested other (ts ++ rest) = .declined := by
  intro other differs
  obtain ⟨k, found, kind⟩ := var_begins derived
  by_cases same : other = .unsupported
  · subst same
    exact unsupportedStmt_declines (by simp [nextLexeme_append found])
      (structDecl_declines_var derived)
  · refine ofForm_declines (nextLexeme_append found) ?_
    rcases kind with rfl | rfl | ⟨type, rfl⟩ <;>
      simp [StmtForm.begins, Lexeme.leads, differs, same]

theorem named_others_decline {form : StmtForm} {name : List UInt8} {ns : List Token}
    (named : NameRule name ns) (assign : form ≠ .assign → assignStmt (ns ++ rest) = .declined)
    (step : form ≠ .step → stepStmt (ns ++ rest) = .declined)
    (call : form ≠ .call → callStmt (ns ++ rest) = .declined) :
    ∀ other, other ≠ form → ofForm nested other (ns ++ rest) = .declined := by
  intro other differs
  cases led : other.begins (.word name) with
  | false => exact ofForm_declines (nextLexeme_append named.begins) led
  | true =>
      simp only [StmtForm.begins, Lexeme.leads, List.contains_eq_mem, List.mem_cons,
        List.not_mem_nil, or_false, decide_eq_true_eq] at led
      rcases led with rfl | rfl | rfl
      · exact assign differs.symm
      · exact step differs.symm
      · exact call differs.symm

theorem assign_others_decline {target : Traced (List UInt8)} {op : AssignOp}
    {ns os es : List Token} (named : TracedRule NameRule target ns) (mark : AssignOpRule op os es) :
    ∀ other, other ≠ .assign → ofForm nested other (ns ++ (os ++ rest)) = .declined := by
  obtain ⟨o, found⟩ := assignOp_begins mark
  refine named_others_decline named.1 (fun differs => (differs rfl).elim)
    (fun _ => stepStmt_declines named.1 (doubled_declines_assign mark))
    (fun _ => callStmt_declines named.1 ?_)
  simp [nextLexeme_append found]

theorem step_others_decline {target : Traced (List UInt8)} {op : StepOp} {us : List Token}
    (derived : StepRule target op us) :
    ∀ other, other ≠ .step → ofForm nested other (us ++ rest) = .declined := by
  cases derived with
  | pre mark named =>
      rcases doubled_begins mark with found | found
      · exact others_decline (nextLexeme_append found) rfl
      · exact others_decline (nextLexeme_append found) rfl
  | post named mark =>
      rw [List.append_assoc]
      refine named_others_decline named.1
        (fun _ => assignStmt_declines named.1 (assignOp_declines_doubled mark))
        (fun differs => (differs rfl).elim) (fun _ => callStmt_declines named.1 ?_)
      rcases doubled_begins mark with found | found <;> simp [nextLexeme_append found]

theorem call_others_decline {name : List UInt8} {args : Traced Expr} {ns as : List Token}
    (named : NameRule name ns) (enclosed : LogicalRule args as) :
    ∀ other, other ≠ .call → ofForm nested other (ns ++ (as ++ rest)) = .declined := by
  have found : nextLexeme (as ++ rest) = some (.separator .openParen) := by
    obtain ⟨os, range, t, rfl, opened, _⟩ := enclosed
    exact nextLexeme_append (nextLexeme_append opened.begins)
  exact named_others_decline named
    (fun _ => assignStmt_declines named (assignOp_declines_paren found))
    (fun _ => stepStmt_declines named (doubled_declines (by simp [found]) (by simp [found])))
    (fun differs => (differs rfl).elim)

end rivals

end Parser
end NwscriptBindings
