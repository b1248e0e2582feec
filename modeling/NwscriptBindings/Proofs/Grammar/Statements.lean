import NwscriptBindings.Proofs.Grammar.Declarations

namespace NwscriptBindings.Parser

open Grammar

variable {α β : Type} {ts rest : List Token} {s : Stmt}

theorem reads_comment_iff {c : Comment} : Reads comment c ts rest ↔ CommentRule c ts := by
  rw [comment, reads_bind_iff]
  constructor
  · rintro ⟨t, us, vs, rfl, next, found⟩
    rw [visible, reads_nextAfter_iff] at next
    split at found
    · rename_i c same
      obtain ⟨rfl, rfl⟩ := reads_pure_iff.mp found
      exact ⟨t, by simpa using next, same⟩
    · exact (reads_decline_iff.mp found).elim
  · rintro ⟨t, next, same⟩
    refine ⟨t, ts, [], by simp, reads_nextAfter_iff.mpr next, ?_⟩
    rw [same]
    exact reads_pure_iff.mpr ⟨rfl, rfl⟩

theorem reads_blockEnd_iff {u : Unit} : Reads blockEnd u ts rest ↔ CloseRule ts := by
  simp only [blockEnd, visible, reads_bind_iff, reads_nextAfter_iff, reads_ensure_iff]
  constructor
  · rintro ⟨t, us, _, rfl, next, same, rfl⟩
    exact ⟨t, by simpa using next, by simpa using same⟩
  · rintro ⟨t, next, same⟩
    exact ⟨t, ts, [], by simp, next, by simpa using same, rfl⟩

theorem reads_variableName_iff {x : Traced (List UInt8)} :
    Reads variableName x ts rest ↔ TracedRule NameRule x ts :=
  reads_traced_rule fun _ => reads_word_iff

theorem reads_compoundOp_iff {op : AssignOp} : Reads compoundOp op ts rest ↔
    ∃ o us t, ts = us ++ [t] ∧ Terminal (.operator o) us ∧ compoundOp? o = some op ∧
      t.lexeme = .operator .equals := by
  rw [compoundOp, reads_bind_iff]
  constructor
  · rintro ⟨t, us, vs, rfl, next, found⟩
    rw [significant, reads_nextAfter_iff] at next
    split at found
    · rename_i o same
      split at found
      · rename_i op' known
        simp only [reads_bind_iff, reads_touching_iff, reads_pure_iff] at found
        obtain ⟨_, _, _, rfl, ⟨e, rfl, equals⟩, rfl, rfl⟩ := found
        exact ⟨o, us, e, by simp, ⟨t, next, same⟩, known, equals⟩
      · exact (reads_decline_iff.mp found).elim
    · exact (reads_decline_iff.mp found).elim
  · rintro ⟨o, us, e, rfl, ⟨t, next, same⟩, known, equals⟩
    refine ⟨t, us, [e], rfl, reads_nextAfter_iff.mpr next, ?_⟩
    simp only [same, known, reads_bind_iff, reads_touching_iff, reads_pure_iff]
    exact ⟨(), [e], [], by simp, ⟨e, rfl, equals⟩, trivial, rfl⟩

theorem reads_assignOp_iff {op : AssignOp} :
    Reads assignOp op ts rest ↔ AssignOpRule op ts rest := by
  simp only [assignOp, reads_choice_iff, reads_bind_iff, reads_plainEquals_iff,
    reads_compoundOp_iff, reads_pure_iff]
  constructor
  · rintro (⟨_, us, _, rfl, equals, rfl, rfl⟩ | ⟨_, o, us, t, rfl, mark, known, equals⟩)
    · exact .set (by simpa using equals)
    · exact .compound mark known equals
  · intro derived
    cases derived with
    | set equals => exact .inl ⟨(), ts, [], by simp, by simpa using equals, rfl, rfl⟩
    | @compound o us _ t _ mark known equals =>
        refine .inr ⟨bind_declines (bind_declines (lexeme_declines ?_)), o, us, t, rfl, mark, known,
          equals⟩
        rw [List.append_assoc, nextLexeme_append mark.begins]
        rintro same
        cases same
        cases known

theorem reads_doubled_iff {up : Bool} : Reads doubled up ts rest ↔ DoubledRule up ts := by
  simp only [doubled, operator, reads_choice_iff, reads_bind_iff, reads_lexeme_iff,
    reads_touching_iff, reads_pure_iff]
  constructor
  · rintro (⟨_, us, _, rfl, mark, _, _, _, rfl, ⟨t, rfl, same⟩, rfl, rfl⟩ |
      ⟨_, _, us, _, rfl, mark, _, _, _, rfl, ⟨t, rfl, same⟩, rfl, rfl⟩)
    · exact .up mark same
    · exact .down mark same
  · intro derived
    cases derived with
    | up mark same =>
        exact .inl ⟨(), _, _, rfl, mark, (), _, [], by simp, ⟨_, rfl, same⟩, rfl, rfl⟩
    | down mark same =>
        refine .inr ⟨bind_declines (lexeme_declines ?_), (), _, _, rfl, mark, (), _, [], by simp,
          ⟨_, rfl, same⟩, rfl, rfl⟩
        rw [List.append_assoc, nextLexeme_append mark.begins]
        simp

theorem arithmetic_next {stop : Separator} {e : Traced Expr} {es : List Token}
    (captured : ArithmeticRule stop e es) (visible : stop.isSpace = false) :
    nextLexeme (es ++ rest) = nextLexeme es := by
  obtain ⟨range, t, rfl, found, _⟩ := captured
  obtain ⟨_, _, same, ends, _⟩ := rangeUpTo_split found
  obtain ⟨rfl, _⟩ := List.cons.inj (List.append_cancel_left same)
  have kept : t.isTrivia = false := by simp [Token.isTrivia, ends, Lexeme.isTrivia, visible]
  cases shown : (range ++ [t]).dropWhile Token.isTrivia with
  | nil =>
      simp only [List.dropWhile_append, List.dropWhile_cons, kept] at shown
      split at shown <;> simp at shown
  | cons u more =>
      have found : nextLexeme (range ++ [t]) = some u.lexeme := by simp [nextLexeme, shown]
      rw [nextLexeme_append found, found]

theorem arithmetic_empty {e : Traced Expr} {es : List Token}
    (captured : ArithmeticRule .semicolon e es)
    (found : nextLexeme es = some (.separator .semicolon)) :
    Terminal (.separator .semicolon) es := by
  obtain ⟨range, t, rfl, ranged, _⟩ := captured
  have whole := List.takeWhile_append_dropWhile (p := Token.isTrivia) (l := range ++ [t])
  have skipped := List.all_eq_true.mp (List.all_takeWhile (p := Token.isTrivia) (l := range ++ [t]))
  rw [nextLexeme] at found
  cases shown : (range ++ [t]).dropWhile Token.isTrivia with
  | nil => simp [shown] at found
  | cons u more =>
      have ends : u.lexeme = .separator .semicolon := by simpa [shown] using found
      rw [shown] at whole
      have cut := rangeUpTo_gap skipped ends more
      rw [whole, ranged] at cut
      have front := Option.some.inj cut
      rw [← front] at whole skipped
      obtain ⟨rfl, _⟩ := List.cons.inj (List.append_cancel_left whole)
      exact ⟨u, ⟨range, rfl, skipped, by simp [Token.isTrivia, ends, Lexeme.isTrivia,
        Separator.isSpace]⟩, ends⟩

theorem assignOp_behind {op : AssignOp} {e : Traced Expr} {os es : List Token}
    (assigned : ArithmeticRule .semicolon e es) :
    AssignOpRule op os (es ++ rest) ↔ AssignOpRule op os es := by
  constructor
  · intro derived
    cases derived with
    | set equals =>
        exact .set ⟨equals.1, fun same => equals.2 ((startsWith_assigned assigned).mpr same)⟩
    | compound mark known equals => exact .compound mark known equals
  · intro derived
    cases derived with
    | set equals =>
        exact .set ⟨equals.1, fun same => equals.2 ((startsWith_assigned assigned).mp same)⟩
    | compound mark known equals => exact .compound mark known equals

theorem reads_varStmt_iff : Reads varStmt s ts rest ↔
    ∃ d, VarRule false d ts ∧ s = .var d (ownTokens ts) := by
  simp only [varStmt, reads_withTokens_iff, reads_bind_iff, reads_varDecl_iff, reads_pure_iff]
  constructor
  · rintro ⟨_, ⟨d, us, _, rfl, derived, rfl, rfl⟩, rfl⟩
    exact ⟨d, by simpa using derived, rfl⟩
  · rintro ⟨d, derived, rfl⟩
    exact ⟨_, ⟨d, ts, [], by simp, derived, rfl, rfl⟩, rfl⟩

theorem reads_assignStmt_iff : Reads assignStmt s ts rest ↔
    ∃ us os es target op value, ts = us ++ (os ++ es) ∧ TracedRule NameRule target us ∧
      AssignOpRule op os es ∧ AssignedRule value es ∧
      s = .assign target op value (ownTokens ts) := by
  simp only [assignStmt, reads_withTokens_iff, reads_bind_iff, reads_variableName_iff,
    reads_assignOp_iff, reads_assigned_iff, reads_pure_iff]
  constructor
  · rintro ⟨_, ⟨target, us, _, rfl, named, op, os, _, rfl, mark, value, es, _, rfl, assigned, rfl,
      rfl⟩, rfl⟩
    rw [List.append_assoc, assignOp_behind assigned.1] at mark
    exact ⟨us, os, es, target, op, value, by simp, named, mark, assigned, rfl⟩
  · rintro ⟨us, os, es, target, op, value, rfl, named, mark, assigned, rfl⟩
    exact ⟨_, ⟨target, us, _, rfl, named, op, os, _, rfl, (assignOp_behind assigned.1).mpr mark,
      value, es, [], by simp, assigned, rfl, rfl⟩, rfl⟩

theorem reads_step_iff {target : Traced (List UInt8)} {op : StepOp} :
    Reads (preStep <|> postStep) (target, op) ts rest ↔ StepRule target op ts := by
  simp only [preStep, postStep, reads_choice_iff, reads_bind_iff, reads_doubled_iff,
    reads_variableName_iff, reads_pure_iff, Prod.mk.injEq]
  constructor
  · rintro (⟨up, ds, _, rfl, mark, target, us, _, rfl, named, ⟨rfl, rfl⟩, rfl⟩ |
      ⟨_, target, us, _, rfl, named, up, ds, _, rfl, mark, ⟨rfl, rfl⟩, rfl⟩)
    · rw [List.append_nil]
      exact .pre mark named
    · rw [List.append_nil]
      exact .post named mark
  · intro derived
    cases derived with
    | pre mark named =>
        exact .inl ⟨_, _, _, rfl, mark, _, _, [], by simp, named, ⟨rfl, rfl⟩, rfl⟩
    | post named mark =>
        refine .inr ⟨bind_declines (choice_declines ?_ ?_), _, _, _, rfl, named, _, _, [], by simp,
          mark, ⟨rfl, rfl⟩, rfl⟩
        · refine bind_declines (lexeme_declines ?_)
          rw [List.append_assoc, nextLexeme_append named.1.begins]
          simp
        · refine bind_declines (lexeme_declines ?_)
          rw [List.append_assoc, nextLexeme_append named.1.begins]
          simp

theorem reads_stepStmt_iff : Reads stepStmt s ts rest ↔
    ∃ us es target op, ts = us ++ es ∧ StepRule target op us ∧
      Terminal (.separator .semicolon) es ∧ s = .step target op (ownTokens ts) := by
  simp only [stepStmt, separator, reads_withTokens_iff, reads_bind_iff]
  constructor
  · rintro ⟨_, ⟨⟨target, op⟩, us, _, rfl, derived, found⟩, rfl⟩
    simp only [reads_lexeme_iff, reads_pure_iff] at found
    obtain ⟨_, es, _, rfl, ends, rfl, rfl⟩ := found
    exact ⟨us, es, target, op, by simp, reads_step_iff.mp derived, ends, rfl⟩
  · rintro ⟨us, es, target, op, rfl, derived, ends, rfl⟩
    refine ⟨_, ⟨(target, op), us, es, rfl, reads_step_iff.mpr derived, ?_⟩, rfl⟩
    simp only [reads_lexeme_iff, reads_pure_iff]
    exact ⟨(), es, [], by simp, ends, trivial, rfl⟩

theorem reads_callStmt_iff : Reads callStmt s ts rest ↔
    ∃ ns as es name args, ts = ns ++ (as ++ es) ∧ NameRule name ns ∧ LogicalRule args as ∧
      Terminal (.separator .semicolon) es ∧ s = .call name args (ownTokens ts) := by
  simp only [callStmt, separator, reads_withTokens_iff, reads_bind_iff, reads_word_iff,
    reads_logical_iff, reads_lexeme_iff, reads_pure_iff]
  constructor
  · rintro ⟨_, ⟨name, ns, _, rfl, named, args, as, _, rfl, enclosed, _, es, _, rfl, ends, rfl,
      rfl⟩, rfl⟩
    exact ⟨ns, as, es, name, args, by simp, named, enclosed, ends, rfl⟩
  · rintro ⟨ns, as, es, name, args, rfl, named, enclosed, ends, rfl⟩
    exact ⟨_, ⟨name, ns, _, rfl, named, args, as, _, rfl, enclosed, (), es, [], by simp, ends, rfl,
      rfl⟩, rfl⟩

theorem leaveStmt_reads (read : Reads leaveStmt s ts rest) : ∃ ks es result, ts = ks ++ es ∧
    Terminal (.keyword .returnWord) ks ∧ s = .leave result (ownTokens (ks ++ es)) ∧
      (result = none ∧ Terminal (.separator .semicolon) es ∨
        ∃ e, result = some e ∧ ArithmeticRule .semicolon e es ∧
          nextLexeme es ≠ some (.separator .semicolon)) := by
  simp only [leaveStmt, keyword, separator, reads_withTokens_iff, reads_bind_iff, reads_choice_iff,
    reads_lexeme_iff, reads_arithmetic_iff, reads_pure_iff, map_declined_iff,
    lexeme_declined_iff] at read
  obtain ⟨_, ⟨_, ks, _, rfl, mark, o, es, _, rfl, ⟨_, us, _, rfl, ends, rfl, rfl⟩ |
    ⟨going, e, us, _, rfl, captured, rfl, rfl⟩, rfl, rfl⟩, rfl⟩ := read
  · rw [List.append_nil, List.append_nil]
    exact ⟨ks, us, none, rfl, mark, rfl, .inl ⟨rfl, ends⟩⟩
  · rw [List.append_nil, List.append_nil] at *
    rw [List.nil_append, arithmetic_next captured rfl] at going
    exact ⟨ks, us, some e, rfl, mark, rfl, .inr ⟨e, rfl, captured, going⟩⟩

theorem leaveStmt_sound (read : Reads leaveStmt s ts rest) : StmtRule false s ts := by
  obtain ⟨ks, es, result, rfl, mark, rfl, ⟨rfl, ends⟩ | ⟨e, rfl, captured, _⟩⟩ :=
    leaveStmt_reads read
  · exact .leave mark (.absent ends)
  · exact .leave mark (.present captured)

-- With nothing between `return` and the semicolon there is no result, also where the grammar could
-- take an empty one.
theorem leaveStmt_complete {ks es : List Token} {result : Option (Traced Expr)}
    (mark : Terminal (.keyword .returnWord) ks) (derived : ResultRule result es) :
    ∃ result', ResultRule result' es ∧
      ∀ rest, Reads leaveStmt (.leave result' (ownTokens (ks ++ es))) (ks ++ es) rest := by
  have bare : Terminal (.separator .semicolon) es →
      ∀ rest, Reads leaveStmt (.leave none (ownTokens (ks ++ es))) (ks ++ es) rest := by
    intro ends rest
    simp only [leaveStmt, keyword, separator, reads_withTokens_iff, reads_bind_iff,
      reads_choice_iff, reads_lexeme_iff, reads_arithmetic_iff, reads_pure_iff]
    exact ⟨_, ⟨(), ks, es, rfl, mark, none, es, [], by simp,
      .inl ⟨(), es, [], by simp, ends, rfl, rfl⟩, rfl, rfl⟩, rfl⟩
  cases derived with
  | absent ends => exact ⟨none, .absent ends, bare ends⟩
  | @present e _ captured =>
      by_cases found : nextLexeme es = some (.separator .semicolon)
      · have ends := arithmetic_empty captured found
        exact ⟨none, .absent ends, bare ends⟩
      · refine ⟨some e, .present captured, fun rest => ?_⟩
        simp only [leaveStmt, keyword, separator, reads_withTokens_iff, reads_bind_iff,
          reads_choice_iff, reads_lexeme_iff, reads_arithmetic_iff, reads_pure_iff]
        refine ⟨_, ⟨(), ks, es, rfl, mark, some e, es, [], by simp, .inr ⟨bind_declines
          (lexeme_declines fun same => found ?_), e, es, [], by simp, captured, rfl, rfl⟩, rfl,
          rfl⟩, rfl⟩
        exact arithmetic_next captured rfl ▸ same

theorem reads_label_iff {o : Option (Traced Value)} :
    Reads ((do keyword .defaultWord; pure none) <|>
      (do keyword .caseWord; pure (some (← traced value)))) o ts rest ↔ LabelRule o ts := by
  have valued : ∀ {v : Traced Value} {us more : List Token},
      Reads (traced value) v us more ↔ TracedRule ValueRule v us :=
    reads_traced_rule fun _ => reads_value_iff
  simp only [keyword, reads_choice_iff, reads_bind_iff, reads_lexeme_iff, valued, reads_pure_iff]
  constructor
  · rintro (⟨_, ks, _, rfl, mark, rfl, rfl⟩ | ⟨_, _, ks, _, rfl, mark, v, vs, _, rfl, derived, rfl,
      rfl⟩)
    · rw [List.append_nil]
      exact .default mark
    · rw [List.append_nil]
      exact .case mark derived
  · intro derived
    cases derived with
    | default mark => exact .inl ⟨(), ts, [], by simp, mark, rfl, rfl⟩
    | case mark derived =>
        refine .inr ⟨bind_declines (lexeme_declines ?_), (), _, _, rfl, mark, _, _, [], by simp,
          derived, rfl, rfl⟩
        rw [List.append_assoc, nextLexeme_append mark.begins]
        simp

theorem reads_labelStmt_iff : Reads labelStmt s ts rest ↔
    ∃ ls es value, ts = ls ++ es ∧ LabelRule value ls ∧ Terminal (.operator .colon) es ∧
      s = .label value (ownTokens ts) := by
  rw [labelStmt, reads_withTokens_iff]
  simp only [reads_bind_iff (p := _ <|> _), reads_label_iff, operator, reads_bind_iff,
    reads_lexeme_iff, reads_pure_iff]
  constructor
  · rintro ⟨_, ⟨value, ls, _, rfl, derived, _, es, _, rfl, ends, rfl, rfl⟩, rfl⟩
    exact ⟨ls, es, value, by simp, derived, ends, rfl⟩
  · rintro ⟨ls, es, value, rfl, derived, ends, rfl⟩
    exact ⟨_, ⟨value, ls, es, rfl, derived, (), es, [], by simp, ends, rfl, rfl⟩, rfl⟩

theorem reads_branchStmt_iff : Reads branchStmt s ts rest ↔
    ∃ ks es, ts = ks ++ es ∧ Terminal (.separator .semicolon) es ∧
      (Terminal (.keyword .breakWord) ks ∧ s = .breakOut (ownTokens ts) ∨
        Terminal (.keyword .continueWord) ks ∧ s = .continueOn (ownTokens ts)) := by
  simp only [branchStmt, separator, reads_withTokens_iff, reads_bind_iff (p := _ <|> _),
    reads_choice_iff, keyword_pure_reads_iff]
  simp only [reads_bind_iff, reads_lexeme_iff, reads_pure_iff]
  constructor
  · rintro ⟨_, ⟨form, ks, _, rfl, ⟨mark, rfl⟩ | ⟨_, mark, rfl⟩, _, es, _, rfl, ends, rfl, rfl⟩, rfl⟩
    · exact ⟨ks, es, by simp, ends, .inl ⟨mark, rfl⟩⟩
    · exact ⟨ks, es, by simp, ends, .inr ⟨mark, rfl⟩⟩
  · rintro ⟨ks, es, rfl, ends, ⟨mark, rfl⟩ | ⟨mark, rfl⟩⟩
    · exact ⟨_, ⟨_, ks, es, rfl, .inl ⟨mark, rfl⟩, (), es, [], by simp, ends, rfl, rfl⟩, rfl⟩
    · refine ⟨_, ⟨_, ks, es, rfl, .inr ⟨bind_declines (lexeme_declines ?_), mark, rfl⟩, (), es, [],
        by simp, ends, rfl, rfl⟩, rfl⟩
      rw [nextLexeme_append mark.begins]
      simp

section nesting

variable {nested : Parser Stmt}

theorem reads_body_iff : Reads (body nested) s ts rest ↔ Reads nested s ts rest :=
  reads_orFail_iff

theorem comment_declined_iff : comment ts = .declined ↔ Uncommented ts := by
  rw [comment, bind_eq, visible, nextAfter, Uncommented]
  have kept := List.head?_dropWhile_not Token.isSpace ts
  cases shown : ts.dropWhile Token.isSpace with
  | nil => simp
  | cons t more =>
      have visible : t.isSpace = false := by simpa [shown] using kept
      cases same : t.lexeme with
      | comment c => simp [same, Token.isTrivia, Lexeme.isTrivia, pure, Outcome.after]
      | separator x =>
          simp [same, Token.isSpace, Lexeme.isSpace] at visible
          simp [same, Token.isTrivia, Lexeme.isTrivia, decline, Outcome.after, visible]
      | _ => simp [same, Token.isTrivia, Lexeme.isTrivia, decline, Outcome.after]

theorem commentStmt_declined_iff :
    (withTokens do let c ← comment; pure fun tokens => Stmt.comment c tokens) ts = .declined ↔
      Uncommented ts := by
  rw [← comment_declined_iff, withTokens,
    ← map_declined_iff (f := fun c tokens => Stmt.comment c tokens)]
  split <;> rename_i outcome <;> simp [outcome]

theorem reads_item_iff : Reads (item nested) s ts rest ↔
    (∃ c, CommentRule c ts ∧ s = .comment c (ownTokens ts)) ∨
      Uncommented (ts ++ rest) ∧ Reads nested s ts rest := by
  rw [item, reads_orFail_iff, reads_orElse_iff, commentStmt_declined_iff]
  refine or_congr ?_ Iff.rfl
  simp only [reads_withTokens_iff, reads_bind_iff, reads_comment_iff, reads_pure_iff]
  constructor
  · rintro ⟨_, ⟨c, us, _, rfl, derived, rfl, rfl⟩, rfl⟩
    exact ⟨c, by simpa using derived, rfl⟩
  · rintro ⟨c, derived, rfl⟩
    exact ⟨_, ⟨c, ts, [], by simp, derived, rfl, rfl⟩, rfl⟩

theorem reads_block_iff {b : Traced (List Stmt)} : Reads (block nested) b ts rest ↔
    ∃ os us, ts = os ++ us ∧ Terminal (.separator .openBrace) os ∧
      Reads (manyTill blockEnd (item nested)) b.content us rest ∧ b.tokens = ownTokens ts := by
  refine (reads_traced_iff.trans (and_congr reads_bind_iff Iff.rfl)).trans ?_
  simp only [separator, reads_lexeme_iff]
  constructor
  · rintro ⟨⟨_, os, us, rfl, opened, read⟩, own⟩
    exact ⟨os, us, rfl, opened, read, own⟩
  · rintro ⟨os, us, rfl, opened, read, own⟩
    exact ⟨⟨(), os, us, rfl, opened, read⟩, own⟩

theorem reads_blockStmt_iff : Reads (blockStmt nested) s ts rest ↔
    ∃ b, Reads (block nested) b ts rest ∧ s = .block b.content b.tokens :=
  reads_map_iff

theorem reads_whileStmt_iff : Reads (whileStmt nested) s ts rest ↔
    ∃ ks cs bs test inner, ts = ks ++ (cs ++ bs) ∧ Terminal (.keyword .whileWord) ks ∧
      LogicalRule test cs ∧ Reads nested inner bs rest ∧
      s = .whileLoop test inner (ownTokens ts) := by
  simp only [whileStmt, keyword, reads_withTokens_iff, reads_bind_iff, reads_lexeme_iff,
    reads_logical_iff, reads_body_iff, reads_pure_iff]
  constructor
  · rintro ⟨_, ⟨_, ks, _, rfl, mark, test, cs, _, rfl, enclosed, inner, bs, _, rfl, read, rfl, rfl⟩,
      rfl⟩
    exact ⟨ks, cs, bs, test, inner, by simp, mark, enclosed, by simpa using read, rfl⟩
  · rintro ⟨ks, cs, bs, test, inner, rfl, mark, enclosed, read, rfl⟩
    exact ⟨_, ⟨(), ks, _, rfl, mark, test, cs, _, rfl, enclosed, inner, bs, [], by simp, read, rfl,
      rfl⟩, rfl⟩

theorem reads_forStmt_iff : Reads (forStmt nested) s ts rest ↔
    ∃ ks os is cs ps bs init test post inner, ts = ks ++ (os ++ (is ++ (cs ++ (ps ++ bs)))) ∧
      Terminal (.keyword .forWord) ks ∧ Terminal (.separator .openParen) os ∧
      ArithmeticRule .semicolon init is ∧ ArithmeticRule .semicolon test cs ∧
      ArithmeticRule .closeParen post ps ∧ Reads nested inner bs rest ∧
      s = .forLoop init test post inner (ownTokens ts) := by
  simp only [forStmt, keyword, separator, reads_withTokens_iff, reads_bind_iff, reads_lexeme_iff,
    reads_arithmetic_iff, reads_body_iff, reads_pure_iff]
  constructor
  · rintro ⟨_, ⟨_, ks, _, rfl, mark, _, os, _, rfl, opened, init, is, _, rfl, first, test, cs, _, rfl,
      second, post, ps, _, rfl, third, inner, bs, _, rfl, read, rfl, rfl⟩, rfl⟩
    exact ⟨ks, os, is, cs, ps, bs, init, test, post, inner, by simp, mark, opened, first, second,
      third, by simpa using read, rfl⟩
  · rintro ⟨ks, os, is, cs, ps, bs, init, test, post, inner, rfl, mark, opened, first, second, third,
      read, rfl⟩
    exact ⟨_, ⟨(), ks, _, rfl, mark, (), os, _, rfl, opened, init, is, _, rfl, first, test, cs, _,
      rfl, second, post, ps, _, rfl, third, inner, bs, [], by simp, read, rfl, rfl⟩, rfl⟩

theorem reads_doStmt_iff : Reads (doStmt nested) s ts rest ↔
    ∃ ks bs ws cs es inner test, ts = ks ++ (bs ++ (ws ++ (cs ++ es))) ∧
      Terminal (.keyword .doWord) ks ∧ Reads nested inner bs (ws ++ (cs ++ (es ++ rest))) ∧
      Terminal (.keyword .whileWord) ws ∧ LogicalRule test cs ∧
      Terminal (.separator .semicolon) es ∧ s = .doLoop inner test (ownTokens ts) := by
  simp only [doStmt, keyword, separator, reads_withTokens_iff, reads_bind_iff, reads_orFail_iff,
    reads_lexeme_iff, reads_logical_iff, reads_body_iff, reads_pure_iff]
  constructor
  · rintro ⟨_, ⟨_, ks, _, rfl, mark, inner, bs, _, rfl, read, _, ws, _, rfl, again, test, cs, _, rfl,
      enclosed, _, es, _, rfl, ends, rfl, rfl⟩, rfl⟩
    exact ⟨ks, bs, ws, cs, es, inner, test, by simp, mark, by simpa using read, again, enclosed,
      ends, rfl⟩
  · rintro ⟨ks, bs, ws, cs, es, inner, test, rfl, mark, read, again, enclosed, ends, rfl⟩
    exact ⟨_, ⟨(), ks, _, rfl, mark, inner, bs, _, rfl, by simpa using read, (), ws, _, rfl, again,
      test, cs, _, rfl, enclosed, (), es, [], by simp, ends, rfl, rfl⟩, rfl⟩

theorem reads_otherwise_iff {x : Traced Stmt} : Reads (otherwise nested) x ts rest ↔
    ∃ ws os, ts = ws ++ os ∧ Terminal (.keyword .elseWord) ws ∧ Reads nested x.content os rest ∧
      x.tokens = ownTokens ts := by
  simp only [otherwise, keyword, reads_traced_iff, reads_bind_iff, reads_lexeme_iff, reads_body_iff]
  constructor
  · rintro ⟨⟨_, ws, os, rfl, mark, read⟩, own⟩
    exact ⟨ws, os, rfl, mark, read, own⟩
  · rintro ⟨ws, os, rfl, mark, read, own⟩
    exact ⟨⟨(), ws, os, rfl, mark, read⟩, own⟩

-- Behind `else` a statement has to follow, so only another next word lets the branch decline.
theorem otherwise_declined_iff : otherwise nested ts = .declined ↔
    nextLexeme ts ≠ some (.keyword .elseWord) := by
  rw [← lexeme_declined_iff, otherwise, traced, withTokens, bind_eq, bind_eq, keyword]
  cases lexeme (.keyword .elseWord) ts with
  | declined => simp
  | failed e => simp
  | accepted u n =>
      simp only [body, orFail]
      cases nested (ts.drop n) with
      | declined => simp [Outcome.after]
      | failed e => simp [Outcome.after]
      | accepted a k => simp [Outcome.after, pure]

theorem reads_ifStmt_iff : Reads (ifStmt nested) s ts rest ↔
    (∃ ks cs bs test inner, ts = ks ++ (cs ++ bs) ∧ Terminal (.keyword .ifWord) ks ∧
      LogicalRule test cs ∧ Reads nested inner bs rest ∧
      nextLexeme rest ≠ some (.keyword .elseWord) ∧ s = .ifThen test inner (ownTokens ts)) ∨
    ∃ ks cs bs ws os test inner other, ts = ks ++ (cs ++ (bs ++ (ws ++ os))) ∧
      Terminal (.keyword .ifWord) ks ∧ LogicalRule test cs ∧
      Reads nested inner bs (ws ++ (os ++ rest)) ∧ Terminal (.keyword .elseWord) ws ∧
      Reads nested other os rest ∧
      s = .ifElse test inner other (ownTokens (ws ++ os)) (ownTokens ts) := by
  simp only [ifStmt, keyword, reads_withTokens_iff, reads_bind_iff, reads_lexeme_iff,
    reads_logical_iff, reads_body_iff, reads_optional_iff, otherwise_declined_iff,
    reads_otherwise_iff]
  constructor
  · rintro ⟨_, ⟨_, ks, _, rfl, mark, test, cs, _, rfl, enclosed, inner, bs, _, rfl, read, o, us, _,
      rfl, ⟨x, rfl, ws, os, rfl, again, otherwise, own⟩ | ⟨rfl, rfl, follow⟩, found⟩, rfl⟩
    · obtain ⟨rfl, rfl⟩ := reads_pure_iff.mp found
      exact .inr ⟨ks, cs, bs, ws, os, test, inner, x.content, by simp, mark, enclosed,
        by simpa using read, again, otherwise, by simp [own]⟩
    · obtain ⟨rfl, rfl⟩ := reads_pure_iff.mp found
      exact .inl ⟨ks, cs, bs, test, inner, by simp, mark, enclosed, by simpa using read, follow, rfl⟩
  · rintro (⟨ks, cs, bs, test, inner, rfl, mark, enclosed, read, follow, rfl⟩ |
      ⟨ks, cs, bs, ws, os, test, inner, other, rfl, mark, enclosed, read, again, otherwise, rfl⟩)
    · exact ⟨_, ⟨(), ks, _, rfl, mark, test, cs, _, rfl, enclosed, inner, bs, [], by simp, read, none,
        [], [], rfl, .inr ⟨rfl, rfl, follow⟩, reads_pure_iff.mpr ⟨rfl, rfl⟩⟩, rfl⟩
    · exact ⟨_, ⟨(), ks, _, rfl, mark, test, cs, _, rfl, enclosed, inner, bs, ws ++ os, by simp,
        by simpa using read, some ⟨other, ownTokens (ws ++ os)⟩, ws ++ os, [], by simp,
        .inl ⟨_, rfl, ws, os, rfl, again, otherwise, rfl⟩, reads_pure_iff.mpr ⟨rfl, rfl⟩⟩, rfl⟩

theorem reads_switchStmt_iff : Reads (switchStmt nested) s ts rest ↔
    ∃ ks cs bs tag b, ts = ks ++ (cs ++ bs) ∧ Terminal (.keyword .switchWord) ks ∧
      LogicalRule tag cs ∧ Reads (block nested) b bs rest ∧
      s = .switch tag b.content b.tokens (ownTokens ts) := by
  simp only [switchStmt, keyword, reads_withTokens_iff, reads_bind_iff, reads_lexeme_iff,
    reads_logical_iff, reads_pure_iff]
  constructor
  · rintro ⟨_, ⟨_, ks, _, rfl, mark, tag, cs, _, rfl, enclosed, b, bs, _, rfl, read, rfl, rfl⟩, rfl⟩
    exact ⟨ks, cs, bs, tag, b, by simp, mark, enclosed, by simpa using read, rfl⟩
  · rintro ⟨ks, cs, bs, tag, b, rfl, mark, enclosed, read, rfl⟩
    exact ⟨_, ⟨(), ks, _, rfl, mark, tag, cs, _, rfl, enclosed, b, bs, [], by simp, read, rfl, rfl⟩,
      rfl⟩

end nesting

end NwscriptBindings.Parser
