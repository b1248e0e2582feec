import NwscriptBindings.Proofs.Grammar.Progress

namespace NwscriptBindings.Parser

variable {α β : Type} {p q : Parser α} {e : Failure} {ts rest : List Token}

def Accepts (p : Parser α) (ts rest : List Token) : Prop :=
  ∃ a n, p ts = .accepted a n ∧ rest = ts.drop n

theorem accepts_iff_of_accepted {a : α} {n : Nat} (outcome : p ts = .accepted a n) :
    Accepts p ts rest ↔ rest = ts.drop n := by
  constructor
  · intro ⟨b, k, same, left⟩
    cases outcome.symm.trans same
    exact left
  · intro left
    exact ⟨a, n, outcome, left⟩

theorem Accepts.shorter (advances : Advances p) (accepted : Accepts p ts rest) :
    rest.length < ts.length := by
  obtain ⟨a, n, outcome, rfl⟩ := accepted
  obtain ⟨some, left⟩ := advances ts a n outcome
  have present := List.length_pos_iff.mpr left
  rw [List.length_drop]
  omega

theorem Accepts.reads (bound : Confined true p) (accepted : Accepts p ts rest) :
    ∃ a us, ts = us ++ rest ∧ Reads p a us rest := by
  obtain ⟨a, n, outcome, rfl⟩ := accepted
  exact ⟨a, ts.take n, (List.take_append_drop n ts).symm, confined_reads bound outcome⟩

theorem accepts_traced_iff : Accepts (traced p) ts rest ↔ Accepts p ts rest := by
  cases outcome : p ts with
  | declined => simp [Accepts, traced, withTokens, bind_eq, outcome]
  | failed f => simp [Accepts, traced, withTokens, bind_eq, outcome]
  | accepted a n =>
      have kept : traced p ts = .accepted ⟨a, (ts.take n).dropWhile Token.isSpace⟩ n := by
        rw [traced, withTokens, bind_eq, outcome]
        rfl
      rw [accepts_iff_of_accepted outcome, accepts_iff_of_accepted kept]

theorem accepts_orFail_iff {problem : Problem} {place : List Token → List Token} :
    Accepts (p.orFail problem place) ts rest ↔ Accepts p ts rest := by
  unfold Accepts orFail
  cases p ts <;> simp

theorem failed_after_iff {n : Nat} {change : α → β} {o : Outcome α} :
    o.after n change = .failed e ↔ o = .failed e := by
  cases o <;> simp [Outcome.after]

theorem failed_bind_iff {f : α → Parser β} {later : List Token → Prop}
    (next : ∀ a rest, f a rest = .failed e ↔ later rest) :
    (p >>= f) ts = .failed e ↔ p ts = .failed e ∨ ∃ rest, Accepts p ts rest ∧ later rest := by
  rw [bind_eq]
  cases outcome : p ts with
  | declined => simp [Accepts, outcome]
  | failed g => simp [Accepts, outcome]
  | accepted a n => simp [accepts_iff_of_accepted outcome, failed_after_iff, next]

theorem failed_behind_iff {f : α → Parser β} {later : List Token → Prop}
    (quiet : Confined false p) (next : ∀ a rest, f a rest = .failed e ↔ later rest) :
    (p >>= f) ts = .failed e ↔ ∃ rest, Accepts p ts rest ∧ later rest := by
  rw [failed_bind_iff next, or_iff_right (quiet_never_fails quiet)]

theorem failed_before_iff {f : α → Parser β} (quiet : ∀ a, Confined false (f a)) :
    (p >>= f) ts = .failed e ↔ p ts = .failed e := by
  have silent : ∀ a rest, f a rest = .failed e ↔ False :=
    fun a _ => iff_false_intro (quiet_never_fails (quiet a))
  rw [failed_bind_iff silent]
  simp

theorem failed_orElse_iff : p.orElse q ts = .failed e ↔
    p ts = .failed e ∨ p ts = .declined ∧ q ts = .failed e := by
  rw [orElse]
  cases p ts <;> simp

theorem orElse_declined_iff : p.orElse q ts = .declined ↔ p ts = .declined ∧ q ts = .declined := by
  rw [orElse]
  cases p ts <;> simp

theorem failed_firstOf_iff {choice : β → Parser α} {choices : List β} :
    firstOf (choices.map choice) ts = .failed e ↔ ∃ before c behind,
      choices = before ++ c :: behind ∧ (∀ b ∈ before, choice b ts = .declined) ∧
        choice c ts = .failed e := by
  induction choices with
  | nil => simp [firstOf, decline]
  | cons c choices ih =>
      rw [List.map_cons, firstOf, failed_orElse_iff, ih]
      constructor
      · intro either
        rcases either with first | ⟨passed, before, d, behind, rfl, declined, failed⟩
        · exact ⟨[], c, choices, rfl, by simp, first⟩
        · exact ⟨c :: before, d, behind, rfl, List.forall_mem_cons.mpr ⟨passed, declined⟩, failed⟩
      · intro found
        obtain ⟨before, d, behind, same, declined, failed⟩ := found
        cases before with
        | nil =>
            cases same
            exact .inl failed
        | cons b before =>
            cases same
            exact .inr ⟨declined c (by simp), before, d, behind, rfl,
              fun b present => declined b (by simp [present]), failed⟩

theorem failed_optional_iff : optional p ts = .failed e ↔ p ts = .failed e := by
  rw [optional]
  cases p ts <;> simp

theorem failed_orFail_iff {problem : Problem} {place : List Token → List Token} :
    p.orFail problem place ts = .failed e ↔
      p ts = .failed e ∨ p ts = .declined ∧ e = ⟨problem, place ts⟩ := by
  rw [orFail]
  cases p ts <;> simp [eq_comm]

theorem failed_withTokens_iff {p : Parser (List Token → α)} :
    withTokens p ts = .failed e ↔ p ts = .failed e := by
  rw [withTokens]
  cases p ts <;> simp

theorem failed_traced_iff : traced p ts = .failed e ↔ p ts = .failed e :=
  failed_withTokens_iff.trans (failed_before_iff fun _ => confined_pure _)

theorem failed_manyTill_iff {stop : Parser Unit} (quiet : Confined false stop)
    (each : Advances p) : manyTill stop p ts = .failed e ↔ stop ts = .declined ∧
      (p ts = .failed e ∨ ∃ rest, Accepts p ts rest ∧ manyTill stop p rest = .failed e) := by
  rw [manyTill_unguarded each]
  refine failed_orElse_iff.trans ?_
  have silent : (do stop; pure [] : Parser (List α)) ts ≠ .failed e :=
    quiet_never_fails (confined_bind quiet fun _ => confined_pure _)
  rw [or_iff_right silent, map_declined_iff]
  refine and_congr Iff.rfl (failed_bind_iff fun a rest => ?_)
  exact failed_before_iff fun _ => confined_pure _

section statements

variable {nested : Parser Stmt}

theorem failed_body_iff : body nested ts = .failed e ↔ nested ts = .failed e ∨
    nested ts = .declined ∧ e = ⟨.missingStatement, ts.dropWhile Token.isTrivia⟩ :=
  failed_orFail_iff

theorem failed_item_iff : item nested ts = .failed e ↔ comment ts = .declined ∧
    (nested ts = .failed e ∨
      nested ts = .declined ∧ e = ⟨.strayInBlock, ts.dropWhile Token.isSpace⟩) := by
  have quiet : Confined false
      (withTokens do let c ← comment; pure fun tokens => Stmt.comment c tokens) :=
    confined_withTokens (confined_bind confined_comment fun _ => confined_pure _)
  rw [item, failed_orFail_iff, failed_orElse_iff, orElse_declined_iff,
    or_iff_right (quiet_never_fails quiet), commentStmt_declined_iff, ← comment_declined_iff,
    and_assoc, ← and_or_left]

theorem failed_items_iff (inner : Advances nested) :
    manyTill blockEnd (item nested) ts = .failed e ↔ blockEnd ts = .declined ∧
      (item nested ts = .failed e ∨ ∃ rest, Accepts (item nested) ts rest ∧
        manyTill blockEnd (item nested) rest = .failed e) :=
  failed_manyTill_iff confined_blockEnd (advances_item inner)

theorem failed_block_iff : block nested ts = .failed e ↔ ∃ rest,
    Accepts (separator .openBrace) ts rest ∧
      manyTill blockEnd (item nested) rest = .failed e :=
  failed_traced_iff.trans (failed_behind_iff (confined_separator _) fun _ _ => Iff.rfl)

theorem failed_blockStmt_iff : blockStmt nested ts = .failed e ↔ block nested ts = .failed e :=
  failed_before_iff fun _ => confined_pure _

theorem failed_whileStmt_iff : whileStmt nested ts = .failed e ↔ ∃ cs,
    Accepts (keyword .whileWord) ts cs ∧ ∃ bs, Accepts logical cs bs ∧
      body nested bs = .failed e :=
  failed_withTokens_iff.trans <| failed_behind_iff (confined_keyword _) fun _ _ =>
    failed_behind_iff confined_logical fun _ _ => failed_before_iff fun _ => confined_pure _

theorem failed_forStmt_iff : forStmt nested ts = .failed e ↔ ∃ os,
    Accepts (keyword .forWord) ts os ∧ ∃ is, Accepts (separator .openParen) os is ∧
      ∃ cs, Accepts (arithmetic .semicolon) is cs ∧ ∃ ps, Accepts (arithmetic .semicolon) cs ps ∧
        ∃ bs, Accepts (arithmetic .closeParen) ps bs ∧ body nested bs = .failed e :=
  failed_withTokens_iff.trans <| failed_behind_iff (confined_keyword _) fun _ _ =>
    failed_behind_iff (confined_separator _) fun _ _ =>
    failed_behind_iff (confined_arithmetic _) fun _ _ =>
    failed_behind_iff (confined_arithmetic _) fun _ _ =>
    failed_behind_iff (confined_arithmetic _) fun _ _ => failed_before_iff fun _ => confined_pure _

theorem failed_doStmt_iff : doStmt nested ts = .failed e ↔ ∃ bs,
    Accepts (keyword .doWord) ts bs ∧ (body nested bs = .failed e ∨ ∃ ws,
      Accepts (body nested) bs ws ∧ keyword .whileWord ws = .declined ∧
        e = ⟨.missingWhile, ws.dropWhile Token.isSpace⟩) := by
  have quiet : ∀ (body : Stmt) (u : Unit), Confined false (do
      let cond ← logical
      separator .semicolon
      pure fun tokens => Stmt.doLoop body cond tokens) := fun _ _ =>
    confined_bind confined_logical fun _ =>
      confined_bind (confined_separator _) fun _ => confined_pure _
  refine failed_withTokens_iff.trans (failed_behind_iff (confined_keyword _) fun _ _ =>
    failed_bind_iff fun body _ => (failed_before_iff (quiet body)).trans ?_)
  rw [failed_orFail_iff, or_iff_right (quiet_never_fails (confined_keyword _))]

theorem failed_otherwise_iff : otherwise nested ts = .failed e ↔ ∃ bs,
    Accepts (keyword .elseWord) ts bs ∧ body nested bs = .failed e :=
  failed_traced_iff.trans (failed_behind_iff (confined_keyword _) fun _ _ => Iff.rfl)

theorem failed_ifStmt_iff : ifStmt nested ts = .failed e ↔ ∃ cs,
    Accepts (keyword .ifWord) ts cs ∧ ∃ bs, Accepts logical cs bs ∧ (body nested bs = .failed e ∨
      ∃ rest, Accepts (body nested) bs rest ∧ otherwise nested rest = .failed e) := by
  refine failed_withTokens_iff.trans (failed_behind_iff (confined_keyword _) fun _ _ =>
    failed_behind_iff confined_logical fun _ _ => failed_bind_iff fun _ _ =>
    (failed_before_iff ?_).trans failed_optional_iff)
  intro other
  cases other with
  | none => exact confined_pure _
  | some other => exact confined_pure _

theorem failed_switchStmt_iff : switchStmt nested ts = .failed e ↔ ∃ cs,
    Accepts (keyword .switchWord) ts cs ∧ ∃ bs, Accepts logical cs bs ∧
      block nested bs = .failed e :=
  failed_withTokens_iff.trans <| failed_behind_iff (confined_keyword _) fun _ _ =>
    failed_behind_iff confined_logical fun _ _ => failed_before_iff fun _ => confined_pure _

theorem struct_accepts_begins (accepted : Accepts structDecl ts rest) :
    nextLexeme ts = some (.keyword .structWord) := by
  obtain ⟨d, n, outcome, _⟩ := accepted
  by_cases begins : nextLexeme ts = some (.keyword .structWord)
  · exact begins
  · have declined : structDecl ts = .declined := bind_declines (lexeme_declines begins)
    rw [declined] at outcome
    cases outcome

theorem failed_unsupportedStmt_iff : unsupportedStmt ts = .failed e ↔
    (∃ text, nextLexeme ts = some (.directive text)) ∧
        e = ⟨.directiveInBlock, ts.dropWhile Token.isTrivia⟩ ∨
      (∃ rest, Accepts structDecl ts rest) ∧
        e = ⟨.structInBlock, ts.dropWhile Token.isTrivia⟩ := by
  have begins : ∀ rest, Accepts structDecl ts rest → _ := fun _ => struct_accepts_begins
  rw [unsupportedStmt]
  rw [nextLexeme] at begins ⊢
  cases left : ts.dropWhile Token.isTrivia with
  | nil =>
      have absent : ∀ rest, ¬ Accepts structDecl ts rest := by simpa [left] using begins
      simp [absent]
  | cons t more =>
      cases outcome : structDecl ts with
      | accepted d n =>
          have opens : t.lexeme = .keyword .structWord := by
            simpa [left] using begins _ ⟨d, n, outcome, rfl⟩
          simp [opens, accepts_iff_of_accepted outcome, eq_comm]
      | declined => cases same : t.lexeme <;> simp [same, Accepts, outcome, eq_comm]
      | failed f => cases same : t.lexeme <;> simp [same, Accepts, outcome, eq_comm]

end statements

section declarations

variable {forms : List StmtForm}

theorem failed_functionDecl_iff : functionDecl forms ts = .failed e ↔ ∃ bs,
    Accepts signature ts bs ∧ separator .semicolon bs = .declined ∧
      block (statement forms) bs = .failed e := by
  refine failed_behind_iff confined_signature fun sig bs => failed_orElse_iff.trans ?_
  have silent : (do separator .semicolon; pure (Decl.prototype sig) : Parser Decl) bs ≠ .failed e :=
    quiet_never_fails (confined_bind (confined_separator _) fun _ => confined_pure _)
  rw [or_iff_right silent, map_declined_iff]
  exact and_congr Iff.rfl (failed_before_iff fun _ => confined_pure _)

theorem failed_decl_iff : decl forms ts = .failed e ↔ directiveDecl ts = .declined ∧
    comment ts = .declined ∧ functionDecl forms ts = .failed e := by
  have silent : firstOf [do pure (Decl.var (← varDecl)), do pure (Decl.struct (← structDecl))] ts ≠
      .failed e := quiet_never_fails (by simp)
  rw [decl, firstOf, failed_orElse_iff, firstOf, failed_orElse_iff, firstOf, failed_orElse_iff,
    or_iff_right (quiet_never_fails confined_directiveDecl),
    or_iff_right (quiet_never_fails confined_commentDecl), commentDecl, map_declined_iff]
  simp [silent]

theorem accepts_unitDecl_iff : Accepts (unitDecl forms) ts rest ↔ Accepts (decl forms) ts rest :=
  accepts_orFail_iff.trans accepts_traced_iff

theorem failed_decls_iff : decls forms ts = .failed e ↔ endOfTokens ts = .declined ∧
    ((decl forms ts = .failed e ∨
        decl forms ts = .declined ∧ e = ⟨.strayAtTopLevel, ts.dropWhile Token.isSpace⟩) ∨
      ∃ rest, Accepts (decl forms) ts rest ∧ decls forms rest = .failed e) := by
  have traced_declined : traced (decl forms) ts = .declined ↔ decl forms ts = .declined := by
    rw [traced, withTokens, bind_eq]
    cases decl forms ts <;> simp [Outcome.after, pure]
  refine (failed_manyTill_iff confined_endOfTokens (advances_unitDecl forms)).trans ?_
  simp only [accepts_unitDecl_iff]
  rw [unitDecl, failed_orFail_iff, failed_traced_iff, traced_declined]
  rfl

end declarations

end NwscriptBindings.Parser
