import NwscriptBindings.Proofs.Grammar.Soundness

namespace NwscriptBindings.Parser

variable {α β : Type} {p q : Parser α} {n : Nat}

def Advances (p : Parser α) : Prop := ∀ ts a k, p ts = .accepted a k → 0 < k ∧ ts ≠ []

theorem advances_nextAfter (skip : Token → Bool) : Advances (nextAfter skip) := by
  intro ts t k accepted
  rw [nextAfter] at accepted
  cases found : ts.dropWhile skip with
  | nil => simp [found] at accepted
  | cons u more =>
      simp only [found, Outcome.accepted.injEq] at accepted
      refine ⟨by omega, ?_⟩
      intro empty
      simp [empty] at found

theorem advances_decline : Advances (decline : Parser α) := by
  intro ts a k accepted
  cases accepted

theorem advances_bind {f : α → Parser β} (first : Advances p) : Advances (p >>= f) := by
  intro ts b k accepted
  rw [bind_eq] at accepted
  cases outcome : p ts with
  | declined => simp [outcome] at accepted
  | failed e => simp [outcome] at accepted
  | accepted a n =>
      simp only [outcome, after_accepted_iff] at accepted
      obtain ⟨_, _, _, rfl, _⟩ := accepted
      obtain ⟨some, left⟩ := first ts a n outcome
      exact ⟨by omega, left⟩

theorem advances_bind_later {f : α → Parser β} (second : ∀ a, Advances (f a)) :
    Advances (p >>= f) := by
  intro ts b k accepted
  rw [bind_eq] at accepted
  cases outcome : p ts with
  | declined => simp [outcome] at accepted
  | failed e => simp [outcome] at accepted
  | accepted a n =>
      simp only [outcome, after_accepted_iff] at accepted
      obtain ⟨_, _, later, rfl, _⟩ := accepted
      obtain ⟨some, left⟩ := second a _ _ _ later
      refine ⟨by omega, ?_⟩
      intro empty
      simp [empty] at left

theorem advances_orElse (first : Advances p) (second : Advances q) : Advances (p.orElse q) := by
  intro ts a k accepted
  rw [orElse] at accepted
  cases outcome : p ts with
  | declined => exact second ts a k (by simpa [outcome] using accepted)
  | failed e => simp [outcome] at accepted
  | accepted b n => exact first ts a k (by simpa [outcome] using accepted)

theorem advances_choice (first : Advances p) (second : Advances q) : Advances (p <|> q) :=
  advances_orElse first second

theorem advances_firstOf {ps : List (Parser α)} (each : ∀ p ∈ ps, Advances p) :
    Advances (firstOf ps) := by
  induction ps with
  | nil => exact advances_decline
  | cons p ps ih =>
      exact advances_orElse (each p (by simp)) (ih fun q present => each q (by simp [present]))

theorem advances_withTokens {p : Parser (List Token → α)} (first : Advances p) :
    Advances (withTokens p) := by
  intro ts a k accepted
  rw [withTokens] at accepted
  cases outcome : p ts with
  | declined => simp [outcome] at accepted
  | failed e => simp [outcome] at accepted
  | accepted f n =>
      simp only [outcome, Outcome.accepted.injEq] at accepted
      obtain ⟨_, rfl⟩ := accepted
      exact first ts f n outcome

theorem advances_traced (first : Advances p) : Advances (traced p) :=
  advances_withTokens (advances_bind first)

theorem advances_orFail {problem : Problem} {place : List Token → List Token}
    (first : Advances p) : Advances (p.orFail problem place) := by
  intro ts a k accepted
  rw [orFail] at accepted
  cases outcome : p ts with
  | declined => simp [outcome] at accepted
  | failed e => simp [outcome] at accepted
  | accepted b n => exact first ts a k (by simpa [outcome] using accepted)

theorem advances_manyTill {stop : Parser Unit} (stops : Advances stop) :
    Advances (manyTill stop p) := by
  intro ts as k accepted
  rw [manyTill] at accepted
  split at accepted
  · rename_i u n ended
    cases accepted
    exact stops ts u k ended
  · cases accepted
  · split at accepted
    · cases accepted
    · cases accepted
    · split at accepted
      · rename_i progress
        obtain ⟨_, _, _, rfl, _⟩ := after_accepted_iff.mp accepted
        exact ⟨by omega, progress.2⟩
      · cases accepted

section productions

theorem advances_lexeme (l : Lexeme) : Advances (lexeme l) := advances_bind (advances_nextAfter _)

theorem advances_word : Advances word := advances_bind (advances_nextAfter _)

theorem advances_unsigned (negative : Bool) : Advances (unsigned negative) :=
  advances_bind (advances_nextAfter _)

theorem advances_number : Advances number :=
  advances_choice (advances_bind (advances_lexeme _)) (advances_unsigned false)

theorem advances_vector : Advances vector := advances_bind (advances_lexeme _)

theorem advances_literal : Advances literal := by
  refine advances_firstOf fun p present => ?_
  simp only [List.mem_cons, List.not_mem_nil, or_false] at present
  rcases present with rfl | rfl | rfl | rfl | rfl
  · exact advances_bind (advances_lexeme _)
  · exact advances_bind (advances_lexeme _)
  · exact advances_vector
  · exact advances_bind (advances_nextAfter _)
  · exact advances_number

theorem advances_value : Advances value :=
  advances_choice (advances_bind advances_literal) (advances_bind advances_word)

theorem nonempty_of_rangeUpTo {stop : Separator} {depth : Nat} {ts range : List Token}
    (found : rangeUpTo stop depth ts = some range) : ts ≠ [] := by
  intro empty
  simp [empty, rangeUpTo] at found

theorem advances_arithmetic (stop : Separator) : Advances (arithmetic stop) := by
  intro ts e k accepted
  rw [arithmetic] at accepted
  cases found : rangeUpTo stop 0 ts with
  | none => simp [found] at accepted
  | some range =>
      simp only [found, Outcome.accepted.injEq] at accepted
      exact ⟨by omega, nonempty_of_rangeUpTo found⟩

theorem advances_logical : Advances logical := advances_bind (advances_lexeme _)

theorem advances_scriptType : Advances scriptType := advances_bind (advances_nextAfter _)

theorem advances_plainEquals : Advances plainEquals := advances_bind (advances_lexeme _)

theorem advances_assignOp : Advances assignOp :=
  advances_choice (advances_bind advances_plainEquals) (advances_bind (advances_nextAfter _))

theorem advances_doubled : Advances doubled :=
  advances_choice (advances_bind (advances_lexeme _)) (advances_bind (advances_lexeme _))

theorem advances_varDecl : Advances varDecl :=
  advances_bind_later fun _ => advances_bind (advances_traced advances_scriptType)

theorem advances_structField : Advances structField := advances_bind advances_varDecl

theorem advances_structDecl : Advances structDecl := advances_bind (advances_lexeme _)

theorem advances_param : Advances param := advances_bind (advances_traced advances_scriptType)

theorem advances_followingParam : Advances followingParam := advances_bind (advances_lexeme _)

theorem advances_signature : Advances signature :=
  advances_bind (advances_traced advances_scriptType)

theorem advances_comment : Advances comment := advances_bind (advances_nextAfter _)

theorem advances_blockEnd : Advances blockEnd := advances_bind (advances_nextAfter _)

theorem advances_preStep : Advances preStep := advances_bind advances_doubled

theorem advances_postStep : Advances postStep := advances_bind (advances_traced advances_word)

theorem advances_unsupportedStmt : Advances unsupportedStmt :=
  fun _ _ _ accepted => (unsupported_never_accepts accepted).elim

theorem advances_block (nested : Parser Stmt) : Advances (block nested) :=
  advances_traced (advances_bind (advances_lexeme _))

theorem advances_otherwise (nested : Parser Stmt) : Advances (otherwise nested) :=
  advances_traced (advances_bind (advances_lexeme _))

-- Every form has a mark of its own in front of what nests in it.
theorem advances_ofForm (nested : Parser Stmt) (form : StmtForm) :
    Advances (ofForm nested form) := by
  cases form with
  | block => exact advances_bind (advances_block nested)
  | var => exact advances_withTokens (advances_bind advances_varDecl)
  | assign => exact advances_withTokens (advances_bind (advances_traced advances_word))
  | step =>
      exact advances_withTokens (advances_bind (advances_choice advances_preStep advances_postStep))
  | call => exact advances_withTokens (advances_bind advances_word)
  | whileLoop => exact advances_withTokens (advances_bind (advances_lexeme _))
  | forLoop => exact advances_withTokens (advances_bind (advances_lexeme _))
  | doLoop => exact advances_withTokens (advances_bind (advances_lexeme _))
  | ifThen => exact advances_withTokens (advances_bind (advances_lexeme _))
  | leave => exact advances_withTokens (advances_bind (advances_lexeme _))
  | switch => exact advances_withTokens (advances_bind (advances_lexeme _))
  | label =>
      exact advances_withTokens (advances_bind
        (advances_choice (advances_bind (advances_lexeme _)) (advances_bind (advances_lexeme _))))
  | branch =>
      exact advances_withTokens (advances_bind
        (advances_choice (advances_bind (advances_lexeme _)) (advances_bind (advances_lexeme _))))
  | unsupported => exact advances_unsupportedStmt

theorem advances_statement (forms : List StmtForm) : Advances (statement forms) := by
  intro ts s k accepted
  rw [statement_eq] at accepted
  refine advances_firstOf (fun p present => ?_) ts s k accepted
  obtain ⟨form, _, rfl⟩ := List.mem_map.mp present
  exact advances_ofForm _ form

theorem advances_below (forms : List StmtForm) (size : Nat) : Advances (below forms size) := by
  intro ts s k accepted
  rw [below] at accepted
  split at accepted
  · exact advances_statement forms ts s k accepted
  · cases accepted

theorem advances_body {nested : Parser Stmt} (inner : Advances nested) : Advances (body nested) :=
  advances_orFail inner

theorem advances_item {nested : Parser Stmt} (inner : Advances nested) : Advances (item nested) :=
  advances_orFail (advances_orElse (advances_withTokens (advances_bind advances_comment)) inner)

theorem advances_functionDecl (forms : List StmtForm) : Advances (functionDecl forms) :=
  advances_bind advances_signature

theorem advances_directiveDecl : Advances directiveDecl := advances_bind (advances_nextAfter _)

theorem advances_decl (forms : List StmtForm) : Advances (decl forms) := by
  refine advances_firstOf fun p present => ?_
  simp only [List.mem_cons, List.not_mem_nil, or_false] at present
  rcases present with rfl | rfl | rfl | rfl | rfl
  · exact advances_directiveDecl
  · exact advances_bind advances_comment
  · exact advances_functionDecl forms
  · exact advances_bind advances_varDecl
  · exact advances_bind advances_structDecl

def unitDecl (forms : List StmtForm) : Parser (Traced Decl) :=
  (traced (decl forms)).orFail .strayAtTopLevel (·.dropWhile Token.isSpace)

theorem advances_unitDecl (forms : List StmtForm) : Advances (unitDecl forms) :=
  advances_orFail (advances_traced (advances_decl forms))

end productions

-- Equal on every input of fewer than `n` tokens. A first production that advances lets what
-- follows it differ on longer inputs.
def SameBelow (n : Nat) (p q : Parser α) : Prop := ∀ ts, ts.length < n → p ts = q ts

theorem same_refl (p : Parser α) : SameBelow n p p := fun _ _ => rfl

theorem same_shorter {m : Nat} (same : SameBelow n p q) (shorter : m ≤ n) : SameBelow m p q :=
  fun ts short => same ts (by omega)

theorem same_bind {f g : α → Parser β} (first : SameBelow n p q)
    (second : ∀ a, SameBelow n (f a) (g a)) : SameBelow n (p >>= f) (q >>= g) := by
  intro ts short
  rw [bind_eq, bind_eq, first ts short]
  cases q ts with
  | declined => rfl
  | failed e => rfl
  | accepted a k =>
      have shorter : (ts.drop k).length < n := by rw [List.length_drop]; omega
      simp only [second a _ shorter]

theorem same_behind {f g : α → Parser β} (first : Advances p)
    (second : ∀ a, SameBelow n (f a) (g a)) : SameBelow (n + 1) (p >>= f) (p >>= g) := by
  intro ts short
  rw [bind_eq, bind_eq]
  cases outcome : p ts with
  | declined => rfl
  | failed e => rfl
  | accepted a k =>
      obtain ⟨some, left⟩ := first ts a k outcome
      have present := List.length_pos_iff.mpr left
      have shorter : (ts.drop k).length < n := by rw [List.length_drop]; omega
      simp only [second a _ shorter]

theorem same_orElse {p' q' : Parser α} (first : SameBelow n p q) (second : SameBelow n p' q') :
    SameBelow n (p.orElse p') (q.orElse q') := by
  intro ts short
  rw [orElse, orElse, first ts short]
  cases q ts with
  | declined => exact second ts short
  | failed e => rfl
  | accepted a k => rfl

theorem same_optional (first : SameBelow n p q) : SameBelow n (optional p) (optional q) := by
  intro ts short
  rw [optional, optional, first ts short]

theorem same_orFail {problem : Problem} {place : List Token → List Token}
    (first : SameBelow n p q) : SameBelow n (p.orFail problem place) (q.orFail problem place) := by
  intro ts short
  rw [orFail, orFail, first ts short]

theorem same_withTokens {p q : Parser (List Token → α)} (first : SameBelow n p q) :
    SameBelow n (withTokens p) (withTokens q) := by
  intro ts short
  rw [withTokens, withTokens, first ts short]

theorem same_traced (first : SameBelow n p q) : SameBelow n (traced p) (traced q) :=
  same_withTokens (same_bind first fun _ => same_refl _)

theorem same_manyTill {stop : Parser Unit} (each : SameBelow n p q) :
    SameBelow n (manyTill stop p) (manyTill stop q) := by
  intro ts short
  induction size : ts.length using Nat.strongRecOn generalizing ts with
  | _ size ih =>
      rw [manyTill, manyTill, each ts short]
      cases stop ts with
      | accepted u k => rfl
      | failed e => rfl
      | declined =>
          cases q ts with
          | declined => rfl
          | failed e => rfl
          | accepted a k =>
              by_cases progress : 0 < k ∧ ts ≠ []
              · have present := List.length_pos_iff.mpr progress.2
                have fewer : (ts.drop k).length < ts.length := by rw [List.length_drop]; omega
                simp only [if_pos progress,
                  ih (ts.drop k).length (by omega) (ts.drop k) (by omega) rfl]
              · simp only [if_neg progress]

theorem same_firstOf {f g : β → Parser α} (choices : List β)
    (each : ∀ c ∈ choices, SameBelow n (f c) (g c)) :
    SameBelow n (firstOf (choices.map f)) (firstOf (choices.map g)) := by
  induction choices with
  | nil => exact same_refl _
  | cons c choices ih =>
      exact same_orElse (each c (by simp)) (ih fun d present => each d (by simp [present]))

section nesting

variable {nested other : Parser Stmt} (inner : SameBelow n nested other)
include inner

theorem same_body : SameBelow n (body nested) (body other) := same_orFail inner

theorem same_item : SameBelow n (item nested) (item other) :=
  same_orFail (same_orElse (same_refl _) inner)

theorem same_block : SameBelow (n + 1) (block nested) (block other) :=
  same_withTokens (same_bind
    (same_behind (advances_lexeme _) fun _ => same_manyTill (same_item inner))
    fun _ => same_refl _)

theorem same_otherwise : SameBelow n (otherwise nested) (otherwise other) :=
  same_traced (same_bind (same_refl _) fun _ => same_body inner)

theorem same_ofForm (form : StmtForm) :
    SameBelow (n + 1) (ofForm nested form) (ofForm other form) := by
  cases form with
  | block => exact same_bind (same_block inner) fun _ => same_refl _
  | whileLoop =>
      exact same_withTokens (same_behind (advances_lexeme _) fun _ =>
        same_bind (same_refl _) fun _ => same_bind (same_body inner) fun _ => same_refl _)
  | forLoop =>
      exact same_withTokens (same_behind (advances_lexeme _) fun _ =>
        same_bind (same_refl _) fun _ => same_bind (same_refl _) fun _ =>
        same_bind (same_refl _) fun _ => same_bind (same_refl _) fun _ =>
        same_bind (same_body inner) fun _ => same_refl _)
  | doLoop =>
      exact same_withTokens (same_behind (advances_lexeme _) fun _ =>
        same_bind (same_body inner) fun _ => same_refl _)
  | ifThen =>
      exact same_withTokens (same_behind (advances_lexeme _) fun _ =>
        same_bind (same_refl _) fun _ => same_bind (same_body inner) fun _ =>
        same_bind (same_optional (same_otherwise inner)) fun _ => same_refl _)
  | switch =>
      exact same_withTokens (same_behind (advances_lexeme _) fun _ =>
        same_bind (same_refl _) fun _ =>
        same_bind (same_shorter (same_block inner) (Nat.le_succ n)) fun _ => same_refl _)
  | _ => exact same_refl _

end nesting

-- Nothing that nests in a statement is as long as the statement, so no nested statement is
-- turned away by the guard in `statement`.
theorem statement_unguarded (forms : List StmtForm) (ts : List Token) :
    statement forms ts = firstOf (forms.map (ofForm (statement forms))) ts := by
  have inner : SameBelow ts.length (below forms ts.length) (statement forms) :=
    fun rest short => if_pos short
  rw [statement_eq]
  exact same_firstOf forms (fun form _ => same_ofForm inner form) ts (Nat.lt_succ_self _)

-- One round of a repetition: it ends, or one more item is read and the rest is read `again`.
def round (stop : Parser Unit) (item : Parser α) (again : Parser (List α)) : Parser (List α) :=
  (do stop; pure []) <|> (do let a ← item; let as ← again; pure (a :: as))

theorem manyTill_unguarded {stop : Parser Unit} (each : Advances p) (ts : List Token) :
    manyTill stop p ts = round stop p (manyTill stop p) ts := by
  have either : round stop p (manyTill stop p) ts = (do stop; pure [] : Parser (List α)).orElse
      (do let a ← p; let as ← manyTill stop p; pure (a :: as)) ts := rfl
  rw [either, orElse, bind_eq, manyTill]
  cases stop ts with
  | accepted u k => rfl
  | failed e => rfl
  | declined =>
      simp only [bind_eq]
      cases outcome : p ts with
      | declined => rfl
      | failed e => rfl
      | accepted a k =>
          simp only [if_pos (each ts a k outcome)]
          refine Eq.trans ?_ (congrArg (Outcome.after k id) (bind_eq _ _)).symm
          cases manyTill stop p (ts.drop k) <;> rfl

end NwscriptBindings.Parser
