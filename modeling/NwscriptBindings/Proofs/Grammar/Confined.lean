import NwscriptBindings.Grammar.ScriptUnit
import NwscriptBindings.Proofs.Grammar.Range
import NwscriptBindings.Proofs.Grammar.Reads

namespace NwscriptBindings

variable {α β : Type}

-- `may` tells whether a failure is possible, not whether there is one. That the input ended is
-- for the report to find out, so no production says it.
def Outcome.Confined (may : Bool) (ts : List Token) : Outcome α → Prop
  | .accepted _ n => n ≤ ts.length
  | .declined => True
  | .failed f => may = true ∧ f.problem ≠ .endOfInput ∧ f.place <:+ ts

namespace Parser

variable {may : Bool} {p q : Parser α}

def Confined (may : Bool) (p : Parser α) : Prop := ∀ ts, (p ts).Confined may ts

theorem confined_mono (quiet : Confined false p) : Confined may p := by
  intro ts
  have bound := quiet ts
  cases outcome : p ts with
  | accepted a n => rw [outcome] at bound; exact bound
  | declined => trivial
  | failed f => rw [outcome] at bound; cases bound.1

theorem confined_reads {ts : List Token} {a : α} {n : Nat} (bound : Confined may p)
    (accepted : p ts = .accepted a n) : Reads p a (ts.take n) (ts.drop n) := by
  have inside : n ≤ ts.length := by have := bound ts; rwa [accepted] at this
  rw [Reads, List.take_append_drop, accepted, List.length_take_of_le inside]

theorem quiet_never_fails {ts : List Token} {f : Failure} (quiet : Confined false p) :
    p ts ≠ .failed f := by
  intro failed
  have bound := quiet ts
  rw [failed] at bound
  cases bound.1

@[simp] theorem confined_pure (a : α) : Confined may (pure a : Parser α) := fun _ => Nat.zero_le _

@[simp] theorem confined_decline : Confined may (decline : Parser α) := fun _ => trivial

@[simp] theorem confined_bind {f : α → Parser β} (first : Confined may p)
    (second : ∀ a, Confined may (f a)) : Confined may (p >>= f) := by
  intro ts
  have one := first ts
  rw [bind_eq]
  cases outcome : p ts with
  | declined => trivial
  | failed e => rw [outcome] at one; exact one
  | accepted a n =>
      rw [outcome] at one
      have two := second a (ts.drop n)
      cases after : f a (ts.drop n) with
      | declined => simp only [after, Outcome.after]; trivial
      | failed e =>
          rw [after] at two
          simp only [after, Outcome.after]
          exact ⟨two.1, two.2.1, two.2.2.trans (List.drop_suffix n ts)⟩
      | accepted b k =>
          rw [after] at two
          simp only [after, Outcome.after]
          simp only [Outcome.Confined, List.length_drop] at one two ⊢
          omega

@[simp] theorem confined_ensure (condition : Bool) : Confined may (ensure condition) := by
  cases condition with
  | true => exact confined_pure ()
  | false => exact confined_decline

@[simp] theorem confined_ofOption (o : Option α) : Confined may (ofOption o) := by
  cases o with
  | some a => exact confined_pure a
  | none => exact confined_decline

@[simp] theorem confined_orElse (first : Confined may p) (second : Confined may q) :
    Confined may (p.orElse q) := by
  intro ts
  have one := first ts
  rw [orElse]
  cases outcome : p ts with
  | declined => exact second ts
  | failed e => rw [outcome] at one; exact one
  | accepted a n => rw [outcome] at one; exact one

@[simp] theorem confined_choice (first : Confined may p) (second : Confined may q) :
    Confined may (p <|> q) := confined_orElse first second

@[simp] theorem confined_firstOf {ps : List (Parser α)} (each : ∀ p ∈ ps, Confined may p) :
    Confined may (firstOf ps) := by
  induction ps with
  | nil => exact confined_decline
  | cons p ps ih =>
      exact confined_orElse (each p (by simp)) (ih fun q present => each q (by simp [present]))

@[simp] theorem confined_optional (first : Confined may p) : Confined may (optional p) := by
  intro ts
  have one := first ts
  rw [optional]
  cases outcome : p ts with
  | declined => exact Nat.zero_le _
  | failed e => rw [outcome] at one; exact one
  | accepted a n => rw [outcome] at one; exact one

theorem confined_orFail {problem : Problem} {place : List Token → List Token}
    (first : Confined true p) (known : problem ≠ .endOfInput) (inside : ∀ ts, place ts <:+ ts) :
    Confined true (p.orFail problem place) := by
  intro ts
  have one := first ts
  rw [orFail]
  cases outcome : p ts with
  | declined => exact ⟨rfl, known, inside ts⟩
  | failed e => rw [outcome] at one; exact one
  | accepted a n => rw [outcome] at one; exact one

@[simp] theorem confined_withTokens {p : Parser (List Token → α)} (first : Confined may p) :
    Confined may (withTokens p) := by
  intro ts
  have one := first ts
  rw [withTokens]
  cases outcome : p ts with
  | declined => trivial
  | failed e => rw [outcome] at one; exact one
  | accepted a n => rw [outcome] at one; exact one

@[simp] theorem confined_traced (first : Confined may p) : Confined may (traced p) := by
  simp [traced, first]

theorem confined_manyTill {stop : Parser Unit} (stopped : Confined may stop)
    (each : Confined may p) : Confined may (manyTill stop p) := by
  intro ts
  have one := stopped ts
  have two := each ts
  fun_induction manyTill stop p ts with
  | case1 ts u n ended => rw [ended] at one; exact one
  | case2 ts e ended => rw [ended] at one; exact one
  | case3 ts going none => trivial
  | case4 ts going e failed => rw [failed] at two; exact two
  | case5 ts going a n found progress ih =>
      have three := ih (stopped _) (each _)
      rw [found] at two
      cases others : manyTill stop p (ts.drop n) with
      | declined => trivial
      | failed e =>
          rw [others] at three
          exact ⟨three.1, three.2.1, three.2.2.trans (List.drop_suffix n ts)⟩
      | accepted as k =>
          rw [others] at three
          simp only [Outcome.after, Outcome.Confined, List.length_drop] at two three ⊢
          omega
  | case6 ts going a n found stuck => trivial

@[simp] theorem confined_nextAfter (skip : Token → Bool) : Confined may (nextAfter skip) := by
  intro ts
  rw [nextAfter]
  split
  · trivial
  · rename_i t more found
    have whole := congrArg List.length (List.takeWhile_append_dropWhile (p := skip) (l := ts))
    simp only [found, List.length_append, List.length_cons] at whole
    simp only [Outcome.Confined]
    omega

@[simp] theorem confined_lexeme (l : Lexeme) : Confined may (lexeme l) := by
  simp [lexeme, significant]

@[simp] theorem confined_separator (s : Separator) : Confined may (separator s) := confined_lexeme _

@[simp] theorem confined_operator (o : Operator) : Confined may (operator o) := confined_lexeme _

@[simp] theorem confined_keyword (k : Keyword) : Confined may (keyword k) := confined_lexeme _

@[simp] theorem confined_word : Confined may word := by
  refine confined_bind (confined_nextAfter _) fun t => ?_
  split
  · exact confined_pure _
  · exact confined_decline

@[simp] theorem confined_touching (o : Operator) : Confined may (touching o) := by
  simp [touching, adjacent]

@[simp] theorem confined_notTouching (o : Operator) : Confined may (notTouching o) := by
  intro ts
  rw [notTouching]
  split
  · trivial
  · exact Nat.zero_le _

@[simp] theorem confined_arithmetic (stop : Separator) : Confined may (arithmetic stop) := by
  intro ts
  rw [arithmetic]
  split
  · rename_i range found
    obtain ⟨t, rest, rfl, _, _⟩ := rangeUpTo_split found
    simp [Outcome.Confined]
  · trivial

@[simp] theorem confined_enclosed : Confined may enclosed := by
  intro ts
  rw [enclosed]
  split
  · rename_i range found
    obtain ⟨t, rest, rfl, _, _⟩ := rangeEnclosed_split found
    simp [Outcome.Confined]
  · trivial

@[simp] theorem confined_logical : Confined may logical := by simp [logical]

@[simp] theorem confined_assigned : Confined may assigned := by simp [assigned]

@[simp] theorem confined_unsigned (negative : Bool) : Confined may (unsigned negative) := by
  refine confined_bind (confined_nextAfter _) fun t => ?_
  split
  · exact confined_ofOption _
  · exact confined_decline

@[simp] theorem confined_number : Confined may number := by simp [number]

@[simp] theorem confined_coordinate : Confined may coordinate := by
  refine confined_bind confined_number fun l => ?_
  cases l with
  | int v raw => exact confined_pure _
  | float v raw => exact confined_pure _
  | _ => exact confined_decline

@[simp] theorem confined_vectorBody : Confined may vectorBody :=
  confined_bind confined_coordinate fun _ => confined_bind (confined_separator _) fun _ =>
    confined_bind confined_coordinate fun _ => confined_bind (confined_separator _) fun _ =>
      confined_bind confined_coordinate fun _ => by simp

@[simp] theorem confined_vector : Confined may vector :=
  confined_bind (confined_separator _) fun _ => by simp

@[simp] theorem confined_stringLiteral : Confined may stringLiteral := by
  refine confined_bind (confined_nextAfter _) fun t => ?_
  split
  · exact confined_pure _
  · exact confined_decline

@[simp] theorem confined_literal : Confined may literal := by simp [literal]

@[simp] theorem confined_value : Confined may value := by simp [value]

@[simp] theorem confined_scriptType : Confined may scriptType := by
  refine confined_bind (confined_nextAfter _) fun t => ?_
  split <;> simp

@[simp] theorem confined_plainEquals : Confined may plainEquals := by simp [plainEquals]

@[simp] theorem confined_initializer (isConst : Bool) : Confined may (initializer isConst) :=
  confined_choice (confined_bind (confined_ensure _) fun _ => by simp) (by simp)

@[simp] theorem confined_varDecl : Confined may varDecl :=
  confined_bind (by simp) fun _ => confined_bind (by simp) fun _ =>
    confined_bind confined_word fun _ => by simp

@[simp] theorem confined_structField : Confined may structField :=
  confined_bind confined_varDecl fun _ => by simp

@[simp] theorem confined_structDecl : Confined may structDecl :=
  confined_bind (confined_keyword _) fun _ => confined_bind confined_word fun _ =>
    confined_bind (confined_separator _) fun _ =>
      confined_bind (confined_manyTill (by simp) (by simp)) fun _ => by simp

@[simp] theorem confined_default : Confined may Parser.default := by
  refine confined_bind (by simp) fun o => ?_
  cases o with
  | some u => simp
  | none => simp

@[simp] theorem confined_param : Confined may param :=
  confined_bind (by simp) fun _ => confined_bind confined_word fun _ => by simp

@[simp] theorem confined_followingParam : Confined may followingParam := by simp [followingParam]

@[simp] theorem confined_someParams : Confined may someParams :=
  confined_bind (by simp) fun _ => confined_bind (confined_manyTill (by simp) (by simp)) fun _ =>
    confined_pure _

@[simp] theorem confined_signature : Confined may signature :=
  confined_bind (by simp) fun _ => confined_bind confined_word fun _ =>
    confined_bind (confined_separator _) fun _ =>
      confined_bind (confined_choice (by simp) confined_someParams) fun _ => confined_pure _

@[simp] theorem confined_comment : Confined may comment := by
  refine confined_bind (confined_nextAfter _) fun t => ?_
  split
  · exact confined_pure _
  · exact confined_decline

@[simp] theorem confined_variableName : Confined may variableName := by simp [variableName]

@[simp] theorem confined_compoundOp : Confined may compoundOp := by
  refine confined_bind (confined_nextAfter _) fun t => ?_
  split
  · split
    · exact confined_bind (confined_touching _) fun _ => confined_pure _
    · exact confined_decline
  · exact confined_decline

@[simp] theorem confined_assignOp : Confined may assignOp := by simp [assignOp]

@[simp] theorem confined_doubled : Confined may doubled :=
  confined_choice (confined_bind (confined_operator _) fun _ => by simp)
    (confined_bind (confined_operator _) fun _ => by simp)

@[simp] theorem confined_varStmt : Confined may varStmt := by simp [varStmt]

@[simp] theorem confined_assignStmt : Confined may assignStmt :=
  confined_withTokens (confined_bind confined_variableName fun _ =>
    confined_bind confined_assignOp fun _ => by simp)

@[simp] theorem confined_stepStmt : Confined may stepStmt := by
  have either : Confined may (preStep <|> postStep) :=
    confined_choice (confined_bind confined_doubled fun _ => by simp)
      (confined_bind confined_variableName fun _ => by simp)
  refine confined_withTokens (confined_bind either fun step => ?_)
  simp

@[simp] theorem confined_callStmt : Confined may callStmt :=
  confined_withTokens (confined_bind confined_word fun _ =>
    confined_bind confined_logical fun _ => by simp)

@[simp] theorem confined_leaveStmt : Confined may leaveStmt :=
  confined_withTokens (confined_bind (confined_keyword _) fun _ =>
    confined_bind (confined_choice (by simp) (by simp)) fun _ => confined_pure _)

@[simp] theorem confined_labelStmt : Confined may labelStmt :=
  confined_withTokens (confined_bind (confined_choice (by simp)
    (confined_bind (confined_keyword _) fun _ => by simp)) fun _ => by simp)

@[simp] theorem confined_branchStmt : Confined may branchStmt :=
  confined_withTokens (confined_bind (confined_choice (by simp) (by simp)) fun _ => by simp)

@[simp] theorem confined_blockEnd : Confined may blockEnd := by simp [blockEnd, visible]

theorem confined_unsupportedStmt : Confined true unsupportedStmt := by
  intro ts
  rw [unsupportedStmt]
  split
  · trivial
  · rename_i t rest found
    have inside : t :: rest <:+ ts := found ▸ List.dropWhile_suffix _
    split
    · exact ⟨rfl, by simp, inside⟩
    · exact ⟨rfl, by simp, inside⟩
    · trivial

section nesting

variable {nested : Parser Stmt} (inner : Confined true nested)
include inner

theorem confined_body : Confined true (body nested) :=
  confined_orFail inner (by decide) fun _ => List.dropWhile_suffix _

theorem confined_item : Confined true (item nested) :=
  confined_orFail (confined_orElse (by simp) inner) (by decide) fun _ => List.dropWhile_suffix _

theorem confined_block : Confined true (block nested) :=
  confined_traced (confined_bind (confined_separator _) fun _ =>
    confined_manyTill confined_blockEnd (confined_item inner))

theorem confined_blockStmt : Confined true (blockStmt nested) :=
  confined_bind (confined_block inner) fun _ => confined_pure _

theorem confined_whileStmt : Confined true (whileStmt nested) :=
  confined_withTokens (confined_bind (confined_keyword _) fun _ =>
    confined_bind confined_logical fun _ =>
      confined_bind (confined_body inner) fun _ => confined_pure _)

theorem confined_forStmt : Confined true (forStmt nested) :=
  confined_withTokens (confined_bind (confined_keyword _) fun _ =>
    confined_bind (confined_separator _) fun _ => confined_bind (confined_arithmetic _) fun _ =>
      confined_bind (confined_arithmetic _) fun _ => confined_bind (confined_arithmetic _) fun _ =>
        confined_bind (confined_body inner) fun _ => confined_pure _)

theorem confined_doStmt : Confined true (doStmt nested) :=
  confined_withTokens (confined_bind (confined_keyword _) fun _ =>
    confined_bind (confined_body inner) fun _ =>
      confined_bind (confined_orFail (confined_keyword _) (by decide)
        fun _ => List.dropWhile_suffix _) fun _ => confined_bind confined_logical fun _ => by simp)

theorem confined_otherwise : Confined true (otherwise nested) :=
  confined_traced (confined_bind (confined_keyword _) fun _ => confined_body inner)

theorem confined_ifStmt : Confined true (ifStmt nested) := by
  refine confined_withTokens (confined_bind (confined_keyword _) fun _ =>
    confined_bind confined_logical fun _ => confined_bind (confined_body inner) fun _ =>
      confined_bind (confined_optional (confined_otherwise inner)) fun o => ?_)
  cases o with
  | some other => exact confined_pure _
  | none => exact confined_pure _

theorem confined_switchStmt : Confined true (switchStmt nested) :=
  confined_withTokens (confined_bind (confined_keyword _) fun _ =>
    confined_bind confined_logical fun _ =>
      confined_bind (confined_block inner) fun _ => confined_pure _)

theorem confined_ofForm (form : StmtForm) : Confined true (ofForm nested form) := by
  cases form with
  | block => exact confined_blockStmt inner
  | var => exact confined_varStmt
  | assign => exact confined_assignStmt
  | step => exact confined_stepStmt
  | call => exact confined_callStmt
  | whileLoop => exact confined_whileStmt inner
  | forLoop => exact confined_forStmt inner
  | doLoop => exact confined_doStmt inner
  | ifThen => exact confined_ifStmt inner
  | leave => exact confined_leaveStmt
  | switch => exact confined_switchStmt inner
  | label => exact confined_labelStmt
  | branch => exact confined_branchStmt
  | unsupported => exact confined_unsupportedStmt

end nesting

-- Nested statements see fewer tokens, so the induction is on how many there are.
theorem confined_statement (forms : List StmtForm) : Confined true (statement forms) := by
  intro ts
  induction size : ts.length using Nat.strongRecOn generalizing ts with
  | ind size' ih =>
      rw [statement]
      refine confined_firstOf ?_ ts
      intro p present
      obtain ⟨form, _, rfl⟩ := List.mem_map.mp present
      refine confined_ofForm ?_ form
      intro rest
      dsimp only
      split
      · rename_i shorter
        exact ih rest.length (by omega) rest rfl
      · trivial

@[simp] theorem confined_directiveDecl : Confined may directiveDecl := by
  refine confined_bind (confined_nextAfter _) fun t => ?_
  split
  · exact confined_pure _
  · exact confined_decline

@[simp] theorem confined_commentDecl : Confined may commentDecl := by simp [commentDecl]

theorem confined_functionDecl (forms : List StmtForm) : Confined true (functionDecl forms) :=
  confined_bind confined_signature fun _ => confined_choice (by simp)
    (confined_bind (confined_block (confined_statement forms)) fun _ => confined_pure _)

theorem confined_decl (forms : List StmtForm) : Confined true (decl forms) := by
  refine confined_firstOf fun p present => ?_
  simp only [List.mem_cons, List.not_mem_nil, or_false] at present
  rcases present with rfl | rfl | rfl | rfl | rfl
  · exact confined_directiveDecl
  · exact confined_commentDecl
  · exact confined_functionDecl forms
  · simp
  · simp

theorem confined_endOfTokens : Confined may endOfTokens := by
  intro ts
  rw [endOfTokens]
  split
  · exact Nat.le_refl _
  · trivial

theorem confined_decls (forms : List StmtForm) : Confined true (decls forms) :=
  confined_manyTill confined_endOfTokens (confined_orFail
    (confined_traced (confined_decl forms)) (by decide) fun _ => List.dropWhile_suffix _)

end Parser
end NwscriptBindings
