import NwscriptBindings.Proofs.Grammar.Composition
import NwscriptBindings.Proofs.Grammar.Respacing

namespace NwscriptBindings

variable {α β : Type}

-- A tree without the tokens of its nodes, which hold all that depends on spacing.
def Traced.untraced (x : Traced α) : Traced α := ⟨x.content, []⟩

def VarDecl.untraced (d : VarDecl) : VarDecl :=
  ⟨d.type.untraced, d.name, d.init.map Traced.untraced, d.isConst⟩

mutual

def Stmt.untraced : Stmt → Stmt
  | .comment c _ => .comment c []
  | .var d _ => .var d.untraced []
  | .block stmts _ => .block (Stmt.untracedAll stmts) []
  | .assign target op value _ => .assign target.untraced op value.untraced []
  | .step target op _ => .step target.untraced op []
  | .call name args _ => .call name args.untraced []
  | .whileLoop cond body _ => .whileLoop cond.untraced body.untraced []
  | .forLoop init cond post body _ =>
      .forLoop init.untraced cond.untraced post.untraced body.untraced []
  | .doLoop body cond _ => .doLoop body.untraced cond.untraced []
  | .ifThen cond body _ => .ifThen cond.untraced body.untraced []
  | .ifElse cond body other _ _ => .ifElse cond.untraced body.untraced other.untraced [] []
  | .leave result _ => .leave (result.map Traced.untraced) []
  | .switch tag stmts _ _ => .switch tag.untraced (Stmt.untracedAll stmts) [] []
  | .label value _ => .label (value.map Traced.untraced) []
  | .breakOut _ => .breakOut []
  | .continueOn _ => .continueOn []

def Stmt.untracedAll : List Stmt → List Stmt
  | [] => []
  | s :: stmts => s.untraced :: Stmt.untracedAll stmts

end

def Param.untraced (p : Param) : Param :=
  ⟨p.type.untraced, p.name, p.default.map Traced.untraced⟩

def Signature.untraced (sig : Signature) : Signature :=
  ⟨sig.result.untraced, sig.name, sig.params.map fun p => ⟨p.content.untraced, []⟩⟩

def StructDecl.untraced (d : StructDecl) : StructDecl :=
  ⟨d.name, d.fields.map fun f => ⟨f.content.untraced, []⟩⟩

def Decl.untraced : Decl → Decl
  | .directive text => .directive text
  | .comment c => .comment c
  | .struct d => .struct d.untraced
  | .prototype sig => .prototype sig.untraced
  | .function sig body => .function sig.untraced ⟨Stmt.untracedAll body.content, []⟩
  | .var d => .var d.untraced

def ScriptUnit.untraced (u : ScriptUnit) : ScriptUnit :=
  ⟨u.name, u.decls.map fun d => ⟨d.content.untraced, []⟩, []⟩

theorem Outcome.after_zero (o : Outcome α) : o.after 0 id = o := by
  cases o with
  | accepted a n => simp only [after, id, Nat.zero_add]
  | declined => rfl
  | failed e => rfl

namespace Parser

section tokens

variable {n m : Nat} {values : β → β → Prop}

theorem bind_bind {γ : Type} (p : Parser α) (f : α → Parser β) (g : β → Parser γ) :
    ((p >>= f) >>= g) = p >>= fun a => f a >>= g := by
  funext ts
  rw [bind_eq, bind_eq, bind_eq]
  cases p ts with
  | declined => rfl
  | failed e => rfl
  | accepted a k =>
      simp only
      rw [bind_eq]
      cases f a (ts.drop k) with
      | declined => rfl
      | failed e => rfl
      | accepted b l =>
          simp only [Outcome.after_after, List.drop_drop]
          rfl

theorem ensure_bind (condition : Bool) (f : Unit → Parser β) (ts : List Token) :
    (ensure condition >>= f) ts = if condition then f () ts else .declined := by
  cases condition with
  | true => exact Outcome.after_zero _
  | false => rfl

theorem alike_significant {f g : Token → Parser β} (second : ∀ t, Alike n m values (f t) (g t)) :
    Alike n m values (significant >>= f) (significant >>= g) := by
  intro ts us short short' spaced
  apply agree_next (fun _ => trivia_of_space) spaced
  intro t left other shorter shorter' later
  exact second t left other (by omega) (by omega) later.free

theorem alike_visible {f g : Token → Parser β} (second : ∀ t, Alike n m values (f t) (g t)) :
    Alike n m values (visible >>= f) (visible >>= g) := by
  intro ts us short short' spaced
  apply agree_next (fun _ blank => blank) spaced
  intro t left other shorter shorter' later
  exact second t left other (by omega) (by omega) later.free

theorem agree_lexeme {l : Lexeme} {ts us : List Token} {f g : Unit → Parser β}
    (spaced : Respaced false ts us)
    (second : ∀ left other, left.length < ts.length → other.length < us.length →
      Respaced (l.kind == .operator) left other →
        Outcome.Agree values left other (f () left) (g () other)) :
    Outcome.Agree values ts us ((lexeme l >>= f) ts) ((lexeme l >>= g) us) := by
  unfold lexeme
  rw [bind_bind, bind_bind]
  apply agree_next (fun _ => trivia_of_space) spaced
  intro t left other shorter shorter' later
  rw [ensure_bind, ensure_bind]
  by_cases same : t.lexeme = l
  · have kind : Expr.isOperator t = (l.kind == .operator) := by
      rw [Expr.isOperator, Token.kind, same]
    rw [kind] at later
    simpa only [same, BEq.rfl, if_true] using second left other shorter shorter' later
  · simp only [beq_eq_false_iff_ne.mpr same]
    trivial

theorem alike_behind {l : Lexeme} {f g : Unit → Parser β}
    (second : Alike n m values (f ()) (g ())) :
    Alike (n + 1) (m + 1) values (lexeme l >>= f) (lexeme l >>= g) := by
  intro ts us short short' spaced
  apply agree_lexeme spaced
  intro left other shorter shorter' later
  exact second left other (by omega) (by omega) later.free

theorem alike_lexeme (l : Lexeme) : Alike n m Eq (lexeme l) (lexeme l) :=
  alike_significant fun _ => alike_ensure _

theorem alike_word : Alike n m Eq word word := by
  apply alike_significant
  intro t
  cases t.lexeme with
  | word text => exact alike_pure rfl
  | _ => exact alike_decline

theorem touching_respaced {ts us : List Token} (o : Operator) (spaced : Respaced true ts us) :
    Outcome.Agree Eq ts us (touching o ts) (touching o us) := by
  rw [touching_eq, touching_eq]
  cases spaced with
  | nil => trivial
  | @keep t _ ts us later =>
      by_cases same : t.lexeme = .operator o
      · simp only [same, if_true]
        exact ⟨rfl, later.free⟩
      · simp only [same, if_false]
        trivial
  | @space s _ _ us blank apart _ =>
      have blankLeft : s.lexeme ≠ .operator o := by
        intro same
        rw [Token.isSpace, same] at blank
        cases blank
      simp only [blankLeft, if_false]
      cases ts with
      | nil => trivial
      | cons t ts =>
          have other : t.lexeme ≠ .operator o := by
            intro same
            apply apart
            simp [Expr.isOperator, Token.kind, same, Lexeme.kind]
          simp only [other, if_false]
          trivial

theorem touching_pure_respaced {ts us : List Token} (o : Operator) (b : β)
    (spaced : Respaced true ts us) :
    Outcome.Agree Eq ts us ((do touching o; pure b : Parser β) ts)
      ((do touching o; pure b : Parser β) us) := by
  rw [bind_eq, bind_eq]
  rcases (touching_respaced o spaced).cases with
    ⟨_, k, _, l, one, two, _, later⟩ | ⟨one, two⟩ | ⟨_, _, one, two, like⟩
  · rw [one, two]
    exact ⟨rfl, later⟩
  · rw [one, two]
    trivial
  · rw [one, two]
    trivial

theorem alike_same {p q : Parser α} {f g : α → Parser β} (first : Alike n m Eq p q)
    (second : ∀ a, Alike n m values (f a) (g a)) : Alike n m values (p >>= f) (q >>= g) := by
  apply alike_bind first
  intro a b same
  rw [same]
  exact second b

theorem alike_then {l : Lexeme} {f g : Unit → Parser β} (second : Alike n m values (f ()) (g ())) :
    Alike n m values (lexeme l >>= f) (lexeme l >>= g) :=
  alike_bind (alike_lexeme l) fun _ _ _ => second

theorem alike_mark {l : Lexeme} {a b : β} (same : values a b) :
    Alike n m values (do lexeme l; pure a) (do lexeme l; pure b) := alike_then (alike_pure same)

theorem Alike.shorter {related : α → α → Prop} {p q : Parser α}
    (alike : Alike (n + 1) (m + 1) related p q) : Alike n m related p q :=
  fun ts us short short' => alike ts us (by omega) (by omega)

theorem alike_leaf {p q : Parser α} (first : Alike n m Eq p q) :
    Alike n m (fun x y => x.untraced = y.untraced) (traced p) (traced q) := by
  apply alike_withTokens
  apply alike_map first
  intro a b same xs ys
  rw [same]
  rfl

end tokens

section productions

variable {n m : Nat}

theorem alike_scriptType : Alike n m Eq scriptType scriptType := by
  apply alike_significant
  intro t
  cases t.lexeme with
  | keyword k =>
      cases k with
      | structWord => exact alike_map alike_word fun _ _ same => by rw [same]
      | basic type => exact alike_pure rfl
      | _ => exact alike_decline
  | _ => exact alike_decline

theorem alike_unsigned (negative : Bool) :
    Alike n m Eq (unsigned negative) (unsigned negative) := by
  apply alike_significant
  intro t
  cases t.lexeme with
  | literal l => exact alike_ofOption _
  | _ => exact alike_decline

theorem alike_number : Alike n m Eq number number :=
  alike_choice (alike_then (alike_unsigned true)) (alike_unsigned false)

theorem alike_coordinate : Alike n m Eq coordinate coordinate := by
  apply alike_same alike_number
  intro l
  cases l with
  | int v _ => exact alike_pure rfl
  | float v _ => exact alike_pure rfl
  | _ => exact alike_decline

theorem alike_vectorBody : Alike n m Eq vectorBody vectorBody := by
  apply alike_same alike_coordinate
  intro x
  apply alike_then
  apply alike_same alike_coordinate
  intro y
  apply alike_then
  apply alike_same alike_coordinate
  intro z
  exact alike_mark rfl

theorem alike_vector : Alike n m Eq vector vector :=
  alike_then (alike_choice (alike_mark rfl) alike_vectorBody)

theorem alike_stringLiteral : Alike n m Eq stringLiteral stringLiteral := by
  apply alike_significant
  intro t
  cases t.lexeme with
  | literal l =>
      cases l with
      | string body _ => exact alike_pure rfl
      | _ => exact alike_decline
  | _ => exact alike_decline

theorem alike_literal : Alike n m Eq literal literal := by
  apply alike_firstOf
  apply List.Forall₂.cons (alike_mark rfl)
  apply List.Forall₂.cons (alike_mark rfl)
  apply List.Forall₂.cons alike_vector
  apply List.Forall₂.cons alike_stringLiteral
  exact .cons alike_number .nil

theorem alike_value : Alike n m Eq value value := by
  apply alike_choice
  · exact alike_map alike_literal fun _ _ same => by rw [same]
  · exact alike_map alike_word fun _ _ same => by rw [same]

theorem alike_arithmetic {stop : Separator} :
    Alike n m (fun x y => x.untraced = y.untraced) (arithmetic stop) (arithmetic stop) := by
  intro ts us _ _ spaced
  unfold arithmetic
  rw [rangeUpTo_eq, rangeUpTo_eq]
  rcases rangeBy_respaced (upToRule_passes stop) spaced with
    ⟨one, two⟩ | ⟨range, other, one, two, inside, later⟩
  · rw [one, two]
    trivial
  · rw [one, two]
    refine ⟨?_, later⟩
    simp only [Traced.untraced, Expr.textOf_respaced inside]

theorem alike_logical : Alike n m (fun x y => x.untraced = y.untraced) logical logical := by
  apply alike_then
  intro ts us _ _ spaced
  unfold enclosed
  rw [rangeEnclosed_eq, rangeEnclosed_eq]
  rcases rangeBy_respaced enclosedRule_passes spaced with
    ⟨one, two⟩ | ⟨range, other, one, two, inside, later⟩
  · rw [one, two]
    trivial
  · rw [one, two]
    refine ⟨?_, later⟩
    simp only [Traced.untraced, Expr.textOf_respaced inside]

theorem alike_assigned : Alike n m (fun x y => x.untraced = y.untraced) assigned assigned := by
  apply alike_bind alike_arithmetic
  intro e f same
  have text : e.untraced.content = f.untraced.content := by rw [same]
  rw [show e.content = f.content from text]
  exact alike_bind (alike_ensure _) fun _ _ _ => alike_pure same

theorem alike_plainEquals : Alike n m Eq plainEquals plainEquals := by
  intro ts us _ _ spaced
  apply agree_lexeme spaced
  intro left other _ _ later
  unfold notTouching
  rcases (touching_respaced .equals later).cases with
    ⟨_, _, _, _, one, two, _⟩ | ⟨one, two⟩ | ⟨_, _, one, two, like⟩
  · rw [one, two]
    trivial
  · rw [one, two]
    exact ⟨rfl, later.free⟩
  · rw [one, two]
    exact ⟨rfl, later.free⟩

theorem alike_compoundOp : Alike n m Eq compoundOp compoundOp := by
  intro ts us _ _ spaced
  apply agree_next (fun _ => trivia_of_space) spaced
  intro t left other _ _ later
  cases shown : t.lexeme with
  | operator o =>
      rw [Expr.isOperator, Token.kind, shown] at later
      simp only
      cases compoundOp? o with
      | some op => exact touching_pure_respaced .equals op later
      | none => trivial
  | _ => trivial

theorem alike_assignOp : Alike n m Eq assignOp assignOp :=
  alike_choice (alike_bind alike_plainEquals fun _ _ _ => alike_pure rfl) alike_compoundOp

theorem alike_twice (o : Operator) (b : Bool) :
    Alike n m Eq (do operator o; touching o; pure b) (do operator o; touching o; pure b) := by
  intro ts us _ _ spaced
  apply agree_lexeme spaced
  intro left other _ _ later
  exact touching_pure_respaced o b later

theorem alike_doubled : Alike n m Eq doubled doubled :=
  alike_choice (alike_twice .plus true) (alike_twice .minus false)

theorem alike_initializer (isConst : Bool) :
    Alike n m (fun x y => x.map Traced.untraced = y.map Traced.untraced)
      (initializer isConst) (initializer isConst) := by
  apply alike_choice
  · exact alike_bind (alike_ensure _) fun _ _ _ => alike_mark rfl
  · apply alike_bind alike_plainEquals
    intro _ _ _
    apply alike_map alike_assigned
    intro e f same
    rw [Option.map_some, Option.map_some, same]

theorem alike_varDecl : Alike n m (fun d e => d.untraced = e.untraced) varDecl varDecl := by
  apply alike_bind (alike_optional (alike_lexeme _))
  intro c c' isConst
  have same : c.isSome = c'.isSome := by cases isConst <;> rfl
  rw [same]
  apply alike_bind (alike_leaf alike_scriptType)
  intro type type' types
  apply alike_same alike_word
  intro name
  apply alike_map (alike_initializer _)
  intro init init' inits
  simp only [VarDecl.untraced, types, inits]

theorem alike_structField :
    Alike n m (fun d e => d.untraced = e.untraced) structField structField := by
  apply alike_bind alike_varDecl
  intro d e same
  have inits : d.untraced.init.isNone = e.untraced.init.isNone := by rw [same]
  have consts : d.untraced.isConst = e.untraced.isConst := by rw [same]
  simp only [VarDecl.untraced, Option.isNone_map] at inits consts
  rw [inits, consts]
  exact alike_bind (alike_ensure _) fun _ _ _ => alike_pure same

theorem map_of_forall₂ {f : α → β} {xs ys : List α}
    (each : List.Forall₂ (fun x y => f x = f y) xs ys) : xs.map f = ys.map f := by
  induction each with
  | nil => rfl
  | cons first _ ih => rw [List.map_cons, List.map_cons, first, ih]

theorem alike_structDecl :
    Alike n m (fun d e => d.untraced = e.untraced) structDecl structDecl := by
  apply alike_then
  apply alike_same alike_word
  intro name
  apply alike_then
  have advances : Advances (traced structField) := advances_traced advances_structField
  apply alike_bind (alike_manyTill (alike_lexeme _) (alike_traced alike_structField)
    advances advances)
  intro fields fields' each
  apply alike_then
  apply alike_pure
  simp only [StructDecl.untraced]
  rw [map_of_forall₂]
  apply each.imp
  intro f g same
  rw [same]

theorem alike_default :
    Alike n m (fun x y => x.map Traced.untraced = y.map Traced.untraced) default default := by
  apply alike_bind (alike_optional (alike_lexeme _))
  intro o o' marked
  cases marked with
  | none => exact alike_pure rfl
  | some _ =>
      apply alike_map (alike_leaf alike_value)
      intro v w same
      rw [Option.map_some, Option.map_some, same]

theorem alike_param : Alike n m (fun p q => p.untraced = q.untraced) param param := by
  apply alike_bind (alike_leaf alike_scriptType)
  intro type type' types
  apply alike_same alike_word
  intro name
  apply alike_map alike_default
  intro d e defaults
  simp only [Param.untraced, types, defaults]

theorem alike_followingParam :
    Alike n m (fun p q => p.content.untraced = q.content.untraced) followingParam followingParam :=
  alike_then (alike_traced alike_param)

theorem alike_someParams :
    Alike n m (List.Forall₂ fun p q => p.content.untraced = q.content.untraced)
      someParams someParams := by
  apply alike_bind (alike_traced alike_param)
  intro p q first
  apply alike_map (alike_manyTill (alike_lexeme _) alike_followingParam
    advances_followingParam advances_followingParam)
  intro ps qs others
  exact .cons first others

theorem alike_signature :
    Alike n m (fun s t => s.untraced = t.untraced) signature signature := by
  apply alike_bind (alike_leaf alike_scriptType)
  intro result result' results
  apply alike_same alike_word
  intro name
  apply alike_then
  apply alike_map (alike_choice (alike_mark .nil) alike_someParams)
  intro ps qs each
  simp only [Signature.untraced, results]
  rw [map_of_forall₂]
  apply each.imp
  intro p q same
  rw [same]

theorem alike_comment : Alike n m Eq comment comment := by
  apply alike_visible
  intro t
  cases t.lexeme with
  | comment c => exact alike_pure rfl
  | _ => exact alike_decline

theorem alike_varStmt : Alike n m (fun s t => s.untraced = t.untraced) varStmt varStmt := by
  apply alike_withTokens
  apply alike_map alike_varDecl
  intro d e same xs ys
  simp only [Stmt.untraced, same]

theorem alike_assignStmt :
    Alike n m (fun s t => s.untraced = t.untraced) assignStmt assignStmt := by
  apply alike_withTokens
  apply alike_bind (alike_leaf alike_word)
  intro target target' targets
  apply alike_same alike_assignOp
  intro op
  apply alike_map alike_assigned
  intro e f same xs ys
  simp only [Stmt.untraced, targets, same]

theorem alike_stepStmt : Alike n m (fun s t => s.untraced = t.untraced) stepStmt stepStmt := by
  have step : Alike n m (fun x y => x.1.untraced = y.1.untraced ∧ x.2 = y.2)
      (preStep <|> postStep) (preStep <|> postStep) := by
    apply alike_choice
    · apply alike_same alike_doubled
      intro up
      exact alike_map (alike_leaf alike_word) fun _ _ same => ⟨same, rfl⟩
    · apply alike_bind (alike_leaf alike_word)
      intro target target' targets
      apply alike_same alike_doubled
      intro up
      exact alike_pure ⟨targets, rfl⟩
  apply alike_withTokens
  apply alike_bind step
  rintro ⟨target, op⟩ ⟨target', _⟩ ⟨targets, rfl⟩
  apply alike_then
  apply alike_pure
  intro xs ys
  simp only [Stmt.untraced]
  rw [targets]

theorem alike_callStmt : Alike n m (fun s t => s.untraced = t.untraced) callStmt callStmt := by
  apply alike_withTokens
  apply alike_same alike_word
  intro name
  apply alike_bind alike_logical
  intro args args' same
  apply alike_then
  apply alike_pure
  intro xs ys
  simp only [Stmt.untraced, same]

theorem alike_leaveStmt : Alike n m (fun s t => s.untraced = t.untraced) leaveStmt leaveStmt := by
  have result : Alike n m (fun x y => x.map Traced.untraced = y.map Traced.untraced)
      ((do separator .semicolon; pure none) <|> (do pure (some (← arithmetic .semicolon))))
      ((do separator .semicolon; pure none) <|> (do pure (some (← arithmetic .semicolon)))) := by
    apply alike_choice
    · exact alike_mark rfl
    apply alike_map alike_arithmetic
    intro e f same
    rw [Option.map_some, Option.map_some, same]
  apply alike_withTokens
  apply alike_then
  apply alike_map result
  intro e f same xs ys
  simp only [Stmt.untraced, same]

theorem alike_labelStmt : Alike n m (fun s t => s.untraced = t.untraced) labelStmt labelStmt := by
  have label : Alike n m (fun x y => x.map Traced.untraced = y.map Traced.untraced)
      ((do keyword .defaultWord; pure none) <|>
        (do keyword .caseWord; pure (some (← traced value))))
      ((do keyword .defaultWord; pure none) <|>
        (do keyword .caseWord; pure (some (← traced value)))) := by
    apply alike_choice
    · exact alike_mark rfl
    apply alike_then
    apply alike_map (alike_leaf alike_value)
    intro v w same
    rw [Option.map_some, Option.map_some, same]
  apply alike_withTokens
  apply alike_bind label
  intro v w same
  apply alike_then
  apply alike_pure
  intro xs ys
  simp only [Stmt.untraced, same]

theorem alike_branchStmt :
    Alike n m (fun s t => s.untraced = t.untraced) branchStmt branchStmt := by
  have form : Alike n m (fun f g => ∀ xs ys, (f xs).untraced = (g ys).untraced)
      ((do keyword .breakWord; pure Stmt.breakOut) <|>
        (do keyword .continueWord; pure Stmt.continueOn))
      ((do keyword .breakWord; pure Stmt.breakOut) <|>
        (do keyword .continueWord; pure Stmt.continueOn)) := by
    apply alike_choice
    · exact alike_mark fun _ _ => rfl
    · exact alike_mark fun _ _ => rfl
  apply alike_withTokens
  apply alike_bind form
  intro f g same
  exact alike_mark same

theorem alike_unsupportedStmt :
    Alike n m (fun s t => s.untraced = t.untraced) unsupportedStmt unsupportedStmt := by
  intro ts us short short' spaced
  have struct := alike_structDecl ts us short short' spaced
  unfold unsupportedStmt
  rcases spaced.next fun _ => trivia_of_space with ⟨one, two⟩ | ⟨t, left, other, one, two, _⟩
  · rw [one, two]
    trivial
  · have like : ∀ problem, (⟨problem, t :: left⟩ : Failure).Alike ⟨problem, t :: other⟩ :=
      fun _ => ⟨rfl, by simp⟩
    rw [one, two]
    simp only
    rcases struct.cases with ⟨_, _, _, _, one, two, _⟩ | ⟨one, two⟩ | ⟨_, _, one, two, _⟩
    · rw [one, two]
      cases t.lexeme <;> exact like _
    · rw [one, two]
      cases t.lexeme <;> first | exact like _ | trivial
    · rw [one, two]
      cases t.lexeme <;> first | exact like _ | trivial

end productions

section nesting

theorem untracedAll_of_forall₂ {xs ys : List Stmt}
    (each : List.Forall₂ (fun s t => s.untraced = t.untraced) xs ys) :
    Stmt.untracedAll xs = Stmt.untracedAll ys := by
  induction each with
  | nil => rfl
  | cons first _ ih => rw [Stmt.untracedAll, Stmt.untracedAll, first, ih]

-- What nests in the two readings of a statement. Each reading has its own bound on the tokens left.
structure Nested (n m : Nat) (nested nested' : Parser Stmt) : Prop where
  alike : Alike n m (fun s t => s.untraced = t.untraced) nested nested'
  advances : Advances nested
  advances' : Advances nested'

variable {n m : Nat} {nested nested' : Parser Stmt} (inner : Nested n m nested nested')

include inner

theorem alike_body :
    Alike n m (fun s t => s.untraced = t.untraced) (body nested) (body nested') :=
  alike_orFail inner.alike fun _ _ spaced => spaced.skipped fun _ => trivia_of_space

theorem alike_item :
    Alike n m (fun s t => s.untraced = t.untraced) (item nested) (item nested') := by
  have noted : Alike n m (fun s t : Stmt => s.untraced = t.untraced)
      (withTokens do let c ← comment; pure fun tokens => .comment c tokens)
      (withTokens do let c ← comment; pure fun tokens => .comment c tokens) := by
    apply alike_withTokens
    apply alike_same alike_comment
    intro c
    exact alike_pure fun _ _ => rfl
  apply alike_orFail (alike_orElse noted inner.alike)
  exact fun _ _ spaced => spaced.skipped fun _ blank => blank

theorem alike_block :
    Alike (n + 1) (m + 1)
      (fun b c => List.Forall₂ (fun s t => s.untraced = t.untraced) b.content c.content)
      (block nested) (block nested') := by
  have ends : Alike n m Eq blockEnd blockEnd := alike_visible fun _ => alike_ensure _
  have items := alike_manyTill ends (alike_item inner) (advances_item inner.advances)
    (advances_item inner.advances')
  exact alike_traced (alike_behind items)

theorem alike_whileStmt :
    Alike (n + 1) (m + 1) (fun s t => s.untraced = t.untraced)
      (whileStmt nested) (whileStmt nested') := by
  apply alike_withTokens
  apply alike_behind
  apply alike_bind alike_logical
  intro cond cond' conds
  apply alike_map (alike_body inner)
  intro s t same xs ys
  simp only [Stmt.untraced, conds, same]

theorem alike_forStmt :
    Alike (n + 1) (m + 1) (fun s t => s.untraced = t.untraced)
      (forStmt nested) (forStmt nested') := by
  apply alike_withTokens
  apply alike_behind
  apply alike_then
  apply alike_bind alike_arithmetic
  intro init init' inits
  apply alike_bind alike_arithmetic
  intro cond cond' conds
  apply alike_bind alike_arithmetic
  intro post post' posts
  apply alike_map (alike_body inner)
  intro s t same xs ys
  simp only [Stmt.untraced, inits, conds, posts, same]

theorem alike_doStmt :
    Alike (n + 1) (m + 1) (fun s t => s.untraced = t.untraced)
      (doStmt nested) (doStmt nested') := by
  apply alike_withTokens
  apply alike_behind
  apply alike_bind (alike_body inner)
  intro s t same
  have expected : Alike n m Eq
      ((keyword .whileWord).orFail .missingWhile (·.dropWhile Token.isSpace))
      ((keyword .whileWord).orFail .missingWhile (·.dropWhile Token.isSpace)) :=
    alike_orFail (alike_lexeme _) fun _ _ spaced => spaced.skipped fun _ blank => blank
  apply alike_same expected
  intro _
  apply alike_bind alike_logical
  intro cond cond' conds
  apply alike_mark
  intro xs ys
  simp only [Stmt.untraced, conds, same]

theorem alike_ifStmt :
    Alike (n + 1) (m + 1) (fun s t => s.untraced = t.untraced)
      (ifStmt nested) (ifStmt nested') := by
  apply alike_withTokens
  apply alike_behind
  apply alike_bind alike_logical
  intro cond cond' conds
  apply alike_bind (alike_body inner)
  intro s t same
  have branch : Alike n m (fun s t => s.untraced = t.untraced)
      (do keyword .elseWord; body nested) (do keyword .elseWord; body nested') :=
    alike_then (alike_body inner)
  apply alike_bind (alike_optional (alike_traced branch))
  intro o o' found
  cases found with
  | none =>
      apply alike_pure
      intro xs ys
      simp only [Stmt.untraced, conds, same]
  | some branches =>
      apply alike_pure
      intro xs ys
      simp only [Stmt.untraced, conds, same, branches]

theorem alike_switchStmt :
    Alike (n + 1) (m + 1) (fun s t => s.untraced = t.untraced)
      (switchStmt nested) (switchStmt nested') := by
  apply alike_withTokens
  apply alike_then
  apply alike_bind alike_logical
  intro tag tag' tags
  apply alike_map (alike_block inner)
  intro b c each xs ys
  simp only [Stmt.untraced, tags, untracedAll_of_forall₂ each]

theorem alike_blockStmt :
    Alike (n + 1) (m + 1) (fun s t => s.untraced = t.untraced)
      (blockStmt nested) (blockStmt nested') := by
  apply alike_map (alike_block inner)
  intro b c each
  simp only [Stmt.untraced, untracedAll_of_forall₂ each]

theorem alike_ofForm (form : StmtForm) :
    Alike (n + 1) (m + 1) (fun s t => s.untraced = t.untraced)
      (ofForm nested form) (ofForm nested' form) := by
  cases form with
  | block => exact alike_blockStmt inner
  | var => exact alike_varStmt
  | assign => exact alike_assignStmt
  | step => exact alike_stepStmt
  | call => exact alike_callStmt
  | whileLoop => exact alike_whileStmt inner
  | forLoop => exact alike_forStmt inner
  | doLoop => exact alike_doStmt inner
  | ifThen => exact alike_ifStmt inner
  | leave => exact alike_leaveStmt
  | switch => exact alike_switchStmt inner
  | label => exact alike_labelStmt
  | branch => exact alike_branchStmt
  | unsupported => exact alike_unsupportedStmt

end nesting

-- The induction is on the tokens left in the first reading. Each reading hands its own bound down
-- to what nests, and a form takes a token before it nests.
theorem alike_statement {n m : Nat} (forms : List StmtForm) :
    Alike n m (fun s t => s.untraced = t.untraced) (statement forms) (statement forms) := by
  intro ts us _ _ spaced
  induction size : ts.length using Nat.strongRecOn generalizing ts us with
  | ind k ih =>
      have inner : Nested ts.length us.length (below forms ts.length) (below forms us.length) := by
        refine ⟨?_, advances_below forms _, advances_below forms _⟩
        intro vs ws short short' nests
        rw [below, below, if_pos short, if_pos short']
        exact ih _ (size ▸ short) vs ws (by omega) (by omega) nests rfl
      rw [statement_eq, statement_eq]
      apply alike_firstOf _ ts us (Nat.lt_succ_self _) (Nat.lt_succ_self _) spaced
      apply List.forall₂_map_left_iff.mpr
      apply List.forall₂_map_right_iff.mpr
      apply List.forall₂_same.mpr
      intro form _
      exact alike_ofForm inner form

theorem alike_functionDecl {n m : Nat} (forms : List StmtForm) :
    Alike n m (fun d e => d.untraced = e.untraced) (functionDecl forms) (functionDecl forms) := by
  have inner : Nested n m (statement forms) (statement forms) :=
    ⟨alike_statement forms, advances_statement forms, advances_statement forms⟩
  apply alike_bind alike_signature
  intro sig sig' sigs
  apply alike_choice
  · apply alike_mark
    simp only [Decl.untraced, sigs]
  · apply alike_map ((alike_block inner).shorter)
    intro b c each
    simp only [Decl.untraced, sigs, untracedAll_of_forall₂ each]

theorem alike_decl {n m : Nat} (forms : List StmtForm) :
    Alike n m (fun d e => d.untraced = e.untraced) (decl forms) (decl forms) := by
  apply alike_firstOf
  refine .cons ?_ (.cons ?_ (.cons (alike_functionDecl forms) (.cons ?_ (.cons ?_ .nil))))
  · apply alike_visible
    intro t
    cases t.lexeme with
    | directive text => exact alike_pure rfl
    | _ => exact alike_decline
  · apply alike_same alike_comment
    intro c
    exact alike_pure rfl
  · apply alike_map alike_varDecl
    intro d e same
    simp only [Decl.untraced, same]
  · apply alike_map alike_structDecl
    intro d e same
    simp only [Decl.untraced, same]

theorem alike_endOfTokens {n m : Nat} : Alike n m Eq endOfTokens endOfTokens := by
  intro ts us _ _ spaced
  unfold endOfTokens
  rw [spaced.all_space]
  by_cases blank : ts.all Token.isSpace = true
  · rw [if_pos blank, if_pos blank]
    refine ⟨rfl, ?_⟩
    rw [List.drop_length, List.drop_length]
    exact .nil
  · rw [if_neg blank, if_neg blank]
    trivial

theorem alike_decls {n m : Nat} (forms : List StmtForm) :
    Alike n m (List.Forall₂ fun d e => d.content.untraced = e.content.untraced)
      (decls forms) (decls forms) := by
  have advances := advances_unitDecl forms
  have items : Alike n m (fun d e => d.content.untraced = e.content.untraced)
      (unitDecl forms) (unitDecl forms) := by
    apply alike_orFail (alike_traced (alike_decl forms))
    exact fun _ _ spaced => spaced.skipped fun _ blank => blank
  exact alike_manyTill alike_endOfTokens items advances advances

end Parser

theorem Failure.Alike.report {e f : Failure} {ts us : List Token} (like : e.Alike f)
    (lines lines' : List (List UInt8)) (nonempty : ts ≠ []) (nonempty' : us ≠ []) :
    (e.report lines ts).problem = (f.report lines' us).problem := by
  obtain ⟨t, last⟩ := Option.ne_none_iff_exists'.mp (mt List.getLast?_eq_none_iff.mp nonempty)
  obtain ⟨u, last'⟩ := Option.ne_none_iff_exists'.mp (mt List.getLast?_eq_none_iff.mp nonempty')
  obtain ⟨problem, places⟩ := like
  unfold Failure.report
  rw [last, last']
  cases place : e.place with
  | nil =>
      rw [places.mp place]
  | cons v rest =>
      cases place' : f.place with
      | nil =>
          rw [places.mpr place'] at place
          cases place
      | cons w rest' => exact problem

namespace ScriptUnit

-- Blanks and line ends do not matter between tokens that are not both operators: they change
-- neither the tree nor the problem that is reported.
theorem parse_respaced (name : List UInt8) (lines lines' : List (List UInt8))
    (front spaces back : List Token) (blank : ∀ s ∈ spaces, s.isSpace = true)
    (apart : ¬ (front.getLast?.any Expr.isOperator = true ∧
      back.head?.any Expr.isOperator = true)) :
    ((parse name lines' (front ++ (spaces ++ back))).map untraced).mapError SyntaxError.problem =
      ((parse name lines (front ++ back)).map untraced).mapError SyntaxError.problem := by
  have agree := Parser.alike_decls StmtForm.order (front ++ back) (front ++ (spaces ++ back))
    (Nat.lt_succ_self _) (Nat.lt_succ_self _) (Respaced.between blank apart)
  unfold parse parseWith
  rcases agree.cases with
    ⟨ds, _, es, _, one, two, each, _⟩ | ⟨one, two⟩ | ⟨e, f, one, two, like⟩
  · rw [one, two]
    have same : ds.map (fun d => (⟨d.content.untraced, []⟩ : Traced Decl)) =
        es.map fun d => ⟨d.content.untraced, []⟩ := by
      apply Parser.map_of_forall₂
      apply each.imp
      intro d e same
      rw [same]
    simp only [Except.map, untraced, same]
  · exact (Parser.decls_decide StmtForm.order _ one).elim
  · have same := like.report lines lines' (Parser.decls_nonempty one) (Parser.decls_nonempty two)
    rw [one, two]
    simp only [Except.map, Except.mapError, same]

theorem parse_respaced_step :
    let front := tokenize (utf8 "void f() \x7b i")
    let spaces := tokenize (utf8 " \n")
    let back := tokenize (utf8 "++; return i == - 1; \x7d")
    ∃ u v, parse [] [] (front ++ back) = .ok u ∧
      parse [] [] (front ++ (spaces ++ back)) = .ok v ∧ v.untraced = u.untraced := by
  intro front spaces back
  have blank : ∀ s ∈ spaces, s.isSpace = true := by decide +kernel
  have apart : ¬ (front.getLast?.any Expr.isOperator = true ∧
      back.head?.any Expr.isOperator = true) := by decide +kernel
  have read : (parse [] [] (front ++ back)).isOk = true := by decide +kernel
  have same := parse_respaced [] [] [] front spaces back blank apart
  cases plain : parse [] [] (front ++ back) with
  | error e =>
      rw [plain] at read
      cases read
  | ok u =>
      rw [plain] at same
      cases respaced : parse [] [] (front ++ (spaces ++ back)) with
      | error e =>
          rw [respaced] at same
          cases same
      | ok v =>
          rw [respaced] at same
          exact ⟨u, v, rfl, rfl, Except.ok.inj same⟩

-- Between two operators a blank does matter.
example :
    (parse [] [] (tokenize (utf8 "void f() \x7b i++; \x7d"))).isOk = true ∧
      (parse [] [] (tokenize (utf8 "void f() \x7b i+ +; \x7d"))).isOk = false := by
  decide +kernel

end ScriptUnit
end NwscriptBindings
