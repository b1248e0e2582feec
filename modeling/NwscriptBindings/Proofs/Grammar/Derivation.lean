import NwscriptBindings.Grammar.ScriptUnit
import NwscriptBindings.Proofs.Grammar.Reads

namespace NwscriptBindings.Grammar

open NwscriptBindings.Parser (Next Terminal StartsWith)

variable {α : Type}

abbrev ownTokens (ts : List Token) : List Token := ts.dropWhile Token.isSpace

theorem ownTokens_next {t : Token} {ts : List Token} (next : Next Token.isSpace t ts) :
    ownTokens ts = [t] := by
  obtain ⟨gap, rfl, blank, kept⟩ := next
  rw [ownTokens, List.dropWhile_append_of_pos blank, List.dropWhile_cons_of_neg (by simp [kept])]

def TracedRule (rule : α → List Token → Prop) (x : Traced α) (ts : List Token) : Prop :=
  rule x.content ts ∧ x.tokens = ownTokens ts

inductive ListRule (rule : α → List Token → Prop) : List α → List Token → Prop where
  | nil : ListRule rule [] []
  | cons : rule a ts → ListRule rule as us → ListRule rule (a :: as) (ts ++ us)

theorem ListRule.place_of_mem {rule : α → List Token → Prop} {x : α} {xs : List α}
    {ts : List Token} (derived : ListRule rule xs ts) (present : x ∈ xs) :
    ∃ before us after, ts = before ++ (us ++ after) ∧ rule x us := by
  induction derived with
  | nil => cases present
  | @cons a ts as us first _ ih =>
      rcases List.mem_cons.mp present with rfl | later
      · exact ⟨[], ts, us, rfl, first⟩
      · obtain ⟨before, inner, after, rfl, rule⟩ := ih later
        exact ⟨ts ++ before, inner, after, by rw [List.append_assoc], rule⟩

def NameRule (name : List UInt8) (ts : List Token) : Prop := Terminal (.word name) ts

inductive TypeRule : ScriptType → List Token → Prop where
  | basic : Terminal (.keyword (.basic type)) ts → TypeRule (.basic type) ts
  | struct : Terminal (.keyword .structWord) ts → NameRule name us →
      TypeRule (.struct name) (ts ++ us)

-- Which numerals have a value is decided by `numberLiteral`, not by the grammar.
inductive NumberRule : Literal → List Token → Prop where
  | plain : Terminal (.literal l) ts → Parser.numberLiteral false l = some v → NumberRule v ts
  | negative : Terminal (.operator .minus) ts → Terminal (.literal l) us →
      Parser.numberLiteral true l = some v → NumberRule v (ts ++ us)

inductive CoordinateRule : Binary32 → List Token → Prop where
  | int : NumberRule (.int v raw) ts → CoordinateRule (.ofInt32 v) ts
  | float : NumberRule (.float v raw) ts → CoordinateRule v ts

inductive LiteralRule : Literal → List Token → Prop where
  | objectSelf : Terminal (.keyword .objectSelf) ts → LiteralRule .objectSelf ts
  | objectInvalid : Terminal (.keyword .objectInvalid) ts → LiteralRule .objectInvalid ts
  | zeroVector : Terminal (.separator .openBracket) os → Terminal (.separator .closeBracket) es →
      LiteralRule (.vector .zero .zero .zero) (os ++ es)
  | vector : Terminal (.separator .openBracket) os → CoordinateRule x xs →
      Terminal (.separator .comma) cs → CoordinateRule y ys → Terminal (.separator .comma) ds →
      CoordinateRule z zs → Terminal (.separator .closeBracket) es →
      LiteralRule (.vector x y z) (os ++ (xs ++ (cs ++ (ys ++ (ds ++ (zs ++ es))))))
  | string : Terminal (.literal (.string body closed)) ts → LiteralRule (.string body) ts
  | number : NumberRule l ts → LiteralRule l ts

inductive ValueRule : Value → List Token → Prop where
  | literal : LiteralRule l ts → ValueRule (.literal l) ts
  | reference : NameRule name ts → ValueRule (.reference name) ts

-- The range in front of the separator is whatever the capture finds; it may be empty.
def ArithmeticRule (stop : Separator) (e : Traced Expr) (ts : List Token) : Prop :=
  ∃ range t, ts = range ++ [t] ∧ rangeUpTo stop 0 ts = some range ∧
    e = ⟨⟨.arithmetic, Expr.textOf range⟩, trimTrivia range⟩

def LogicalRule (e : Traced Expr) (ts : List Token) : Prop :=
  ∃ os range t, ts = os ++ (range ++ [t]) ∧ Terminal (.separator .openParen) os ∧
    rangeEnclosed 0 (range ++ [t]) = some range ∧
    e = ⟨⟨.logical, Expr.textOf range⟩, range.dropWhile Token.isSpace⟩

def AssignedRule (e : Traced Expr) (ts : List Token) : Prop :=
  ArithmeticRule .semicolon e ts ∧ e.content.text ≠ []

-- An equals sign is plain by the token directly behind it, which belongs to the next part.
def EqualsRule (ts behind : List Token) : Prop :=
  Terminal (.operator .equals) ts ∧ ¬ StartsWith (.operator .equals) behind

inductive ConstRule : Bool → List Token → Prop where
  | absent : ConstRule false []
  | present : Terminal (.keyword .constWord) ts → ConstRule true ts

-- Written `[const] Type Name [= Expr] ;`, each bracket for itself. With `bare` the rule is just
-- that; without it a constant has to have its value.
inductive VarRule (bare : Bool) : VarDecl → List Token → Prop where
  | plain : ConstRule isConst cs → TracedRule TypeRule type ts → NameRule name ns →
      Terminal (.separator .semicolon) es → (isConst = true → bare = true) →
      VarRule bare ⟨type, name, none, isConst⟩ (cs ++ (ts ++ (ns ++ es)))
  | initialized : ConstRule isConst cs → TracedRule TypeRule type ts → NameRule name ns →
      EqualsRule os es → AssignedRule value es →
      VarRule bare ⟨type, name, some value, isConst⟩ (cs ++ (ts ++ (ns ++ (os ++ es))))

def FieldRule (bare : Bool) (d : VarDecl) (ts : List Token) : Prop :=
  VarRule bare d ts ∧ d.init = none ∧ d.isConst = false

inductive StructRule (bare : Bool) : StructDecl → List Token → Prop where
  | intro : Terminal (.keyword .structWord) ks → NameRule name ns →
      Terminal (.separator .openBrace) os → ListRule (TracedRule (FieldRule bare)) fields fs →
      Terminal (.separator .closeBrace) cs → Terminal (.separator .semicolon) es →
      StructRule bare ⟨name, fields⟩ (ks ++ (ns ++ (os ++ ((fs ++ cs) ++ es))))

inductive DefaultRule : Option (Traced Value) → List Token → Prop where
  | absent : DefaultRule none []
  | present : Terminal (.operator .equals) os → TracedRule ValueRule value vs →
      DefaultRule (some value) (os ++ vs)

inductive ParamRule : Param → List Token → Prop where
  | intro : TracedRule TypeRule type ts → NameRule name ns → DefaultRule given ds →
      ParamRule ⟨type, name, given⟩ (ts ++ (ns ++ ds))

inductive FollowingRule : Traced Param → List Token → Prop where
  | intro : Terminal (.separator .comma) cs → TracedRule ParamRule param ps →
      FollowingRule param (cs ++ ps)

inductive ParamsRule : List (Traced Param) → List Token → Prop where
  | empty : Terminal (.separator .closeParen) es → ParamsRule [] es
  | some : TracedRule ParamRule first ps → ListRule FollowingRule others os →
      Terminal (.separator .closeParen) es → ParamsRule (first :: others) (ps ++ (os ++ es))

inductive SignatureRule : Signature → List Token → Prop where
  | intro : TracedRule TypeRule result ts → NameRule name ns →
      Terminal (.separator .openParen) os → ParamsRule params ps →
      SignatureRule ⟨result, name, params⟩ (ts ++ (ns ++ (os ++ ps)))

inductive AssignOpRule : AssignOp → List Token → List Token → Prop where
  | set : EqualsRule ts behind → AssignOpRule .set ts behind
  | compound : Terminal (.operator o) ts → Parser.compoundOp? o = some op →
      t.lexeme = .operator .equals → AssignOpRule op (ts ++ [t]) behind

inductive DoubledRule : Bool → List Token → Prop where
  | up : Terminal (.operator .plus) ts → t.lexeme = .operator .plus → DoubledRule true (ts ++ [t])
  | down : Terminal (.operator .minus) ts → t.lexeme = .operator .minus →
      DoubledRule false (ts ++ [t])

inductive StepRule : Traced (List UInt8) → StepOp → List Token → Prop where
  | pre : DoubledRule up ds → TracedRule NameRule target ts →
      StepRule target (if up then .preUp else .preDown) (ds ++ ts)
  | post : TracedRule NameRule target ts → DoubledRule up ds →
      StepRule target (if up then .postUp else .postDown) (ts ++ ds)

inductive ResultRule : Option (Traced Expr) → List Token → Prop where
  | absent : Terminal (.separator .semicolon) es → ResultRule none es
  | present : ArithmeticRule .semicolon e es → ResultRule (some e) es

inductive LabelRule : Option (Traced Value) → List Token → Prop where
  | default : Terminal (.keyword .defaultWord) ks → LabelRule none ks
  | case : Terminal (.keyword .caseWord) ks → TracedRule ValueRule value vs →
      LabelRule (some value) (ks ++ vs)

def CommentRule (c : Comment) (ts : List Token) : Prop :=
  ∃ t, Next Token.isSpace t ts ∧ t.lexeme = .comment c

def CloseRule (ts : List Token) : Prop :=
  ∃ t, Next Token.isSpace t ts ∧ t.lexeme = .separator .closeBrace

def Uncommented (ts : List Token) : Prop :=
  ∀ t more, ts.dropWhile Token.isSpace = t :: more → t.isTrivia = false

mutual

inductive BlockRule (bare : Bool) : Traced (List Stmt) → List Token → Prop where
  | intro : Terminal (.separator .openBrace) os → ItemsRule bare stmts is → CloseRule cs →
      BlockRule bare ⟨stmts, ownTokens (os ++ (is ++ cs))⟩ (os ++ (is ++ cs))

inductive ItemsRule (bare : Bool) : List Stmt → List Token → Prop where
  | nil : ItemsRule bare [] []
  | comment : CommentRule c ts → ItemsRule bare stmts us →
      ItemsRule bare (.comment c (ownTokens ts) :: stmts) (ts ++ us)
  | stmt : Uncommented ts → StmtRule bare s ts → ItemsRule bare stmts us →
      ItemsRule bare (s :: stmts) (ts ++ us)

-- A statement that is no comment. As a body it may have comments in front.
inductive StmtRule (bare : Bool) : Stmt → List Token → Prop where
  | block : BlockRule bare b ts → StmtRule bare (.block b.content b.tokens) ts
  | var : VarRule bare d ts → StmtRule bare (.var d (ownTokens ts)) ts
  | assign : TracedRule NameRule target ts → AssignOpRule op os es → AssignedRule value es →
      StmtRule bare (.assign target op value (ownTokens (ts ++ (os ++ es)))) (ts ++ (os ++ es))
  | step : StepRule target op ts → Terminal (.separator .semicolon) es →
      StmtRule bare (.step target op (ownTokens (ts ++ es))) (ts ++ es)
  | call : NameRule name ns → LogicalRule args as → Terminal (.separator .semicolon) es →
      StmtRule bare (.call name args (ownTokens (ns ++ (as ++ es)))) (ns ++ (as ++ es))
  | whileLoop : Terminal (.keyword .whileWord) ks → LogicalRule test cs → StmtRule bare body bs →
      StmtRule bare (.whileLoop test body (ownTokens (ks ++ (cs ++ bs)))) (ks ++ (cs ++ bs))
  | forLoop : Terminal (.keyword .forWord) ks → Terminal (.separator .openParen) os →
      ArithmeticRule .semicolon init is → ArithmeticRule .semicolon test cs →
      ArithmeticRule .closeParen post ps → StmtRule bare body bs →
      StmtRule bare
        (.forLoop init test post body (ownTokens (ks ++ (os ++ (is ++ (cs ++ (ps ++ bs)))))))
        (ks ++ (os ++ (is ++ (cs ++ (ps ++ bs)))))
  | doLoop : Terminal (.keyword .doWord) ks → StmtRule bare body bs →
      Terminal (.keyword .whileWord) ws → LogicalRule test cs →
      Terminal (.separator .semicolon) es →
      StmtRule bare (.doLoop body test (ownTokens (ks ++ (bs ++ (ws ++ (cs ++ es))))))
        (ks ++ (bs ++ (ws ++ (cs ++ es))))
  | ifThen : Terminal (.keyword .ifWord) ks → LogicalRule test cs → StmtRule bare body bs →
      StmtRule bare (.ifThen test body (ownTokens (ks ++ (cs ++ bs)))) (ks ++ (cs ++ bs))
  | ifElse : Terminal (.keyword .ifWord) ks → LogicalRule test cs → StmtRule bare body bs →
      Terminal (.keyword .elseWord) ws → StmtRule bare other os →
      StmtRule bare
        (.ifElse test body other (ownTokens (ws ++ os))
          (ownTokens (ks ++ (cs ++ (bs ++ (ws ++ os))))))
        (ks ++ (cs ++ (bs ++ (ws ++ os))))
  | leave : Terminal (.keyword .returnWord) ks → ResultRule result es →
      StmtRule bare (.leave result (ownTokens (ks ++ es))) (ks ++ es)
  | switch : Terminal (.keyword .switchWord) ks → LogicalRule tag cs → BlockRule bare b bs →
      StmtRule bare (.switch tag b.content b.tokens (ownTokens (ks ++ (cs ++ bs))))
        (ks ++ (cs ++ bs))
  | label : LabelRule value ls → Terminal (.operator .colon) es →
      StmtRule bare (.label value (ownTokens (ls ++ es))) (ls ++ es)
  | breakOut : Terminal (.keyword .breakWord) ks → Terminal (.separator .semicolon) es →
      StmtRule bare (.breakOut (ownTokens (ks ++ es))) (ks ++ es)
  | continueOn : Terminal (.keyword .continueWord) ks → Terminal (.separator .semicolon) es →
      StmtRule bare (.continueOn (ownTokens (ks ++ es))) (ks ++ es)

end

inductive DeclRule (bare : Bool) : Decl → List Token → Prop where
  | directive : Next Token.isSpace t ts → t.lexeme = .directive text →
      DeclRule bare (.directive text) ts
  | comment : CommentRule c ts → DeclRule bare (.comment c) ts
  | prototype : Uncommented (ts ++ es) → SignatureRule sig ts →
      Terminal (.separator .semicolon) es → DeclRule bare (.prototype sig) (ts ++ es)
  | function : Uncommented (ts ++ bs) → SignatureRule sig ts → BlockRule bare body bs →
      DeclRule bare (.function sig body) (ts ++ bs)
  | var : Uncommented ts → VarRule bare d ts → DeclRule bare (.var d) ts
  | struct : Uncommented ts → StructRule bare d ts → DeclRule bare (.struct d) ts

inductive UnitRule (bare : Bool) : ScriptUnit → List Token → Prop where
  | intro : ListRule (TracedRule (DeclRule bare)) decls ds → (∀ t ∈ es, t.isSpace = true) →
      UnitRule bare ⟨name, decls, ds ++ es⟩ (ds ++ es)

end NwscriptBindings.Grammar
