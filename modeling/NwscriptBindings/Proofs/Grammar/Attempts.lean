import Mathlib.Logic.Relation
import NwscriptBindings.Proofs.Grammar.Composition
import NwscriptBindings.Proofs.Grammar.Failures

namespace NwscriptBindings.Parser

inductive Production where
  | significant | visible
  | separator (s : Separator)
  | operator (o : Operator)
  | keyword (k : Keyword)
  | word | number | vector | literal | value
  | arithmetic (stop : Separator)
  | assigned | logical
  | scriptType | plainEquals | var | field | fields | struct
  | param | followingParam | followingParams | signature
  | comment | target | assignOp | doubled
  | form (f : StmtForm)
  | statement | body | otherwise | item | items | block
  | directive | function | decl | unit

namespace Production

def Result : Production → Type
  | significant | visible => Token
  | separator _ | operator _ | keyword _ | plainEquals => Unit
  | word => List UInt8
  | number | vector | literal => Literal
  | value => Value
  | arithmetic _ | assigned | logical => Traced Expr
  | scriptType => ScriptType
  | var | field => VarDecl
  | fields => List (Traced VarDecl)
  | struct => StructDecl
  | param => Param
  | followingParam => Traced Param
  | followingParams => List (Traced Param)
  | signature => Signature
  | comment => Comment
  | target => Traced (List UInt8)
  | assignOp => AssignOp
  | doubled => Bool
  | form _ | statement | body | item => Stmt
  | otherwise => Traced Stmt
  | items => List Stmt
  | block => Traced (List Stmt)
  | directive | function | decl => Decl
  | unit => List (Traced Decl)

def read (forms : List StmtForm) : (p : Production) → Parser p.Result
  | significant => Parser.significant
  | visible => Parser.visible
  | separator s => Parser.separator s
  | operator o => Parser.operator o
  | keyword k => Parser.keyword k
  | word => Parser.word
  | number => Parser.number
  | vector => Parser.vector
  | literal => Parser.literal
  | value => Parser.value
  | arithmetic stop => Parser.arithmetic stop
  | assigned => Parser.assigned
  | logical => Parser.logical
  | scriptType => Parser.scriptType
  | plainEquals => Parser.plainEquals
  | var => varDecl
  | field => structField
  | fields => manyTill (Parser.separator .closeBrace) (traced structField)
  | struct => structDecl
  | param => Parser.param
  | followingParam => Parser.followingParam
  | followingParams => manyTill (Parser.separator .closeParen) Parser.followingParam
  | signature => Parser.signature
  | comment => Parser.comment
  | target => variableName
  | assignOp => Parser.assignOp
  | doubled => Parser.doubled
  | form f => ofForm (Parser.statement forms) f
  | statement => Parser.statement forms
  | body => Parser.body (Parser.statement forms)
  | otherwise => Parser.otherwise (Parser.statement forms)
  | item => Parser.item (Parser.statement forms)
  | items => manyTill blockEnd (Parser.item (Parser.statement forms))
  | block => Parser.block (Parser.statement forms)
  | directive => directiveDecl
  | function => functionDecl forms
  | decl => Parser.decl forms
  | unit => decls forms

variable {forms : List StmtForm}

-- A unit may be empty; nothing else is.
theorem advances_read {p : Production} (part : p ≠ unit) : Advances (p.read forms) := by
  cases p with
  | significant => exact advances_nextAfter _
  | visible => exact advances_nextAfter _
  | separator s => exact advances_lexeme _
  | operator o => exact advances_lexeme _
  | keyword k => exact advances_lexeme _
  | word => exact advances_word
  | number => exact advances_number
  | vector => exact advances_vector
  | literal => exact advances_literal
  | value => exact advances_value
  | arithmetic stop => exact advances_arithmetic stop
  | assigned => exact advances_bind (advances_arithmetic _)
  | logical => exact advances_logical
  | scriptType => exact advances_scriptType
  | plainEquals => exact advances_plainEquals
  | var => exact advances_varDecl
  | field => exact advances_structField
  | fields => exact advances_manyTill (advances_lexeme _)
  | struct => exact advances_structDecl
  | param => exact advances_param
  | followingParam => exact advances_followingParam
  | followingParams => exact advances_manyTill (advances_lexeme _)
  | signature => exact advances_signature
  | comment => exact advances_comment
  | target => exact advances_traced advances_word
  | assignOp => exact advances_assignOp
  | doubled => exact advances_doubled
  | form f => exact advances_ofForm _ f
  | statement => exact advances_statement forms
  | body => exact advances_body (advances_statement forms)
  | otherwise => exact advances_otherwise _
  | item => exact advances_item (advances_statement forms)
  | items => exact advances_manyTill advances_blockEnd
  | block => exact advances_block _
  | directive => exact advances_directiveDecl
  | function => exact advances_functionDecl forms
  | decl => exact advances_decl forms
  | unit => exact (part rfl).elim

def nests : Production → Bool
  | form _ | statement | body | otherwise | item | items | block | function | decl | unit => true
  | _ => false

theorem quiet_read {p : Production} (flat : p.nests = false) : Confined false (p.read forms) := by
  cases p with
  | significant => exact confined_nextAfter _
  | visible => exact confined_nextAfter _
  | separator s => exact confined_separator s
  | operator o => exact confined_operator o
  | keyword k => exact confined_keyword k
  | word => exact confined_word
  | number => exact confined_number
  | vector => exact confined_vector
  | literal => exact confined_literal
  | value => exact confined_value
  | arithmetic stop => exact confined_arithmetic stop
  | assigned => exact confined_assigned
  | logical => exact confined_logical
  | scriptType => exact confined_scriptType
  | plainEquals => exact confined_plainEquals
  | var => exact confined_varDecl
  | field => exact confined_structField
  | fields => exact confined_manyTill (confined_separator _) (confined_traced confined_structField)
  | struct => exact confined_structDecl
  | param => exact confined_param
  | followingParam => exact confined_followingParam
  | followingParams => exact confined_manyTill (confined_separator _) confined_followingParam
  | signature => exact confined_signature
  | comment => exact confined_comment
  | target => exact confined_variableName
  | assignOp => exact confined_assignOp
  | doubled => exact confined_doubled
  | directive => exact confined_directiveDecl
  | _ => cases flat

-- Requests for the same tokens go down in rank.
def rank : Production → Nat
  | form _ | function => 1
  | statement | decl => 2
  | body | item | unit => 3
  | items => 4
  | _ => 0

theorem confined_read (p : Production) : Confined true (p.read forms) := by
  have inner := confined_statement forms
  cases p with
  | form f => exact confined_ofForm inner f
  | statement => exact inner
  | body => exact confined_body inner
  | otherwise => exact confined_otherwise inner
  | item => exact confined_item inner
  | items => exact confined_manyTill confined_blockEnd (confined_item inner)
  | block => exact confined_block inner
  | function => exact confined_functionDecl forms
  | decl => exact confined_decl forms
  | unit => exact confined_decls forms
  | _ => exact confined_mono (quiet_read rfl)

end Production

structure Attempt where
  production : Production
  tokens : List Token

namespace Attempt

def size (a : Attempt) : Nat := 5 * a.tokens.length + a.production.rank

def Fails (forms : List StmtForm) (a : Attempt) (f : Failure) : Prop :=
  a.production.read forms a.tokens = .failed f

-- Requests for parts that may fail. Those in front have been read, or have declined.
inductive Asks (forms : List StmtForm) : Attempt → Attempt → Prop where
  | round {ts : List Token} (going : endOfTokens ts = .declined) :
      Asks forms ⟨.unit, ts⟩ ⟨.decl, ts⟩
  | nextRound {ts rest : List Token} (going : endOfTokens ts = .declined)
      (read : Accepts (decl forms) ts rest) : Asks forms ⟨.unit, ts⟩ ⟨.unit, rest⟩
  | function {ts : List Token} (plain : directiveDecl ts = .declined)
      (free : comment ts = .declined) : Asks forms ⟨.decl, ts⟩ ⟨.function, ts⟩
  | definition {ts rest : List Token} (head : Accepts signature ts rest)
      (goes : separator .semicolon rest = .declined) : Asks forms ⟨.function, ts⟩ ⟨.block, rest⟩
  | opened {ts rest : List Token} (mark : Accepts (separator .openBrace) ts rest) :
      Asks forms ⟨.block, ts⟩ ⟨.items, rest⟩
  | item {ts : List Token} (going : blockEnd ts = .declined) : Asks forms ⟨.items, ts⟩ ⟨.item, ts⟩
  | nextItem {ts rest : List Token} (going : blockEnd ts = .declined)
      (read : Accepts (item (statement forms)) ts rest) : Asks forms ⟨.items, ts⟩ ⟨.items, rest⟩
  | statement {ts : List Token} (free : comment ts = .declined) :
      Asks forms ⟨.item, ts⟩ ⟨.statement, ts⟩
  | nested {ts : List Token} : Asks forms ⟨.body, ts⟩ ⟨.statement, ts⟩
  | form {ts : List Token} {f : StmtForm} {before behind : List StmtForm}
      (listed : forms = before ++ f :: behind)
      (declined : ∀ g ∈ before, ofForm (statement forms) g ts = .declined) :
      Asks forms ⟨.statement, ts⟩ ⟨.form f, ts⟩
  | block {ts : List Token} : Asks forms ⟨.form .block, ts⟩ ⟨.block, ts⟩
  | whileBody {ts cs rest : List Token} (mark : Accepts (keyword .whileWord) ts cs)
      (test : Accepts logical cs rest) : Asks forms ⟨.form .whileLoop, ts⟩ ⟨.body, rest⟩
  | forBody {ts os is cs ps rest : List Token} (mark : Accepts (keyword .forWord) ts os)
      (opened : Accepts (separator .openParen) os is)
      (init : Accepts (arithmetic .semicolon) is cs)
      (test : Accepts (arithmetic .semicolon) cs ps)
      (post : Accepts (arithmetic .closeParen) ps rest) :
      Asks forms ⟨.form .forLoop, ts⟩ ⟨.body, rest⟩
  | doBody {ts rest : List Token} (mark : Accepts (keyword .doWord) ts rest) :
      Asks forms ⟨.form .doLoop, ts⟩ ⟨.body, rest⟩
  | ifBody {ts cs rest : List Token} (mark : Accepts (keyword .ifWord) ts cs)
      (test : Accepts logical cs rest) : Asks forms ⟨.form .ifThen, ts⟩ ⟨.body, rest⟩
  | otherwise {ts cs bs rest : List Token} (mark : Accepts (keyword .ifWord) ts cs)
      (test : Accepts logical cs bs)
      (read : Accepts (body (statement forms)) bs rest) :
      Asks forms ⟨.form .ifThen, ts⟩ ⟨.otherwise, rest⟩
  | elseBody {ts rest : List Token} (mark : Accepts (keyword .elseWord) ts rest) :
      Asks forms ⟨.otherwise, ts⟩ ⟨.body, rest⟩
  | switchBlock {ts cs rest : List Token} (mark : Accepts (keyword .switchWord) ts cs)
      (tag : Accepts logical cs rest) : Asks forms ⟨.form .switch, ts⟩ ⟨.block, rest⟩

inductive Records (forms : List StmtForm) : Attempt → Failure → Prop where
  | strayAtTopLevel {ts : List Token} (going : endOfTokens ts = .declined)
      (none : decl forms ts = .declined) :
      Records forms ⟨.unit, ts⟩ ⟨.strayAtTopLevel, ts.dropWhile Token.isSpace⟩
  | strayInBlock {ts : List Token} (free : comment ts = .declined)
      (none : statement forms ts = .declined) :
      Records forms ⟨.item, ts⟩ ⟨.strayInBlock, ts.dropWhile Token.isSpace⟩
  | missingStatement {ts : List Token} (none : statement forms ts = .declined) :
      Records forms ⟨.body, ts⟩ ⟨.missingStatement, ts.dropWhile Token.isTrivia⟩
  | missingWhile {ts bs rest : List Token} (mark : Accepts (keyword .doWord) ts bs)
      (read : Accepts (body (statement forms)) bs rest)
      (none : keyword .whileWord rest = .declined) :
      Records forms ⟨.form .doLoop, ts⟩ ⟨.missingWhile, rest.dropWhile Token.isSpace⟩
  | directiveInBlock {ts : List Token} {text : List UInt8}
      (found : nextLexeme ts = some (.directive text)) :
      Records forms ⟨.form .unsupported, ts⟩ ⟨.directiveInBlock, ts.dropWhile Token.isTrivia⟩
  | structInBlock {ts rest : List Token} (found : Accepts structDecl ts rest) :
      Records forms ⟨.form .unsupported, ts⟩ ⟨.structInBlock, ts.dropWhile Token.isTrivia⟩

variable {forms : List StmtForm} {a b : Attempt} {f : Failure} {ts : List Token}

theorem fails_of_records (records : Records forms a f) : a.Fails forms f := by
  cases records with
  | strayAtTopLevel going none => exact failed_decls_iff.mpr ⟨going, .inl (.inr ⟨none, rfl⟩)⟩
  | strayInBlock free none => exact failed_item_iff.mpr ⟨free, .inr ⟨none, rfl⟩⟩
  | missingStatement none => exact failed_body_iff.mpr (.inr ⟨none, rfl⟩)
  | missingWhile mark read none =>
      exact failed_doStmt_iff.mpr ⟨_, mark, .inr ⟨_, read, none, rfl⟩⟩
  | directiveInBlock found => exact failed_unsupportedStmt_iff.mpr (.inl ⟨⟨_, found⟩, rfl⟩)
  | structInBlock found => exact failed_unsupportedStmt_iff.mpr (.inr ⟨⟨_, found⟩, rfl⟩)

theorem fails_of_asks (asks : Asks forms a b) (failed : b.Fails forms f) : a.Fails forms f := by
  cases asks with
  | round going => exact failed_decls_iff.mpr ⟨going, .inl (.inl failed)⟩
  | nextRound going read => exact failed_decls_iff.mpr ⟨going, .inr ⟨_, read, failed⟩⟩
  | function plain free => exact failed_decl_iff.mpr ⟨plain, free, failed⟩
  | definition head goes => exact failed_functionDecl_iff.mpr ⟨_, head, goes, failed⟩
  | opened mark => exact failed_block_iff.mpr ⟨_, mark, failed⟩
  | item going =>
      exact (failed_items_iff (advances_statement forms)).mpr ⟨going, .inl failed⟩
  | nextItem going read =>
      exact (failed_items_iff (advances_statement forms)).mpr ⟨going, .inr ⟨_, read, failed⟩⟩
  | statement free => exact failed_item_iff.mpr ⟨free, .inl failed⟩
  | nested => exact failed_body_iff.mpr (.inl failed)
  | form listed declined =>
      refine (statement_unguarded forms _).trans (failed_firstOf_iff.mpr ?_)
      exact ⟨_, _, _, listed, declined, failed⟩
  | block => exact failed_blockStmt_iff.mpr failed
  | whileBody mark test => exact failed_whileStmt_iff.mpr ⟨_, mark, _, test, failed⟩
  | forBody mark opened init test post =>
      exact failed_forStmt_iff.mpr ⟨_, mark, _, opened, _, init, _, test, _, post, failed⟩
  | doBody mark => exact failed_doStmt_iff.mpr ⟨_, mark, .inl failed⟩
  | ifBody mark test => exact failed_ifStmt_iff.mpr ⟨_, mark, _, test, .inl failed⟩
  | otherwise mark test read =>
      exact failed_ifStmt_iff.mpr ⟨_, mark, _, test, .inr ⟨_, read, failed⟩⟩
  | elseBody mark => exact failed_otherwise_iff.mpr ⟨_, mark, failed⟩
  | switchBlock mark tag => exact failed_switchStmt_iff.mpr ⟨_, mark, _, tag, failed⟩

theorem form_fails_cases {form : StmtForm} (failed : Fails forms ⟨.form form, ts⟩ f) :
    Records forms ⟨.form form, ts⟩ f ∨ ∃ b, Asks forms ⟨.form form, ts⟩ b ∧ b.Fails forms f := by
  cases form with
  | block => exact .inr ⟨_, .block, failed_blockStmt_iff.mp failed⟩
  | whileLoop =>
      obtain ⟨cs, mark, bs, test, later⟩ := failed_whileStmt_iff.mp failed
      exact .inr ⟨_, .whileBody mark test, later⟩
  | forLoop =>
      obtain ⟨os, mark, is, opened, cs, init, ps, test, bs, post, later⟩ :=
        failed_forStmt_iff.mp failed
      exact .inr ⟨_, .forBody mark opened init test post, later⟩
  | doLoop =>
      obtain ⟨bs, mark, later | ⟨ws, read, none, rfl⟩⟩ := failed_doStmt_iff.mp failed
      · exact .inr ⟨_, .doBody mark, later⟩
      · exact .inl (.missingWhile mark read none)
  | ifThen =>
      obtain ⟨cs, mark, bs, test, later | ⟨rest, read, later⟩⟩ := failed_ifStmt_iff.mp failed
      · exact .inr ⟨_, .ifBody mark test, later⟩
      · exact .inr ⟨_, .otherwise mark test read, later⟩
  | switch =>
      obtain ⟨cs, mark, bs, tag, later⟩ := failed_switchStmt_iff.mp failed
      exact .inr ⟨_, .switchBlock mark tag, later⟩
  | unsupported =>
      rcases failed_unsupportedStmt_iff.mp failed with ⟨⟨text, found⟩, rfl⟩ | ⟨⟨rest, found⟩, rfl⟩
      · exact .inl (.directiveInBlock found)
      · exact .inl (.structInBlock found)
  | var => exact (quiet_never_fails confined_varStmt failed).elim
  | assign => exact (quiet_never_fails confined_assignStmt failed).elim
  | step => exact (quiet_never_fails confined_stepStmt failed).elim
  | call => exact (quiet_never_fails confined_callStmt failed).elim
  | leave => exact (quiet_never_fails confined_leaveStmt failed).elim
  | label => exact (quiet_never_fails confined_labelStmt failed).elim
  | branch => exact (quiet_never_fails confined_branchStmt failed).elim

theorem fails_cases (failed : a.Fails forms f) :
    Records forms a f ∨ ∃ b, Asks forms a b ∧ b.Fails forms f := by
  obtain ⟨p, ts⟩ := a
  cases p with
  | unit =>
      obtain ⟨going, (later | ⟨none, rfl⟩) | ⟨rest, read, later⟩⟩ := failed_decls_iff.mp failed
      · exact .inr ⟨_, .round going, later⟩
      · exact .inl (.strayAtTopLevel going none)
      · exact .inr ⟨_, .nextRound going read, later⟩
  | decl =>
      obtain ⟨plain, free, later⟩ := failed_decl_iff.mp failed
      exact .inr ⟨_, .function plain free, later⟩
  | function =>
      obtain ⟨bs, head, goes, later⟩ := failed_functionDecl_iff.mp failed
      exact .inr ⟨_, .definition head goes, later⟩
  | block =>
      obtain ⟨rest, mark, later⟩ := failed_block_iff.mp failed
      exact .inr ⟨_, .opened mark, later⟩
  | items =>
      obtain ⟨going, later | ⟨rest, read, later⟩⟩ :=
        (failed_items_iff (advances_statement forms)).mp failed
      · exact .inr ⟨_, .item going, later⟩
      · exact .inr ⟨_, .nextItem going read, later⟩
  | item =>
      obtain ⟨free, later | ⟨none, rfl⟩⟩ := failed_item_iff.mp failed
      · exact .inr ⟨_, .statement free, later⟩
      · exact .inl (.strayInBlock free none)
  | body =>
      rcases failed_body_iff.mp failed with later | ⟨none, rfl⟩
      · exact .inr ⟨_, .nested, later⟩
      · exact .inl (.missingStatement none)
  | otherwise =>
      obtain ⟨bs, mark, later⟩ := failed_otherwise_iff.mp failed
      exact .inr ⟨_, .elseBody mark, later⟩
  | statement =>
      obtain ⟨before, form, behind, listed, declined, later⟩ :=
        failed_firstOf_iff.mp ((statement_unguarded forms ts).symm.trans failed)
      exact .inr ⟨_, .form listed declined, later⟩
  | form form => exact form_fails_cases failed
  | _ => exact (quiet_never_fails (Production.quiet_read rfl) failed).elim

theorem asks_smaller (asks : Asks forms a b) : b.size < a.size := by
  cases asks with
  | round | function | item | statement | nested | form | block =>
      simp only [size, Production.rank]
      omega
  | nextRound going read =>
      have fewer := read.shorter (advances_decl forms)
      simp only [size, Production.rank]
      omega
  | definition head goes =>
      have fewer := head.shorter advances_signature
      simp only [size, Production.rank]
      omega
  | opened mark | elseBody mark | doBody mark =>
      have fewer := mark.shorter (advances_lexeme _)
      simp only [size, Production.rank]
      omega
  | nextItem going read =>
      have fewer := read.shorter (advances_item (advances_statement forms))
      simp only [size, Production.rank]
      omega
  | whileBody mark test | ifBody mark test | switchBlock mark test =>
      have first := mark.shorter (advances_lexeme _)
      have second := test.shorter advances_logical
      simp only [size, Production.rank]
      omega
  | forBody mark opened init test post =>
      have first := mark.shorter (advances_lexeme _)
      have second := opened.shorter (advances_lexeme _)
      have third := init.shorter (advances_arithmetic _)
      have fourth := test.shorter (advances_arithmetic _)
      have fifth := post.shorter (advances_arithmetic _)
      simp only [size, Production.rank]
      omega
  | otherwise mark test read =>
      have first := mark.shorter (advances_lexeme _)
      have second := test.shorter advances_logical
      have third := read.shorter (advances_body (advances_statement forms))
      simp only [size, Production.rank]
      omega

theorem asks_wellFounded (forms : List StmtForm) : WellFounded fun b a => Asks forms a b :=
  Subrelation.wf asks_smaller (measure size).wf

def Recorded (forms : List StmtForm) (a : Attempt) (f : Failure) : Prop :=
  ∃ b, Relation.ReflTransGen (Asks forms) a b ∧ Records forms b f

theorem fails_iff_recorded : a.Fails forms f ↔ Recorded forms a f := by
  constructor
  · intro failed
    induction a using (asks_wellFounded forms).induction with
    | _ a ih =>
        rcases fails_cases failed with records | ⟨b, asks, later⟩
        · exact ⟨a, .refl, records⟩
        · obtain ⟨c, path, records⟩ := ih b asks later
          exact ⟨c, .head asks path, records⟩
  · intro ⟨b, path, records⟩
    induction path using Relation.ReflTransGen.head_induction_on with
    | refl => exact fails_of_records records
    | head asks _ ih => exact fails_of_asks asks ih

end Attempt

variable {α : Type}

structure Standing (α : Type) where
  value : Option α
  cursor : Nat
  failure : Option Failure

def attempt (p : Parser α) (tokens : List Token) (cursor : Nat) : Standing α :=
  match p (tokens.drop cursor) with
  | .accepted a n => ⟨some a, cursor + n, none⟩
  | .declined => ⟨none, cursor, none⟩
  | .failed f => ⟨none, cursor, some f⟩

-- An outcome without a value has no room for a cursor, so `back` says of `attempt` what it does
-- by its shape. What it is for is `retried`: another production begins where this one began.
structure Protocol (forms : List StmtForm) (p : Production) (tokens : List Token) (cursor : Nat)
    (left : Standing p.Result) : Prop where
  onward : left.value.isSome → p = .unit ∨ cursor < left.cursor
  inside : left.cursor ≤ tokens.length
  back : left.value = none → left.cursor = cursor
  retried : left.value = none → left.failure = none → ∀ q : Parser p.Result,
    attempt (p.read forms <|> q) tokens cursor = attempt q tokens left.cursor
  silent : left.value.isSome → left.failure = none ∧
    ∀ f, ¬ Attempt.Recorded forms ⟨p, tokens.drop cursor⟩ f
  recorded : ∀ f, left.failure = some f ↔ Attempt.Recorded forms ⟨p, tokens.drop cursor⟩ f
  final : ∀ f, left.failure = some f → ∀ q : Parser p.Result,
    attempt (p.read forms <|> q) tokens cursor = ⟨none, cursor, some f⟩

theorem attempt_protocol (forms : List StmtForm) (p : Production) (tokens : List Token)
    {cursor : Nat} (inside : cursor ≤ tokens.length) :
    Protocol forms p tokens cursor (attempt (p.read forms) tokens cursor) := by
  have recorded : ∀ f, p.read forms (tokens.drop cursor) = .failed f ↔
      Attempt.Recorded forms ⟨p, tokens.drop cursor⟩ f :=
    fun f => Attempt.fails_iff_recorded (a := ⟨p, tokens.drop cursor⟩)
  have bound : (p.read forms (tokens.drop cursor)).Confined true (tokens.drop cursor) :=
    p.confined_read _
  have either : ∀ q : Parser p.Result, (p.read forms <|> q) (tokens.drop cursor) =
      (p.read forms).orElse q (tokens.drop cursor) := fun _ => rfl
  cases outcome : p.read forms (tokens.drop cursor) with
  | accepted a n =>
      rw [outcome] at bound
      simp only [Outcome.Confined, List.length_drop] at bound
      simp only [outcome, reduceCtorEq, false_iff] at recorded
      have left : attempt (p.read forms) tokens cursor = ⟨some a, cursor + n, none⟩ := by
        rw [attempt, outcome]
      rw [left]
      refine ⟨fun _ => ?_, ?_, by simp, by simp, fun _ => ⟨rfl, recorded⟩, ?_, by simp⟩
      · by_cases whole : p = .unit
        · exact .inl whole
        · have moves := (Production.advances_read whole) _ a n outcome
          exact .inr (by simp only; omega)
      · simp only
        omega
      · simpa using recorded
  | declined =>
      simp only [outcome, reduceCtorEq, false_iff] at recorded
      have left : attempt (p.read forms) tokens cursor = ⟨none, cursor, none⟩ := by
        rw [attempt, outcome]
      have retried (q : Parser p.Result) :
          attempt (p.read forms <|> q) tokens cursor = attempt q tokens cursor := by
        rw [attempt, either, orElse, outcome, attempt]
      rw [left]
      exact ⟨by simp, inside, by simp, fun _ _ => retried, by simp, by simpa using recorded,
        by simp⟩
  | failed g =>
      simp only [outcome] at recorded
      have left : attempt (p.read forms) tokens cursor = ⟨none, cursor, some g⟩ := by
        rw [attempt, outcome]
      have final (q : Parser p.Result) :
          attempt (p.read forms <|> q) tokens cursor = ⟨none, cursor, some g⟩ := by
        rw [attempt, either, orElse, outcome]
      rw [left]
      refine ⟨by simp, inside, by simp, by simp, by simp, by simpa using recorded, ?_⟩
      intro f same
      cases same
      exact final

theorem accepts_wellFounded {p : Parser α} (advances : Advances p) :
    WellFounded fun rest ts => Accepts p ts rest :=
  Subrelation.wf (Accepts.shorter advances) (measure List.length).wf

-- Nested statements and repetitions as plain recursion, with no bound on what nests or follows.
structure Unguarded (forms : List StmtForm) : Prop where
  statements : ∀ ts, statement forms ts = firstOf (forms.map (ofForm (statement forms))) ts
  items : ∀ ts, manyTill blockEnd (item (statement forms)) ts =
    round blockEnd (item (statement forms)) (manyTill blockEnd (item (statement forms))) ts
  params : ∀ ts, manyTill (separator .closeParen) followingParam ts =
    round (separator .closeParen) followingParam
      (manyTill (separator .closeParen) followingParam) ts
  fields : ∀ ts, manyTill (separator .closeBrace) (traced structField) ts =
    round (separator .closeBrace) (traced structField)
      (manyTill (separator .closeBrace) (traced structField)) ts
  decls : ∀ ts, decls forms ts = round endOfTokens (unitDecl forms) (decls forms) ts

theorem unguarded (forms : List StmtForm) : Unguarded forms where
  statements := statement_unguarded forms
  items := manyTill_unguarded (advances_item (advances_statement forms))
  params := manyTill_unguarded advances_followingParam
  fields := manyTill_unguarded (advances_traced advances_structField)
  decls := manyTill_unguarded (advances_unitDecl forms)

end NwscriptBindings.Parser

namespace NwscriptBindings.ScriptUnit

open NwscriptBindings.Parser

-- However deep a failure is recorded, it is the one that is reported, and nothing is read behind it.
theorem parse_protocol (name : List UInt8) (lines : List (List UInt8)) (tokens : List Token) :
    (∀ (p : Production) (cursor : Nat), cursor ≤ tokens.length →
        Protocol StmtForm.order p tokens cursor
          (attempt (p.read StmtForm.order) tokens cursor)) ∧
      (∀ a f, Relation.ReflTransGen (Attempt.Asks StmtForm.order) ⟨.unit, tokens⟩ a →
        Attempt.Fails StmtForm.order a f →
          parse name lines tokens = .error (f.report lines tokens)) ∧
      ((∃ u, parse name lines tokens = .ok u ∧
          ∀ f, ¬ Attempt.Recorded StmtForm.order ⟨.unit, tokens⟩ f) ∨
        ∃ f, parse name lines tokens = .error (f.report lines tokens) ∧
          ∀ g, Attempt.Recorded StmtForm.order ⟨.unit, tokens⟩ g ↔ g = f) ∧
      (WellFounded fun b a => Attempt.Asks StmtForm.order a b) ∧
      (∀ p : Production, p ≠ .unit →
        WellFounded fun rest ts => Accepts (p.read StmtForm.order) ts rest) ∧
      Unguarded StmtForm.order := by
  have recorded : ∀ f, Parser.decls StmtForm.order tokens = .failed f ↔
      Attempt.Recorded StmtForm.order ⟨.unit, tokens⟩ f :=
    fun f => Attempt.fails_iff_recorded (a := ⟨.unit, tokens⟩)
  refine ⟨?_, ?_, ?_, Attempt.asks_wellFounded _, ?_, unguarded _⟩
  · intro p cursor inside
    exact attempt_protocol StmtForm.order p tokens inside
  · intro a f path failed
    obtain ⟨b, further, records⟩ := Attempt.fails_iff_recorded.mp failed
    have refused := (recorded f).mpr ⟨b, path.trans further, records⟩
    rw [parse, parseWith, refused]
  · rw [parse, parseWith]
    cases outcome : Parser.decls StmtForm.order tokens with
    | declined => exact (decls_decide _ _ outcome).elim
    | accepted ds n =>
        refine .inl ⟨_, rfl, fun f found => ?_⟩
        rw [(recorded f).mpr found] at outcome
        cases outcome
    | failed f =>
        refine .inr ⟨f, rfl, fun g => ?_⟩
        rw [← recorded g, outcome, Outcome.failed.injEq, eq_comm]
  · intro p part
    exact accepts_wellFounded (Production.advances_read part)

theorem parse_protocol_else :
    let tokens := tokenize (utf8 "void f() \x7b if (a) x(); else \x7d")
    ∃ f, Attempt.Recorded StmtForm.order ⟨.unit, tokens⟩ f ∧
      parse [] [] tokens = .error (f.report [] tokens) := by
  intro tokens
  have refused : (parse [] [] tokens).isOk = false := by decide +kernel
  obtain ⟨_, _, either, _⟩ := parse_protocol [] [] tokens
  rcases either with ⟨u, accepted, _⟩ | ⟨f, reported, only⟩
  · rw [accepted] at refused
    cases refused
  · exact ⟨f, (only f).mpr rfl, reported⟩

end NwscriptBindings.ScriptUnit
