import NwscriptBindings.Proofs.Grammar.Reemission

namespace NwscriptBindings

section scanned

def IsName (name : List UInt8) : Prop :=
  name ≠ [] ∧ ∀ b ∈ name, Separator.ofByte? b = none ∧ Operator.ofByte? b = none

structure Token.Scanned (t : Token) : Prop where
  word : ∀ name, t.lexeme = .word name → IsName name
  shows : t.isTrivia = false → ∃ b ∈ t.raw, b ≠ byte ' '

theorem Scanner.next?_scanned {s after : Scanner} {t : Token}
    (found : s.next? = some (t, after)) : t.Scanned := by
  obtain ⟨c, rest, _, read⟩ := next?_lexeme found
  have shape := Scan.lexeme_shape s.context c rest
  have parts := Scan.raw_lexeme_append s.context c rest
  have nonempty := Scan.raw_lexeme_ne_nil s.context c rest
  rw [read] at shape parts nonempty
  constructor
  · intro name same
    rw [same] at shape
    cases shape with
    | word held _ _ spelled _ =>
        subst spelled
        refine ⟨by simp, ?_⟩
        have others : ∀ b ∈ rest.takeWhile Scan.isWordByte, Scan.isWordByte b = true :=
          fun b => List.all_eq_true.mp List.all_takeWhile b
        have all : ∀ b ∈ c :: rest.takeWhile Scan.isWordByte, Scan.isWordByte b = true :=
          List.forall_mem_cons.mpr ⟨held, others⟩
        exact fun b present => Scan.wordByte_iff.mp (all b present)
  · intro visible
    refine ⟨c, ?_, ?_⟩
    · cases shown : t.lexeme.raw with
      | nil => exact (nonempty shown).elim
      | cons d more =>
          simp only [shown] at parts
          obtain ⟨rfl, _⟩ := List.cons.inj parts
          simp [Token.raw, shown]
    · intro blank
      have space := Scan.lexeme_separator s.context rest .space
      rw [blank] at read
      rw [Token.isTrivia, ← (Prod.mk.inj (space.symm.trans read)).1] at visible
      cases visible

theorem Scanner.run_scanned {s after : Scanner} {ts : List Token} (path : Run s ts after) :
    ∀ t ∈ ts, t.Scanned := by
  induction path with
  | stop => simp
  | step found _ ih => exact List.forall_mem_cons.mpr ⟨next?_scanned found, ih⟩

end scanned

namespace Expr

theorem mem_write {t : Token} {ts : List Token} {b : UInt8} (among : t ∈ ts)
    (visible : t.isTrivia = false) (present : b ∈ t.raw) (afterOperator gap : Bool) :
    b ∈ write afterOperator gap ts := by
  induction ts generalizing afterOperator gap with
  | nil => cases among
  | cons u ts ih =>
      rw [write]
      rcases List.mem_cons.mp among with rfl | later
      · simp [visible, present]
      · split
        · exact ih later _ _
        · exact List.mem_append_right _ (ih later _ _)

theorem textOf_ne_nil {t : Token} {ts : List Token} (among : t ∈ ts) (scanned : t.Scanned)
    (visible : t.isTrivia = false) : textOf ts ≠ [] := by
  obtain ⟨b, present, shown⟩ := scanned.shows visible
  intro empty
  rw [textOf, Bytes.trimEnd, List.reverse_eq_nil_iff] at empty
  have whole := List.takeWhile_append_dropWhile (p := (· == byte ' '))
    (l := (write false false ts).reverse)
  rw [empty, List.append_nil] at whole
  have among : b ∈ (write false false ts).reverse :=
    List.mem_reverse.mpr (mem_write among visible present _ _)
  rw [← whole] at among
  exact shown (eq_of_beq (List.all_eq_true.mp List.all_takeWhile b among))

-- An expression by how it is bounded and by the separators that may not stand in it.
structure Captured (capture : Capture) (barred : List Separator) (e : Traced Expr) : Prop where
  kind : e.content.capture = capture
  written : e.content.text = textOf e.tokens
  balanced : Balanced e.tokens
  free : ∀ t ∈ e.tokens, ∀ s ∈ barred, t.lexeme ≠ .separator s

abbrev Arithmetic : Traced Expr → Prop := Captured .arithmetic [.openBrace, .closeBrace]

abbrev Logical : Traced Expr → Prop := Captured .logical [.semicolon, .openBrace, .closeBrace]

end Expr

def VarDecl.WellFormed (d : VarDecl) : Prop :=
  IsName d.name ∧ (d.isConst = true → d.init.isSome) ∧
    ∀ e, d.init = some e → Expr.Arithmetic e ∧ e.content.text ≠ []

namespace Stmt

def isComment : Stmt → Bool
  | comment _ _ => true
  | _ => false

def WellFormed : Stmt → Prop
  | comment _ _ | block _ _ | label _ _ | breakOut _ | continueOn _ => True
  | var d _ => d.WellFormed
  | assign target _ value _ =>
      IsName target.content ∧ Expr.Arithmetic value ∧ value.content.text ≠ []
  | step target _ _ => IsName target.content
  | call name args _ => IsName name ∧ Expr.Logical args
  | whileLoop cond body _ | doLoop body cond _ | ifThen cond body _ =>
      Expr.Logical cond ∧ body.isComment = false
  -- The three clauses share one pair of parentheses, so each is bounded by a separator.
  | forLoop init cond post body _ =>
      Expr.Arithmetic init ∧ Expr.Arithmetic cond ∧ Expr.Arithmetic post ∧ body.isComment = false
  | ifElse cond body other _ _ =>
      Expr.Logical cond ∧ body.isComment = false ∧ other.isComment = false
  | leave result _ => ∀ e, result = some e → Expr.Arithmetic e ∧ e.content.text ≠ []
  | switch tag _ _ _ => Expr.Logical tag

end Stmt

def Decl.WellFormed : Decl → Prop
  | directive _ | comment _ => True
  | struct d =>
      IsName d.name ∧ ∀ field ∈ d.fields, field.content.init = none ∧ field.content.isConst = false
  | prototype sig | function sig _ => IsName sig.name
  | var d => d.WellFormed

def Node.condition? : Node → Option (Traced Expr)
  | stmt (.whileLoop cond _ _) | stmt (.forLoop _ cond _ _ _) | stmt (.doLoop _ cond _)
  | stmt (.ifThen cond _ _) | stmt (.ifElse cond _ _ _ _) => some cond
  | _ => none

def Node.WellFormed : Node → Prop
  | unit _ => True
  | decl d => d.content.WellFormed
  | param p => IsName p.content.name
  | type t => ∀ name, t.content = .struct name → IsName name
  | value v => ∀ name, v.content = .reference name → IsName name
  | expr e => Expr.Arithmetic e ∨ Expr.Logical e
  | stmt s => s.WellFormed
  | otherwise body _ => body.isComment = false

namespace Grammar

open NwscriptBindings.Parser (Terminal nextLexeme)

variable {ts : List Token}

theorem arithmetic_captured {stop : Separator} {e : Traced Expr}
    (derived : ArithmeticRule stop e ts) : Expr.Arithmetic e := by
  have written := (arithmetic_located derived).text
  obtain ⟨range, t, rfl, found, rfl⟩ := derived
  obtain ⟨balanced, free⟩ := rangeUpTo_balanced found
  obtain ⟨front, back, parts, skippedFront, skippedBack⟩ := trimTrivia_parts range
  refine ⟨rfl, written, ?_, ?_⟩
  · rw [parts] at balanced
    exact (balanced.front skippedFront).back skippedBack
  · intro u among
    have present : u ∈ range := by
      rw [parts]
      simp [among]
    simpa using free u present

theorem logical_captured {e : Traced Expr} (derived : LogicalRule e ts) : Expr.Logical e := by
  have written := (logical_located derived).text
  obtain ⟨os, range, t, rfl, _, found, rfl⟩ := derived
  obtain ⟨balanced, free⟩ := rangeEnclosed_balanced found
  have blank : ∀ g ∈ range.takeWhile Token.isSpace, g.isTrivia = true := fun g present =>
    Parser.trivia_of_space (List.all_eq_true.mp List.all_takeWhile g present)
  refine ⟨rfl, written, ?_, ?_⟩
  · rw [← List.takeWhile_append_dropWhile (p := Token.isSpace) (l := range)] at balanced
    exact balanced.front blank
  · intro u among
    have present : u ∈ range := (List.dropWhile_sublist _).subset among
    simpa using free u present

theorem arithmetic_shown {e : Traced Expr} (derived : ArithmeticRule .semicolon e ts)
    (scanned : ∀ t ∈ ts, t.Scanned) (going : nextLexeme ts ≠ some (.separator .semicolon)) :
    e.content.text ≠ [] := by
  obtain ⟨range, t, rfl, found, rfl⟩ := derived
  obtain ⟨_, _, same, ends, _⟩ := rangeUpTo_split found
  obtain ⟨rfl, _⟩ := List.cons.inj (List.append_cancel_left same)
  by_cases skipped : ∀ g ∈ range, g.isTrivia = true
  · have kept : t.isTrivia = false := by
      simp [Token.isTrivia, ends, Lexeme.isTrivia, Separator.isSpace]
    have found := Parser.Terminal.begins ⟨t, ⟨range, rfl, skipped, kept⟩, ends⟩
    exact (going found).elim
  · simp only [Classical.not_forall] at skipped
    obtain ⟨g, among, visible⟩ := skipped
    exact Expr.textOf_ne_nil among (scanned g (by simp [among])) (by simpa using visible)

theorem name_isName {name : List UInt8} (named : NameRule name ts)
    (scanned : ∀ t ∈ ts, t.Scanned) : IsName name := by
  obtain ⟨t, ⟨gap, rfl, _⟩, same⟩ := named
  exact (scanned t (by simp)).word name same

def WellFormed (tree : Rose Node) : Prop := ∀ n ∈ tree.preorder, n.WellFormed

theorem wellFormed_node {n : Node} {trees : List (Rose Node)} (here : n.WellFormed)
    (below : ∀ tree ∈ trees, WellFormed tree) : WellFormed (.node n trees) := by
  intro m present
  rcases mem_preorder_node.mp present with rfl | ⟨tree, among, deeper⟩
  · exact here
  · exact below tree among m deeper

theorem wellFormed_leaf {n : Node} (here : n.WellFormed) : WellFormed (.leaf n) :=
  wellFormed_node here (by simp)

theorem wellFormed_arithmetic {e : Traced Expr} (captured : Expr.Arithmetic e) :
    WellFormed e.exprTree := wellFormed_leaf (.inl captured)

theorem wellFormed_logical {e : Traced Expr} (captured : Expr.Logical e) :
    WellFormed e.exprTree := wellFormed_leaf (.inr captured)

theorem type_wellFormed {type : Traced ScriptType} (derived : TracedRule TypeRule type ts)
    (scanned : ∀ t ∈ ts, t.Scanned) : WellFormed type.typeTree := by
  refine wellFormed_leaf ?_
  obtain ⟨content, tokens⟩ := type
  intro name same
  cases derived.1 with
  | basic _ => cases same
  | struct _ named =>
      cases same
      exact name_isName named (List.forall_mem_append.mp scanned).2

theorem value_wellFormed {value : Traced Value} (derived : TracedRule ValueRule value ts)
    (scanned : ∀ t ∈ ts, t.Scanned) : WellFormed value.valueTree := by
  refine wellFormed_leaf ?_
  obtain ⟨content, tokens⟩ := value
  intro name same
  cases derived.1 with
  | literal _ => cases same
  | reference named =>
      cases same
      exact name_isName named scanned

theorem target_wellFormed {target : Traced (List UInt8)} (named : IsName target.content) :
    WellFormed target.asValue.valueTree := by
  refine wellFormed_leaf ?_
  intro name same
  cases same
  exact named

theorem var_wellFormed {d : VarDecl} (derived : VarRule false d ts)
    (scanned : ∀ t ∈ ts, t.Scanned) : d.WellFormed ∧ ∀ tree ∈ d.parts, WellFormed tree := by
  cases derived with
  | plain _ typed named _ only =>
      simp only [List.forall_mem_append] at scanned
      obtain ⟨_, types, names, _⟩ := scanned
      refine ⟨⟨name_isName named names, fun isConst => ?_, by simp⟩, ?_⟩
      · cases only isConst
      · simpa [VarDecl.parts] using type_wellFormed typed types
  | initialized _ typed named _ assigned =>
      simp only [List.forall_mem_append] at scanned
      obtain ⟨_, types, names, _⟩ := scanned
      have captured := arithmetic_captured assigned.1
      refine ⟨⟨name_isName named names, fun _ => rfl, ?_⟩, ?_⟩
      · intro e same
        cases same
        exact ⟨captured, assigned.2⟩
      · simp only [VarDecl.parts, Option.map_some, Option.toList_some, List.forall_mem_cons]
        exact ⟨type_wellFormed typed types, wellFormed_arithmetic captured, by simp⟩

theorem label_wellFormed {value : Option (Traced Value)} (derived : LabelRule value ts)
    (scanned : ∀ t ∈ ts, t.Scanned) :
    ∀ tree ∈ (value.map Traced.valueTree).toList, WellFormed tree := by
  cases derived with
  | default _ => simp
  | case _ stated => simpa using value_wellFormed stated (List.forall_mem_append.mp scanned).2

theorem step_isName {target : Traced (List UInt8)} {op : StepOp} (derived : StepRule target op ts)
    (scanned : ∀ t ∈ ts, t.Scanned) : IsName target.content := by
  rw [← List.append_nil ts] at scanned
  cases derived with
  | pre _ named => exact name_isName named.1 fun t among => scanned t (by simp [among])
  | post named _ => exact name_isName named.1 fun t among => scanned t (by simp [among])

theorem default_wellFormed {given : Option (Traced Value)} (derived : DefaultRule given ts)
    (scanned : ∀ t ∈ ts, t.Scanned) :
    ∀ tree ∈ (given.map Traced.valueTree).toList, WellFormed tree := by
  cases derived with
  | absent => simp
  | present _ stated => simpa using value_wellFormed stated (List.forall_mem_append.mp scanned).2

theorem param_wellFormed {param : Traced Param} (derived : TracedRule ParamRule param ts)
    (scanned : ∀ t ∈ ts, t.Scanned) : WellFormed param.paramTree := by
  obtain ⟨content, tokens⟩ := param
  cases derived.1 with
  | intro typed named given =>
      simp only [List.forall_mem_append] at scanned
      obtain ⟨types, names, defaults⟩ := scanned
      exact wellFormed_node (name_isName named names) (List.forall_mem_cons.mpr
        ⟨type_wellFormed typed types, default_wellFormed given defaults⟩)

theorem listRule_forall {α : Type} {rule : α → List Token → Prop} {holds : α → Prop} {as : List α}
    (each : ∀ a us, rule a us → (∀ t ∈ us, t.Scanned) → holds a) (derived : ListRule rule as ts)
    (scanned : ∀ t ∈ ts, t.Scanned) : ∀ a ∈ as, holds a := by
  induction derived with
  | nil => simp
  | cons first _ ih =>
      obtain ⟨front, behind⟩ := List.forall_mem_append.mp scanned
      exact List.forall_mem_cons.mpr ⟨each _ _ first front, ih behind⟩

theorem following_wellFormed {param : Traced Param} (derived : FollowingRule param ts)
    (scanned : ∀ t ∈ ts, t.Scanned) : WellFormed param.paramTree := by
  cases derived with
  | intro _ given => exact param_wellFormed given (List.forall_mem_append.mp scanned).2

theorem params_wellFormed {params : List (Traced Param)} (derived : ParamsRule params ts)
    (scanned : ∀ t ∈ ts, t.Scanned) : ∀ param ∈ params, WellFormed param.paramTree := by
  cases derived with
  | empty => simp
  | some first others _ =>
      simp only [List.forall_mem_append] at scanned
      obtain ⟨front, behind, _⟩ := scanned
      exact List.forall_mem_cons.mpr ⟨param_wellFormed first front,
        listRule_forall (fun _ _ given => following_wellFormed given) others behind⟩

theorem signature_wellFormed {sig : Signature} (derived : SignatureRule sig ts)
    (scanned : ∀ t ∈ ts, t.Scanned) :
    IsName sig.name ∧ ∀ tree ∈ sig.parts, WellFormed tree := by
  cases derived with
  | intro typed named _ given =>
      simp only [List.forall_mem_append] at scanned
      obtain ⟨types, names, _, params⟩ := scanned
      refine ⟨name_isName named names, List.forall_mem_cons.mpr ⟨type_wellFormed typed types, ?_⟩⟩
      exact List.forall_mem_map.mpr (params_wellFormed given params)

theorem field_wellFormed {field : Traced VarDecl} (derived : TracedRule (FieldRule false) field ts)
    (scanned : ∀ t ∈ ts, t.Scanned) :
    (field.content.init = none ∧ field.content.isConst = false) ∧ WellFormed field.fieldTree := by
  obtain ⟨⟨var, plain⟩, _⟩ := derived
  obtain ⟨here, below⟩ := var_wellFormed var scanned
  exact ⟨plain, wellFormed_node here below⟩

theorem struct_wellFormed {d : StructDecl} (derived : StructRule false d ts)
    (scanned : ∀ t ∈ ts, t.Scanned) :
    (Decl.struct d).WellFormed ∧ ∀ tree ∈ (Decl.struct d).parts, WellFormed tree := by
  cases derived with
  | intro _ named _ listed _ _ =>
      simp only [List.forall_mem_append] at scanned
      obtain ⟨_, names, _, ⟨inside, _⟩, _⟩ := scanned
      have fields := listRule_forall (fun _ _ derived => field_wellFormed derived) listed inside
      refine ⟨⟨name_isName named names, fun field among => (fields field among).1⟩, ?_⟩
      exact List.forall_mem_map.mpr fun field among => (fields field among).2

end Grammar

namespace Parser

open Grammar

variable {ts : List Token}

section statements

variable {nested : Parser Stmt} {rest : List Token}
  (inner : ∀ s ts rest, Reads nested s ts rest → (∀ t ∈ ts, t.Scanned) →
    WellFormed s.tree ∧ s.isComment = false)
include inner

theorem items_wellFormed {stmts : List Stmt}
    (read : Reads (manyTill blockEnd (item nested)) stmts ts rest)
    (scanned : ∀ t ∈ ts, t.Scanned) : ∀ tree ∈ Stmt.trees stmts, WellFormed tree := by
  induction stmts generalizing ts with
  | nil => simp [Stmt.trees]
  | cons s stmts ih =>
      rcases reads_manyTill_cases read with
        ⟨same, _⟩ | ⟨_, _, us, vs, same, rfl, _, _, first, more⟩
      · cases same
      · cases same
        obtain ⟨front, behind⟩ := List.forall_mem_append.mp scanned
        rw [Stmt.trees, List.forall_mem_cons]
        refine ⟨?_, ih more behind⟩
        rcases reads_item_iff.mp first with ⟨c, _, rfl⟩ | ⟨_, nests⟩
        · exact wellFormed_node trivial (by simp [Stmt.parts])
        · exact (inner _ _ _ nests front).1

theorem block_wellFormed {b : Traced (List Stmt)}
    (read : Reads (block nested) b ts rest) (scanned : ∀ t ∈ ts, t.Scanned) :
    WellFormed (.node (.stmt (.block b.content b.tokens)) (Stmt.trees b.content)) := by
  obtain ⟨os, us, rfl, _, listed, _⟩ := reads_block_iff.mp read
  exact wellFormed_node trivial
    (items_wellFormed inner listed (List.forall_mem_append.mp scanned).2)

theorem ofForm_wellFormed {form : StmtForm} {s : Stmt}
    (read : Reads (ofForm nested form) s ts rest) (scanned : ∀ t ∈ ts, t.Scanned) :
    WellFormed s.tree ∧ s.isComment = false := by
  cases form with
  | block =>
      obtain ⟨b, found, rfl⟩ := reads_blockStmt_iff.mp read
      exact ⟨block_wellFormed inner found scanned, rfl⟩
  | var =>
      obtain ⟨d, derived, rfl⟩ := reads_varStmt_iff.mp read
      obtain ⟨here, below⟩ := var_wellFormed derived scanned
      exact ⟨wellFormed_node here below, rfl⟩
  | assign =>
      obtain ⟨us, os, es, target, op, value, rfl, named, _, assigned, rfl⟩ :=
        reads_assignStmt_iff.mp read
      have name := name_isName named.1 (List.forall_mem_append.mp scanned).1
      have captured := arithmetic_captured assigned.1
      refine ⟨wellFormed_node ⟨name, captured, assigned.2⟩ ?_, rfl⟩
      simp only [Stmt.parts, List.forall_mem_cons]
      exact ⟨target_wellFormed name, wellFormed_arithmetic captured, by simp⟩
  | step =>
      obtain ⟨us, es, target, op, rfl, derived, _, rfl⟩ := reads_stepStmt_iff.mp read
      have name := step_isName derived (List.forall_mem_append.mp scanned).1
      refine ⟨wellFormed_node name ?_, rfl⟩
      simpa [Stmt.parts] using target_wellFormed name
  | call =>
      obtain ⟨ns, as, es, name, args, rfl, named, enclosed, _, rfl⟩ :=
        reads_callStmt_iff.mp read
      have name := name_isName named (List.forall_mem_append.mp scanned).1
      have captured := logical_captured enclosed
      refine ⟨wellFormed_node ⟨name, captured⟩ ?_, rfl⟩
      simpa [Stmt.parts] using wellFormed_logical captured
  | whileLoop =>
      obtain ⟨ks, cs, bs, test, body, rfl, _, enclosed, nests, rfl⟩ :=
        reads_whileStmt_iff.mp read
      simp only [List.forall_mem_append] at scanned
      obtain ⟨below, plain⟩ := inner _ _ _ nests scanned.2.2
      have captured := logical_captured enclosed
      refine ⟨wellFormed_node ⟨captured, plain⟩ ?_, rfl⟩
      simp only [Stmt.parts, List.forall_mem_cons]
      exact ⟨wellFormed_logical captured, below, by simp⟩
  | forLoop =>
      obtain ⟨ks, os, is, cs, ps, bs, init, test, post, body, rfl, _, _, first, second, third,
        nests, rfl⟩ := reads_forStmt_iff.mp read
      simp only [List.forall_mem_append] at scanned
      obtain ⟨below, plain⟩ := inner _ _ _ nests scanned.2.2.2.2.2
      have first := arithmetic_captured first
      have second := arithmetic_captured second
      have third := arithmetic_captured third
      refine ⟨wellFormed_node ⟨first, second, third, plain⟩ ?_, rfl⟩
      simp only [Stmt.parts, List.forall_mem_cons]
      exact ⟨wellFormed_arithmetic first, wellFormed_arithmetic second,
        wellFormed_arithmetic third, below, by simp⟩
  | doLoop =>
      obtain ⟨ks, bs, ws, cs, es, body, test, rfl, _, nests, _, enclosed, _, rfl⟩ :=
        reads_doStmt_iff.mp read
      simp only [List.forall_mem_append] at scanned
      obtain ⟨below, plain⟩ := inner _ _ _ nests scanned.2.1
      have captured := logical_captured enclosed
      refine ⟨wellFormed_node ⟨captured, plain⟩ ?_, rfl⟩
      simp only [Stmt.parts, List.forall_mem_cons]
      exact ⟨below, wellFormed_logical captured, by simp⟩
  | ifThen =>
      rcases reads_ifStmt_iff.mp read with
        ⟨ks, cs, bs, test, body, rfl, _, enclosed, nests, _, rfl⟩ |
        ⟨ks, cs, bs, ws, os, test, body, other, rfl, _, enclosed, nests, _, follows, rfl⟩
      · simp only [List.forall_mem_append] at scanned
        obtain ⟨below, plain⟩ := inner _ _ _ nests scanned.2.2
        have captured := logical_captured enclosed
        refine ⟨wellFormed_node ⟨captured, plain⟩ ?_, rfl⟩
        simp only [Stmt.parts, List.forall_mem_cons]
        exact ⟨wellFormed_logical captured, below, by simp⟩
      · simp only [List.forall_mem_append] at scanned
        obtain ⟨below, plain⟩ := inner _ _ _ nests scanned.2.2.1
        obtain ⟨behind, free⟩ := inner _ _ _ follows scanned.2.2.2.2
        have captured := logical_captured enclosed
        refine ⟨wellFormed_node ⟨captured, plain, free⟩ ?_, rfl⟩
        simp only [Stmt.parts, List.forall_mem_cons]
        have branch : ∀ tree ∈ [other.tree], WellFormed tree := by simpa using behind
        exact ⟨wellFormed_logical captured, below, wellFormed_node free branch, by simp⟩
  | leave =>
      obtain ⟨ks, es, result, rfl, _, rfl, ⟨rfl, _⟩ | ⟨e, rfl, captured, going⟩⟩ :=
        leaveStmt_reads read
      · exact ⟨wellFormed_node (fun _ same => by cases same) (by simp [Stmt.parts]), rfl⟩
      · have shown := arithmetic_shown captured (List.forall_mem_append.mp scanned).2 going
        have captured := arithmetic_captured captured
        refine ⟨wellFormed_node (fun _ same => ?_) ?_, rfl⟩
        · cases same
          exact ⟨captured, shown⟩
        · simpa [Stmt.parts] using wellFormed_arithmetic captured
  | switch =>
      obtain ⟨ks, cs, bs, tag, b, rfl, _, enclosed, nests, rfl⟩ :=
        reads_switchStmt_iff.mp read
      simp only [List.forall_mem_append] at scanned
      have captured := logical_captured enclosed
      refine ⟨wellFormed_node captured ?_, rfl⟩
      simp only [Stmt.parts, List.forall_mem_cons]
      exact ⟨wellFormed_logical captured, block_wellFormed inner nests scanned.2.2, by simp⟩
  | label =>
      obtain ⟨ls, es, value, rfl, derived, _, rfl⟩ := reads_labelStmt_iff.mp read
      exact ⟨wellFormed_node trivial
        (label_wellFormed derived (List.forall_mem_append.mp scanned).1), rfl⟩
  | branch =>
      obtain ⟨ks, es, rfl, _, ⟨_, rfl⟩ | ⟨_, rfl⟩⟩ := reads_branchStmt_iff.mp read
      · exact ⟨wellFormed_node trivial (by simp [Stmt.parts]), rfl⟩
      · exact ⟨wellFormed_node trivial (by simp [Stmt.parts]), rfl⟩
  | unsupported => exact (unsupported_never_accepts read).elim

end statements

section units

variable {forms : List StmtForm} {rest : List Token}

theorem statement_wellFormed {s : Stmt} (read : Reads (statement forms) s ts rest)
    (scanned : ∀ t ∈ ts, t.Scanned) : WellFormed s.tree ∧ s.isComment = false :=
  statement_induction
    (fun s ts => (∀ t ∈ ts, t.Scanned) → WellFormed s.tree ∧ s.isComment = false)
    (fun _ inner _ _ _ _ read => ofForm_wellFormed inner read) read scanned

theorem functionDecl_wellFormed {d : Decl} (read : Reads (functionDecl forms) d ts rest)
    (scanned : ∀ t ∈ ts, t.Scanned) : d.WellFormed ∧ ∀ tree ∈ d.parts, WellFormed tree := by
  obtain ⟨sig, us, vs, rfl, derived, ⟨_, rfl⟩ | ⟨b, body, rfl⟩⟩ := functionDecl_reads read
  · exact signature_wellFormed derived (List.forall_mem_append.mp scanned).1
  · obtain ⟨front, behind⟩ := List.forall_mem_append.mp scanned
    obtain ⟨named, below⟩ := signature_wellFormed derived front
    refine ⟨named, ?_⟩
    rw [Decl.parts, List.forall_mem_append]
    refine ⟨below, ?_⟩
    simpa using block_wellFormed (fun _ _ _ => statement_wellFormed) body behind

theorem decl_wellFormed {d : Decl} (read : Reads (decl forms) d ts rest)
    (scanned : ∀ t ∈ ts, t.Scanned) : d.WellFormed ∧ ∀ tree ∈ d.parts, WellFormed tree := by
  rcases decl_reads read with ⟨_, text, _, _, rfl⟩ | ⟨c, _, rfl⟩ |
    ⟨_, function | ⟨v, derived, rfl⟩ | ⟨v, derived, rfl⟩⟩
  · exact ⟨trivial, by simp [Decl.parts]⟩
  · exact ⟨trivial, by simp [Decl.parts]⟩
  · exact functionDecl_wellFormed function scanned
  · exact var_wellFormed derived scanned
  · exact struct_wellFormed derived scanned

theorem decls_wellFormed {ds : List (Traced Decl)} (read : Reads (decls forms) ds ts rest)
    (scanned : ∀ t ∈ ts, t.Scanned) : ∀ d ∈ ds, WellFormed d.declTree := by
  have each : ∀ d us more, Reads (traced (decl forms)) d us more → (∀ t ∈ us, t.Scanned) →
      WellFormed d.declTree := by
    intro d us more first front
    obtain ⟨here, below⟩ := decl_wellFormed (reads_traced_iff.mp first).1 front
    exact wellFormed_node here below
  obtain ⟨_, us, es, rfl, listed, _⟩ := decls_reads
    (fun d us => (∀ t ∈ us, t.Scanned) → WellFormed d.declTree) each read
  exact listRule_forall (fun _ _ => id) listed (List.forall_mem_append.mp scanned).1

end units

end Parser

namespace ScriptUnit

theorem parse_wellFormed {name text : List UInt8} {lines : List (List UInt8)} {u : ScriptUnit}
    (parsed : parse name lines (tokenize text) = .ok u) :
    ∀ n ∈ u.tree.preorder, n.WellFormed := by
  obtain ⟨_, _, read⟩ := parseWith_reads parsed
  obtain ⟨_, path, _⟩ := Scanner.run_tokens { rest := text }
  have scanned : ∀ t ∈ tokenize text, t.Scanned := Scanner.run_scanned path
  have decls := Parser.decls_wellFormed read scanned
  exact Grammar.wellFormed_node trivial (List.forall_mem_map.mpr decls)

-- The comment between the condition and the body is no node.
theorem parse_wellFormed_nested :
    let tokens := tokenize (
      utf8 "struct P \x7b int a; \x7d; const int N = 1; int f(int i = N) \x7b " ++
      utf8 "for (; i < N; i++) if (g(i)) /* c */ return (i); else g(i); \x7d")
    ∃ u, parse [] [] tokens = .ok u ∧ u.tree.preorder.length = 24 ∧
      ∀ n ∈ u.tree.preorder, n.WellFormed := by
  intro tokens
  have counted : (parse [] [] tokens).toOption.any (·.tree.preorder.length == 24) = true := by
    decide +kernel
  cases outcome : parse [] [] tokens with
  | error e =>
      rw [outcome] at counted
      cases counted
  | ok u =>
      have many : u.tree.preorder.length = 24 := by simpa [outcome, Except.toOption] using counted
      exact ⟨u, rfl, many, parse_wellFormed outcome⟩

-- Conditions are bounded by parentheses of their own, except that of a `for`: it ends at a
-- semicolon.
theorem for_condition_not_logical : ∃ u n cond,
    parse [] [] (tokenize (utf8 "void f() \x7b for (; a; ) x(); \x7d")) = .ok u ∧
      n ∈ u.tree.preorder ∧ n.condition? = some cond ∧ ¬ Expr.Logical cond := by
  let tokens := tokenize (utf8 "void f() \x7b for (; a; ) x(); \x7d")
  have found : (parse [] [] tokens).toOption.any (fun u => u.tree.preorder.any fun n =>
      n.condition?.any (·.content.capture == .arithmetic)) = true := by decide +kernel
  cases outcome : parse [] [] tokens with
  | error e =>
      rw [outcome] at found
      cases found
  | ok u =>
      simp only [outcome, Except.toOption, Option.any_some, List.any_eq_true,
        Option.any_eq_true, beq_iff_eq] at found
      obtain ⟨n, present, cond, same, separated⟩ := found
      refine ⟨u, n, cond, rfl, present, same, fun logical => ?_⟩
      rw [logical.kind] at separated
      cases separated

end ScriptUnit

end NwscriptBindings
