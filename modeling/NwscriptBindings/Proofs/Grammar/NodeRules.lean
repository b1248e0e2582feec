import NwscriptBindings.Proofs.Grammar.NearestIf
import NwscriptBindings.Proofs.Tree.Slots

namespace NwscriptBindings

namespace Node

def comment? : Node → Option Comment
  | decl ⟨.comment c, _⟩ => some c
  | stmt (.comment c _) => some c
  | _ => none

def isUnit : Node → Bool
  | unit _ => true
  | _ => false

theorem eq_tree_of_mem {n : Node} {child : Rose Node} (present : child ∈ n.parts) :
    child = child.value.tree := by
  obtain ⟨_, nodes, _, below⟩ := filled_parts n
  rw [below] at present
  obtain ⟨m, _, rfl⟩ := List.mem_map.mp present
  rfl

-- What a node passes on holds of every node below it, and what it gets back from them is gathered
-- on the way up.
theorem rises (known holds : Node → Prop)
    (passes : ∀ n, known n → ∀ child ∈ n.parts, known child.value)
    (step : ∀ n, known n → (∀ child ∈ n.parts, holds child.value) → holds n) (shape : Rose Node)
    (own : shape = shape.value.tree) (start : known shape.value) : holds shape.value := by
  cases shape with
  | node n trees =>
      obtain ⟨_, parts⟩ := Rose.node.inj own
      have each : ∀ child ∈ trees, child = child.value.tree ∧ known child.value := by
        rw [parts]
        exact fun child present => ⟨eq_tree_of_mem present, passes n start child present⟩
      refine step n start ?_
      have below : ∀ child ∈ trees, holds child.value := fun child present =>
        rises known holds passes step child (each child present).1 (each child present).2
      rwa [parts] at below

theorem throughout {holds : Node → List (Rose Node) → Prop} (known : Node → Prop)
    (here : ∀ n, known n → holds n n.parts)
    (passes : ∀ n, known n → ∀ child ∈ n.parts, known child.value) (n : Node) (start : known n) :
    n.tree.Throughout holds := by
  refine rises known (fun n => n.tree.Throughout holds) passes ?_ n.tree rfl start
  intro n known each
  refine .node (here n known) fun child present => ?_
  rw [eq_tree_of_mem present]
  exact each child present

end Node

namespace Grammar

open NwscriptBindings.Parser (Next Terminal)

inductive NodeRule (bare : Bool) : Node → List Token → Prop where
  | unit : UnitRule bare u ts → NodeRule bare (.unit u) ts
  | decl : TracedRule (DeclRule bare) d ts → NodeRule bare (.decl d) ts
  | field : TracedRule (FieldRule bare) d ts → NodeRule bare (.decl ⟨.var d.content, d.tokens⟩) ts
  | param : TracedRule ParamRule p ts → NodeRule bare (.param p) ts
  | type : TracedRule TypeRule t ts → NodeRule bare (.type t) ts
  | value : TracedRule ValueRule v ts → NodeRule bare (.value v) ts
  | arithmetic : ArithmeticRule stop e ts → NodeRule bare (.expr e) ts
  | logical : LogicalRule e ts → NodeRule bare (.expr e) ts
  | comment : CommentRule c ts → NodeRule bare (.stmt (.comment c (ownTokens ts))) ts
  | stmt : StmtRule bare s ts → NodeRule bare (.stmt s) ts
  | otherwise : Terminal (.keyword .elseWord) ws → StmtRule bare s os →
      NodeRule bare (.otherwise s (ownTokens (ws ++ os))) (ws ++ os)

def Visible (ts : List Token) : Prop := ∃ t ∈ ts, t.isTrivia = false

theorem Visible.before {ts : List Token} (visible : Visible ts) (more : List Token) :
    Visible (ts ++ more) := by
  obtain ⟨t, present, kept⟩ := visible
  exact ⟨t, List.mem_append_left _ present, kept⟩

theorem Visible.behind {ts : List Token} (visible : Visible ts) (front : List Token) :
    Visible (front ++ ts) := by
  obtain ⟨t, present, kept⟩ := visible
  exact ⟨t, List.mem_append_right _ present, kept⟩

theorem terminal_visible {l : Lexeme} {ts : List Token} (found : Terminal l ts) : Visible ts := by
  obtain ⟨t, ⟨gap, rfl, _, kept⟩, _⟩ := found
  exact ⟨t, by simp, kept⟩

-- Each tree has its node derived from a part of the tokens. If comments are to be enclosed, one
-- has tokens that are not skipped on both sides.
def Seated (bare enclosed : Bool) (trees : List (Rose Node)) (ts : List Token) : Prop :=
  ∀ tree ∈ trees, tree.value.isUnit = false ∧ ∃ front us back, ts = front ++ (us ++ back) ∧
    NodeRule bare tree.value us ∧
      (enclosed = true → tree.value.comment?.isSome → Visible front ∧ Visible back)

section seats

variable {bare enclosed : Bool} {trees others : List (Rose Node)} {ts us : List Token}

theorem Seated.nil : Seated bare enclosed [] ts := by simp [Seated]

theorem Seated.behind (seated : Seated bare enclosed trees ts) (front : List Token) :
    Seated bare enclosed trees (front ++ ts) := by
  intro tree present
  obtain ⟨inner, first, us, last, rfl, derived, between⟩ := seated tree present
  refine ⟨inner, front ++ first, us, last, by simp, derived, fun held comment => ?_⟩
  obtain ⟨left, right⟩ := between held comment
  exact ⟨left.behind front, right⟩

theorem Seated.before (seated : Seated bare enclosed trees ts) (more : List Token) :
    Seated bare enclosed trees (ts ++ more) := by
  intro tree present
  obtain ⟨inner, first, us, last, rfl, derived, between⟩ := seated tree present
  refine ⟨inner, first, us, last ++ more, by simp, derived, fun held comment => ?_⟩
  obtain ⟨left, right⟩ := between held comment
  exact ⟨left, right.before more⟩

theorem Seated.append (first : Seated bare enclosed trees ts)
    (second : Seated bare enclosed others us) : Seated bare enclosed (trees ++ others) (ts ++ us) :=
  List.forall_mem_append.mpr ⟨first.before us, second.behind ts⟩

theorem Seated.between {os cs : List Token} (seated : Seated bare false trees ts)
    (opened : Visible os) (closed : Visible cs) :
    Seated bare enclosed trees (os ++ (ts ++ cs)) := by
  intro tree present
  obtain ⟨inner, first, us, last, rfl, derived, _⟩ := seated tree present
  exact ⟨inner, os ++ first, us, last ++ cs, by simp, derived,
    fun _ _ => ⟨opened.before first, closed.behind last⟩⟩

theorem NodeRule.loose {n : Node} {below : List (Rose Node)} (derived : NodeRule bare n ts)
    (inner : n.isUnit = false) : Seated bare false [.node n below] ts := by
  intro tree present
  obtain rfl := List.mem_singleton.mp present
  exact ⟨inner, [], ts, [], by simp, derived, fun held => by cases held⟩

theorem NodeRule.seat {n : Node} {below : List (Rose Node)} (derived : NodeRule bare n ts)
    (inner : n.isUnit = false) (own : n.comment? = none) :
    Seated bare enclosed [.node n below] ts := by
  intro tree present
  obtain rfl := List.mem_singleton.mp present
  refine ⟨inner, [], ts, [], by simp, derived, fun _ comment => ?_⟩
  rw [Rose.value, own] at comment
  cases comment

end seats

section parts

variable {bare enclosed : Bool} {ts : List Token}

theorem type_seated {type : Traced ScriptType} (derived : TracedRule TypeRule type ts) :
    Seated bare enclosed [type.typeTree] ts := (NodeRule.type derived).seat rfl rfl

theorem value_seated {value : Traced Value} (derived : TracedRule ValueRule value ts) :
    Seated bare enclosed [value.valueTree] ts := (NodeRule.value derived).seat rfl rfl

theorem target_seated {target : Traced (List UInt8)} (derived : TracedRule NameRule target ts) :
    Seated bare enclosed [target.asValue.valueTree] ts :=
  value_seated ⟨.reference derived.1, derived.2⟩

theorem arithmetic_seated {stop : Separator} {e : Traced Expr}
    (derived : ArithmeticRule stop e ts) : Seated bare enclosed [e.exprTree] ts :=
  (NodeRule.arithmetic derived).seat rfl rfl

theorem logical_seated {e : Traced Expr} (derived : LogicalRule e ts) :
    Seated bare enclosed [e.exprTree] ts := (NodeRule.logical derived).seat rfl rfl

theorem var_seated {d : VarDecl} (derived : VarRule bare d ts) :
    Seated bare enclosed d.parts ts := by
  cases derived with
  | plain _ type _ _ _ => exact ((type_seated type).before _).behind _
  | initialized _ type _ _ value =>
      exact ((type_seated type).append
        (((arithmetic_seated value.1).behind _).behind _)).behind _

theorem stmt_seated {s : Stmt} (derived : StmtRule bare s ts) :
    Seated bare enclosed [.node (.stmt s) s.parts] ts := by
  refine (NodeRule.stmt derived).seat rfl ?_
  cases derived <;> rfl

theorem items_seated {stmts : List Stmt} {ts : List Token} (derived : ItemsRule bare stmts ts) :
    Seated bare false (Stmt.trees stmts) ts := by
  cases derived with
  | nil =>
      rw [Stmt.trees]
      exact .nil
  | comment first others =>
      rw [Stmt.trees]
      exact ((NodeRule.comment first).loose rfl).append (items_seated others)
  | stmt _ first others =>
      rw [Stmt.trees]
      exact (stmt_seated first).append (items_seated others)

theorem close_visible (found : CloseRule ts) : Visible ts := by
  obtain ⟨t, ⟨gap, rfl, _⟩, closes⟩ := found
  exact ⟨t, by simp, by simp [Token.isTrivia, closes, Lexeme.isTrivia, Separator.isSpace]⟩

theorem block_seated {b : Traced (List Stmt)} (derived : BlockRule bare b ts) :
    Seated bare enclosed (Stmt.trees b.content) ts := by
  cases derived with
  | intro opened items closed =>
      exact (items_seated items).between (terminal_visible opened) (close_visible closed)

theorem body_seated {b : Traced (List Stmt)} (derived : BlockRule bare b ts) :
    Seated bare enclosed
      [.node (.stmt (.block b.content b.tokens)) (Stmt.trees b.content)] ts :=
  (NodeRule.stmt (.block derived)).seat rfl rfl

theorem stmt_parts_seated {s : Stmt} (derived : StmtRule bare s ts) :
    Seated bare enclosed s.parts ts := by
  cases derived with
  | block b =>
      rw [Stmt.parts]
      exact block_seated b
  | var d =>
      rw [Stmt.parts]
      exact var_seated d
  | assign target _ value =>
      rw [Stmt.parts]
      exact (target_seated target).append ((arithmetic_seated value.1).behind _)
  | step target _ =>
      rw [Stmt.parts]
      cases target with
      | pre _ name => exact ((target_seated name).behind _).before _
      | post name _ => exact ((target_seated name).before _).before _
  | call _ args _ =>
      rw [Stmt.parts]
      exact ((logical_seated args).before _).behind _
  | whileLoop _ test body =>
      rw [Stmt.parts]
      exact ((logical_seated test).append (stmt_seated body)).behind _
  | forLoop _ _ init test post body =>
      rw [Stmt.parts]
      exact (((arithmetic_seated init).append ((arithmetic_seated test).append
        ((arithmetic_seated post).append (stmt_seated body)))).behind _).behind _
  | doLoop _ body _ test _ =>
      rw [Stmt.parts]
      exact ((stmt_seated body).append (((logical_seated test).before _).behind _)).behind _
  | ifThen _ test body =>
      rw [Stmt.parts]
      exact ((logical_seated test).append (stmt_seated body)).behind _
  | ifElse _ test body word other =>
      rw [Stmt.parts]
      exact ((logical_seated test).append ((stmt_seated body).append
        ((NodeRule.otherwise word other).seat rfl rfl))).behind _
  | leave _ result =>
      rw [Stmt.parts]
      cases result with
      | absent => exact .nil
      | present value => exact (arithmetic_seated value).behind _
  | switch _ tag body =>
      rw [Stmt.parts]
      exact ((logical_seated tag).append (body_seated body)).behind _
  | label value _ =>
      rw [Stmt.parts]
      cases value with
      | default => exact .nil
      | case _ value => exact ((value_seated value).behind _).before _
  | breakOut _ _ =>
      rw [Stmt.parts]
      exact .nil
  | continueOn _ _ =>
      rw [Stmt.parts]
      exact .nil

theorem traced_seated {α : Type} {rule : α → List Token → Prop} (tree : Traced α → Rose Node)
    (each : ∀ x ts, TracedRule rule x ts → Seated bare enclosed [tree x] ts)
    {xs : List (Traced α)} (derived : ListRule (TracedRule rule) xs ts) :
    Seated bare enclosed (xs.map tree) ts := by
  induction derived with
  | nil => exact .nil
  | cons first _ ih => exact (each _ _ first).append ih

theorem param_seated {p : Traced Param} (derived : TracedRule ParamRule p ts) :
    Seated bare enclosed [p.paramTree] ts := (NodeRule.param derived).seat rfl rfl

theorem param_parts_seated {p : Traced Param} (derived : TracedRule ParamRule p ts) :
    Seated bare enclosed (Node.param p).parts ts := by
  obtain ⟨⟨type, name, given⟩, tokens⟩ := p
  cases derived.1 with
  | intro type _ given =>
      refine (type_seated type).append (Seated.behind ?_ _)
      cases given with
      | absent => exact .nil
      | present _ value => exact (value_seated value).behind _

theorem signature_seated {sig : Signature} (derived : SignatureRule sig ts) :
    Seated bare enclosed sig.parts ts := by
  cases derived with
  | intro result _ _ params =>
      refine (type_seated result).append (Seated.behind (Seated.behind ?_ _) _)
      cases params with
      | empty => exact .nil
      | some first others _ =>
          refine (param_seated first).append (Seated.before ?_ _)
          induction others with
          | nil => exact .nil
          | cons next _ ih =>
              cases next with
              | intro _ param => exact ((param_seated param).behind _).append ih

theorem decl_parts_seated {d : Decl} (derived : DeclRule bare d ts) :
    Seated bare enclosed d.parts ts := by
  cases derived with
  | directive => exact .nil
  | comment => exact .nil
  | prototype _ sig _ => exact (signature_seated sig).before _
  | function _ sig body => exact (signature_seated sig).append (body_seated body)
  | var _ d => exact var_seated d
  | struct _ d =>
      cases d with
      | intro _ _ _ fields _ _ =>
          have inside : Seated bare enclosed _ _ := traced_seated Traced.fieldTree
            (fun _ _ field => (NodeRule.field field).seat rfl rfl) fields
          exact ((((inside.before _).before _).behind _).behind _).behind _

theorem NodeRule.parts_seated {n : Node} (derived : NodeRule bare n ts) :
    Seated bare (!n.isUnit) n.parts ts := by
  cases derived with
  | unit u =>
      cases u with
      | intro decls _ =>
          have inside : Seated bare false _ _ := traced_seated Traced.declTree
            (fun _ _ decl => (NodeRule.decl decl).loose rfl) decls
          exact inside.before _
  | decl d => exact decl_parts_seated d.1
  | field d => exact var_seated d.1.1
  | param p => exact param_parts_seated p
  | type t => exact .nil
  | value v => exact .nil
  | arithmetic e => exact .nil
  | logical e => exact .nil
  | comment c =>
      rw [Node.parts, Stmt.parts]
      exact .nil
  | stmt s => exact stmt_parts_seated s
  | otherwise _ s => exact (stmt_seated s).behind _

end parts

section runs

variable {bare : Bool} {toks : List Token}

def Derived (bare : Bool) (toks : List Token) (n : Node) : Prop :=
  ∃ front ts back, toks = front ++ (ts ++ back) ∧ NodeRule bare n ts

theorem Derived.below {n : Node} (derived : Derived bare toks n) :
    ∀ child ∈ n.parts, Derived bare toks child.value := by
  intro child present
  obtain ⟨front, ts, back, rfl, rule⟩ := derived
  obtain ⟨_, left, us, right, rfl, inner, _⟩ := rule.parts_seated child present
  exact ⟨front ++ left, us, right ++ back, by simp, inner⟩

theorem Within.laid {trees : List (Rose Node)} {ts : List Token} (inside : Within trees ts) :
    ∀ tree ∈ trees, Laid tree := by
  induction trees generalizing ts with
  | nil => simp
  | cons tree trees ih =>
      cases inside with
      | cons _ laid later => exact List.forall_mem_cons.mpr ⟨laid, ih later⟩

theorem unit_derived {u : ScriptUnit} (derived : UnitRule bare u toks) :
    Derived bare toks (.unit u) := ⟨[], toks, [], by simp, .unit derived⟩

theorem unit_throughout {u : ScriptUnit} {holds : Node → List (Rose Node) → Prop}
    (derived : UnitRule bare u toks)
    (here : ∀ n, Derived bare toks n → Within n.parts n.tokens → holds n n.parts) :
    u.tree.Throughout holds := by
  refine Node.throughout (fun n => Derived bare toks n ∧ Within n.parts n.tokens)
    (fun n known => here n known.1 known.2) ?_ (.unit u) ⟨unit_derived derived, ?_⟩
  · intro n known child present
    refine ⟨known.1.below child present, ?_⟩
    have laid := known.2.laid child present
    rw [Node.eq_tree_of_mem present] at laid
    cases laid with
    | node _ inside => exact inside
  · cases unit_laid derived with
    | node _ inside => exact inside

end runs

end Grammar
end NwscriptBindings
