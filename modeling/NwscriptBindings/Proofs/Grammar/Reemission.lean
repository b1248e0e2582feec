import NwscriptBindings.Proofs.Grammar.Recognition
import NwscriptBindings.Proofs.Grammar.Spelling
import NwscriptBindings.Tree.Node

namespace NwscriptBindings

namespace Expr

theorem write_gap (before other : Bool) (ts : List Token) :
    write false before ts = write false other ts := by
  cases ts <;> simp [write]

theorem write_trivia_front {gap : List Token} (skipped : ∀ g ∈ gap, g.isTrivia = true)
    (before : Bool) (ts : List Token) : write false before (gap ++ ts) = write false false ts := by
  induction gap generalizing before with
  | nil => exact write_gap before false ts
  | cons g gap ih =>
      obtain ⟨trivia, others⟩ := List.forall_mem_cons.mp skipped
      simp [write, trivia, ih others]

theorem write_trivia_back {gap : List Token} (skipped : ∀ g ∈ gap, g.isTrivia = true)
    (afterOperator before : Bool) (ts : List Token) :
    write afterOperator before (ts ++ gap) = write afterOperator before ts := by
  induction ts generalizing afterOperator before with
  | nil =>
      induction gap generalizing before with
      | nil => rfl
      | cons g gap ih =>
          obtain ⟨trivia, others⟩ := List.forall_mem_cons.mp skipped
          simpa [write, trivia] using ih others true
  | cons t ts ih => simp [write, ih]

theorem textOf_within (front ts back : List Token)
    (skippedFront : ∀ g ∈ front, g.isTrivia = true) (skippedBack : ∀ g ∈ back, g.isTrivia = true) :
    textOf (front ++ (ts ++ back)) = textOf ts := by
  rw [textOf, write_trivia_front skippedFront, write_trivia_back skippedBack, textOf]

end Expr

theorem trimTrivia_parts (range : List Token) : ∃ front back,
    range = front ++ (trimTrivia range ++ back) ∧ (∀ g ∈ front, g.isTrivia = true) ∧
      ∀ g ∈ back, g.isTrivia = true := by
  refine ⟨range.takeWhile Token.isTrivia,
    ((range.dropWhile Token.isTrivia).reverse.takeWhile Token.isTrivia).reverse, ?_, ?_, ?_⟩
  · rw [trimTrivia, ← List.reverse_append, List.takeWhile_append_dropWhile, List.reverse_reverse,
      List.takeWhile_append_dropWhile]
  · exact fun g present => List.all_eq_true.mp List.all_takeWhile g present
  · intro g present
    exact List.all_eq_true.mp List.all_takeWhile g (List.mem_reverse.mp present)

theorem trimTrivia_first (range : List Token) :
    ∀ t ∈ (trimTrivia range).head?, t.isTrivia = false := by
  intro t first
  have front : trimTrivia range <+: range.dropWhile Token.isTrivia := by
    rw [trimTrivia, ← List.reverse_suffix, List.reverse_reverse]
    exact List.dropWhile_suffix _
  obtain ⟨more, whole⟩ := front
  have kept := List.head?_dropWhile_not Token.isTrivia range
  rw [← whole, List.head?_append, Option.mem_def.mp first] at kept
  exact kept

theorem trimTrivia_last (range : List Token) :
    ∀ t ∈ (trimTrivia range).getLast?, t.isTrivia = false := by
  intro t last
  have kept := List.head?_dropWhile_not Token.isTrivia (range.dropWhile Token.isTrivia).reverse
  rw [trimTrivia, List.getLast?_reverse] at last
  rw [Option.mem_def.mp last] at kept
  exact kept

namespace Grammar

open NwscriptBindings.Parser (trivia_of_space)

-- Where an expression stands in what was read. Something follows it: the separator at its end.
structure Located (e : Traced Expr) (ts : List Token) : Prop where
  text : e.content.text = Expr.textOf e.tokens
  place : ∃ before after, ts = before ++ (e.tokens ++ after) ∧ after ≠ []

theorem Located.before {e : Traced Expr} {ts : List Token} (found : Located e ts)
    (more : List Token) : Located e (ts ++ more) := by
  obtain ⟨text, before, after, rfl, ends⟩ := found
  exact ⟨text, before, after ++ more, by simp, by simp [ends]⟩

theorem Located.behind {e : Traced Expr} {ts : List Token} (found : Located e ts)
    (front : List Token) : Located e (front ++ ts) := by
  obtain ⟨text, before, after, rfl, ends⟩ := found
  exact ⟨text, front ++ before, after, by simp, ends⟩

theorem arithmetic_located {stop : Separator} {e : Traced Expr} {ts : List Token}
    (derived : ArithmeticRule stop e ts) : Located e ts := by
  obtain ⟨range, t, rfl, _, rfl⟩ := derived
  obtain ⟨front, back, parts, skippedFront, skippedBack⟩ := trimTrivia_parts range
  refine ⟨?_, front, back ++ [t], ?_, by simp⟩
  · have same := Expr.textOf_within front (trimTrivia range) back skippedFront skippedBack
    rwa [← parts] at same
  · rw [← List.append_assoc, ← List.append_assoc, List.append_assoc front, ← parts]

theorem logical_located {e : Traced Expr} {ts : List Token} (derived : LogicalRule e ts) :
    Located e ts := by
  obtain ⟨os, range, t, rfl, _, _, rfl⟩ := derived
  have blank : ∀ g ∈ range.takeWhile Token.isSpace, g.isTrivia = true := fun g present =>
    trivia_of_space (List.all_eq_true.mp List.all_takeWhile g present)
  have parts : range = range.takeWhile Token.isSpace ++ (range.dropWhile Token.isSpace ++ []) := by
    rw [List.append_nil, List.takeWhile_append_dropWhile]
  refine ⟨?_, os ++ range.takeWhile Token.isSpace, [t], ?_, by simp⟩
  · have same := Expr.textOf_within _ (range.dropWhile Token.isSpace) [] blank (by simp)
    rwa [← parts] at same
  · rw [List.append_assoc, ← List.append_assoc (range.takeWhile _), List.takeWhile_append_dropWhile]

section trees

variable {bare : Bool} {ts us : List Token}

def Covers (ts : List Token) (tree : Rose Node) : Prop :=
  ∀ e, Node.expr e ∈ tree.preorder → Located e ts

theorem Covers.before {tree : Rose Node} (covered : Covers ts tree) (more : List Token) :
    Covers (ts ++ more) tree := fun e present => (covered e present).before more

theorem Covers.behind {tree : Rose Node} (covered : Covers ts tree) (front : List Token) :
    Covers (front ++ ts) tree := fun e present => (covered e present).behind front

theorem mem_visitsAll {α : Type} {a : α} {enter : α → Bool} {trees : List (Rose α)} :
    a ∈ Rose.visitsAll enter trees ↔ ∃ tree ∈ trees, a ∈ tree.visits enter := by
  induction trees with
  | nil => simp [Rose.visitsAll]
  | cons tree trees ih => simp [Rose.visitsAll, ih]

theorem mem_preorder_node {α : Type} {a b : α} {trees : List (Rose α)} :
    a ∈ (Rose.node b trees).preorder ↔ a = b ∨ ∃ tree ∈ trees, a ∈ tree.preorder := by
  rw [Rose.preorder, Rose.visits, if_pos rfl, List.mem_cons, mem_visitsAll]
  rfl

theorem covers_node {n : Node} {trees : List (Rose Node)} (other : ∀ e, n ≠ .expr e)
    (covered : ∀ tree ∈ trees, Covers ts tree) : Covers ts (.node n trees) := by
  intro e present
  rcases mem_preorder_node.mp present with same | ⟨tree, among, present⟩
  · exact (other e same.symm).elim
  · exact covered tree among e present

theorem covers_expr {e : Traced Expr} (found : Located e ts) : Covers ts e.exprTree := by
  intro other present
  have same : Node.expr other = Node.expr e := by
    simpa [Traced.exprTree, Rose.leaf, Rose.preorder, Rose.visits, Rose.visitsAll] using present
  cases same
  exact found

theorem covers_type (type : Traced ScriptType) : Covers ts type.typeTree :=
  covers_node (by simp) (by simp)

theorem covers_value (value : Traced Value) : Covers ts value.valueTree :=
  covers_node (by simp) (by simp)

theorem covers_values (value : Option (Traced Value)) :
    ∀ tree ∈ (value.map Traced.valueTree).toList, Covers ts tree := by
  cases value with
  | none => simp
  | some value => simpa using covers_value value

theorem covers_stmt {s : Stmt} (covered : ∀ tree ∈ s.parts, Covers ts tree) :
    Covers ts (.node (.stmt s) s.parts) := covers_node (by simp) covered

theorem var_covered {d : VarDecl} (derived : VarRule bare d ts) :
    ∀ tree ∈ d.parts, Covers ts tree := by
  cases derived with
  | plain => simpa [VarDecl.parts] using covers_type _
  | initialized _ _ _ _ value =>
      have found := arithmetic_located value.1
      simp only [VarDecl.parts, Option.map_some, Option.toList_some, List.forall_mem_cons]
      exact ⟨covers_type _, covers_expr ((((found.behind _).behind _).behind _).behind _), by simp⟩

theorem result_covered {result : Option (Traced Expr)} (derived : ResultRule result ts) :
    ∀ tree ∈ (result.map Traced.exprTree).toList, Covers ts tree := by
  cases derived with
  | absent => simp
  | present value => simpa using covers_expr (arithmetic_located value)

end trees

section statements

variable {bare : Bool}

mutual

theorem block_covered {b : Traced (List Stmt)} {ts : List Token} :
    BlockRule bare b ts → ∀ tree ∈ Stmt.trees b.content, Covers ts tree
  | .intro _ items _ => fun tree among => ((items_covered items tree among).before _).behind _

theorem items_covered {stmts : List Stmt} {ts : List Token} :
    ItemsRule bare stmts ts → ∀ tree ∈ Stmt.trees stmts, Covers ts tree
  | .nil => by simp [Stmt.trees]
  | .comment _ others => by
      rw [Stmt.trees, List.forall_mem_cons]
      exact ⟨covers_stmt (by simp [Stmt.parts]),
        fun tree among => (items_covered others tree among).behind _⟩
  | .stmt _ first others => by
      rw [Stmt.trees, List.forall_mem_cons]
      exact ⟨(covers_stmt (stmt_covered first)).before _,
        fun tree among => (items_covered others tree among).behind _⟩

theorem stmt_covered {s : Stmt} {ts : List Token} :
    StmtRule bare s ts → ∀ tree ∈ s.parts, Covers ts tree
  | .block b => by
      rw [Stmt.parts]
      exact block_covered b
  | .var d => by
      rw [Stmt.parts]
      exact var_covered d
  | .assign _ _ value => by
      simp only [Stmt.parts, List.forall_mem_cons]
      exact ⟨covers_value _, covers_expr (((arithmetic_located value.1).behind _).behind _),
        by simp⟩
  | .step _ _ => by
      simp only [Stmt.parts, List.forall_mem_cons]
      exact ⟨covers_value _, by simp⟩
  | .call _ args _ => by
      simp only [Stmt.parts, List.forall_mem_cons]
      exact ⟨covers_expr (((logical_located args).before _).behind _), by simp⟩
  | .whileLoop _ test body => by
      simp only [Stmt.parts, List.forall_mem_cons]
      exact ⟨covers_expr (((logical_located test).before _).behind _),
        ((covers_stmt (stmt_covered body)).behind _).behind _, by simp⟩
  | .forLoop _ _ init test post body => by
      simp only [Stmt.parts, List.forall_mem_cons]
      exact ⟨covers_expr ((((arithmetic_located init).before _).behind _).behind _),
        covers_expr (((((arithmetic_located test).before _).behind _).behind _).behind _),
        covers_expr ((((((arithmetic_located post).before _).behind _).behind _).behind _).behind _),
        (((((covers_stmt (stmt_covered body)).behind _).behind _).behind _).behind _).behind _,
        by simp⟩
  | .doLoop _ body _ test _ => by
      simp only [Stmt.parts, List.forall_mem_cons]
      exact ⟨((covers_stmt (stmt_covered body)).before _).behind _,
        covers_expr (((((logical_located test).before _).behind _).behind _).behind _), by simp⟩
  | .ifThen _ test body => by
      simp only [Stmt.parts, List.forall_mem_cons]
      exact ⟨covers_expr (((logical_located test).before _).behind _),
        ((covers_stmt (stmt_covered body)).behind _).behind _, by simp⟩
  | .ifElse _ test body _ other => by
      simp only [Stmt.parts, List.forall_mem_cons]
      refine ⟨covers_expr (((logical_located test).before _).behind _),
        (((covers_stmt (stmt_covered body)).before _).behind _).behind _,
        covers_node (by simp) ?_, by simp⟩
      simpa using ((((covers_stmt (stmt_covered other)).behind _).behind _).behind _).behind _
  | .leave _ result => by
      rw [Stmt.parts]
      exact fun tree among => (result_covered result tree among).behind _
  | .switch _ tag body => by
      simp only [Stmt.parts, List.forall_mem_cons]
      exact ⟨covers_expr (((logical_located tag).before _).behind _),
        covers_node (by simp) fun tree among => ((block_covered body tree among).behind _).behind _,
        by simp⟩
  | .label _ _ => by
      rw [Stmt.parts]
      exact covers_values _
  | .breakOut _ _ => by simp [Stmt.parts]
  | .continueOn _ _ => by simp [Stmt.parts]

end

end statements

section units

variable {bare : Bool} {ts : List Token}

theorem signature_covered (sig : Signature) : ∀ tree ∈ sig.parts, Covers ts tree := by
  rw [Signature.parts, List.forall_mem_cons]
  refine ⟨covers_type _, fun tree among => ?_⟩
  obtain ⟨p, _, rfl⟩ := List.mem_map.mp among
  exact covers_node (by simp) (List.forall_mem_cons.mpr ⟨covers_type _, covers_values _⟩)

theorem fields_covered {fields : List (Traced VarDecl)} {fs : List Token}
    (derived : ListRule (TracedRule (FieldRule bare)) fields fs) :
    ∀ tree ∈ fields.map Traced.fieldTree, Covers ts tree := by
  induction derived with
  | nil => simp
  | @cons d _ _ _ field _ ih =>
      obtain ⟨⟨_, plain, _⟩, _⟩ := field
      refine List.forall_mem_cons.mpr ⟨covers_node (by simp) ?_, ih⟩
      simpa [VarDecl.parts, plain] using covers_type _

theorem decl_covered {d : Decl} (derived : DeclRule bare d ts) :
    ∀ tree ∈ d.parts, Covers ts tree := by
  cases derived with
  | directive => simp [Decl.parts]
  | comment => simp [Decl.parts]
  | prototype => exact signature_covered _
  | function _ _ body =>
      rw [Decl.parts, List.forall_mem_append]
      refine ⟨signature_covered _, ?_⟩
      have inside : ∀ tree ∈ Stmt.trees _, Covers _ tree := block_covered body
      simpa using covers_node (by simp) fun tree among => (inside tree among).behind _
  | var _ d => exact var_covered d
  | struct _ d =>
      cases d with
      | intro _ _ _ fields _ _ => exact fields_covered fields

theorem decls_covered {decls : List (Traced Decl)}
    (derived : ListRule (TracedRule (DeclRule bare)) decls ts) :
    ∀ tree ∈ decls.map Traced.declTree, Covers ts tree := by
  induction derived with
  | nil => simp
  | cons first _ ih =>
      refine List.forall_mem_cons.mpr ⟨?_, fun tree among => (ih tree among).behind _⟩
      exact (covers_node (by simp) (decl_covered first.1)).before _

theorem unit_covered {u : ScriptUnit} (derived : UnitRule bare u ts) : Covers ts u.tree := by
  cases derived with
  | intro decls _ =>
      exact covers_node (by simp) fun tree among => (decls_covered decls tree among).before _

end units

end Grammar

namespace ScriptUnit

open Scanner (Run shown)

theorem tokenize_enclosed (inside : List UInt8) : ∃ n : Scanner, n.rest = inside ++ utf8 ")" ∧
    n.context.lineStart = false ∧
      shown (tokenize (utf8 "(" ++ inside ++ utf8 ")")) = utf8 "(" :: shown n.tokens := by
  have start : Scanner.rest { rest := utf8 "(" ++ inside ++ utf8 ")" } =
      byte Separator.openParen.char :: (inside ++ utf8 ")") := rfl
  obtain ⟨n, left, context, same⟩ :=
    Scanner.shown_step start (Scan.lexeme_separator _ _ .openParen)
  exact ⟨n, left, by rw [context]; rfl, same⟩

-- Words and operators are kept apart from what follows them; literals are not, so that is asked of
-- the tokens. A keyword may come back as a word: only the bytes are the same.
theorem parse_expr_reemitted {name text : List UInt8} {lines : List (List UInt8)}
    {u : ScriptUnit} {e : Traced Expr} (parsed : parse name lines (tokenize text) = .ok u)
    (present : Node.expr e ∈ u.tree.preorder) (plain : ∀ t ∈ e.tokens, t.kind ≠ .directive)
    (apart : Expr.Apart e.tokens) :
    ((tokenize (utf8 "(" ++ e.content.text ++ utf8 ")")).filter (!·.isSpace)).map Token.raw =
      utf8 "(" :: (e.tokens.filter (!·.isTrivia)).map Token.raw ++ [utf8 ")"] := by
  obtain ⟨written, before, after, whole, ends⟩ :=
    Grammar.unit_covered (parseWith_sound parsed).2 e present
  obtain ⟨last, path, ended⟩ := Scanner.run_tokens { rest := text }
  rw [← tokenize, whole] at path
  obtain ⟨start, _, path⟩ := Scanner.run_append_iff.mp path
  obtain ⟨stop, path, behind⟩ := Scanner.run_append_iff.mp path
  have more : stop.rest ≠ [] := by
    intro none
    have bound := Scanner.run_bound behind
    rw [none, List.length_nil] at bound
    exact ends (List.length_eq_zero_iff.mp (by omega))
  obtain ⟨n, rest, inLine, enclosed⟩ := tokenize_enclosed e.content.text
  rw [written, Expr.textOf_spell (Scanner.run_endsVisibly path more plain)] at rest
  rw [List.cons_append, ← Scanner.shown_spell path more plain apart inLine _ _ _ rest]
  exact enclosed

-- Operators written apart stay apart, also where only a comment stood between them.
theorem parse_expr_reemitted_apart : ∃ u e,
    parse [] [] (tokenize (utf8 "int f() { return a - -1 / /*c*/ *b; }")) = .ok u ∧
      Node.expr e ∈ u.tree.preorder ∧ e.content.text = utf8 "a - -1/ *b" ∧
      ((tokenize (utf8 "(" ++ e.content.text ++ utf8 ")")).filter (!·.isSpace)).map Token.raw =
        ["(", "a", "-", "-", "1", "/", "*", "b", ")"].map utf8 := by
  let tokens := tokenize (utf8 "int f() { return a - -1 / /*c*/ *b; }")
  let e : Traced Expr := ⟨⟨.arithmetic, utf8 "a - -1/ *b"⟩, (tokens.drop 10).take 13⟩
  have found : (parse [] [] tokens).toOption.any (fun u => u.tree.preorder.any fun
      | .expr other => other == e
      | _ => false) = true := by decide +kernel
  cases outcome : parse [] [] tokens with
  | error err =>
      rw [outcome] at found
      cases found
  | ok u =>
      simp only [outcome, Except.toOption, Option.any_some, List.any_eq_true] at found
      obtain ⟨node, present, same⟩ := found
      cases node with
      | expr other =>
          obtain rfl : other = e := by simpa using same
          refine ⟨u, e, rfl, present, rfl, ?_⟩
          rw [parse_expr_reemitted outcome present (by decide +kernel) (by decide +kernel)]
          decide +kernel
      | _ => cases same

end ScriptUnit

end NwscriptBindings
