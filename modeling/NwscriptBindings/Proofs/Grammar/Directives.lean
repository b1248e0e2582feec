import NwscriptBindings.Proofs.Grammar.Nesting
import NwscriptBindings.Proofs.Grammar.Range

namespace NwscriptBindings

def Token.isDirective (t : Token) : Bool := t.kind == .directive

def directives (ts : List Token) : List Token := ts.filter Token.isDirective

def Decl.isDirective : Decl → Bool
  | .directive _ => true
  | _ => false

def Node.expr? : Node → Option (Traced Expr)
  | .expr e => some e
  | _ => none

namespace Grammar

open NwscriptBindings.Parser (Next Terminal trivia_of_space)

def exprs (trees : List (Rose Node)) : List (Traced Expr) :=
  (Rose.visitsAll (fun _ => true) trees).filterMap Node.expr?

def Free (ts : List Token) : Prop := directives ts = []

-- The directives among the tokens are those in expressions of the trees, each where it stood.
def Absorbs (trees : List (Rose Node)) (ts : List Token) : Prop :=
  directives ts = (exprs trees).flatMap fun e => directives e.tokens

section sequences

variable {ts us : List Token} {trees others : List (Rose Node)}

theorem directives_append (ts us : List Token) :
    directives (ts ++ us) = directives ts ++ directives us := List.filter_append ..

theorem exprs_append (trees others : List (Rose Node)) :
    exprs (trees ++ others) = exprs trees ++ exprs others := by
  induction trees with
  | nil => rfl
  | cons tree trees ih =>
      simp only [exprs, List.cons_append, Rose.visitsAll, List.filterMap_append] at ih ⊢
      rw [ih, List.append_assoc]

theorem exprs_node {n : Node} (other : n.expr? = none) (trees : List (Rose Node)) :
    exprs [.node n trees] = exprs trees := by
  simp [exprs, Rose.visitsAll, Rose.visits, other]

theorem exprs_expr (e : Traced Expr) : exprs [e.exprTree] = [e] := by
  simp [exprs, Traced.exprTree, Rose.leaf, Rose.visitsAll, Rose.visits, Node.expr?]

theorem expr?_iff {n : Node} {e : Traced Expr} : n.expr? = some e ↔ n = .expr e := by
  cases n <;> simp [Node.expr?]

theorem mem_exprs {e : Traced Expr} :
    e ∈ exprs trees ↔ Node.expr e ∈ Rose.visitsAll (fun _ => true) trees := by
  simp [exprs, List.mem_filterMap, expr?_iff]

theorem Free.append (first : Free ts) (second : Free us) : Free (ts ++ us) := by
  rw [Free, directives_append, first, second]
  rfl

theorem free_trivia (skipped : ∀ t ∈ ts, t.isTrivia = true) : Free ts := by
  refine List.filter_eq_nil_iff.mpr fun t present => ?_
  have trivia := skipped t present
  rw [Token.isTrivia] at trivia
  rw [Token.isDirective, Token.kind]
  cases shown : t.lexeme with
  | directive text => simp [shown, Lexeme.isTrivia] at trivia
  | _ => simp [Lexeme.kind]

theorem free_token {t : Token} {l : Lexeme} (same : t.lexeme = l)
    (other : (l.kind == .directive) = false) : Free [t] := by
  have kept : t.isDirective = false := by rw [Token.isDirective, Token.kind, same, other]
  exact List.filter_cons_of_neg (by simp [kept])

theorem free_space (blank : ∀ t ∈ ts, t.isSpace = true) : Free ts :=
  free_trivia fun t present => trivia_of_space (blank t present)

theorem directives_own (ts : List Token) : directives (ownTokens ts) = directives ts := by
  obtain ⟨gap, whole, blank⟩ := own_parts ts
  have kept := congrArg directives whole
  rw [directives_append, free_space blank, List.nil_append] at kept
  exact kept.symm

theorem Absorbs.append (first : Absorbs trees ts) (second : Absorbs others us) :
    Absorbs (trees ++ others) (ts ++ us) := by
  rw [Absorbs, directives_append, exprs_append, List.flatMap_append, first, second]

theorem Free.absorbs (free : Free ts) : Absorbs [] ts := free

theorem Absorbs.behind (inside : Absorbs trees us) (free : Free ts) : Absorbs trees (ts ++ us) :=
  free.absorbs.append inside

theorem Absorbs.before (inside : Absorbs trees ts) (free : Free us) : Absorbs trees (ts ++ us) := by
  have both := inside.append free.absorbs
  rwa [List.append_nil] at both

theorem Absorbs.node (inside : Absorbs trees ts) {n : Node} (other : n.expr? = none) :
    Absorbs [.node n trees] ts := by
  rw [Absorbs, exprs_node other]
  exact inside

end sequences

section terminals

variable {ts : List Token}

theorem terminal_free {l : Lexeme} (found : Terminal l ts)
    (other : (l.kind == .directive) = false) : Free ts := by
  obtain ⟨t, ⟨gap, rfl, skipped, _⟩, same⟩ := found
  exact (free_trivia skipped).append (free_token same other)

theorem visible_free {t : Token} {l : Lexeme} (next : Next Token.isSpace t ts)
    (same : t.lexeme = l) (other : (l.kind == .directive) = false) : Free ts := by
  obtain ⟨gap, rfl, blank, _⟩ := next
  exact (free_space blank).append (free_token same other)

theorem comment_free {c : Comment} (noted : CommentRule c ts) : Free ts := by
  obtain ⟨t, next, same⟩ := noted
  exact visible_free next same rfl

theorem close_free (closed : CloseRule ts) : Free ts := by
  obtain ⟨t, next, same⟩ := closed
  exact visible_free next same rfl

theorem name_free {name : List UInt8} (derived : NameRule name ts) : Free ts :=
  terminal_free derived rfl

theorem type_free {type : ScriptType} (derived : TypeRule type ts) : Free ts := by
  cases derived with
  | basic mark => exact terminal_free mark rfl
  | struct mark name => exact (terminal_free mark rfl).append (name_free name)

theorem number_free {l : Literal} (derived : NumberRule l ts) : Free ts := by
  cases derived with
  | plain digits _ => exact terminal_free digits rfl
  | negative sign digits _ => exact (terminal_free sign rfl).append (terminal_free digits rfl)

theorem coordinate_free {x : Binary32} (derived : CoordinateRule x ts) : Free ts := by
  cases derived with
  | int number => exact number_free number
  | float number => exact number_free number

theorem literal_free {l : Literal} (derived : LiteralRule l ts) : Free ts := by
  cases derived with
  | objectSelf mark => exact terminal_free mark rfl
  | objectInvalid mark => exact terminal_free mark rfl
  | zeroVector opened closed => exact (terminal_free opened rfl).append (terminal_free closed rfl)
  | vector opened x first y second z closed =>
      exact (terminal_free opened rfl).append ((coordinate_free x).append
        ((terminal_free first rfl).append ((coordinate_free y).append
          ((terminal_free second rfl).append ((coordinate_free z).append
            (terminal_free closed rfl))))))
  | string body => exact terminal_free body rfl
  | number digits => exact number_free digits

theorem value_free {v : Value} (derived : ValueRule v ts) : Free ts := by
  cases derived with
  | literal l => exact literal_free l
  | reference name => exact name_free name

theorem const_free {isConst : Bool} (derived : ConstRule isConst ts) : Free ts := by
  cases derived with
  | absent => rfl
  | present mark => exact terminal_free mark rfl

theorem assignOp_free {op : AssignOp} {behind : List Token} (derived : AssignOpRule op ts behind) :
    Free ts := by
  cases derived with
  | set mark => exact terminal_free mark.1 rfl
  | compound mark _ equals => exact (terminal_free mark rfl).append (free_token equals rfl)

theorem doubled_free {up : Bool} (derived : DoubledRule up ts) : Free ts := by
  cases derived with
  | up mark again => exact (terminal_free mark rfl).append (free_token again rfl)
  | down mark again => exact (terminal_free mark rfl).append (free_token again rfl)

theorem step_free {target : Traced (List UInt8)} {op : StepOp} (derived : StepRule target op ts) :
    Free ts := by
  cases derived with
  | pre mark name => exact (doubled_free mark).append (name_free name.1)
  | post name mark => exact (name_free name.1).append (doubled_free mark)

theorem label_free {value : Option (Traced Value)} (derived : LabelRule value ts) : Free ts := by
  cases derived with
  | default mark => exact terminal_free mark rfl
  | case mark value => exact (terminal_free mark rfl).append (value_free value.1)

end terminals

section values

variable {bare : Bool} {ts : List Token}

theorem free_leaf {n : Node} (free : Free ts) (other : n.expr? = none) : Absorbs [.leaf n] ts :=
  free.absorbs.node other

-- Nothing but trivia is trimmed off an expression, and its end is a separator.
theorem arithmetic_absorbs {stop : Separator} {e : Traced Expr}
    (derived : ArithmeticRule stop e ts) : Absorbs [e.exprTree] ts := by
  obtain ⟨range, t, rfl, found, rfl⟩ := derived
  obtain ⟨last, rest, parts, ends, _⟩ := rangeUpTo_split found
  obtain ⟨rfl, _⟩ := List.cons.inj (List.append_cancel_left parts)
  obtain ⟨front, back, whole, skippedFront, skippedBack⟩ := trimTrivia_parts range
  have alone : Absorbs [Traced.exprTree ⟨⟨.arithmetic, Expr.textOf range⟩, trimTrivia range⟩]
      (front ++ (trimTrivia range ++ back)) := by
    refine Absorbs.behind (Absorbs.before ?_ (free_trivia skippedBack)) (free_trivia skippedFront)
    rw [Absorbs, exprs_expr, List.flatMap_singleton]
  rw [← whole] at alone
  exact alone.before (free_token ends rfl)

theorem logical_absorbs {e : Traced Expr} (derived : LogicalRule e ts) :
    Absorbs [e.exprTree] ts := by
  obtain ⟨os, range, t, rfl, opened, found, rfl⟩ := derived
  obtain ⟨last, rest, parts, ends, _⟩ := rangeEnclosed_split found
  obtain ⟨rfl, _⟩ := List.cons.inj (List.append_cancel_left parts)
  have alone : Absorbs [Traced.exprTree ⟨⟨.logical, Expr.textOf range⟩, ownTokens range⟩]
      range := by
    rw [Absorbs, exprs_expr, List.flatMap_singleton, directives_own]
  exact (alone.before (free_token ends rfl)).behind (terminal_free opened rfl)

theorem type_absorbs {type : Traced ScriptType} (derived : TracedRule TypeRule type ts) :
    Absorbs [type.typeTree] ts := free_leaf (type_free derived.1) rfl

theorem target_absorbs {target : Traced (List UInt8)} (derived : TracedRule NameRule target ts) :
    Absorbs [target.asValue.valueTree] ts := free_leaf (name_free derived.1) rfl

theorem var_absorbs {d : VarDecl} (derived : VarRule bare d ts) : Absorbs d.parts ts := by
  cases derived with
  | plain mark type name ends _ =>
      exact ((type_absorbs type).before
        ((name_free name).append (terminal_free ends rfl))).behind (const_free mark)
  | initialized mark type name equals value =>
      exact ((type_absorbs type).append
        (((arithmetic_absorbs value.1).behind (terminal_free equals.1 rfl)).behind
          (name_free name))).behind (const_free mark)

theorem result_absorbs {result : Option (Traced Expr)} (derived : ResultRule result ts) :
    Absorbs (result.map Traced.exprTree).toList ts := by
  cases derived with
  | absent ends => exact (terminal_free ends rfl).absorbs
  | present value => exact arithmetic_absorbs value

theorem label_absorbs {value : Option (Traced Value)} (derived : LabelRule value ts) :
    Absorbs (value.map Traced.valueTree).toList ts := by
  cases value with
  | none => exact (label_free derived).absorbs
  | some value => exact free_leaf (label_free derived) rfl

end values

section statements

variable {bare : Bool}

mutual

theorem block_absorbs {b : Traced (List Stmt)} {ts : List Token} :
    BlockRule bare b ts → Absorbs (Stmt.trees b.content) ts
  | .intro opened items closed =>
      ((items_absorbs items).before (close_free closed)).behind (terminal_free opened rfl)

theorem items_absorbs {stmts : List Stmt} {ts : List Token} :
    ItemsRule bare stmts ts → Absorbs (Stmt.trees stmts) ts
  | .nil => by
      rw [Stmt.trees]
      rfl
  | .comment noted others => by
      rw [Stmt.trees, Stmt.parts]
      exact ((comment_free noted).absorbs.node rfl).append (items_absorbs others)
  | .stmt _ first others => by
      rw [Stmt.trees]
      exact ((stmt_absorbs first).node rfl).append (items_absorbs others)

theorem stmt_absorbs {s : Stmt} {ts : List Token} : StmtRule bare s ts → Absorbs s.parts ts
  | .block b => by
      rw [Stmt.parts]
      exact block_absorbs b
  | .var d => by
      rw [Stmt.parts]
      exact var_absorbs d
  | .assign target op value => by
      rw [Stmt.parts]
      exact (target_absorbs target).append ((arithmetic_absorbs value.1).behind (assignOp_free op))
  | .step target ends => by
      rw [Stmt.parts]
      exact free_leaf ((step_free target).append (terminal_free ends rfl)) rfl
  | .call name args ends => by
      rw [Stmt.parts]
      exact ((logical_absorbs args).before (terminal_free ends rfl)).behind (name_free name)
  | .whileLoop mark test body => by
      rw [Stmt.parts]
      exact ((logical_absorbs test).append ((stmt_absorbs body).node rfl)).behind
        (terminal_free mark rfl)
  | .forLoop mark opened init test post body => by
      rw [Stmt.parts]
      exact (((arithmetic_absorbs init).append ((arithmetic_absorbs test).append
        ((arithmetic_absorbs post).append ((stmt_absorbs body).node rfl)))).behind
          (terminal_free opened rfl)).behind (terminal_free mark rfl)
  | .doLoop mark body again test ends => by
      rw [Stmt.parts]
      exact (((stmt_absorbs body).node rfl).append
        (((logical_absorbs test).before (terminal_free ends rfl)).behind
          (terminal_free again rfl))).behind (terminal_free mark rfl)
  | .ifThen mark test body => by
      rw [Stmt.parts]
      exact ((logical_absorbs test).append ((stmt_absorbs body).node rfl)).behind
        (terminal_free mark rfl)
  | .ifElse mark test body again other => by
      rw [Stmt.parts]
      exact ((logical_absorbs test).append (((stmt_absorbs body).node rfl).append
        ((((stmt_absorbs other).node rfl).behind (terminal_free again rfl)).node rfl))).behind
          (terminal_free mark rfl)
  | .leave mark result => by
      rw [Stmt.parts]
      exact (result_absorbs result).behind (terminal_free mark rfl)
  | .switch mark tag body => by
      rw [Stmt.parts]
      exact ((logical_absorbs tag).append ((block_absorbs body).node rfl)).behind
        (terminal_free mark rfl)
  | .label value ends => by
      rw [Stmt.parts]
      exact (label_absorbs value).before (terminal_free ends rfl)
  | .breakOut mark ends => by
      rw [Stmt.parts]
      exact ((terminal_free mark rfl).append (terminal_free ends rfl)).absorbs
  | .continueOn mark ends => by
      rw [Stmt.parts]
      exact ((terminal_free mark rfl).append (terminal_free ends rfl)).absorbs

end

end statements

section units

variable {bare : Bool} {ts : List Token}

theorem traced_absorbs {α : Type} {rule : α → List Token → Prop} (tree : Traced α → Rose Node)
    (each : ∀ x ts, rule x.content ts → Absorbs [tree x] ts) {xs : List (Traced α)}
    (derived : ListRule (TracedRule rule) xs ts) : Absorbs (xs.map tree) ts := by
  induction derived with
  | nil => rfl
  | cons first _ ih => exact (each _ _ first.1).append ih

theorem param_absorbs {p : Traced Param} (derived : TracedRule ParamRule p ts) :
    Absorbs [p.paramTree] ts := by
  obtain ⟨⟨⟨type, name, given⟩, tokens⟩, rfl⟩ : ∃ q, q = p := ⟨p, rfl⟩
  cases derived.1 with
  | intro type name given =>
      refine Absorbs.node ((type_absorbs type).append (Absorbs.behind ?_ (name_free name))) rfl
      cases given with
      | absent => rfl
      | present mark value =>
          exact free_leaf ((terminal_free mark rfl).append (value_free value.1)) rfl

theorem following_absorbs {others : List (Traced Param)}
    (derived : ListRule FollowingRule others ts) : Absorbs (others.map Traced.paramTree) ts := by
  induction derived with
  | nil => rfl
  | cons first _ ih =>
      cases first with
      | intro mark param => exact ((param_absorbs param).behind (terminal_free mark rfl)).append ih

theorem signature_absorbs {sig : Signature} (derived : SignatureRule sig ts) :
    Absorbs sig.parts ts := by
  cases derived with
  | intro result name opened params =>
      refine (type_absorbs result).append
        (Absorbs.behind (Absorbs.behind ?_ (terminal_free opened rfl)) (name_free name))
      cases params with
      | empty closed => exact (terminal_free closed rfl).absorbs
      | some first others closed =>
          exact (param_absorbs first).append
            ((following_absorbs others).before (terminal_free closed rfl))

theorem struct_absorbs {d : StructDecl} (derived : StructRule bare d ts) :
    Absorbs (d.fields.map Traced.fieldTree) ts := by
  cases derived with
  | intro mark name opened fields closed ends =>
      have inside := traced_absorbs Traced.fieldTree
        (fun _ _ field => (var_absorbs field.1).node rfl) fields
      exact (((((inside.before (terminal_free closed rfl)).before (terminal_free ends rfl)).behind
        (terminal_free opened rfl)).behind (name_free name)).behind (terminal_free mark rfl))

theorem decl_absorbs {d : Decl} (derived : DeclRule bare d ts)
    (other : ∀ text, d ≠ .directive text) : Absorbs d.parts ts := by
  cases derived with
  | directive => exact (other _ rfl).elim
  | comment noted => exact (comment_free noted).absorbs
  | prototype _ sig ends => exact (signature_absorbs sig).before (terminal_free ends rfl)
  | function _ sig body => exact (signature_absorbs sig).append ((block_absorbs body).node rfl)
  | var _ d => exact var_absorbs d
  | struct _ d => exact struct_absorbs d

theorem directive_own {text : List UInt8} (derived : DeclRule bare (.directive text) ts) :
    ∃ t, ownTokens ts = [t] ∧ t.lexeme = .directive text := by
  cases derived with
  | @directive t _ _ next same => exact ⟨t, ownTokens_next next, same⟩

theorem decls_directives {ds : List (Traced Decl)}
    (derived : ListRule (TracedRule (DeclRule bare)) ds ts) :
    directives ts = ds.flatMap fun d => directives d.tokens := by
  induction derived with
  | nil => rfl
  | cons first _ ih => rw [directives_append, ih, List.flatMap_cons, first.2, directives_own]

theorem ListRule.exists_of_mem {α : Type} {rule : α → List Token → Prop} {x : α} {xs : List α}
    (derived : ListRule rule xs ts) (present : x ∈ xs) : ∃ us, rule x us := by
  obtain ⟨_, us, _, _, found⟩ := derived.place_of_mem present
  exact ⟨us, found⟩

end units

end Grammar

namespace ScriptUnit

open Grammar

variable {u : ScriptUnit}

def Heeds (u : ScriptUnit) : Prop :=
  ∀ d ∈ u.decls, (∃ text, d.content = .directive text) ∨ directives d.tokens = []

theorem mem_walk_expr {e : Traced Expr} : Node.expr e ∈ u.walk (fun _ => true) ↔
    ∃ d ∈ u.decls, e ∈ exprs [d.declTree] := by
  have below : ∀ d : Traced Decl,
      e ∈ exprs [d.declTree] ↔ Node.expr e ∈ d.declTree.visits fun _ => true := by
    intro d
    simp [mem_exprs, mem_visitsAll]
  simp only [walk, tree, Rose.visits, if_true, List.mem_cons, reduceCtorEq, false_or, below,
    mem_visitsAll, List.mem_map]
  constructor
  · rintro ⟨_, ⟨d, present, rfl⟩, inside⟩
    exact ⟨d, present, inside⟩
  · rintro ⟨d, present, inside⟩
    exact ⟨_, ⟨d, present, rfl⟩, inside⟩

theorem exprs_directive {d : Traced Decl} {text : List UInt8} (shown : d.content = .directive text) :
    exprs [d.declTree] = [] := by
  rw [Traced.declTree, exprs_node rfl, shown, Decl.parts]
  rfl

-- The directives of a unit are those of its declarations in their order. One that is a directive
-- is a single token; the directives of any other are those of the expressions in it, so that none
-- goes astray exactly if no expression holds one.
theorem parse_directives {name : List UInt8} {lines : List (List UInt8)} {toks : List Token}
    (parsed : parse name lines toks = .ok u) :
    (directives toks = u.decls.flatMap fun d => directives d.tokens) ∧
      (∀ d ∈ u.decls, ∀ text, d.content = .directive text →
        ∃ t, d.tokens = [t] ∧ t.lexeme = .directive text) ∧
      (∀ d ∈ u.decls, (∀ text, d.content ≠ .directive text) →
        directives d.tokens = (exprs [d.declTree]).flatMap fun e => directives e.tokens) ∧
      (u.Heeds ↔ ∀ e, Node.expr e ∈ u.walk (fun _ => true) → directives e.tokens = []) := by
  have derived := (parseWith_sound parsed).2
  cases derived with
  | @intro ds ts es name derived blank =>
      have held : ∀ d ∈ ds, (∀ text, d.content ≠ .directive text) →
          directives d.tokens = (exprs [d.declTree]).flatMap fun e => directives e.tokens := by
        intro d present other
        obtain ⟨us, rule, own⟩ := derived.exists_of_mem present
        rw [own, directives_own]
        exact (decl_absorbs rule other).node rfl
      refine ⟨?_, ?_, held, ?_⟩
      · rw [directives_append, decls_directives derived, free_space blank, List.append_nil]
      · intro d present text shown
        obtain ⟨us, rule, own⟩ := derived.exists_of_mem present
        rw [shown] at rule
        rw [own]
        exact directive_own rule
      · constructor
        · intro heeded e visited
          obtain ⟨d, present, inside⟩ := mem_walk_expr.mp visited
          have other : ∀ text, d.content ≠ .directive text := by
            intro text shown
            rw [exprs_directive shown] at inside
            cases inside
          rcases heeded d present with ⟨text, shown⟩ | none
          · exact (other text shown).elim
          · rw [held d present other] at none
            exact List.flatMap_eq_nil_iff.mp none e inside
        · intro clear d present
          by_cases directive : ∃ text, d.content = .directive text
          · exact .inl directive
          · rw [not_exists] at directive
            refine .inr ?_
            rw [held d present directive]
            refine List.flatMap_eq_nil_iff.mpr fun e inside => ?_
            exact clear e (mem_walk_expr.mpr ⟨d, present, inside⟩)

-- One directive is a declaration and the other ends up in a value.
theorem parse_directives_mixed :
    let toks := tokenize (utf8 "#define A\nint f() \x7b return 1 +\n#define B\n2; \x7d")
    ∃ u, parse [] [] toks = .ok u ∧ ¬ u.Heeds ∧
      (directives toks = u.decls.flatMap fun d => directives d.tokens) ∧
      ∃ d ∈ u.decls, (∀ text, d.content ≠ .directive text) ∧ directives d.tokens ≠ [] ∧
        directives d.tokens = (exprs [d.declTree]).flatMap fun e => directives e.tokens := by
  intro toks
  have found : (parse [] [] toks).toOption.any (fun u => u.decls.any fun d =>
      !d.content.isDirective && !(directives d.tokens).isEmpty) = true := by decide +kernel
  cases outcome : parse [] [] toks with
  | error err =>
      rw [outcome] at found
      cases found
  | ok u =>
      simp only [outcome, Except.toOption, Option.any_some, List.any_eq_true, Bool.and_eq_true,
        Bool.not_eq_true'] at found
      obtain ⟨d, present, other, some⟩ := found
      obtain ⟨whole, _, held, _⟩ := parse_directives outcome
      have shown : ∀ text, d.content ≠ .directive text := by
        intro text same
        rw [same] at other
        cases other
      have inside : directives d.tokens ≠ [] := by simpa using some
      refine ⟨u, rfl, ?_, whole, d, present, shown, inside, held d present shown⟩
      intro heeded
      rcases heeded d present with ⟨text, same⟩ | none
      · exact shown text same
      · exact inside none

theorem directive_absorbed :
    let toks := tokenize (utf8 "void main() \x7b int x = 1 +\n#define X 1\n2; \x7d")
    (∃ t ∈ toks, t.isDirective = true) ∧
      ∃ u, parse (utf8 "test.nss") [] toks = .ok u ∧
        (∀ d ∈ u.decls, ∀ text, d.content ≠ .directive text) ∧
        ∃ e, Node.expr e ∈ u.walk (fun _ => true) ∧ ∃ t ∈ e.tokens, t.isDirective = true := by
  intro toks
  have written : toks.any Token.isDirective = true := by decide +kernel
  have found : (parse (utf8 "test.nss") [] toks).toOption.any (fun u =>
      u.decls.all (fun d => !d.content.isDirective) &&
        ((u.walk fun _ => true).filterMap Node.expr?).any fun e =>
          e.tokens.any Token.isDirective) = true := by decide +kernel
  refine ⟨List.any_eq_true.mp written, ?_⟩
  cases outcome : parse (utf8 "test.nss") [] toks with
  | error err =>
      rw [outcome] at found
      cases found
  | ok u =>
      simp only [outcome, Except.toOption, Option.any_some, Bool.and_eq_true, List.all_eq_true,
        List.any_eq_true, List.mem_filterMap, expr?_iff] at found
      obtain ⟨other, e, ⟨_, visited, rfl⟩, held⟩ := found
      refine ⟨u, rfl, ?_, e, visited, held⟩
      intro d present text same
      have shown := other d present
      rw [same] at shown
      cases shown

end ScriptUnit
end NwscriptBindings
