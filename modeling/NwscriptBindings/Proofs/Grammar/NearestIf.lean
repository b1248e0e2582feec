import NwscriptBindings.Proofs.Grammar.Nesting

namespace NwscriptBindings

inductive Rose.Throughout {α : Type} (holds : α → List (Rose α) → Prop) : Rose α → Prop where
  | node : holds a children → (∀ child ∈ children, Throughout holds child) →
      Throughout holds (.node a children)

def Node.isIf : Node → Bool
  | .stmt (.ifThen _ _ _) | .stmt (.ifElse _ _ _ _ _) => true
  | _ => false

open NwscriptBindings.Parser (nextLexeme Reads Terminal)

-- The next token from an index on that is not trivia.
def ElseAt (toks : List Token) (i : Nat) : Prop :=
  nextLexeme (toks.drop i) = some (.keyword .elseWord)

def Stretch.Filled (place : Stretch) (toks : List Token) : Prop :=
  place.start < place.stop ∧ place.stop ≤ toks.length

def Attached (toks : List Token) (n : Node × Stretch) (children : List (Rose (Node × Stretch))) :
    Prop :=
  match n.1 with
  | .stmt (.ifThen _ _ _) => n.2.Filled toks ∧ ¬ ElseAt toks n.2.stop
  | .stmt (.ifElse _ body _ _ _) => ∃ cond place below other,
      children = [cond, .node (.stmt body, place) below, other] ∧
        place.Filled toks ∧ ElseAt toks place.stop
  | _ => True

-- Trees with stretches between two indices of the tokens, in order, and each `if` attached.
structure Stands (toks : List Token) (lo hi : Nat) (trees : List (Rose Node))
    (placed : List (Rose (Node × Stretch))) : Prop where
  erased : Rose.mapAll Prod.fst placed = trees
  held : ∀ child ∈ placed, Stretch.Holds ⟨lo, hi⟩ child.value.2
  ordered : placed.Pairwise fun a b => a.value.2.Precedes b.value.2
  each : ∀ child ∈ placed, Placed toks child ∧ child.Throughout (Attached toks)

section placing

variable {toks before after ts : List Token} {lo mid hi : Nat} {trees others : List (Rose Node)}
  {placed more : List (Rose (Node × Stretch))} {n : Node}

theorem Stands.nil : Stands toks lo hi [] [] :=
  ⟨rfl, by simp, .nil, by simp⟩

theorem Stands.wider {lo' hi' : Nat} (stands : Stands toks lo hi trees placed) (left : lo' ≤ lo)
    (right : hi ≤ hi') : Stands toks lo' hi' trees placed := by
  refine ⟨stands.erased, fun child present => ?_, stands.ordered, stands.each⟩
  obtain ⟨begins, filled, ends⟩ := stands.held child present
  exact ⟨Nat.le_trans left begins, filled, Nat.le_trans ends right⟩

theorem mapAll_append {α β : Type} (f : α → β) (xs ys : List (Rose α)) :
    Rose.mapAll f (xs ++ ys) = Rose.mapAll f xs ++ Rose.mapAll f ys := by
  induction xs with
  | nil => rfl
  | cons x xs ih => rw [List.cons_append, Rose.mapAll, ih, Rose.mapAll, List.cons_append]

theorem Stands.append (first : Stands toks lo mid trees placed)
    (second : Stands toks mid hi others more) (left : lo ≤ mid) (right : mid ≤ hi) :
    Stands toks lo hi (trees ++ others) (placed ++ more) := by
  have one := first.wider (Nat.le_refl lo) right
  have two := second.wider left (Nat.le_refl hi)
  refine ⟨?_, ?_, ?_, ?_⟩
  · rw [mapAll_append, first.erased, second.erased]
  · exact List.forall_mem_append.mpr ⟨one.held, two.held⟩
  · refine List.pairwise_append.mpr ⟨first.ordered, second.ordered, fun a among b behind => ?_⟩
    exact Nat.le_trans (first.held a among).2.2 (second.held b behind).1
  · exact List.forall_mem_append.mpr ⟨first.each, second.each⟩

theorem Stands.node (inside : Stands toks lo hi trees placed)
    (own : toks.extract lo hi = n.tokens) (filled : lo ≤ hi)
    (attached : Attached toks (n, ⟨lo, hi⟩) placed) :
    Stands toks lo hi [.node n trees] [.node (n, ⟨lo, hi⟩) placed] := by
  refine ⟨?_, ?_, .cons (by simp) .nil, ?_⟩
  · rw [Rose.mapAll, Rose.map, inside.erased, Rose.mapAll]
  · simpa [Rose.value, Stretch.Holds] using filled
  · rw [List.forall_mem_singleton]
    refine ⟨.node own inside.held inside.ordered fun child present => ?_,
      .node attached fun child present => ?_⟩
    · exact (inside.each child present).1
    · exact (inside.each child present).2

theorem attached_of_plain {x : Node × Stretch} (plain : x.1.isIf = false)
    (children : List (Rose (Node × Stretch))) : Attached toks x children := by
  unfold Attached
  split
  · rename_i same
    rw [same] at plain
    cases plain
  · rename_i same
    rw [same] at plain
    cases plain
  · trivial

def Plain (tree : Rose Node) : Prop := ∀ n ∈ tree.preorder, n.isIf = false

theorem plain_node {trees : List (Rose Node)} :
    Plain (.node n trees) ↔ n.isIf = false ∧ ∀ tree ∈ trees, Plain tree := by
  constructor
  · intro plain
    refine ⟨plain n (Grammar.mem_preorder_node.mpr (.inl rfl)), fun tree among m below => ?_⟩
    exact plain m (Grammar.mem_preorder_node.mpr (.inr ⟨tree, among, below⟩))
  · intro ⟨own, each⟩ m present
    rcases Grammar.mem_preorder_node.mp present with rfl | ⟨tree, among, below⟩
    · exact own
    · exact each tree among m below

theorem throughout_of_plain (tree : Rose (Node × Stretch))
    (plain : ∀ x ∈ tree.preorder, x.1.isIf = false) : tree.Throughout (Attached toks) := by
  cases tree with
  | node x children =>
      refine .node (attached_of_plain (plain x (Grammar.mem_preorder_node.mpr (.inl rfl))) _) ?_
      intro child present
      refine throughout_of_plain child fun y below => plain y ?_
      exact Grammar.mem_preorder_node.mpr (.inr ⟨child, present, below⟩)

theorem stands_of_within (inside : Grammar.Within trees ts)
    (whole : toks = before ++ ts ++ after)
    (plain : ∀ tree ∈ trees, Plain tree) :
    ∃ placed, Stands toks before.length (before ++ ts).length trees placed := by
  rw [List.append_assoc] at whole
  obtain ⟨placed, erased, held, ordered, each⟩ := inside.place before after whole
  rw [List.length_append]
  refine ⟨placed, erased, held, ordered, fun child present => ⟨each child present, ?_⟩⟩
  apply throughout_of_plain
  intro x below
  have visited : x.1 ∈ Rose.visitsAll (fun _ => true) trees := by
    rw [← erased, Rose.visitsAll_mapAll]
    exact List.mem_map_of_mem (Grammar.mem_visitsAll.mpr ⟨child, present, below⟩)
  obtain ⟨tree, among, found⟩ := Grammar.mem_visitsAll.mp visited
  exact plain tree among x.1 found

theorem Stands.follows (first : Stands toks before.length (before ++ ts).length trees placed)
    {us : List Token}
    (second : Stands toks (before ++ ts).length (before ++ ts ++ us).length others more) :
    Stands toks before.length (before ++ (ts ++ us)).length (trees ++ others) (placed ++ more) := by
  rw [← List.append_assoc]
  exact first.append second (by simp) (by simp)

end placing

namespace Grammar

section stretches

variable {toks before ts us rest : List Token} {s : Stmt} {l : Lexeme}

def ownStart (before ts : List Token) : Nat :=
  (before ++ ts.takeWhile Token.isSpace).length

theorem own_split (before ts : List Token) :
    before ++ ts.takeWhile Token.isSpace ++ ownTokens ts = before ++ ts := by
  rw [List.append_assoc, List.takeWhile_append_dropWhile]

theorem ownStart_add (before ts : List Token) :
    ownStart before ts + (ownTokens ts).length = (before ++ ts).length := by
  rw [ownStart, ← List.length_append, own_split]

theorem own_extract (whole : toks = before ++ ts ++ rest) :
    toks.extract (ownStart before ts) (before ++ ts).length = ownTokens ts := by
  have found := extract_middle (before ++ ts.takeWhile Token.isSpace) (ownTokens ts) rest
  rwa [← List.append_assoc, own_split, ← whole, ← ownStart, ownStart_add] at found

theorem own_shown (found : nextLexeme ts = some l) : ownTokens ts ≠ [] := by
  intro none
  obtain ⟨gap, parts, blank⟩ := own_parts ts
  have skipped : nextLexeme (gap ++ []) = nextLexeme [] :=
    Parser.nextLexeme_skip fun g present => Parser.trivia_of_space (blank g present)
  rw [parts, none, skipped] at found
  cases found

theorem ownStart_lt (found : nextLexeme ts = some l) (before : List Token) :
    ownStart before ts < (before ++ ts).length := by
  have long := List.length_pos_iff.mpr (own_shown found)
  have whole := ownStart_add before ts
  omega

theorem ownStart_append (found : nextLexeme ts = some l) (before us : List Token) :
    ownStart before (ts ++ us) = ownStart before ts := by
  have short := ownStart_lt found []
  rw [ownStart, List.nil_append, List.nil_append] at short
  rw [ownStart, List.takeWhile_append, if_neg (Nat.ne_of_lt short), ownStart]

theorem drop_read (whole : toks = before ++ ts ++ rest) :
    toks.drop (before ++ ts).length = rest := by
  rw [whole, List.drop_left]

theorem stands_single {lo hi : Nat} {tree : Rose Node} {placed : List (Rose (Node × Stretch))}
    (stands : Stands toks lo hi [tree] placed) : ∃ child, placed = [child] := by
  have erased := stands.erased
  cases placed with
  | nil => cases erased
  | cons child more =>
      cases more with
      | nil => exact ⟨child, rfl⟩
      | cons other more => cases erased

-- What a statement is read with: its rule, and its own stretch wherever in the tokens it is read.
structure Settled (toks : List Token) (s : Stmt) (ts rest : List Token) : Prop where
  rule : StmtRule false s ts
  stands : ∀ before, toks = before ++ ts ++ rest → ∃ below,
    Stands toks (ownStart before ts) (before ++ ts).length [s.tree]
      [.node (.stmt s, ⟨ownStart before ts, (before ++ ts).length⟩) below]

theorem rule_filled (rule : StmtRule false s ts) (whole : toks = before ++ ts ++ rest) :
    Stretch.Filled ⟨ownStart before ts, (before ++ ts).length⟩ toks := by
  obtain ⟨l, found, _⟩ := Parser.stmt_begins rule
  exact ⟨ownStart_lt found before, by simp [whole]⟩

def isFlat : Stmt → Bool
  | .comment _ _ | .var _ _ | .assign _ _ _ _ | .step _ _ _ | .call _ _ _ | .leave _ _ | .label _ _
  | .breakOut _ | .continueOn _ => true
  | _ => false

theorem expr_plain (e : Traced Expr) : Plain e.exprTree :=
  plain_node.mpr ⟨rfl, by simp⟩

theorem value_plain (v : Traced Value) : Plain v.valueTree :=
  plain_node.mpr ⟨rfl, by simp⟩

theorem var_plain (d : VarDecl) : ∀ tree ∈ d.parts, Plain tree := by
  intro tree among
  simp only [VarDecl.parts, List.mem_cons, Option.mem_toList, Option.map_eq_some_iff] at among
  obtain rfl | ⟨e, _, rfl⟩ := among
  · exact plain_node.mpr ⟨rfl, by simp⟩
  · exact expr_plain e

theorem flat_plain (flat : isFlat s = true) : Plain s.tree := by
  cases s with
  | var d _ => exact plain_node.mpr ⟨rfl, by simpa [Stmt.parts] using var_plain d⟩
  | assign _ _ _ _ => exact plain_node.mpr ⟨rfl, by simp [Stmt.parts, expr_plain, value_plain]⟩
  | step _ _ _ => exact plain_node.mpr ⟨rfl, by simp [Stmt.parts, value_plain]⟩
  | call _ _ _ => exact plain_node.mpr ⟨rfl, by simp [Stmt.parts, expr_plain]⟩
  | leave _ _ => exact plain_node.mpr ⟨rfl, by simp [Stmt.parts, expr_plain]⟩
  | label _ _ => exact plain_node.mpr ⟨rfl, by simp [Stmt.parts, value_plain]⟩
  | comment _ _ => exact plain_node.mpr ⟨rfl, by simp [Stmt.parts]⟩
  | breakOut _ => exact plain_node.mpr ⟨rfl, by simp [Stmt.parts]⟩
  | continueOn _ => exact plain_node.mpr ⟨rfl, by simp [Stmt.parts]⟩
  | _ => cases flat

theorem stands_own {trees : List (Rose Node)} (inside : Within trees ts)
    (whole : toks = before ++ ts ++ rest) (plain : ∀ tree ∈ trees, Plain tree) :
    ∃ placed, Stands toks (ownStart before ts) (before ++ ts).length trees placed := by
  have split : toks = before ++ ts.takeWhile Token.isSpace ++ ownTokens ts ++ rest := by
    rw [own_split, whole]
  have stands := stands_of_within inside.own split plain
  rwa [own_split, ← ownStart] at stands

theorem stands_node {n : Node} {trees : List (Rose Node)} {placed : List (Rose (Node × Stretch))}
    (inside : Stands toks (ownStart before ts) (before ++ ts).length trees placed)
    (whole : toks = before ++ ts ++ rest) (own : n.tokens = ownTokens ts)
    (attached : Attached toks (n, ⟨ownStart before ts, (before ++ ts).length⟩) placed) :
    Stands toks (ownStart before ts) (before ++ ts).length [.node n trees]
      [.node (n, ⟨ownStart before ts, (before ++ ts).length⟩) placed] := by
  have filled := ownStart_add before ts
  refine inside.node ?_ (by omega) attached
  rw [own]
  exact own_extract whole

theorem stands_over {n : Node} {trees : List (Rose Node)}
    {placed : List (Rose (Node × Stretch))} (mark : Terminal l ts)
    (whole : toks = before ++ (ts ++ us) ++ rest) (own : n.tokens = ownTokens (ts ++ us))
    (inside : Stands toks (before ++ ts).length (before ++ ts ++ us).length trees placed)
    (attached : Attached toks
      (n, ⟨ownStart before (ts ++ us), (before ++ (ts ++ us)).length⟩) placed) :
    Stands toks (ownStart before (ts ++ us)) (before ++ (ts ++ us)).length [.node n trees]
      [.node (n, ⟨ownStart before (ts ++ us), (before ++ (ts ++ us)).length⟩) placed] := by
  have early := ownStart_lt mark.begins before
  rw [← ownStart_append mark.begins before us] at early
  rw [List.append_assoc] at inside
  exact stands_node (inside.wider (Nat.le_of_lt early) (Nat.le_refl _)) whole own attached

theorem settled_of_plain (rule : StmtRule false s ts) (plain : Plain s.tree) :
    Settled toks s ts rest := by
  refine ⟨rule, fun before whole => ?_⟩
  obtain ⟨own, parts⟩ := plain_node.mp plain
  obtain ⟨below, inside⟩ := stands_own (stmt_within rule) whole parts
  exact ⟨below, stands_node inside whole (stmt_own rule) (attached_of_plain own below)⟩

theorem stands_from {hi : Nat} {trees : List (Rose Node)}
    {placed : List (Rose (Node × Stretch))}
    (stands : Stands toks (ownStart before ts) hi trees placed) :
    Stands toks before.length hi trees placed :=
  stands.wider (by simp [ownStart]) (Nat.le_refl _)

theorem Settled.within (settled : Settled toks s ts rest) (whole : toks = before ++ ts ++ rest) :
    ∃ placed, Stands toks before.length (before ++ ts).length [s.tree] placed := by
  obtain ⟨below, stands⟩ := settled.stands before whole
  exact ⟨_, stands_from stands⟩

theorem expr_stands {e : Traced Expr} (inside : Within [e.exprTree] ts)
    (whole : toks = before ++ ts ++ rest) :
    ∃ placed, Stands toks before.length (before ++ ts).length [e.exprTree] placed :=
  stands_of_within inside whole (by simpa using expr_plain e)

end stretches

section forms

variable {toks before ts rest : List Token} {s : Stmt} {nested : Parser Stmt}
  (inner : ∀ s ts rest, Reads nested s ts rest → Settled toks s ts rest)
include inner

theorem items_stand {stmts : List Stmt}
    (read : Reads (Parser.manyTill Parser.blockEnd (Parser.item nested)) stmts ts rest)
    (whole : toks = before ++ ts ++ rest) :
    ∃ placed, Stands toks before.length (before ++ ts).length (Stmt.trees stmts) placed := by
  induction stmts generalizing ts before with
  | nil =>
      rw [Stmt.trees]
      exact ⟨[], .nil⟩
  | cons s stmts ih =>
      rcases Parser.reads_manyTill_cases read with
        ⟨same, _⟩ | ⟨_, _, us, vs, same, rfl, _, _, first, more⟩
      · cases same
      · cases same
        have front : toks = before ++ us ++ (vs ++ rest) := by simp [whole]
        have behind : toks = (before ++ us) ++ vs ++ rest := by simp [whole]
        obtain ⟨placed, others⟩ := ih more behind
        have here : ∃ placed, Stands toks before.length (before ++ us).length [s.tree] placed := by
          rcases Parser.reads_item_iff.mp first with ⟨c, _, rfl⟩ | ⟨_, nests⟩
          · have plain : Plain (Stmt.comment c (ownTokens us)).tree := flat_plain rfl
            rw [Stmt.tree, Stmt.parts] at plain ⊢
            exact stands_of_within (comment_within c us) front (by simpa using plain)
          · exact (inner _ _ _ nests).within front
        obtain ⟨one, stands⟩ := here
        rw [Stmt.trees]
        exact ⟨one ++ placed, stands.follows others⟩

theorem block_stands {b : Traced (List Stmt)} (read : Reads (Parser.block nested) b ts rest)
    (whole : toks = before ++ ts ++ rest) : ∃ below,
      Stands toks (ownStart before ts) (before ++ ts).length
        [.node (.stmt (.block b.content b.tokens)) (Stmt.trees b.content)]
        [.node (.stmt (.block b.content b.tokens),
          ⟨ownStart before ts, (before ++ ts).length⟩) below] := by
  obtain ⟨os, us, rfl, opened, listed, own⟩ := Parser.reads_block_iff.mp read
  have behind : toks = (before ++ os) ++ us ++ rest := by simp [whole]
  obtain ⟨placed, items⟩ := items_stand inner listed behind
  exact ⟨placed, stands_over opened whole own items trivial⟩

theorem whileStmt_settled (rule : StmtRule false s ts)
    (read : Reads (Parser.whileStmt nested) s ts rest) : Settled toks s ts rest := by
  refine ⟨rule, fun before whole => ?_⟩
  obtain ⟨ks, cs, bs, test, body, rfl, mark, enclosed, nests, rfl⟩ :=
    Parser.reads_whileStmt_iff.mp read
  have tested : toks = (before ++ ks) ++ cs ++ (bs ++ rest) := by simp [whole]
  have looped : toks = (before ++ ks ++ cs) ++ bs ++ rest := by simp [whole]
  obtain ⟨_, first⟩ := expr_stands (logical_within enclosed) tested
  obtain ⟨_, second⟩ := (inner _ _ _ nests).within looped
  rw [Stmt.tree, Stmt.parts]
  exact ⟨_, stands_over mark whole rfl (first.follows second) trivial⟩

theorem forStmt_settled (rule : StmtRule false s ts)
    (read : Reads (Parser.forStmt nested) s ts rest) : Settled toks s ts rest := by
  refine ⟨rule, fun before whole => ?_⟩
  obtain ⟨ks, os, is, cs, ps, bs, init, test, post, body, rfl, mark, opened, first, second, third,
    nests, rfl⟩ := Parser.reads_forStmt_iff.mp read
  have started : toks = (before ++ ks) ++ (os ++ is) ++ (cs ++ (ps ++ (bs ++ rest))) := by
    simp [whole]
  have tested : toks = (before ++ ks ++ (os ++ is)) ++ cs ++ (ps ++ (bs ++ rest)) := by
    simp [whole]
  have stepped : toks = (before ++ ks ++ (os ++ is) ++ cs) ++ ps ++ (bs ++ rest) := by
    simp [whole]
  have looped : toks = (before ++ ks ++ (os ++ is) ++ cs ++ ps) ++ bs ++ rest := by simp [whole]
  obtain ⟨_, first⟩ := expr_stands ((arithmetic_within first).behind os) started
  obtain ⟨_, second⟩ := expr_stands (arithmetic_within second) tested
  obtain ⟨_, third⟩ := expr_stands (arithmetic_within third) stepped
  obtain ⟨_, fourth⟩ := (inner _ _ _ nests).within looped
  have parts := first.follows (second.follows (third.follows fourth))
  rw [List.append_assoc os is] at parts
  rw [Stmt.tree, Stmt.parts]
  exact ⟨_, stands_over mark whole rfl parts trivial⟩

theorem doStmt_settled (rule : StmtRule false s ts)
    (read : Reads (Parser.doStmt nested) s ts rest) : Settled toks s ts rest := by
  refine ⟨rule, fun before whole => ?_⟩
  obtain ⟨ks, bs, ws, cs, es, body, test, rfl, mark, nests, again, enclosed, ends, rfl⟩ :=
    Parser.reads_doStmt_iff.mp read
  have looped : toks = (before ++ ks) ++ bs ++ (ws ++ (cs ++ (es ++ rest))) := by simp [whole]
  have tested : toks = (before ++ ks ++ bs) ++ (ws ++ (cs ++ es)) ++ rest := by simp [whole]
  obtain ⟨_, first⟩ := (inner _ _ _ nests).within looped
  obtain ⟨_, second⟩ := expr_stands (((logical_within enclosed).before es).behind ws) tested
  rw [Stmt.tree, Stmt.parts]
  exact ⟨_, stands_over mark whole rfl (first.follows second) trivial⟩

theorem switchStmt_settled (rule : StmtRule false s ts)
    (read : Reads (Parser.switchStmt nested) s ts rest) : Settled toks s ts rest := by
  refine ⟨rule, fun before whole => ?_⟩
  obtain ⟨ks, cs, bs, tag, b, rfl, mark, enclosed, nests, rfl⟩ :=
    Parser.reads_switchStmt_iff.mp read
  have tested : toks = (before ++ ks) ++ cs ++ (bs ++ rest) := by simp [whole]
  have inside : toks = (before ++ ks ++ cs) ++ bs ++ rest := by simp [whole]
  obtain ⟨_, first⟩ := expr_stands (logical_within enclosed) tested
  obtain ⟨_, second⟩ := block_stands inner nests inside
  rw [Stmt.tree, Stmt.parts]
  exact ⟨_, stands_over mark whole rfl (first.follows (stands_from second)) trivial⟩

-- No `else` follows the whole where the branch is missing, and one follows the first branch where
-- it is not; what follows a nested `if` was decided when it was read.
theorem ifStmt_settled (rule : StmtRule false s ts)
    (read : Reads (Parser.ifStmt nested) s ts rest) : Settled toks s ts rest := by
  refine ⟨rule, fun before whole => ?_⟩
  rcases Parser.reads_ifStmt_iff.mp read with
    ⟨ks, cs, bs, test, body, rfl, mark, enclosed, nests, free, rfl⟩ |
    ⟨ks, cs, bs, ws, os, test, body, other, rfl, mark, enclosed, nests, again, follows, rfl⟩
  · have tested : toks = (before ++ ks) ++ cs ++ (bs ++ rest) := by simp [whole]
    have chosen : toks = (before ++ ks ++ cs) ++ bs ++ rest := by simp [whole]
    obtain ⟨_, first⟩ := expr_stands (logical_within enclosed) tested
    obtain ⟨_, second⟩ := (inner _ _ _ nests).within chosen
    rw [Stmt.tree, Stmt.parts]
    refine ⟨_, stands_over mark whole rfl (first.follows second)
      ⟨rule_filled rule whole, ?_⟩⟩
    rw [ElseAt, drop_read whole]
    exact free
  · have tested : toks = (before ++ ks) ++ cs ++ (bs ++ (ws ++ (os ++ rest))) := by simp [whole]
    have chosen : toks = (before ++ ks ++ cs) ++ bs ++ (ws ++ (os ++ rest)) := by simp [whole]
    have branched : toks = (before ++ ks ++ cs ++ bs) ++ (ws ++ os) ++ rest := by simp [whole]
    have refused : toks = (before ++ ks ++ cs ++ bs ++ ws) ++ os ++ rest := by simp [whole]
    obtain ⟨_, first⟩ := expr_stands (logical_within enclosed) tested
    obtain ⟨cond, rfl⟩ := stands_single first
    have taken := inner _ _ _ nests
    obtain ⟨below, second⟩ := taken.stands _ chosen
    obtain ⟨_, third⟩ := (inner _ _ _ follows).within refused
    have last : Stands toks _ _ [.node (.otherwise other (ownTokens (ws ++ os))) [other.tree]] _ :=
      stands_over again branched rfl third trivial
    rw [Stmt.tree, Stmt.parts]
    refine ⟨_, stands_over mark whole rfl
      (first.follows ((stands_from second).follows (stands_from last))) ?_⟩
    refine ⟨cond, _, _, _, rfl, rule_filled taken.rule chosen, ?_⟩
    rw [ElseAt, drop_read chosen]
    exact Parser.nextLexeme_append again.begins

theorem ofForm_settled {form : StmtForm} (read : Reads (Parser.ofForm nested form) s ts rest) :
    Settled toks s ts rest := by
  have rule := Parser.ofForm_sound (fun _ _ _ nests => (inner _ _ _ nests).rule) read
  cases form with
  | block =>
      obtain ⟨b, found, rfl⟩ := Parser.reads_blockStmt_iff.mp read
      refine ⟨rule, fun before whole => ?_⟩
      rw [Stmt.tree, Stmt.parts]
      exact block_stands inner found whole
  | whileLoop => exact whileStmt_settled inner rule read
  | forLoop => exact forStmt_settled inner rule read
  | doLoop => exact doStmt_settled inner rule read
  | ifThen => exact ifStmt_settled inner rule read
  | switch => exact switchStmt_settled inner rule read
  | var =>
      obtain ⟨d, _, rfl⟩ := Parser.reads_varStmt_iff.mp read
      exact settled_of_plain rule (flat_plain rfl)
  | assign =>
      obtain ⟨_, _, _, _, _, _, _, _, _, _, rfl⟩ := Parser.reads_assignStmt_iff.mp read
      exact settled_of_plain rule (flat_plain rfl)
  | step =>
      obtain ⟨_, _, _, _, _, _, _, rfl⟩ := Parser.reads_stepStmt_iff.mp read
      exact settled_of_plain rule (flat_plain rfl)
  | call =>
      obtain ⟨_, _, _, _, _, _, _, _, _, rfl⟩ := Parser.reads_callStmt_iff.mp read
      exact settled_of_plain rule (flat_plain rfl)
  | leave =>
      obtain ⟨_, _, _, _, _, rfl, _⟩ := Parser.leaveStmt_reads read
      exact settled_of_plain rule (flat_plain rfl)
  | label =>
      obtain ⟨_, _, _, _, _, _, rfl⟩ := Parser.reads_labelStmt_iff.mp read
      exact settled_of_plain rule (flat_plain rfl)
  | branch =>
      obtain ⟨_, _, _, _, ⟨_, rfl⟩ | ⟨_, rfl⟩⟩ := Parser.reads_branchStmt_iff.mp read
      · exact settled_of_plain rule (flat_plain rfl)
      · exact settled_of_plain rule (flat_plain rfl)
  | unsupported => exact (Parser.unsupported_never_accepts read).elim

end forms

section units

variable {toks before ts rest : List Token} {forms : List StmtForm}

theorem statement_settled {s : Stmt} (read : Reads (Parser.statement forms) s ts rest) :
    Settled toks s ts rest :=
  Parser.statement_induction_before (Settled toks)
    (fun _ inner _ _ _ _ found => ofForm_settled inner found) read

theorem signature_plain (sig : Signature) : ∀ tree ∈ sig.parts, Plain tree := by
  intro tree among
  rcases List.mem_cons.mp among with rfl | param
  · exact plain_node.mpr ⟨rfl, by simp⟩
  · obtain ⟨p, _, rfl⟩ := List.mem_map.mp param
    refine plain_node.mpr ⟨rfl, fun part below => ?_⟩
    rcases List.mem_cons.mp below with rfl | given
    · exact plain_node.mpr ⟨rfl, by simp⟩
    · obtain ⟨v, _, rfl⟩ := Option.map_eq_some_iff.mp (Option.mem_toList.mp given)
      exact value_plain v

theorem struct_plain (d : StructDecl) : ∀ tree ∈ (Decl.struct d).parts, Plain tree := by
  intro tree among
  obtain ⟨f, _, rfl⟩ := List.mem_map.mp among
  exact plain_node.mpr ⟨rfl, var_plain f.content⟩

theorem decl_stands {d : Decl} (read : Reads (Parser.decl forms) d ts rest)
    (whole : toks = before ++ ts ++ rest) :
    ∃ placed, Stands toks (ownStart before ts) (before ++ ts).length d.parts placed := by
  have inside := decl_within (Parser.decl_sound read)
  rcases Parser.decl_reads read with ⟨_, _, _, _, rfl⟩ | ⟨_, _, rfl⟩ |
    ⟨_, function | ⟨v, _, rfl⟩ | ⟨v, _, rfl⟩⟩
  · exact stands_own inside whole (by simp [Decl.parts])
  · exact stands_own inside whole (by simp [Decl.parts])
  · obtain ⟨sig, us, vs, rfl, derived, ⟨_, rfl⟩ | ⟨b, body, rfl⟩⟩ :=
      Parser.functionDecl_reads function
    · exact stands_own inside whole (signature_plain sig)
    · have signed : toks = before ++ us ++ (vs ++ rest) := by simp [whole]
      have enclosed : toks = (before ++ us) ++ vs ++ rest := by simp [whole]
      obtain ⟨_, first⟩ := stands_own (signature_within derived) signed (signature_plain sig)
      obtain ⟨_, second⟩ := block_stands (fun _ _ _ => statement_settled) body enclosed
      obtain ⟨_, begins⟩ := Parser.signature_begins derived
      rw [ownStart_append begins, ← List.append_assoc]
      refine ⟨_, first.append (stands_from second) ?_ (by simp)⟩
      exact Nat.le_of_lt (ownStart_lt begins before)
  · exact stands_own inside whole (var_plain v)
  · exact stands_own inside whole (struct_plain v)

theorem decls_stand {ds : List (Traced Decl)} (read : Reads (Parser.decls forms) ds ts rest)
    (whole : toks = before ++ ts ++ rest) :
    ∃ placed, Stands toks before.length (before ++ ts).length (ds.map Traced.declTree) placed := by
  induction ds generalizing ts before with
  | nil => exact ⟨[], .nil⟩
  | cons d ds ih =>
      rcases Parser.reads_manyTill_cases read with
        ⟨same, _⟩ | ⟨_, _, us, vs, same, rfl, _, _, first, more⟩
      · cases same
      · cases same
        have front : toks = before ++ us ++ (vs ++ rest) := by simp [whole]
        have behind : toks = (before ++ us) ++ vs ++ rest := by simp [whole]
        obtain ⟨content, own⟩ := Parser.reads_traced_iff.mp (Parser.reads_orFail_iff.mp first)
        obtain ⟨below, parts⟩ := decl_stands content front
        have here := stands_node (n := .decl d) parts front own trivial
        obtain ⟨placed, others⟩ := ih more behind
        exact ⟨_, (stands_from here).follows others⟩

end units

theorem placed_below {toks : List Token} {tree : Rose (Node × Stretch)}
    {holds : Node × Stretch → List (Rose (Node × Stretch)) → Prop} {x : Node × Stretch}
    (placed : Placed toks tree) (through : tree.Throughout holds) (visited : x ∈ tree.preorder) :
    ∃ children, Placed toks (.node x children) ∧ holds x children := by
  induction through with
  | @node a children own _ ih =>
      rcases mem_preorder_node.mp visited with rfl | ⟨child, among, below⟩
      · exact ⟨children, placed, own⟩
      · cases placed with
        | node _ _ _ each => exact ih child among (each child among) below

-- Where no token is repeated, a stretch that is not empty is found by its tokens alone.
theorem drop_of_placed {toks before after : List Token} {n : Node} {place : Stretch}
    {children : List (Rose (Node × Stretch))} (distinct : toks.Nodup)
    (placed : Placed toks (.node (n, place) children)) (filled : place.Filled toks)
    (whole : toks = before ++ (n.tokens ++ after)) : toks.drop place.stop = after := by
  obtain ⟨long, inside⟩ := filled
  cases placed with
  | node own _ _ _ =>
      have size : n.tokens.length = place.stop - place.start := by
        rw [← own, List.extract, List.length_take, List.length_drop]
        omega
      have first : toks[place.start]? = n.tokens[0]? := by
        rw [← own, List.extract, List.getElem?_take, if_pos (by omega), List.getElem?_drop,
          Nat.add_zero]
      have again : toks[before.length]? = n.tokens[0]? := by
        rw [whole, List.getElem?_append_right (Nat.le_refl _), Nat.sub_self,
          List.getElem?_append_left (by omega)]
      have start : place.start = before.length :=
        (List.getElem?_inj (Nat.lt_of_lt_of_le long inside) distinct).mp (first.trans again.symm)
      have stop : place.stop = (before ++ n.tokens).length := by
        rw [List.length_append]
        omega
      rw [stop]
      exact drop_read (by rw [whole, List.append_assoc])

end Grammar

namespace ScriptUnit

theorem parse_else_nearest {name : List UInt8} {lines : List (List UInt8)} {toks : List Token}
    {u : ScriptUnit} (parsed : parse name lines toks = .ok u) :
    (∃ placed, placed.map Prod.fst = u.tree ∧ placed.value.2 = ⟨0, toks.length⟩ ∧
      Placed toks placed ∧ placed.Throughout (Attached toks)) ∧
    (toks.Nodup →
      (∀ cond body own, Node.stmt (.ifThen cond body own) ∈ u.walk (fun _ => true) →
        ∀ before after, toks = before ++ (own ++ after) →
          nextLexeme after ≠ some (.keyword .elseWord)) ∧
      ∀ cond body other elseTokens own,
        Node.stmt (.ifElse cond body other elseTokens own) ∈ u.walk (fun _ => true) →
          ∀ before after, toks = before ++ (body.tokens ++ after) →
            nextLexeme after = some (.keyword .elseWord)) := by
  obtain ⟨_, own, read⟩ := parseWith_reads parsed
  have whole : toks = [] ++ toks ++ [] := by simp
  obtain ⟨below, inside⟩ := Grammar.decls_stand read whole
  have root : Stands toks 0 toks.length [u.tree] [.node (.unit u, ⟨0, toks.length⟩) below] :=
    inside.node (by simp [Node.tokens, own]) (Nat.zero_le _) trivial
  obtain ⟨placed, through⟩ := root.each _ (List.mem_singleton_self _)
  have erased : Rose.map Prod.fst (.node (.unit u, ⟨0, toks.length⟩) below) = u.tree :=
    List.singleton_inj.mp root.erased
  refine ⟨⟨_, erased, rfl, placed, through⟩, fun distinct => ?_⟩
  have visits : ∀ n ∈ u.walk (fun _ => true), ∃ place children,
      Placed toks (.node (n, place) children) ∧ Attached toks (n, place) children := by
    intro n visited
    rw [walk, ← Rose.preorder, ← erased, Rose.preorder_map] at visited
    obtain ⟨x, among, rfl⟩ := List.mem_map.mp visited
    obtain ⟨children, here⟩ := Grammar.placed_below placed through among
    exact ⟨x.2, children, here⟩
  constructor
  · intro cond body own visited before after split
    obtain ⟨place, children, here, filled, free⟩ := visits _ visited
    rwa [ElseAt, Grammar.drop_of_placed distinct here filled split] at free
  · intro cond body other elseTokens own visited before after split
    obtain ⟨_, _, here, _, place, below, _, rfl, filled, follows⟩ := visits _ visited
    cases here with
    | node _ _ _ each =>
        have branch := each (.node (.stmt body, place) below) (by simp)
        rwa [ElseAt, Grammar.drop_of_placed distinct branch filled split] at follows

end ScriptUnit

namespace Node

def alone? : Node → Option (List Token)
  | .stmt (.ifThen _ _ own) => some own
  | _ => none

def branch? : Node → Option (List Token)
  | .stmt (.ifElse _ body _ _ _) => some body.tokens
  | _ => none

theorem of_alone? {n : Node} {own : List Token} (found : n.alone? = some own) :
    ∃ cond body, n = .stmt (.ifThen cond body own) := by
  unfold alone? at found
  split at found
  · cases found
    exact ⟨_, _, rfl⟩
  · cases found

theorem of_branch? {n : Node} {own : List Token} (found : n.branch? = some own) :
    ∃ cond body other elseTokens whole,
      n = .stmt (.ifElse cond body other elseTokens whole) ∧ body.tokens = own := by
  unfold branch? at found
  split at found
  · cases found
    exact ⟨_, _, _, _, _, rfl, rfl⟩
  · cases found

end Node

namespace ScriptUnit

-- The last `else` is behind a loop whose body has the first, and belongs to the `if` around that
-- loop; the outermost `if` has none.
theorem parse_else_nearest_loops : ∃ toks u,
    toks =
      tokenize (utf8 "int f(){ if(a) while(b) if(c) do if(d) e(); else g(); while(h); else i();}") ∧
    parse [] [] toks = .ok u ∧ toks.Nodup ∧
    (∃ cond body, Node.stmt (.ifThen cond body ((toks.drop 7).take 46)) ∈ u.walk (fun _ => true)) ∧
    nextLexeme (toks.drop 53) ≠ some (.keyword .elseWord) ∧
    (∃ cond body other elseTokens own,
      Node.stmt (.ifElse cond body other elseTokens own) ∈ u.walk (fun _ => true) ∧
        body.tokens = (toks.drop 22).take 24) ∧
    nextLexeme (toks.drop 46) = some (.keyword .elseWord) := by
  let toks :=
    tokenize (utf8 "int f(){ if(a) while(b) if(c) do if(d) e(); else g(); while(h); else i();}")
  have found : (parse [] [] toks).toOption.any (fun u =>
      ((u.walk fun _ => true).any fun n => n.alone? == some ((toks.drop 7).take 46)) &&
      (u.walk fun _ => true).any fun n => n.branch? == some ((toks.drop 22).take 24)) = true := by
    decide +kernel
  have distinct : toks.Nodup := by decide +kernel
  have outer : toks = toks.take 7 ++ ((toks.drop 7).take 46 ++ toks.drop 53) := by decide +kernel
  have looped : toks = toks.take 22 ++ ((toks.drop 22).take 24 ++ toks.drop 46) := by
    decide +kernel
  cases outcome : parse [] [] toks with
  | error err =>
      rw [outcome] at found
      cases found
  | ok u =>
      simp only [outcome, Except.toOption, Option.any_some, Bool.and_eq_true,
        List.any_eq_true] at found
      obtain ⟨⟨n, visited, single⟩, m, among, double⟩ := found
      obtain ⟨cond, body, rfl⟩ := Node.of_alone? (eq_of_beq single)
      obtain ⟨test, branch, other, elseTokens, own, rfl, same⟩ :=
        Node.of_branch? (eq_of_beq double)
      obtain ⟨_, nearest⟩ := parse_else_nearest outcome
      obtain ⟨alone, branched⟩ := nearest distinct
      refine ⟨toks, u, rfl, outcome, distinct, ⟨cond, body, visited⟩, ?_,
        ⟨test, branch, other, elseTokens, own, among, same⟩, ?_⟩
      · exact alone _ _ _ visited _ _ outer
      · exact branched _ _ _ _ _ among _ _ (same.symm ▸ looped)

end ScriptUnit

end NwscriptBindings
