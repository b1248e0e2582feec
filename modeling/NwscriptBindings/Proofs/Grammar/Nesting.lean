import NwscriptBindings.Proofs.Grammar.Reemission

namespace NwscriptBindings

namespace Rose

variable {α β : Type}

def value : Rose α → α
  | .node value _ => value

mutual

def map (f : α → β) : Rose α → Rose β
  | .node value children => .node (f value) (mapAll f children)

def mapAll (f : α → β) : List (Rose α) → List (Rose β)
  | [] => []
  | tree :: trees => map f tree :: mapAll f trees

end

mutual

theorem preorder_map (f : α → β) (tree : Rose α) : (tree.map f).preorder = tree.preorder.map f := by
  cases tree with
  | node value children =>
      simp only [map, preorder, visits, if_true, List.map_cons]
      rw [visitsAll_mapAll]

theorem visitsAll_mapAll (f : α → β) (trees : List (Rose α)) :
    visitsAll (fun _ => true) (mapAll f trees) = (visitsAll (fun _ => true) trees).map f := by
  cases trees with
  | nil => rfl
  | cons tree trees =>
      simp only [mapAll, visitsAll, List.map_append]
      rw [visitsAll_mapAll f trees, ← preorder, preorder_map f tree, preorder]

end

end Rose

namespace Grammar

open NwscriptBindings.Parser (trivia_of_space)

inductive Spaced : List (List Token) → List Token → Prop where
  | nil : (∀ g ∈ gap, g.isSpace = true) → Spaced [] gap
  | cons : (∀ g ∈ gap, g.isSpace = true) → Spaced parts rest →
      Spaced (part :: parts) (gap ++ (part ++ rest))

def Bracketed (stmts : List Stmt) (own : List Token) : Prop :=
  ∃ gap first inner last, own = gap ++ first :: (inner ++ [last]) ∧
    (∀ g ∈ gap, g.isTrivia = true) ∧ first.lexeme = .separator .openBrace ∧
    last.lexeme = .separator .closeBrace ∧ Spaced (stmts.map Stmt.tokens) inner

def Shaped : Node → Prop
  | .stmt (.block stmts own) => Bracketed stmts own
  | _ => True

def Flush (ts : List Token) : Prop := ∀ t ∈ ts.head?, t.isSpace = false

-- What is below a node is found in its tokens, from left to right and with anything between.
mutual

inductive Laid : Rose Node → Prop where
  | node : Shaped n → Within trees n.tokens → Laid (.node n trees)

inductive Within : List (Rose Node) → List Token → Prop where
  | nil : Within [] ts
  | cons : Flush tree.value.tokens → Laid tree → Within trees us →
      Within (tree :: trees) (gap ++ (tree.value.tokens ++ us))

end

section gaps

variable {ts us : List Token}

theorem own_parts (ts : List Token) :
    ∃ gap, ts = gap ++ ownTokens ts ∧ ∀ g ∈ gap, g.isSpace = true :=
  ⟨ts.takeWhile Token.isSpace, List.takeWhile_append_dropWhile.symm,
    fun g present => List.all_eq_true.mp List.all_takeWhile g present⟩

theorem space_of_kept {t : Token} (kept : t.isTrivia = false) : t.isSpace = false := by
  cases blank : t.isSpace with
  | false => rfl
  | true => exact absurd (trivia_of_space blank) (by simp [kept])

theorem flush_own (ts : List Token) : Flush (ownTokens ts) := by
  intro t first
  have kept := List.head?_dropWhile_not Token.isSpace ts
  rw [Option.mem_def.mp first] at kept
  simpa using kept

theorem own_of_flush (flush : Flush ts) : ownTokens ts = ts := by
  cases ts with
  | nil => rfl
  | cons t ts => exact List.dropWhile_cons_of_neg (by simp [flush t rfl])

theorem own_append (flush : Flush us) (gap : List Token) :
    ownTokens (gap ++ us) = ownTokens gap ++ us := by
  rw [ownTokens, List.dropWhile_append]
  split
  · rename_i blank
    have none : ownTokens gap = [] := List.isEmpty_iff.mp blank
    rw [none]
    exact own_of_flush flush
  · rfl

theorem Spaced.before_space {parts : List (List Token)} (spaced : Spaced parts ts)
    {gap : List Token} (blank : ∀ g ∈ gap, g.isSpace = true) : Spaced parts (ts ++ gap) := by
  induction spaced with
  | nil before =>
      apply Spaced.nil
      intro g present
      exact (List.mem_append.mp present).elim (before g) (blank g)
  | cons before _ ih =>
      rw [List.append_assoc, List.append_assoc]
      exact .cons before ih

theorem Spaced.own_cons {parts : List (List Token)} (spaced : Spaced parts us) (ts : List Token) :
    Spaced (ownTokens ts :: parts) (ts ++ us) := by
  obtain ⟨gap, whole, blank⟩ := own_parts ts
  have front : ts ++ us = gap ++ (ownTokens ts ++ us) := by
    rw [← List.append_assoc, ← whole]
  rw [front]
  exact .cons blank spaced

theorem spaced_traced {α : Type} {rule : α → List Token → Prop} {xs : List (Traced α)}
    (derived : ListRule (TracedRule rule) xs ts) : Spaced (xs.map (·.tokens)) ts := by
  induction derived with
  | nil => exact .nil (by simp)
  | cons first _ ih =>
      rw [List.map_cons, first.2]
      exact ih.own_cons _

end gaps

section sequences

variable {ts us : List Token} {trees others : List (Rose Node)}

theorem Within.behind (inside : Within trees ts) (front : List Token) :
    Within trees (front ++ ts) := by
  cases inside with
  | nil => exact .nil
  | cons flush laid later =>
      rw [← List.append_assoc]
      exact .cons flush laid later

theorem Within.append (first : Within trees ts) (second : Within others us) :
    Within (trees ++ others) (ts ++ us) := by
  induction trees generalizing ts with
  | nil => exact second.behind ts
  | cons tree trees ih =>
      cases first with
      | cons flush laid later =>
          rw [List.append_assoc, List.append_assoc]
          exact .cons flush laid (ih later)

theorem Within.before (inside : Within trees ts) (more : List Token) :
    Within trees (ts ++ more) := by
  have both := inside.append (Within.nil : Within [] more)
  rwa [List.append_nil] at both

-- Only blanks go, and no tree begins with one. A tree without tokens is found anywhere.
theorem Within.own (inside : Within trees ts) : Within trees (ownTokens ts) := by
  induction trees generalizing ts with
  | nil => exact .nil
  | cons tree trees ih =>
      cases inside with
      | @cons _ _ us gap flush laid later =>
          cases tokens : tree.value.tokens with
          | nil =>
              have rest := ih (later.behind gap)
              have found : Within (tree :: trees)
                  ([] ++ (tree.value.tokens ++ ownTokens (gap ++ us))) := .cons flush laid rest
              rwa [tokens] at found
          | cons t more =>
              have shown : Flush (t :: more ++ us) := by
                rintro _ ⟨⟩
                exact flush t (by rw [tokens]; rfl)
              rw [own_append shown, ← tokens]
              exact .cons flush laid later

theorem Within.enclosed {n : Node} (inside : Within trees ts) (own : n.tokens = ownTokens ts)
    (shaped : Shaped n) : Within [.node n trees] ts := by
  obtain ⟨gap, whole, _⟩ := own_parts ts
  have laid : Laid (.node n trees) := .node shaped (own ▸ inside.own)
  have flush : Flush (Rose.node n trees).value.tokens := own ▸ flush_own ts
  have alone : Within [.node n trees] (gap ++ (n.tokens ++ [])) := .cons flush laid .nil
  rwa [List.append_nil, own, ← whole] at alone

end sequences

section values

variable {bare : Bool} {ts : List Token}

theorem type_within {type : Traced ScriptType} (derived : TracedRule TypeRule type ts) :
    Within [type.typeTree] ts := Within.nil.enclosed derived.2 trivial

theorem value_within {value : Traced Value} (derived : TracedRule ValueRule value ts) :
    Within [value.valueTree] ts := Within.nil.enclosed derived.2 trivial

theorem target_within {target : Traced (List UInt8)} (derived : TracedRule NameRule target ts) :
    Within [target.asValue.valueTree] ts := Within.nil.enclosed derived.2 trivial

theorem flush_trim (range : List Token) : Flush (trimTrivia range) :=
  fun t first => space_of_kept (trimTrivia_first range t first)

theorem arithmetic_within {stop : Separator} {e : Traced Expr}
    (derived : ArithmeticRule stop e ts) : Within [e.exprTree] ts := by
  obtain ⟨range, t, rfl, _, rfl⟩ := derived
  obtain ⟨front, back, parts, _, _⟩ := trimTrivia_parts range
  have alone : Within [Traced.exprTree ⟨⟨.arithmetic, Expr.textOf range⟩, trimTrivia range⟩]
      (front ++ (trimTrivia range ++ back)) :=
    .cons (flush_trim range) (.node trivial .nil) .nil
  rw [← parts] at alone
  exact alone.before [t]

theorem logical_within {e : Traced Expr} (derived : LogicalRule e ts) :
    Within [e.exprTree] ts := by
  obtain ⟨os, range, t, rfl, _, _, rfl⟩ := derived
  have alone : Within [Traced.exprTree ⟨⟨.logical, Expr.textOf range⟩, ownTokens range⟩] range :=
    Within.nil.enclosed rfl trivial
  exact (alone.before [t]).behind os

theorem var_within {d : VarDecl} (derived : VarRule bare d ts) : Within d.parts ts := by
  cases derived with
  | plain _ type _ _ _ => exact ((type_within type).before _).behind _
  | initialized _ type _ _ value =>
      exact ((type_within type).append
        (((arithmetic_within value.1).behind _).behind _)).behind _

theorem step_within {target : Traced (List UInt8)} {op : StepOp}
    (derived : StepRule target op ts) : Within [target.asValue.valueTree] ts := by
  cases derived with
  | pre _ name => exact (target_within name).behind _
  | post name _ => exact (target_within name).before _

theorem result_within {result : Option (Traced Expr)} (derived : ResultRule result ts) :
    Within (result.map Traced.exprTree).toList ts := by
  cases derived with
  | absent => exact .nil
  | present value => exact arithmetic_within value

theorem label_within {value : Option (Traced Value)} (derived : LabelRule value ts) :
    Within (value.map Traced.valueTree).toList ts := by
  cases derived with
  | default => exact .nil
  | case _ value => exact (value_within value).behind _

end values

section statements

variable {bare : Bool}

theorem stmt_own {s : Stmt} {ts : List Token} (derived : StmtRule bare s ts) :
    s.tokens = ownTokens ts := by
  cases derived with
  | block b =>
      cases b
      rfl
  | _ => rfl

theorem items_spaced {stmts : List Stmt} {ts : List Token} (derived : ItemsRule bare stmts ts) :
    Spaced (stmts.map Stmt.tokens) ts := by
  cases derived with
  | nil => exact .nil (by simp)
  | comment _ others => exact (items_spaced others).own_cons _
  | stmt _ first others =>
      rw [List.map_cons, stmt_own first]
      exact (items_spaced others).own_cons _

theorem block_own {b : Traced (List Stmt)} {ts : List Token} (derived : BlockRule bare b ts) :
    b.tokens = ownTokens ts := by
  cases derived
  rfl

theorem block_bracketed {b : Traced (List Stmt)} {ts : List Token}
    (derived : BlockRule bare b ts) : Bracketed b.content b.tokens := by
  cases derived with
  | @intro _ _ inner _ opened items closed =>
      obtain ⟨first, ⟨gap, rfl, skipped, kept⟩, opens⟩ := opened
      obtain ⟨last, ⟨space, rfl, blank, _⟩, closes⟩ := closed
      refine ⟨ownTokens gap, first, inner ++ space, last, ?_, ?_, opens, closes,
        (items_spaced items).before_space blank⟩
      · have shown : Flush (first :: (inner ++ (space ++ [last]))) := by
          rintro _ ⟨⟩
          exact space_of_kept kept
        have cut := own_append shown gap
        simpa using cut
      · intro g present
        exact skipped g ((List.dropWhile_sublist _).subset present)

theorem stmt_shaped {s : Stmt} {ts : List Token} (derived : StmtRule bare s ts) :
    Shaped (.stmt s) := by
  cases derived with
  | block b => exact block_bracketed b
  | _ => trivial

theorem Within.stmt {s : Stmt} {ts : List Token} (inside : Within s.parts ts)
    (derived : StmtRule bare s ts) : Within [.node (.stmt s) s.parts] ts :=
  inside.enclosed (stmt_own derived) (stmt_shaped derived)

theorem Within.otherwise {s : Stmt} {ts : List Token}
    (inside : Within [.node (.stmt s) s.parts] ts) :
    Within [.node (.otherwise s (ownTokens ts)) [.node (.stmt s) s.parts]] ts :=
  inside.enclosed rfl trivial

theorem comment_within (c : Comment) (ts : List Token) :
    Within [.node (.stmt (.comment c (ownTokens ts))) []] ts := Within.nil.enclosed rfl trivial

theorem Within.block {b : Traced (List Stmt)} {ts : List Token}
    (inside : Within (Stmt.trees b.content) ts) (derived : BlockRule bare b ts) :
    Within [.node (.stmt (.block b.content b.tokens)) (Stmt.trees b.content)] ts :=
  inside.enclosed (block_own derived) (block_bracketed derived)

mutual

theorem block_within {b : Traced (List Stmt)} {ts : List Token} :
    BlockRule bare b ts → Within (Stmt.trees b.content) ts
  | .intro _ items _ => ((items_within items).before _).behind _

theorem items_within {stmts : List Stmt} {ts : List Token} :
    ItemsRule bare stmts ts → Within (Stmt.trees stmts) ts
  | .nil => by
      rw [Stmt.trees]
      exact .nil
  | .comment _ others => by
      rw [Stmt.trees, Stmt.parts]
      exact (comment_within _ _).append (items_within others)
  | .stmt _ first others => by
      rw [Stmt.trees]
      exact ((stmt_within first).stmt first).append (items_within others)

theorem stmt_within {s : Stmt} {ts : List Token} : StmtRule bare s ts → Within s.parts ts
  | .block b => by
      rw [Stmt.parts]
      exact block_within b
  | .var d => by
      rw [Stmt.parts]
      exact var_within d
  | .assign target _ value => by
      rw [Stmt.parts]
      exact (target_within target).append ((arithmetic_within value.1).behind _)
  | .step target _ => by
      rw [Stmt.parts]
      exact (step_within target).before _
  | .call _ args _ => by
      rw [Stmt.parts]
      exact ((logical_within args).before _).behind _
  | .whileLoop _ test body => by
      rw [Stmt.parts]
      exact ((logical_within test).append ((stmt_within body).stmt body)).behind _
  | .forLoop _ _ init test post body => by
      rw [Stmt.parts]
      exact (((arithmetic_within init).append ((arithmetic_within test).append
        ((arithmetic_within post).append ((stmt_within body).stmt body)))).behind _).behind _
  | .doLoop _ body _ test _ => by
      rw [Stmt.parts]
      exact (((stmt_within body).stmt body).append
        (((logical_within test).before _).behind _)).behind _
  | .ifThen _ test body => by
      rw [Stmt.parts]
      exact ((logical_within test).append ((stmt_within body).stmt body)).behind _
  | .ifElse _ test body _ other => by
      rw [Stmt.parts]
      exact ((logical_within test).append (((stmt_within body).stmt body).append
        (((stmt_within other).stmt other).behind _).otherwise)).behind _
  | .leave _ result => by
      rw [Stmt.parts]
      exact (result_within result).behind _
  | .switch _ tag body => by
      rw [Stmt.parts]
      exact ((logical_within tag).append ((block_within body).block body)).behind _
  | .label value _ => by
      rw [Stmt.parts]
      exact (label_within value).before _
  | .breakOut _ _ => by
      rw [Stmt.parts]
      exact .nil
  | .continueOn _ _ => by
      rw [Stmt.parts]
      exact .nil

end

end statements

section units

variable {bare : Bool} {ts : List Token}

theorem traced_within {α : Type} {rule : α → List Token → Prop} (tree : Traced α → Rose Node)
    (each : ∀ x ts, rule x.content ts → x.tokens = ownTokens ts → Within [tree x] ts)
    {xs : List (Traced α)} (derived : ListRule (TracedRule rule) xs ts) :
    Within (xs.map tree) ts := by
  induction derived with
  | nil => exact .nil
  | cons first _ ih => exact (each _ _ first.1 first.2).append ih

theorem param_within {p : Traced Param} (derived : TracedRule ParamRule p ts) :
    Within [p.paramTree] ts := by
  obtain ⟨rule, own⟩ := derived
  refine Within.enclosed ?_ own trivial
  obtain ⟨⟨type, name, given⟩, tokens⟩ := p
  cases rule with
  | intro type _ given =>
      refine (type_within type).append (Within.behind ?_ _)
      cases given with
      | absent => exact .nil
      | present _ value => exact (value_within value).behind _

theorem following_within {others : List (Traced Param)} (derived : ListRule FollowingRule others ts) :
    Within (others.map Traced.paramTree) ts := by
  induction derived with
  | nil => exact .nil
  | cons first _ ih =>
      cases first with
      | intro _ param => exact ((param_within param).behind _).append ih

theorem signature_within {sig : Signature} (derived : SignatureRule sig ts) :
    Within sig.parts ts := by
  cases derived with
  | intro result _ _ params =>
      refine (type_within result).append (Within.behind (Within.behind ?_ _) _)
      cases params with
      | empty => exact .nil
      | some first others _ =>
          exact (param_within first).append ((following_within others).before _)

theorem decl_within {d : Decl} (derived : DeclRule bare d ts) : Within d.parts ts := by
  cases derived with
  | directive => exact .nil
  | comment => exact .nil
  | prototype _ sig _ => exact (signature_within sig).before _
  | function _ sig body => exact (signature_within sig).append ((block_within body).block body)
  | var _ d => exact var_within d
  | struct _ d =>
      cases d with
      | intro _ _ _ fields _ _ =>
          have inside := traced_within Traced.fieldTree
            (fun _ _ field own => (var_within field.1).enclosed own trivial) fields
          exact ((((inside.before _).before _).behind _).behind _).behind _

theorem unit_laid {u : ScriptUnit} (derived : UnitRule bare u ts) : Laid u.tree := by
  cases derived with
  | intro decls _ =>
      have inside := traced_within Traced.declTree
        (fun _ _ decl own => (decl_within decl).enclosed own trivial) decls
      exact .node trivial (inside.before _)

theorem unit_spaced {u : ScriptUnit} (derived : UnitRule bare u ts) :
    Spaced (u.decls.map (·.tokens)) ts := by
  cases derived with
  | intro decls blank => exact (spaced_traced decls).before_space blank

end units

end Grammar

structure Stretch where
  start : Nat
  stop : Nat

namespace Stretch

def Holds (outer inner : Stretch) : Prop :=
  outer.start ≤ inner.start ∧ inner.start ≤ inner.stop ∧ inner.stop ≤ outer.stop

def Precedes (first second : Stretch) : Prop := first.stop ≤ second.start

end Stretch

-- A tree with a stretch of the tokens for each node. A node has the tokens of its stretch, and
-- the stretches of its children lie inside it, one behind the other.
inductive Placed (toks : List Token) : Rose (Node × Stretch) → Prop where
  | node : toks.extract place.start place.stop = n.tokens →
      (∀ child ∈ children, place.Holds child.value.2) →
      children.Pairwise (fun a b => a.value.2.Precedes b.value.2) →
      (∀ child ∈ children, Placed toks child) → Placed toks (.node (n, place) children)

namespace Grammar

theorem extract_middle (before ts after : List Token) :
    (before ++ (ts ++ after)).extract before.length (before.length + ts.length) = ts := by
  simp [List.extract]

mutual

theorem Laid.place {toks : List Token} {tree : Rose Node} :
    Laid tree → ∀ before after, toks = before ++ (tree.value.tokens ++ after) →
      ∃ placed, placed.map Prod.fst = tree ∧
        placed.value.2 = ⟨before.length, before.length + tree.value.tokens.length⟩ ∧
        Placed toks placed
  | .node _ inside => by
      intro before after whole
      obtain ⟨children, erased, held, ordered, each⟩ := inside.place before after whole
      refine ⟨.node (_, _) children, by rw [Rose.map, erased], rfl, .node ?_ held ordered each⟩
      rw [whole]
      exact extract_middle before _ after

theorem Within.place {toks : List Token} {trees : List (Rose Node)} {ts : List Token} :
    Within trees ts → ∀ before after, toks = before ++ (ts ++ after) →
      ∃ placed, Rose.mapAll Prod.fst placed = trees ∧
        (∀ child ∈ placed,
          Stretch.Holds ⟨before.length, before.length + ts.length⟩ child.value.2) ∧
        placed.Pairwise (fun a b => a.value.2.Precedes b.value.2) ∧
        ∀ child ∈ placed, Placed toks child
  | .nil => fun _ _ _ => ⟨[], rfl, by simp, .nil, by simp⟩
  | @Within.cons tree trees us gap _ laid later => by
      intro before after whole
      have here : toks = (before ++ gap) ++ (tree.value.tokens ++ (us ++ after)) := by
        simp [whole]
      have behind : toks = (before ++ gap ++ tree.value.tokens) ++ (us ++ after) := by
        simp [whole]
      obtain ⟨first, erased, own, placed⟩ := laid.place _ _ here
      obtain ⟨others, erasedOthers, held, ordered, each⟩ := later.place _ _ behind
      simp only [Stretch.Holds, List.length_append] at own held ⊢
      refine ⟨first :: others, by rw [Rose.mapAll, erased, erasedOthers], ?_, ?_, ?_⟩
      · rw [List.forall_mem_cons, own]
        dsimp only
        refine ⟨⟨by omega, by omega, by omega⟩, ?_⟩
        intro child present
        obtain ⟨low, filled, high⟩ := held child present
        exact ⟨by omega, filled, by omega⟩
      · refine List.pairwise_cons.mpr ⟨?_, ordered⟩
        intro child present
        rw [own]
        exact (held child present).1
      · exact List.forall_mem_cons.mpr ⟨placed, each⟩

end

mutual

theorem Laid.shaped {tree : Rose Node} : Laid tree → ∀ n ∈ tree.preorder, Shaped n
  | .node own inside => by
      intro n present
      rcases List.mem_cons.mp present with rfl | below
      · exact own
      · exact inside.shaped n below

theorem Within.shaped {trees : List (Rose Node)} {ts : List Token} :
    Within trees ts → ∀ n ∈ Rose.visitsAll (fun _ => true) trees, Shaped n
  | .nil => by simp [Rose.visitsAll]
  | .cons _ first later => by
      intro n present
      exact (List.mem_append.mp present).elim (first.shaped n) (later.shaped n)

end

end Grammar

namespace ScriptUnit

open Grammar (Spaced Bracketed)

theorem parse_nested {name : List UInt8} {lines : List (List UInt8)} {toks : List Token}
    {u : ScriptUnit} (parsed : parse name lines toks = .ok u) :
    Spaced (u.decls.map (·.tokens)) toks ∧
      (∀ stmts own, Node.stmt (.block stmts own) ∈ u.walk (fun _ => true) →
        Bracketed stmts own) ∧
      ∃ placed, placed.map Prod.fst = u.tree ∧
        placed.preorder.map Prod.fst = u.walk (fun _ => true) ∧
        placed.value.2 = ⟨0, toks.length⟩ ∧ Placed toks placed := by
  have derived := (parseWith_sound parsed).2
  have laid := Grammar.unit_laid derived
  refine ⟨Grammar.unit_spaced derived, ?_, ?_⟩
  · intro stmts own visited
    exact laid.shaped _ visited
  · have whole : u.tree.value.tokens = toks := by
      cases derived
      rfl
    have alone : toks = [] ++ (u.tree.value.tokens ++ []) := by simp [whole]
    obtain ⟨placed, erased, all, each⟩ := laid.place [] [] alone
    refine ⟨placed, erased, ?_, ?_, each⟩
    · rw [← Rose.preorder_map, erased]
      rfl
    · rw [all, whole, List.length_nil, Nat.zero_add]

-- Comments in front of a body belong to it, and an expression may be empty.
theorem parse_nested_bodies : ∃ u,
    parse [] [] (tokenize (utf8 "int f() { if (a) /*c*/ { f(); } else return ; }")) = .ok u ∧
      (∃ stmts own, Node.stmt (.block stmts own) ∈ u.walk (fun _ => true) ∧
        Bracketed stmts own) ∧
      ∃ placed, placed.map Prod.fst = u.tree ∧
        Placed (tokenize (utf8 "int f() { if (a) /*c*/ { f(); } else return ; }")) placed := by
  let toks := tokenize (utf8 "int f() { if (a) /*c*/ { f(); } else return ; }")
  have found : (parse [] [] toks).toOption.any (fun u => (u.walk fun _ => true).any fun
      | .stmt (.block _ _) => true
      | _ => false) = true := by decide +kernel
  cases outcome : parse [] [] toks with
  | error err =>
      rw [outcome] at found
      cases found
  | ok u =>
      simp only [outcome, Except.toOption, Option.any_some, List.any_eq_true] at found
      obtain ⟨n, visited, block⟩ := found
      obtain ⟨_, bracketed, placed, erased, _, _, each⟩ := parse_nested outcome
      refine ⟨u, rfl, ?_, placed, erased, each⟩
      split at block
      · exact ⟨_, _, visited, bracketed _ _ visited⟩
      · cases block

end ScriptUnit

end NwscriptBindings
