import NwscriptBindings.Proofs.Grammar.Nesting

namespace NwscriptBindings

-- An `if` and a loop hold what they run in the same slot as a function. The condition of a `do`
-- stands behind what it runs, so it has a slot of its own.
inductive Node.Slot where
  | decl (i : Nat) | member (i : Nat) | result | param (i : Nat) | type | default
  | target | value | args | tag | init | cond | post | stmt (i : Nat) | body | again
  | otherwise | branch | returned
deriving DecidableEq

namespace Node.Slot

-- The order in which fields stand, and the place in a field.
def place : Slot → Nat × Nat
  | decl i => (0, i)
  | member i => (1, i)
  | result => (2, 0)
  | param i => (3, i)
  | type => (4, 0)
  | default => (5, 0)
  | target => (6, 0)
  | value => (7, 0)
  | args => (8, 0)
  | tag => (9, 0)
  | init => (10, 0)
  | cond => (11, 0)
  | post => (12, 0)
  | stmt i => (13, i)
  | body => (14, 0)
  | again => (15, 0)
  | otherwise => (16, 0)
  | branch => (17, 0)
  | returned => (18, 0)

def Before (s t : Slot) : Prop :=
  s.place.1 < t.place.1 ∨ s.place.1 = t.place.1 ∧ s.place.2 < t.place.2

instance (s t : Slot) : Decidable (s.Before t) := inferInstanceAs (Decidable (_ ∨ _))

theorem Before.irrefl (s : Slot) : ¬ s.Before s := by
  rintro (less | less)
  · exact Nat.lt_irrefl _ less
  · exact Nat.lt_irrefl _ less.2

end Node.Slot

def VarDecl.held (d : VarDecl) : Node.Slot → Option Node
  | .type => some (.type d.type)
  | .init => d.init.map .expr
  | _ => none

def Param.held (p : Param) : Node.Slot → Option Node
  | .type => some (.type p.type)
  | .default => p.default.map .value
  | _ => none

def Signature.held (sig : Signature) : Node.Slot → Option Node
  | .result => some (.type sig.result)
  | .param i => sig.params[i]?.map .param
  | _ => none

def StructDecl.held (d : StructDecl) : Node.Slot → Option Node
  | .member i => d.fields[i]?.map fun field => .decl ⟨.var field.content, field.tokens⟩
  | _ => none

def Decl.held : Decl → Node.Slot → Option Node
  | .directive _, _ | .comment _, _ => none
  | .struct d, slot => d.held slot
  | .prototype sig, slot => sig.held slot
  | .function _ body, .body => some (.stmt (.block body.content body.tokens))
  | .function sig _, slot => sig.held slot
  | .var d, slot => d.held slot

def Stmt.held : Stmt → Node.Slot → Option Node
  | .var d _, slot => d.held slot
  | .block stmts _, .stmt i => stmts[i]?.map .stmt
  | .assign target _ _ _, .target => some (.value target.asValue)
  | .assign _ _ value _, .value => some (.expr value)
  | .step target _ _, .target => some (.value target.asValue)
  | .call _ args _, .args => some (.expr args)
  | .whileLoop cond _ _, .cond => some (.expr cond)
  | .whileLoop _ body _, .body => some (.stmt body)
  | .forLoop init _ _ _ _, .init => some (.expr init)
  | .forLoop _ cond _ _ _, .cond => some (.expr cond)
  | .forLoop _ _ post _ _, .post => some (.expr post)
  | .forLoop _ _ _ body _, .body => some (.stmt body)
  | .doLoop body _ _, .body => some (.stmt body)
  | .doLoop _ cond _, .again => some (.expr cond)
  | .ifThen cond _ _, .cond => some (.expr cond)
  | .ifThen _ body _, .body => some (.stmt body)
  | .ifElse cond _ _ _ _, .cond => some (.expr cond)
  | .ifElse _ body _ _ _, .body => some (.stmt body)
  | .ifElse _ _ other elseTokens _, .otherwise => some (.otherwise other elseTokens)
  | .leave result _, .returned => result.map .expr
  | .switch tag _ _ _, .tag => some (.expr tag)
  | .switch _ stmts blockTokens _, .body => some (.stmt (.block stmts blockTokens))
  | .label value _, .value => value.map .value
  | _, _ => none

namespace Node

def held : Node → Slot → Option Node
  | unit u, .decl i => u.decls[i]?.map .decl
  | decl d, slot => d.content.held slot
  | param p, slot => p.content.held slot
  | stmt s, slot => s.held slot
  | otherwise body _, .branch => some (.stmt body)
  | _, _ => none

def parts : Node → List (Rose Node)
  | unit u => u.decls.map Traced.declTree
  | decl d => d.content.parts
  | param p => p.content.type.typeTree :: (p.content.default.map Traced.valueTree).toList
  | type _ | value _ | expr _ => []
  | stmt s => s.parts
  | otherwise body _ => [body.tree]

def tree (n : Node) : Rose Node := .node n n.parts

theorem unit_tree (u : ScriptUnit) : (unit u).tree = u.tree := rfl

theorem stmt_trees (stmts : List Stmt) : Stmt.trees stmts = stmts.map Stmt.tree := by
  induction stmts with
  | nil => rw [Stmt.trees, List.map_nil]
  | cons s stmts ih => rw [Stmt.trees, ih, List.map_cons, Stmt.tree]

structure Fills (held : Slot → Option Node) (slots : List Slot) (nodes : List Node) : Prop where
  ordered : slots.Pairwise Slot.Before
  every : ∀ slot, (held slot).isSome → slot ∈ slots
  same : slots.map held = nodes.map some

def Filled (held : Slot → Option Node) (trees : List (Rose Node)) : Prop :=
  ∃ slots nodes, Fills held slots nodes ∧ trees = nodes.map tree

section lists

variable {α : Type} {held : Slot → Option Node} {slot : Nat → Slot} {xs : List α} {f : α → Node}

def places (slot : Nat → Slot) (xs : List α) : List Slot := (List.range xs.length).map slot

theorem places_ordered (ordered : ∀ i j, i < j → (slot i).Before (slot j)) :
    (places slot xs).Pairwise Slot.Before := by
  rw [places, List.pairwise_map]
  exact List.pairwise_lt_range.imp (ordered _ _)

theorem mem_places {i : Nat} (here : held (slot i) = xs[i]?.map f)
    (filled : (held (slot i)).isSome) : slot i ∈ places slot xs := by
  rw [here, Option.isSome_map] at filled
  obtain ⟨x, found⟩ := Option.isSome_iff_exists.mp filled
  obtain ⟨within, _⟩ := List.getElem?_eq_some_iff.mp found
  exact List.mem_map.mpr ⟨i, List.mem_range.mpr within, rfl⟩

theorem held_places (here : ∀ i, held (slot i) = xs[i]?.map f) :
    (places slot xs).map held = (xs.map f).map some := by
  apply List.ext_getElem
  · simp [places]
  · intro i _ within
    simp only [List.length_map] at within
    simp [places, here, within]

theorem filled_list (slot : Nat → Slot) (xs : List α) (f : α → Node)
    (ordered : ∀ i j, i < j → (slot i).Before (slot j))
    (here : ∀ i, held (slot i) = xs[i]?.map f)
    (only : ∀ s, (held s).isSome → ∃ i, s = slot i) :
    Filled held (xs.map fun x => (f x).tree) := by
  refine ⟨places slot xs, xs.map f, ⟨places_ordered ordered, ?_, held_places here⟩, by simp⟩
  intro s filled
  obtain ⟨i, rfl⟩ := only s filled
  exact mem_places (here i) filled

end lists

theorem filled_none {held : Slot → Option Node} (empty : ∀ slot, held slot = none) :
    Filled held [] :=
  ⟨[], [], ⟨.nil, fun slot filled => by simp [empty slot] at filled, rfl⟩, rfl⟩

theorem filled_var (d : VarDecl) : Filled d.held d.parts := by
  obtain ⟨type, name, init, isConst⟩ := d
  cases init with
  | none =>
      refine ⟨[.type], [.type type], ⟨by simp, ?_, rfl⟩, rfl⟩
      intro slot
      cases slot <;> simp [VarDecl.held]
  | some e =>
      refine ⟨[.type, .init], [.type type, .expr e], ⟨?_, ?_, rfl⟩, rfl⟩
      · decide
      · intro slot
        cases slot <;> simp [VarDecl.held]

theorem filled_param (p : Traced Param) : Filled p.content.held (parts (.param p)) := by
  obtain ⟨⟨type, name, given⟩, tokens⟩ := p
  cases given with
  | none =>
      refine ⟨[.type], [.type type], ⟨by simp, ?_, rfl⟩, rfl⟩
      intro slot
      cases slot <;> simp [Param.held]
  | some v =>
      refine ⟨[.type, .default], [.type type, .value v], ⟨?_, ?_, rfl⟩, rfl⟩
      · decide
      · intro slot
        cases slot <;> simp [Param.held]

theorem filled_prototype (sig : Signature) : Filled sig.held sig.parts := by
  refine ⟨.result :: places .param sig.params, .type sig.result :: sig.params.map .param,
    ⟨?_, ?_, ?_⟩, ?_⟩
  · refine List.pairwise_cons.mpr ⟨?_, places_ordered fun i j less => .inr ⟨rfl, less⟩⟩
    simp [places, Slot.Before, Slot.place]
  · intro slot filled
    cases slot with
    | result => simp
    | param i => exact List.mem_cons_of_mem _ (mem_places (f := .param) rfl filled)
    | _ => simp [Signature.held] at filled
  · rw [List.map_cons, held_places (f := .param) fun i => rfl]
    rfl
  · rw [Signature.parts, List.map_cons, List.map_map]
    rfl

theorem Fills.concat {held other : Slot → Option Node} {slots : List Slot} {nodes : List Node}
    (fills : Fills other slots nodes) {last : Slot} {m : Node} (here : held last = some m)
    (later : ∀ slot ∈ slots, slot.Before last) (kept : ∀ slot ≠ last, held slot = other slot) :
    Fills held (slots ++ [last]) (nodes ++ [m]) := by
  refine ⟨?_, ?_, ?_⟩
  · refine List.pairwise_append.mpr ⟨fills.ordered, List.pairwise_singleton _ _, ?_⟩
    simpa using later
  · intro slot filled
    by_cases same : slot = last
    · simp [same]
    · rw [kept slot same] at filled
      exact List.mem_append_left _ (fills.every slot filled)
  · have before : slots.map held = slots.map other := by
      refine List.map_congr_left fun slot present => kept slot ?_
      rintro rfl
      exact Slot.Before.irrefl _ (later _ present)
    rw [List.map_append, List.map_append, before, fills.same, List.map_singleton, here]
    rfl

theorem filled_function (sig : Signature) (body : Traced (List Stmt)) :
    Filled (Decl.function sig body).held (Decl.function sig body).parts := by
  obtain ⟨slots, nodes, fills, below⟩ := filled_prototype sig
  refine ⟨slots ++ [.body], nodes ++ [.stmt (.block body.content body.tokens)],
    fills.concat rfl ?_ ?_, ?_⟩
  · intro slot present
    have filled : (sig.held slot).isSome := by
      have found := List.mem_map_of_mem (f := sig.held) present
      rw [fills.same] at found
      obtain ⟨m, _, same⟩ := List.mem_map.mp found
      simp [← same]
    cases slot <;> simp [Signature.held] at filled <;> simp [Slot.Before, Slot.place]
  · intro slot other
    cases slot <;> first | rfl | exact (other rfl).elim
  · rw [Decl.parts, below, List.map_append, List.map_singleton, tree, parts, Stmt.parts]

theorem filled_stmt (s : Stmt) : Filled s.held s.parts := by
  cases s with
  | comment c tokens =>
      rw [Stmt.parts]
      exact filled_none fun slot => by cases slot <;> rfl
  | var d tokens =>
      rw [Stmt.parts]
      exact filled_var d
  | block stmts tokens =>
      rw [Stmt.parts, stmt_trees]
      refine filled_list .stmt stmts .stmt (fun i j less => .inr ⟨rfl, less⟩) (fun i => rfl) ?_
      intro slot filled
      cases slot with
      | stmt i => exact ⟨i, rfl⟩
      | _ => simp [Stmt.held] at filled
  | assign target op value tokens =>
      rw [Stmt.parts]
      refine ⟨[.target, .value], [.value target.asValue, .expr value],
        ⟨by decide, fun slot => ?_, rfl⟩, rfl⟩
      cases slot <;> simp [Stmt.held]
  | step target op tokens =>
      rw [Stmt.parts]
      refine ⟨[.target], [.value target.asValue], ⟨by decide, fun slot => ?_, rfl⟩, rfl⟩
      cases slot <;> simp [Stmt.held]
  | call name args tokens =>
      rw [Stmt.parts]
      refine ⟨[.args], [.expr args], ⟨by decide, fun slot => ?_, rfl⟩, rfl⟩
      cases slot <;> simp [Stmt.held]
  | whileLoop cond body tokens =>
      rw [Stmt.parts]
      refine ⟨[.cond, .body], [.expr cond, .stmt body], ⟨by decide, fun slot => ?_, rfl⟩, rfl⟩
      cases slot <;> simp [Stmt.held]
  | forLoop init cond post body tokens =>
      rw [Stmt.parts]
      refine ⟨[.init, .cond, .post, .body], [.expr init, .expr cond, .expr post, .stmt body],
        ⟨by decide, fun slot => ?_, rfl⟩, rfl⟩
      cases slot <;> simp [Stmt.held]
  | doLoop body cond tokens =>
      rw [Stmt.parts]
      refine ⟨[.body, .again], [.stmt body, .expr cond], ⟨by decide, fun slot => ?_, rfl⟩, rfl⟩
      cases slot <;> simp [Stmt.held]
  | ifThen cond body tokens =>
      rw [Stmt.parts]
      refine ⟨[.cond, .body], [.expr cond, .stmt body], ⟨by decide, fun slot => ?_, rfl⟩, rfl⟩
      cases slot <;> simp [Stmt.held]
  | ifElse cond body other elseTokens tokens =>
      rw [Stmt.parts]
      refine ⟨[.cond, .body, .otherwise], [.expr cond, .stmt body, .otherwise other elseTokens],
        ⟨by decide, fun slot => ?_, rfl⟩, rfl⟩
      cases slot <;> simp [Stmt.held]
  | leave result tokens =>
      rw [Stmt.parts]
      cases result with
      | none => exact filled_none fun slot => by cases slot <;> rfl
      | some e =>
          refine ⟨[.returned], [.expr e], ⟨by decide, fun slot => ?_, rfl⟩, rfl⟩
          cases slot <;> simp [Stmt.held]
  | switch tag stmts blockTokens tokens =>
      rw [Stmt.parts]
      refine ⟨[.tag, .body], [.expr tag, .stmt (.block stmts blockTokens)],
        ⟨by decide, fun slot => ?_, rfl⟩, ?_⟩
      · cases slot <;> simp [Stmt.held]
      · simp [tree, parts, Stmt.parts, Traced.exprTree, Rose.leaf]
  | label value tokens =>
      rw [Stmt.parts]
      cases value with
      | none => exact filled_none fun slot => by cases slot <;> rfl
      | some v =>
          refine ⟨[.value], [.value v], ⟨by decide, fun slot => ?_, rfl⟩, rfl⟩
          cases slot <;> simp [Stmt.held]
  | breakOut tokens =>
      rw [Stmt.parts]
      exact filled_none fun slot => by cases slot <;> rfl
  | continueOn tokens =>
      rw [Stmt.parts]
      exact filled_none fun slot => by cases slot <;> rfl

theorem filled_decl (d : Decl) : Filled d.held d.parts := by
  cases d with
  | directive text => exact filled_none fun slot => rfl
  | comment c => exact filled_none fun slot => rfl
  | struct d =>
      refine filled_list .member d.fields (fun field => .decl ⟨.var field.content, field.tokens⟩)
        (fun i j less => .inr ⟨rfl, less⟩) (fun i => rfl) ?_
      intro slot filled
      cases slot with
      | member i => exact ⟨i, rfl⟩
      | _ => simp [Decl.held, StructDecl.held] at filled
  | prototype sig => exact filled_prototype sig
  | function sig body => exact filled_function sig body
  | var d => exact filled_var d

theorem filled_parts (n : Node) : Filled n.held n.parts := by
  cases n with
  | unit u =>
      refine filled_list .decl u.decls .decl (fun i j less => .inr ⟨rfl, less⟩) (fun i => rfl) ?_
      intro slot filled
      cases slot with
      | decl i => exact ⟨i, rfl⟩
      | _ => simp [held] at filled
  | decl d => exact filled_decl d.content
  | param p => exact filled_param p
  | type t => exact filled_none fun slot => by cases slot <;> rfl
  | value v => exact filled_none fun slot => by cases slot <;> rfl
  | expr e => exact filled_none fun slot => by cases slot <;> rfl
  | stmt s => exact filled_stmt s
  | otherwise body tokens =>
      refine ⟨[.branch], [.stmt body], ⟨by decide, fun slot => ?_, rfl⟩, rfl⟩
      cases slot <;> simp [held]

end Node
end NwscriptBindings
