import NwscriptBindings.Proofs.Tree.Slots

namespace NwscriptBindings

namespace Node

def at? (n : Node) : List Slot → Option Node
  | [] => some n
  | slot :: path => (n.held slot).bind fun m => m.at? path

def passed (n : Node) : List Slot → List Node
  | [] => []
  | slot :: path => n :: (n.held slot).elim [] fun m => m.passed path

-- The order of paths: what is above comes first, and then the order of the slots decides.
abbrev PathBefore : List Slot → List Slot → Prop := List.Lex Slot.Before

-- The paths from a node in their order, with what a traversal visits by them.
structure Visited (n : Node) (paths : List (List Slot)) (visits : (Node → Bool) → List Node) :
    Prop where
  ordered : paths.Pairwise PathBefore
  every : ∀ path, path ∈ paths ↔ (n.at? path).isSome
  pruned : ∀ enter, (visits enter).map some =
    (paths.filter fun path => (n.passed path).all enter).map n.at?

structure Below (n : Node) (slots : List Slot) (paths : List (List Slot))
    (visits : (Node → Bool) → List Node) : Prop where
  ordered : paths.Pairwise PathBefore
  begins : ∀ path ∈ paths, ∃ slot ∈ slots, ∃ rest, path = slot :: rest
  every : ∀ slot ∈ slots, ∀ rest, slot :: rest ∈ paths ↔ (n.at? (slot :: rest)).isSome
  pruned : ∀ enter, enter n = true → (visits enter).map some =
    (paths.filter fun path => (n.passed path).all enter).map n.at?

section paths

variable {n m : Node} {slot : Slot} {slots : List Slot} {paths others : List (List Slot)}
  {visits more : (Node → Bool) → List Node}

theorem at?_held (found : n.held slot = some m) (rest : List Slot) :
    n.at? (slot :: rest) = m.at? rest := by
  simp [at?, found]

theorem passed_held (found : n.held slot = some m) (rest : List Slot) :
    n.passed (slot :: rest) = n :: m.passed rest := by
  simp [passed, found]

theorem below_nil (n : Node) : Below n [] [] fun _ => [] :=
  ⟨.nil, by simp, by simp, by simp⟩

theorem Below.cons (below : Below n slots others more) (found : n.held slot = some m)
    (first : Visited m paths visits) (later : ∀ s ∈ slots, slot.Before s) :
    Below n (slot :: slots) (paths.map (slot :: ·) ++ others)
      fun enter => visits enter ++ more enter := by
  refine ⟨?_, ?_, ?_, ?_⟩
  · refine List.pairwise_append.mpr ⟨?_, below.ordered, ?_⟩
    · rw [List.pairwise_map]
      exact first.ordered.imp .cons
    · intro path front other behind
      obtain ⟨rest, _, rfl⟩ := List.mem_map.mp front
      obtain ⟨s, present, tail, rfl⟩ := below.begins other behind
      exact .rel (later s present)
  · intro path present
    rcases List.mem_append.mp present with front | behind
    · obtain ⟨rest, _, rfl⟩ := List.mem_map.mp front
      exact ⟨slot, List.mem_cons_self .., rest, rfl⟩
    · obtain ⟨s, among, tail, rfl⟩ := below.begins path behind
      exact ⟨s, List.mem_cons_of_mem _ among, tail, rfl⟩
  · -- A path tells by its first slot on which side it is.
    intro s among rest
    rw [List.mem_append, List.mem_map]
    rcases List.mem_cons.mp among with rfl | among
    · rw [at?_held found, ← first.every]
      constructor
      · rintro (⟨_, present, ⟨⟩⟩ | behind)
        · exact present
        · obtain ⟨t, among, tail, ⟨⟩⟩ := below.begins _ behind
          exact (Slot.Before.irrefl _ (later _ among)).elim
      · intro present
        exact .inl ⟨rest, present, rfl⟩
    · rw [← below.every s among]
      constructor
      · rintro (⟨_, _, ⟨⟩⟩ | behind)
        · exact (Slot.Before.irrefl _ (later _ among)).elim
        · exact behind
      · exact .inr
  · intro enter entered
    have open_ : ((fun path => (n.passed path).all enter) ∘ fun rest => slot :: rest) =
        fun rest => (m.passed rest).all enter := by
      funext rest
      simp [passed_held found, entered]
    have ends : (n.at? ∘ fun rest => slot :: rest) = m.at? := by
      funext rest
      exact at?_held found rest
    rw [List.map_append, first.pruned, below.pruned enter entered, List.filter_append,
      List.map_append, List.filter_map, List.map_map, open_, ends]

theorem Below.visited (below : Below n slots paths visits)
    (every : ∀ slot, (n.held slot).isSome → slot ∈ slots) :
    Visited n ([] :: paths) fun enter => n :: if enter n then visits enter else [] := by
  refine ⟨?_, ?_, ?_⟩
  · refine List.pairwise_cons.mpr ⟨?_, below.ordered⟩
    intro path present
    obtain ⟨slot, _, rest, rfl⟩ := below.begins path present
    exact .nil
  · intro path
    cases path with
    | nil => simp [at?]
    | cons slot rest =>
        rw [List.mem_cons, or_iff_right (by simp)]
        by_cases among : slot ∈ slots
        · exact below.every slot among rest
        · have empty : n.held slot = none := by
            rw [← Option.not_isSome_iff_eq_none]
            exact fun filled => among (every slot filled)
          constructor
          · intro present
            obtain ⟨_, held, _, ⟨⟩⟩ := below.begins _ present
            exact (among held).elim
          · intro found
            simp [at?, empty] at found
  · intro enter
    rw [List.filter_cons_of_pos (by simp [passed]), List.map_cons, List.map_cons]
    cases entered : enter n with
    | true =>
        rw [if_pos rfl, below.pruned enter entered]
        rfl
    | false =>
        have refused : paths.filter (fun path => (n.passed path).all enter) = [] := by
          refine List.filter_eq_nil_iff.mpr fun path present => ?_
          obtain ⟨slot, _, rest, rfl⟩ := below.begins path present
          simp [passed, entered]
        rw [refused]
        rfl

end paths

-- By recursion on the tree: each child is visited by paths of its own.
mutual

theorem visited_of_tree (shape : Rose Node) (n : Node) (same : n.tree = shape) :
    ∃ paths, Visited n paths fun enter => shape.visits enter := by
  cases shape with
  | node value trees =>
      obtain ⟨rfl, parts⟩ := Rose.node.inj same
      obtain ⟨slots, nodes, fills, below⟩ := filled_parts n
      obtain ⟨paths, found⟩ := below_of_trees trees n slots nodes (parts.symm.trans below)
        fills.ordered fills.same
      exact ⟨[] :: paths, found.visited fills.every⟩

theorem below_of_trees (trees : List (Rose Node)) (n : Node) (slots : List Slot)
    (nodes : List Node) (same : trees = nodes.map tree) (ordered : slots.Pairwise Slot.Before)
    (held : slots.map n.held = nodes.map some) :
    ∃ paths, Below n slots paths fun enter => Rose.visitsAll enter trees := by
  cases trees with
  | nil =>
      obtain rfl := List.map_eq_nil_iff.mp same.symm
      obtain rfl := List.map_eq_nil_iff.mp held
      exact ⟨[], below_nil n⟩
  | cons first trees =>
      obtain ⟨m, nodes, rfl, begins, others⟩ := List.map_eq_cons_iff.mp same.symm
      obtain ⟨slot, slots, rfl, found, held⟩ := List.map_eq_cons_iff.mp held
      obtain ⟨later, ordered⟩ := List.pairwise_cons.mp ordered
      obtain ⟨front, visited⟩ := visited_of_tree first m begins
      obtain ⟨behind, below⟩ := below_of_trees trees n slots nodes others.symm ordered held
      exact ⟨front.map (slot :: ·) ++ behind, below.cons found visited later⟩

end

end Node

namespace ScriptUnit

open Node (PathBefore)

-- The paths to the nodes of a unit stand in one list, in their order. The full traversal visits what
-- stands at each of them, and a pruned one what stands at those that pass no node it rejects.
theorem walk_pruned (u : ScriptUnit) : ∃ paths : List (List Node.Slot),
    paths.Pairwise PathBefore ∧
      (∀ path, path ∈ paths ↔ ((Node.unit u).at? path).isSome) ∧
      (u.walk fun _ => true).map some = paths.map (Node.unit u).at? ∧
      ∀ enter, (u.walk enter).head? = some (.unit u) ∧
        (u.walk enter).map some =
          (paths.filter fun path => ((Node.unit u).passed path).all enter).map
            (Node.unit u).at? := by
  obtain ⟨paths, visited⟩ := Node.visited_of_tree u.tree (.unit u) (Node.unit_tree u)
  refine ⟨paths, visited.ordered, visited.every, ?_, fun enter => ⟨rfl, visited.pruned enter⟩⟩
  have all : paths.filter (fun path => ((Node.unit u).passed path).all fun _ => true) = paths := by
    simp
  exact (visited.pruned _).trans (congrArg _ all)

end ScriptUnit
end NwscriptBindings
