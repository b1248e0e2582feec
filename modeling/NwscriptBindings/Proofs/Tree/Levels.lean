import NwscriptBindings.Proofs.Grammar.Reemission
import NwscriptBindings.Proofs.Text.OneLine
import NwscriptBindings.Proofs.Text.Splitting
import NwscriptBindings.Tree.Outline

namespace NwscriptBindings

namespace Rose

variable {α : Type}

mutual

def levels (depth : Nat) : Rose α → List (Nat × α)
  | .node value children => (depth, value) :: levelsAll (depth + 1) children

def levelsAll (depth : Nat) : List (Rose α) → List (Nat × α)
  | [] => []
  | tree :: trees => levels depth tree ++ levelsAll depth trees

end

inductive Under : Rose α → Nat → Rose α → Prop where
  | here : Under tree 0 tree
  | deeper : child ∈ children → Under child k tree → Under (.node a children) (k + 1) tree

section levels

variable {tree inner : Rose α} {trees : List (Rose α)} {k m : Nat}

mutual

theorem levels_shift (depth more : Nat) (tree : Rose α) :
    tree.levels (depth + more) = (tree.levels depth).map fun x => (x.1 + more, x.2) := by
  cases tree with
  | node value children =>
      rw [levels, levels, List.map_cons, Nat.add_right_comm, levelsAll_shift]

theorem levelsAll_shift (depth more : Nat) (trees : List (Rose α)) :
    levelsAll (depth + more) trees = (levelsAll depth trees).map fun x => (x.1 + more, x.2) := by
  cases trees with
  | nil => rfl
  | cons tree trees =>
      rw [levelsAll, levelsAll, List.map_append, levels_shift, levelsAll_shift]

end

mutual

theorem levels_values (depth : Nat) (tree : Rose α) :
    (tree.levels depth).map Prod.snd = tree.preorder := by
  cases tree with
  | node value children =>
      rw [levels, List.map_cons, levelsAll_values, preorder, visits, if_pos rfl]

theorem levelsAll_values (depth : Nat) (trees : List (Rose α)) :
    (levelsAll depth trees).map Prod.snd = visitsAll (fun _ => true) trees := by
  cases trees with
  | nil => rfl
  | cons tree trees =>
      rw [levelsAll, List.map_append, levels_values, levelsAll_values, preorder, visitsAll]

end

-- Behind one of several trees comes the next one, which begins at their depth.
theorem levelsAll_place (present : tree ∈ trees) (depth : Nat) : ∃ before after,
    levelsAll depth trees = before ++ (tree.levels depth ++ after) ∧
      ∀ x ∈ after.head?, x.1 = depth := by
  induction trees with
  | nil => cases present
  | cons first trees ih =>
      rcases List.mem_cons.mp present with rfl | later
      · refine ⟨[], levelsAll depth trees, rfl, ?_⟩
        cases trees with
        | nil => simp [levelsAll]
        | cons next trees =>
            cases next with
            | node value children =>
                rintro _ ⟨⟩
                rfl
      · obtain ⟨before, after, place, next⟩ := ih later
        refine ⟨first.levels depth ++ before, after, ?_, next⟩
        rw [levelsAll, place, List.append_assoc]

theorem Under.block (under : Under tree k inner) (depth : Nat) : ∃ before after,
    tree.levels depth = before ++ (inner.levels (depth + k) ++ after) ∧
      ∀ x ∈ after.head?, x.1 ≤ depth + k := by
  induction under generalizing depth with
  | here => exact ⟨[], [], by simp, by simp⟩
  | @deeper child children k tree a present _ ih =>
      obtain ⟨front, back, place, next⟩ := levelsAll_place present (depth + 1)
      obtain ⟨before, after, inside, bound⟩ := ih (depth + 1)
      have lower : depth + 1 + k = depth + (k + 1) := by omega
      rw [lower] at inside bound
      refine ⟨(depth, a) :: (front ++ before), after ++ back, ?_, ?_⟩
      · rw [levels, place, inside]
        simp
      · intro x first
        cases after with
        | nil =>
            have level := next x first
            omega
        | cons y after => exact bound x first

theorem Under.trans {middle : Rose α} (first : Under tree k middle)
    (second : Under middle m inner) : Under tree (k + m) inner := by
  induction first with
  | here => rwa [Nat.zero_add]
  | deeper present _ ih =>
      rw [Nat.add_right_comm]
      exact .deeper present (ih second)

theorem Under.preorder_subset (under : Under tree k inner) :
    ∀ a ∈ inner.preorder, a ∈ tree.preorder := by
  induction under with
  | here => exact fun a present => present
  | deeper present _ ih =>
      exact fun a inside => Grammar.mem_preorder_node.mpr (.inr ⟨_, present, ih a inside⟩)

end levels

end Rose

namespace Bytes

def written (x : Nat × List UInt8) : List UInt8 := List.replicate (2 * x.1) (byte ' ') ++ x.2

def measured (line : List UInt8) : Nat × List UInt8 :=
  ((line.takeWhile (· == byte ' ')).length, line.dropWhile (· == byte ' '))

def Proper (line : List UInt8) : Prop := line.head?.any (· != byte ' ') = true ∧ OneLine line

instance (line : List UInt8) : Decidable (Proper line) := inferInstanceAs (Decidable (_ ∧ _))

theorem Proper.append {front back : List UInt8} (first : Proper front) (plain : OneLine back) :
    Proper (front ++ back) := by
  obtain ⟨begins, oneLine⟩ := first
  refine ⟨?_, oneLine.append plain⟩
  cases front with
  | nil => cases begins
  | cons c front => exact begins

theorem measured_written {x : Nat × List UInt8} (proper : Proper x.2) :
    measured (written x) = (2 * x.1, x.2) := by
  obtain ⟨depth, line⟩ := x
  have spaces : ∀ b ∈ List.replicate (2 * depth) (byte ' '), (b == byte ' ') = true := by
    intro b present
    rw [List.eq_of_mem_replicate present]
    rfl
  obtain ⟨begins, _⟩ := proper
  cases line with
  | nil => cases begins
  | cons c line =>
      have other : (c == byte ' ') = false := by simpa using begins
      rw [measured, written, List.takeWhile_append_of_pos spaces,
        List.dropWhile_append_of_pos spaces]
      simp [other]

theorem written_deeper (depth more : Nat) (line : List UInt8) : written (depth + more, line) =
    List.replicate (2 * more) (byte ' ') ++ written (depth, line) := by
  rw [written, written, ← List.append_assoc, List.replicate_append_replicate]
  congr 2
  dsimp only
  omega

theorem oneLine_written {x : Nat × List UInt8} (plain : OneLine x.2) : OneLine (written x) :=
  (oneLine_replicate (by decide) _).append plain

end Bytes

namespace Rose

mutual

theorem indented_eq (depth : Nat) (tree : Rose (List UInt8)) :
    tree.indented depth = (tree.levels depth).map Bytes.written := by
  cases tree with
  | node line below =>
      rw [indented, levels, List.map_cons, indentedAll_eq]
      rfl

theorem indentedAll_eq (depth : Nat) (trees : List (Rose (List UInt8))) :
    indentedAll depth trees = (levelsAll depth trees).map Bytes.written := by
  cases trees with
  | nil => rfl
  | cons tree trees =>
      rw [indentedAll, levelsAll, List.map_append, indented_eq, indentedAll_eq]

end

end Rose

end NwscriptBindings
