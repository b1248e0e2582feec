namespace NwscriptBindings

inductive Rose (α : Type) where
  | node (value : α) (children : List (Rose α))

namespace Rose

variable {α : Type}

def leaf (value : α) : Rose α := .node value []

mutual

-- The values in pre-order. Below a value that `enter` refuses nothing is visited.
def visits (enter : α → Bool) : Rose α → List α
  | .node value children => value :: if enter value then visitsAll enter children else []

def visitsAll (enter : α → Bool) : List (Rose α) → List α
  | [] => []
  | tree :: trees => visits enter tree ++ visitsAll enter trees

end

def preorder (tree : Rose α) : List α := tree.visits fun _ => true

end Rose
end NwscriptBindings
