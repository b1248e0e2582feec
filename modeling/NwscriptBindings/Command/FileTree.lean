import NwscriptBindings.Command.Host

namespace NwscriptBindings

abbrev Location := List (List UInt8)

inductive Entry where
  | file (content : List UInt8)
  | directory
deriving DecidableEq

namespace Entry

def kind : Entry → EntryKind
  | file _ => .file
  | directory => .directory

end Entry

-- Every location but the root has at most one entry that counts, the first one.
structure FileTree where
  entries : List (Location × Entry)
  working : Location
deriving DecidableEq

namespace FileTree

def ofWorking (working : Location) : FileTree :=
  ⟨(List.range working.length).map fun i => (working.take (i + 1), .directory), working⟩

def lookup (tree : FileTree) (place : Location) : Option Entry :=
  if place = [] then some .directory else tree.entries.lookup place

def insert (tree : FileTree) (place : Location) (entry : Entry) : FileTree :=
  { tree with entries := (place, entry) :: tree.entries.filter (·.1 ≠ place) }

@[simp] theorem lookup_insert_same (tree : FileTree) (place : Location) (entry : Entry)
    (below : place ≠ []) : (tree.insert place entry).lookup place = some entry := by
  simp [lookup, insert, below]

theorem lookup_filter (entries : List (Location × Entry)) (place other : Location)
    (differ : other ≠ place) :
    (entries.filter (·.1 ≠ place)).lookup other = entries.lookup other := by
  induction entries with
  | nil => rfl
  | cons head tail ih =>
      by_cases removed : head.1 = place
      · have kept : (other == head.1) = false := by simp [removed, differ]
        obtain ⟨key, value⟩ := head
        simp only at removed kept
        rw [List.filter_cons_of_neg (by simp [removed]), List.lookup_cons, kept]
        exact ih
      · rw [List.filter_cons_of_pos (by simpa using removed)]
        obtain ⟨key, value⟩ := head
        simp only [List.lookup_cons, ih]

theorem lookup_insert_other (tree : FileTree) (place other : Location) (entry : Entry)
    (differ : other ≠ place) : (tree.insert place entry).lookup other = tree.lookup other := by
  have unequal : (other == place) = false := by simp [differ]
  simp only [lookup, insert, List.lookup_cons, unequal, lookup_filter _ _ _ differ]

def maxName : Nat := 255

def maxPath : Nat := 4095

def child (tree : FileTree) (place : Location) (name : List UInt8) : Except FileCause Location :=
  match tree.lookup place with
  | none => .error .missing
  | some (.file _) => .error .notDirectory
  | some .directory =>
      if name.isEmpty || name == Path.dot then .ok place
      else if name == Path.dotDot then .ok place.dropLast
      else if maxName < name.length then .error .nameTooLong
      else .ok (place ++ [name])

def follow (tree : FileTree) : Location → List (List UInt8) → Except FileCause Location
  | place, [] => .ok place
  | place, name :: names =>
      match tree.child place name with
      | .error cause => .error cause
      | .ok next =>
          match tree.lookup next with
          | none => .error .missing
          | some _ => tree.follow next names

-- The last element need not exist. No path holds a zero byte.
def locate (tree : FileTree) (path : List UInt8) : Except FileCause Location :=
  if path.contains 0 then .error .invalid
  else if path.isEmpty then .error .missing
  else if maxPath < path.length then .error .nameTooLong
  else
    let start := if Path.isRooted path then [] else tree.working
    match tree.follow start (Bytes.splitOn Path.slash (Path.upToLastSlash path)) with
    | .error cause => .error cause
    | .ok place => tree.child place (Path.lastElement path)

def resolve (tree : FileTree) (path : List UInt8) : Except FileCause Entry :=
  match tree.locate path with
  | .error cause => .error cause
  | .ok place =>
      match tree.lookup place with
      | none => .error .missing
      | some entry => .ok entry

def read (tree : FileTree) (path : List UInt8) : Except FileFault (List UInt8) :=
  match tree.resolve path with
  | .error cause => .error ⟨.access, path, cause⟩
  | .ok .directory => .error ⟨.read, path, .isDirectory⟩
  | .ok (.file content) => .ok content

def write (tree : FileTree) (path content : List UInt8) : Except FileFault FileTree :=
  match tree.locate path with
  | .error cause => .error ⟨.access, path, cause⟩
  | .ok place =>
      match tree.lookup place with
      | some .directory => .error ⟨.access, path, .isDirectory⟩
      | _ => .ok (tree.insert place (.file content))

def kind (tree : FileTree) (path : List UInt8) : Option EntryKind :=
  (tree.resolve path).toOption.map Entry.kind

def namesAt (tree : FileTree) (place : Location) : List (List UInt8) :=
  (tree.entries.filterMap fun (at_, _) =>
    if at_.dropLast = place then at_.getLast? else none).eraseDups

def names (tree : FileTree) (path : List UInt8) : Option (List (List UInt8)) :=
  match tree.locate path with
  | .error _ => none
  | .ok place =>
      match tree.lookup place with
      | some .directory => some (tree.namesAt place)
      | _ => none

def makeDir (tree : FileTree) (path : List UInt8) : Except FileFault FileTree :=
  match tree.locate (Path.trimSlashes path) with
  | .error cause => .error ⟨.makeDir, path, cause⟩
  | .ok place =>
      match tree.lookup place with
      | some _ => .error ⟨.makeDir, path, .present⟩
      | none => .ok (tree.insert place .directory)

def filesBelow (tree : FileTree) (top : Location) : List (Location × List UInt8) :=
  tree.entries.filterMap fun (place, entry) =>
    match entry with
    | .file content => if top.isPrefixOf place then some (place.drop top.length, content) else none
    | .directory => none

end FileTree

def updateTree (change : FileTree → Except FileFault FileTree) :
    StateM FileTree (Except FileFault Unit) := fun tree =>
  match change tree with
  | .ok tree' => (.ok (), tree')
  | .error fault => (.error fault, tree)

def FileTree.host (runtimeVersion : List UInt8) : Host (StateM FileTree) where
  read path := fun tree => (tree.read path, tree)
  write path content := updateTree (·.write path content)
  kind path := fun tree => (tree.kind path, tree)
  names path := fun tree => (tree.names path, tree)
  makeDir path := updateTree (·.makeDir path)
  clock := pure 0
  runtimeVersion := runtimeVersion

end NwscriptBindings
