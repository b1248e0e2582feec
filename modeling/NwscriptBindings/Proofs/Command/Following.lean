import NwscriptBindings.Command.FileTree

namespace NwscriptBindings

def Path.elements (path : List UInt8) : List (List UInt8) :=
  Bytes.splitOn Path.slash (Path.upToLastSlash path) ++ [Path.lastElement path]

namespace FileTree

def start (tree : FileTree) (path : List UInt8) : Location :=
  if Path.isRooted path then [] else tree.working

-- Where names lead from a location. That there is something at each is found out by the next name.
def reach (tree : FileTree) : Location → List (List UInt8) → Except FileCause Location
  | place, [] => .ok place
  | place, name :: names =>
      match tree.child place name with
      | .error cause => .error cause
      | .ok next => tree.reach next names

def passed (tree : FileTree) : Location → List (List UInt8) → List Location
  | place, [] => [place]
  | place, name :: names =>
      place ::
        match tree.child place name with
        | .error _ => []
        | .ok next => tree.passed next names

def way (tree : FileTree) (path : List UInt8) : List Location :=
  tree.passed (tree.start path) (Path.elements path)

-- A path that leads somewhere does not lead there, and one that leads nowhere is not stopped there:
-- a file in place of a missing directory would give another error.
def Clear (tree : FileTree) (path : List UInt8) (place : Location) : Prop :=
  match tree.locate path with
  | .ok last => place ≠ last
  | .error _ => place ∉ tree.way path

instance (tree : FileTree) (path : List UInt8) (place : Location) :
    Decidable (tree.Clear path place) :=
  match found : tree.locate path with
  | .ok last => decidable_of_iff (place ≠ last) (by rw [Clear, found])
  | .error _ => decidable_of_iff (place ∉ tree.way path) (by rw [Clear, found])

def content (tree : FileTree) (place : Location) : Option (List UInt8) :=
  match tree.lookup place with
  | some (.file content) => some content
  | _ => none

section reaching

variable {tree : FileTree} {place last : Location} {names : List (List UInt8)} {name : List UInt8}

theorem child_missing (none : tree.lookup place = none) (name : List UInt8) :
    tree.child place name = .error .missing := by
  rw [child, none]

theorem child_ok (found : tree.child place name = .ok last) :
    tree.lookup place = some .directory := by
  unfold child at found
  split at found
  · cases found
  · cases found
  · assumption

-- The name behind a missing entry reports what following up to the entry would.
theorem reach_concat (tree : FileTree) (place : Location) (names : List (List UInt8))
    (name : List UInt8) :
    tree.reach place (names ++ [name]) = (tree.follow place names).bind (tree.child · name) := by
  induction names generalizing place with
  | nil =>
      simp only [List.nil_append, reach, follow, Except.bind]
      cases tree.child place name with
      | error cause => rfl
      | ok next => rfl
  | cons first names ih =>
      rw [List.cons_append, reach, follow]
      cases tree.child place first with
      | error cause => rfl
      | ok next =>
          simp only
          cases found : tree.lookup next with
          | some entry => exact ih next
          | none =>
              cases names with
              | nil => simp only [List.nil_append, reach, child_missing found, Except.bind]
              | cons second names =>
                  simp only [List.cons_append, reach, child_missing found, Except.bind]

theorem locate_eq (tree : FileTree) (path : List UInt8) : tree.locate path =
    if path.contains 0 then .error .invalid
    else if path.isEmpty then .error .missing
    else if maxPath < path.length then .error .nameTooLong
    else tree.reach (tree.start path) (Path.elements path) := by
  rw [locate, Path.elements, reach_concat, start]
  simp only
  cases tree.follow (if Path.isRooted path then [] else tree.working)
      (Bytes.splitOn Path.slash (Path.upToLastSlash path)) with
  | error cause => rfl
  | ok place => rfl

theorem locate_reach {path : List UInt8} (found : tree.locate path = .ok place) :
    tree.reach (tree.start path) (Path.elements path) = .ok place := by
  rw [locate_eq] at found
  split at found
  · cases found
  · split at found
    · cases found
    · split at found
      · cases found
      · exact found

theorem reach_cons (found : tree.reach place (name :: names) = .ok last) :
    ∃ next, tree.child place name = .ok next ∧ tree.reach next names = .ok last := by
  rw [reach] at found
  cases step : tree.child place name with
  | error cause =>
      rw [step] at found
      cases found
  | ok next =>
      rw [step] at found
      exact ⟨next, rfl, found⟩

theorem reach_passed (found : tree.reach place names = .ok last) :
    last ∈ tree.passed place names := by
  induction names generalizing place with
  | nil =>
      cases found
      simp [passed]
  | cons name names ih =>
      obtain ⟨next, step, rest⟩ := reach_cons found
      rw [passed, step]
      exact List.mem_cons_of_mem _ (ih rest)

theorem locate_way {path : List UInt8} (found : tree.locate path = .ok place) :
    place ∈ tree.way path := reach_passed (locate_reach found)

-- Only the end of a way need not be a directory.
theorem passed_directory (found : tree.reach place names = .ok last) :
    ∀ p ∈ tree.passed place names, p = last ∨ tree.lookup p = some .directory := by
  induction names generalizing place with
  | nil =>
      cases found
      simp [passed]
  | cons name names ih =>
      obtain ⟨next, step, rest⟩ := reach_cons found
      rw [passed, step]
      intro p present
      rcases List.mem_cons.mp present with rfl | later
      · exact .inr (child_ok step)
      · exact ih rest p later

theorem clear_iff {path : List UInt8} (free : tree.lookup place ≠ some .directory) :
    tree.Clear path place ↔ place ∉ tree.way path := by
  unfold Clear
  cases found : tree.locate path with
  | error cause => exact Iff.rfl
  | ok last =>
      constructor
      · intro differ passed
        rcases passed_directory (locate_reach found) place passed with same | directory
        · exact differ same
        · exact free directory
      · rintro unpassed rfl
        exact unpassed (locate_way found)

-- Names that are no way to stay or to go back.
def Plain (name : List UInt8) : Prop := name ≠ [] ∧ name ≠ Path.dot ∧ name ≠ Path.dotDot

theorem child_plain (plain : Plain name) (found : tree.child place name = .ok last) :
    last = place ++ [name] := by
  obtain ⟨nonempty, noDot, noDots⟩ := plain
  unfold child at found
  split at found
  · cases found
  · cases found
  · rw [if_neg (by simp [nonempty, noDot]), if_neg (by simp [noDots])] at found
    split at found
    · cases found
    · cases found
      rfl

theorem locate_child {path : List UInt8} (found : tree.locate path = .ok place) :
    ∃ dir, tree.child dir (Path.lastElement path) = .ok place := by
  have reached := locate_reach found
  rw [Path.elements, reach_concat] at reached
  cases above : tree.follow (tree.start path)
      (Bytes.splitOn Path.slash (Path.upToLastSlash path)) with
  | error cause =>
      rw [above] at reached
      cases reached
  | ok dir =>
      rw [above] at reached
      exact ⟨dir, reached⟩

theorem locate_plain {path : List UInt8} (plain : Plain (Path.lastElement path))
    (found : tree.locate path = .ok place) : place.getLast? = some (Path.lastElement path) := by
  obtain ⟨dir, below⟩ := locate_child found
  rw [child_plain plain below, List.getLast?_concat]

theorem lastElement_of_file {path : List UInt8} (found : tree.locate path = .ok place)
    (other : tree.lookup place ≠ some .directory) : Path.lastElement path ≠ [] := by
  intro none
  obtain ⟨dir, stayed⟩ := locate_child found
  have directory := child_ok stayed
  rw [none] at stayed
  simp only [child, directory, List.isEmpty_nil, Bool.true_or, if_true, Except.ok.injEq] at stayed
  exact other (stayed ▸ directory)

theorem read_ok {path text : List UInt8} (done : tree.read path = .ok text) :
    ∃ place, tree.locate path = .ok place ∧ tree.lookup place = some (.file text) := by
  unfold read resolve at done
  cases found : tree.locate path with
  | error cause => simp [found] at done
  | ok place =>
      cases here : tree.lookup place with
      | none => simp [found, here] at done
      | some entry =>
          cases entry with
          | directory => simp [found, here] at done
          | file content =>
              simp only [found, here, Except.ok.injEq] at done
              exact ⟨place, rfl, by rw [here, done]⟩

theorem write_ok_iff {path content : List UInt8} {after : FileTree} :
    tree.write path content = .ok after ↔
      ∃ place, tree.locate path = .ok place ∧ tree.lookup place ≠ some .directory ∧
        after = tree.insert place (.file content) := by
  unfold write
  cases tree.locate path with
  | error cause => simp
  | ok place =>
      simp only
      split
      · rename_i directory
        simp [directory]
      · rename_i other
        simp only [Except.ok.injEq, ne_eq, eq_comm (a := after)]
        exact ⟨fun made => ⟨place, rfl, other, made⟩, fun ⟨_, same, _, made⟩ => same ▸ made⟩

end reaching

structure Agrees (tree other : FileTree) (places : List Location) : Prop where
  working : other.working = tree.working
  lookup : ∀ place ∈ places, other.lookup place = tree.lookup place

namespace Agrees

variable {tree other : FileTree} {path : List UInt8}

theorem child {place : Location} (same : other.lookup place = tree.lookup place)
    (name : List UInt8) : other.child place name = tree.child place name := by
  rw [FileTree.child, FileTree.child, same]

theorem reach {place : Location} {names : List (List UInt8)}
    (same : ∀ p ∈ tree.passed place names, other.lookup p = tree.lookup p) :
    other.reach place names = tree.reach place names ∧
      other.passed place names = tree.passed place names := by
  induction names generalizing place with
  | nil => exact ⟨rfl, rfl⟩
  | cons name names ih =>
      rw [passed, List.forall_mem_cons] at same
      rw [FileTree.reach, FileTree.reach, passed, passed, Agrees.child same.1]
      cases next : tree.child place name with
      | error cause => exact ⟨rfl, rfl⟩
      | ok further =>
          rw [next] at same
          obtain ⟨reached, way⟩ := ih same.2
          exact ⟨reached, congrArg (place :: ·) way⟩

theorem way (agrees : Agrees tree other (tree.way path)) : other.way path = tree.way path := by
  have begun : other.start path = tree.start path := by rw [start, start, agrees.working]
  rw [FileTree.way, begun]
  exact (Agrees.reach agrees.lookup).2

theorem locate (agrees : Agrees tree other (tree.way path)) :
    other.locate path = tree.locate path := by
  have begun : other.start path = tree.start path := by rw [start, start, agrees.working]
  rw [locate_eq, locate_eq, begun, (Agrees.reach agrees.lookup).1]

theorem located {place : Location} (agrees : Agrees tree other (tree.way path))
    (found : tree.locate path = .ok place) : other.lookup place = tree.lookup place :=
  agrees.lookup place (locate_way found)

theorem clear_iff (agrees : Agrees tree other (tree.way path)) (place : Location) :
    other.Clear path place ↔ tree.Clear path place := by
  rw [Clear, Clear, agrees.locate, agrees.way]

theorem read (agrees : Agrees tree other (tree.way path)) : other.read path = tree.read path := by
  have resolved : other.resolve path = tree.resolve path := by
    rw [resolve, resolve, agrees.locate]
    cases found : tree.locate path with
    | error cause => rfl
    | ok place => simp only [agrees.located found]
  rw [FileTree.read, FileTree.read, resolved]

theorem write (agrees : Agrees tree other (tree.way path)) (content : List UInt8) :
    (∃ fault, other.write path content = .error fault ∧ tree.write path content = .error fault) ∨
      ∃ next after, other.write path content = .ok next ∧ tree.write path content = .ok after := by
  unfold FileTree.write
  rw [agrees.locate]
  cases found : tree.locate path with
  | error cause => exact .inl ⟨_, rfl, rfl⟩
  | ok place =>
      simp only [agrees.located found]
      split
      · exact .inl ⟨_, rfl, rfl⟩
      · exact .inr ⟨_, _, rfl, rfl⟩

end Agrees

section directories

variable {α β : Type}

theorem content_insert_directory {tree : FileTree} {place : Location}
    (none : tree.lookup place = none) (p : Location) :
    (tree.insert place .directory).content p = tree.content p := by
  by_cases same : p = place
  · subst same
    have below : p ≠ [] := by
      rintro rfl
      simp [lookup] at none
    rw [content, content, lookup_insert_same _ _ _ below, none]
  · rw [content, content, lookup_insert_other _ _ _ _ same]

def KeepsFiles (act : StateM FileTree α) : Prop :=
  ∀ tree place, (act tree).2.content place = tree.content place

namespace KeepsFiles

theorem pure (a : α) : KeepsFiles (Pure.pure a) := fun _ _ => rfl

theorem bind {act : StateM FileTree α} {next : α → StateM FileTree β} (first : KeepsFiles act)
    (rest : ∀ a, KeepsFiles (next a)) : KeepsFiles (act >>= next) := fun tree place =>
  (rest _ _ place).trans (first tree place)

theorem makeDir (version path : List UInt8) : KeepsFiles ((host version).makeDir path) := by
  intro tree place
  simp only [host, updateTree]
  cases made : tree.makeDir path with
  | error fault => rfl
  | ok after =>
      unfold FileTree.makeDir at made
      split at made
      · cases made
      · split at made
        · cases made
        · rename_i none
          cases made
          exact content_insert_directory none place

theorem makeLast (version path : List UInt8) : KeepsFiles ((host version).makeLast path) := by
  refine bind (makeDir version path) fun made => ?_
  cases made with
  | ok done => exact pure _
  | error fault =>
      refine bind (fun _ _ => rfl) fun kind => ?_
      split
      · exact pure _
      · exact pure _

-- Along the recursion, from the outermost directory that is missing.
theorem makeDirs (version path : List UInt8) : KeepsFiles ((host version).makeDirs path) := by
  rw [Host.makeDirs]
  refine bind (fun _ _ => rfl) fun kind => ?_
  split
  · exact pure _
  · exact pure _
  · split
    · exact makeLast version path
    · rename_i parent above
      refine bind (makeDirs version parent) fun made => ?_
      cases made with
      | error fault => exact pure _
      | ok done => exact makeLast version path
termination_by path.length
decreasing_by exact Path.parent?_shorter _ _ ‹_›

end KeepsFiles
end directories
end FileTree
end NwscriptBindings
