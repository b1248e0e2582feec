import Mathlib.Data.List.Perm.Subperm
import Mathlib.Logic.Relation
import NwscriptBindings.Proofs.Binding.Flattening

namespace NwscriptBindings.Plugin

section contents

variable (declared : List UInt8 → StructDecl → Prop)

inductive Contains : ScriptType → ScriptType → Prop where
  | field {name : List UInt8} {d : StructDecl} {f : Traced VarDecl} :
      declared name d → f ∈ d.fields → Contains (.struct name) f.content.type.content

def Reaches : ScriptType → ScriptType → Prop := Relation.ReflTransGen (Contains declared)

structure Carriable (type : ScriptType) : Prop where
  known : ∀ name, Reaches declared type (.struct name) → ∃ d, declared name d
  finite : ∀ name, Reaches declared type (.struct name) →
    ¬ Relation.TransGen (Contains declared) (.struct name) (.struct name)
  carried : ∀ basic, Reaches declared type (.basic basic) → basic.abi.bridge.isSome = true

end contents

section flattening

variable {table : List StructDecl}

def Listed (table : List StructDecl) (name : List UInt8) (d : StructDecl) : Prop :=
  lookup table name = some d

theorem flatten_struct_iff {room : Nat} {path name : List UInt8} :
    (∃ parts, flatten table room path (.struct name) = .ok parts) ↔
      ∃ less d, room = less + 1 ∧ Listed table name d ∧ ∀ f ∈ d.fields, ∃ part,
        flatten table less (path ++ utf8 "." ++ f.content.name) f.content.type.content =
          .ok part := by
  constructor
  · rintro ⟨parts, accepted⟩
    obtain ⟨less, d, each, rfl, found, _, read⟩ := flatten_struct_ok accepted
    exact ⟨less, d, rfl, found, mapM_succeeds_iff.mp ⟨each, mapM_ok_iff.mpr read⟩⟩
  · rintro ⟨less, d, rfl, found, each⟩
    obtain ⟨parts, read⟩ := mapM_succeeds_iff.mpr each
    refine ⟨parts.flatten, ?_⟩
    unfold flatten
    rw [show lookup table name = some d from found]
    exact bind_ok_iff.mpr ⟨parts, read, rfl⟩

theorem flatten_inside {room : Nat} {type inner : ScriptType}
    (inside : Contains (Listed table) type inner)
    (accepted : ∃ path parts, flatten table room path type = .ok parts) :
    ∃ less < room, ∃ path parts, flatten table less path inner = .ok parts := by
  obtain ⟨path, accepted⟩ := accepted
  obtain ⟨found, member⟩ := inside
  obtain ⟨less, d, rfl, here, each⟩ := flatten_struct_iff.mp accepted
  cases found.symm.trans here
  obtain ⟨part, read⟩ := each _ member
  exact ⟨less, Nat.lt_succ_self less, _, part, read⟩

theorem flatten_reached {room : Nat} {type inner : ScriptType}
    (accepted : ∃ path parts, flatten table room path type = .ok parts)
    (reached : Reaches (Listed table) type inner) :
    ∃ less, ∃ path parts, flatten table less path inner = .ok parts := by
  induction reached with
  | refl => exact ⟨room, accepted⟩
  | tail _ inside ih =>
      obtain ⟨less, found⟩ := ih
      obtain ⟨lesser, _, read⟩ := flatten_inside inside found
      exact ⟨lesser, read⟩

theorem flatten_below {room : Nat} {type inner : ScriptType}
    (accepted : ∃ path parts, flatten table room path type = .ok parts)
    (below : Relation.TransGen (Contains (Listed table)) type inner) :
    ∃ less < room, ∃ path parts, flatten table less path inner = .ok parts := by
  induction below with
  | single inside => exact flatten_inside inside accepted
  | tail _ inside ih =>
      obtain ⟨less, shorter, found⟩ := ih
      obtain ⟨lesser, further, read⟩ := flatten_inside inside found
      exact ⟨lesser, Nat.lt_trans further shorter, read⟩

-- A type inside itself would be taken apart with ever less room.
theorem flatten_finite {room : Nat} {type : ScriptType}
    (accepted : ∃ path parts, flatten table room path type = .ok parts) :
    ¬ Relation.TransGen (Contains (Listed table)) type type := by
  intro cycle
  induction room using Nat.strongRecOn with
  | ind room ih =>
      obtain ⟨less, shorter, again⟩ := flatten_below accepted cycle
      exact ih less shorter again

theorem flatten_carriable {room : Nat} {type : ScriptType}
    (accepted : ∃ path parts, flatten table room path type = .ok parts) :
    Carriable (Listed table) type := by
  constructor
  · intro name reached
    obtain ⟨less, path, read⟩ := flatten_reached accepted reached
    obtain ⟨_, d, _, found, _⟩ := flatten_struct_iff.mp read
    exact ⟨d, found⟩
  · intro name reached
    obtain ⟨less, read⟩ := flatten_reached accepted reached
    exact flatten_finite read
  · intro basic reached
    obtain ⟨less, path, parts, read⟩ := flatten_reached accepted reached
    obtain ⟨primitives, known, _⟩ := flatten_basic_iff.mp read
    rw [known]
    rfl

theorem Listed.mem {name : List UInt8} {d : StructDecl} (found : Listed table name d) :
    name ∈ table.map StructDecl.name := by
  have named := List.find?_some found
  exact List.mem_map.mpr ⟨d, List.mem_of_find?_eq_some found, by simpa using named⟩

theorem unlisted {name : List UInt8} (absent : lookup table name = none) (d : StructDecl) :
    ¬ Listed table name d := by
  intro found
  cases absent.symm.trans found

theorem flatten_basic_error {room : Nat} {path : List UInt8} {type : BasicType}
    {obstacle : TransferObstacle}
    (refused : flatten table room path (.basic type) = .error obstacle) :
    type.abi.bridge = none ∧ obstacle = .noBridgePrimitive type := by
  unfold flatten at refused
  cases known : type.abi.bridge with
  | none => exact ⟨rfl, by simpa [known, eq_comm] using refused⟩
  | some primitives => simp [known] at refused

theorem flatten_struct_error {room : Nat} {path name : List UInt8} {obstacle : TransferObstacle}
    (refused : flatten table (room + 1) path (.struct name) = .error obstacle) :
    lookup table name = none ∧ obstacle = .undeclaredStruct name ∨
      ∃ d, Listed table name d ∧ ∃ f ∈ d.fields,
        flatten table room (path ++ utf8 "." ++ f.content.name) f.content.type.content =
          .error obstacle := by
  unfold flatten at refused
  cases found : lookup table name with
  | none =>
      simp only [found, Except.error.injEq] at refused
      exact .inl ⟨rfl, refused.symm⟩
  | some d =>
      simp only [found] at refused
      rcases bind_error_iff.mp refused with inside | ⟨_, _, never⟩
      · exact .inr ⟨d, found, mapM_error inside⟩
      · cases never

-- `trail` holds the structs on the way down to `type`. Without cycles they are distinct ones of
-- the table, so there are no more of them than the table has, and room is left.
theorem flatten_never_recursive {room : Nat} {path other : List UInt8} {type : ScriptType}
    (trail : List (List UInt8)) (distinct : trail.Nodup)
    (listed : trail ⊆ table.map StructDecl.name)
    (above : ∀ name ∈ trail, Relation.TransGen (Contains (Listed table)) (.struct name) type)
    (enough : room + trail.length = table.length + 1)
    (finite : ∀ name, Reaches (Listed table) type (.struct name) →
      ¬ Relation.TransGen (Contains (Listed table)) (.struct name) (.struct name)) :
    flatten table room path type ≠ .error (.recursiveStruct other) := by
  induction room generalizing path type trail with
  | zero =>
      have bound := (distinct.subperm listed).length_le
      rw [List.length_map] at bound
      omega
  | succ less ih =>
      intro refused
      cases type with
      | basic basic =>
          obtain ⟨_, unexpected⟩ := flatten_basic_error refused
          cases unexpected
      | struct name =>
          rcases flatten_struct_error refused with ⟨_, missing⟩ | ⟨d, found, f, member, deeper⟩
          · cases missing
          · have fresh : name ∉ trail := fun earlier => finite name .refl (above name earlier)
            have inside : Contains (Listed table) (.struct name) f.content.type.content :=
              .field found member
            refine ih (name :: trail) (List.nodup_cons.mpr ⟨fresh, distinct⟩) ?_ ?_ ?_ ?_ deeper
            · exact List.cons_subset.mpr ⟨found.mem, listed⟩
            · intro earlier present
              rcases List.mem_cons.mp present with rfl | before
              · exact .single inside
              · exact (above earlier before).tail inside
            · rw [List.length_cons]
              omega
            · intro deep reached
              exact finite deep (.head inside reached)

-- What an obstacle says about a type. The struct that is named as recursive is the one at which the
-- room ended, which need not be the one that contains itself.
def Explains (declared : List UInt8 → StructDecl → Prop) (type : ScriptType) :
    TransferObstacle → Prop
  | .undeclaredStruct name => Reaches declared type (.struct name) ∧ ∀ d, ¬ declared name d
  | .recursiveStruct _ => ∃ name, Reaches declared type (.struct name) ∧
      Relation.TransGen (Contains declared) (.struct name) (.struct name)
  | .noBridgePrimitive basic => Reaches declared type (.basic basic) ∧ basic.abi.bridge = none
  | _ => False

theorem Explains.outside {declared : List UInt8 → StructDecl → Prop} {type inner : ScriptType}
    {obstacle : TransferObstacle} (inside : Contains declared type inner)
    (explained : Explains declared inner obstacle) : Explains declared type obstacle := by
  cases obstacle with
  | undeclaredStruct name => exact ⟨.head inside explained.1, explained.2⟩
  | recursiveStruct name =>
      obtain ⟨deep, reached, cycle⟩ := explained
      exact ⟨deep, .head inside reached, cycle⟩
  | noBridgePrimitive basic => exact ⟨.head inside explained.1, explained.2⟩
  | _ => exact explained

theorem flatten_explained {room : Nat} {path : List UInt8} {type : ScriptType}
    {obstacle : TransferObstacle} (known : ∀ name, obstacle ≠ .recursiveStruct name)
    (refused : flatten table room path type = .error obstacle) :
    Explains (Listed table) type obstacle := by
  induction room generalizing path type with
  | zero =>
      cases type with
      | basic basic =>
          obtain ⟨absent, rfl⟩ := flatten_basic_error refused
          exact ⟨.refl, absent⟩
      | struct name =>
          unfold flatten at refused
          cases found : lookup table name with
          | none =>
              simp only [found, Except.error.injEq] at refused
              subst refused
              exact ⟨.refl, unlisted found⟩
          | some d =>
              simp only [found, Except.error.injEq] at refused
              exact (known name refused.symm).elim
  | succ less ih =>
      cases type with
      | basic basic =>
          obtain ⟨absent, rfl⟩ := flatten_basic_error refused
          exact ⟨.refl, absent⟩
      | struct name =>
          rcases flatten_struct_error refused with ⟨absent, rfl⟩ | ⟨d, found, f, member, deeper⟩
          · exact ⟨.refl, unlisted absent⟩
          · exact (ih deeper).outside (.field found member)

-- Every refusal has a true reason. That some struct contains itself is the only one for which the
-- bound on the nesting is needed.
theorem scalars_explained {path : List UInt8} {type : ScriptType} {obstacle : TransferObstacle}
    (refused : scalars table path type = .error obstacle) :
    Explains (Listed table) type obstacle := by
  by_cases recursive : ∃ name, obstacle = .recursiveStruct name
  · obtain ⟨other, rfl⟩ := recursive
    by_contra unexplained
    refine flatten_never_recursive [] List.nodup_nil (List.nil_subset _) (by simp) rfl ?_ refused
    intro name reached cycle
    exact unexplained ⟨name, reached, cycle⟩
  · refine flatten_explained ?_ refused
    rintro name rfl
    exact recursive ⟨name, rfl⟩

theorem Carriable.unexplained {declared : List UInt8 → StructDecl → Prop} {type : ScriptType}
    (whole : Carriable declared type) (obstacle : TransferObstacle) :
    ¬ Explains declared type obstacle := by
  intro explained
  cases obstacle with
  | undeclaredStruct name =>
      obtain ⟨d, found⟩ := whole.known name explained.1
      exact explained.2 d found
  | recursiveStruct name =>
      obtain ⟨deep, reached, cycle⟩ := explained
      exact whole.finite deep reached cycle
  | noBridgePrimitive basic =>
      have present := whole.carried basic explained.1
      rw [explained.2] at present
      cases present
  | _ => exact explained

theorem scalars_succeed_iff {path : List UInt8} {type : ScriptType} :
    (∃ parts, scalars table path type = .ok parts) ↔ Carriable (Listed table) type := by
  constructor
  · intro accepted
    exact flatten_carriable ⟨path, accepted⟩
  · intro whole
    cases outcome : scalars table path type with
    | ok parts => exact ⟨parts, rfl⟩
    | error obstacle => exact (whole.unexplained obstacle (scalars_explained outcome)).elim

end flattening

theorem listed_structTable_iff {decls : List Decl} {name : List UInt8} {d : StructDecl} :
    Listed (structTable decls) name d ↔ Declares decls name d := by
  constructor
  · exact lookup_structTable
  · rintro ⟨before, after, rfl, named, later⟩
    induction after using List.reverseRecOn with
    | nil =>
        have last : structTable (before ++ [.struct d]) = insertStruct (structTable before) d := by
          rw [structTable, List.foldl_append]
          rfl
        rw [Listed, last, lookup_insertStruct, if_pos named]
    | append_singleton after last ih =>
        have found := ih fun e present => later e (List.mem_append_left _ present)
        rw [← List.cons_append, ← List.append_assoc, Listed, structTable, List.foldl_append]
        cases last with
        | struct s =>
            have other : s.name ≠ name := later s (by simp)
            change lookup (insertStruct (structTable (before ++ .struct d :: after)) s) name = _
            rw [lookup_insertStruct, if_neg other]
            exact found
        | _ => exact found

theorem listed_structTable (decls : List Decl) : Listed (structTable decls) = Declares decls := by
  funext name d
  exact propext listed_structTable_iff

theorem scalars_carriable_iff {decls : List Decl} {path : List UInt8} {type : ScriptType} :
    (∃ parts, scalars (structTable decls) path type = .ok parts) ↔
      Carriable (Declares decls) type := by
  rw [scalars_succeed_iff, listed_structTable]

end NwscriptBindings.Plugin
