import NwscriptBindings.Proofs.Binding.Carriage

namespace NwscriptBindings.Plugin

structure Leaf where
  way : List (Nat × List UInt8)
  type : BasicType

namespace Leaf

def address (path : List UInt8) (x : Leaf) : List UInt8 :=
  path ++ x.way.flatMap fun field => utf8 "." ++ field.2

-- Depth first: the first place at which two ways part decides.
def Before (x y : Leaf) : Prop := List.Lex (· < ·) (x.way.map Prod.fst) (y.way.map Prod.fst)

def under (place : Nat) (name : List UInt8) (x : Leaf) : Leaf := ⟨(place, name) :: x.way, x.type⟩

theorem address_under (path : List UInt8) (place : Nat) (name : List UInt8) (x : Leaf) :
    (x.under place name).address path = x.address (path ++ utf8 "." ++ name) := by
  simp [address, under]

theorem before_under {x y : Leaf} (place : Nat) (name : List UInt8) (before : x.Before y) :
    (x.under place name).Before (y.under place name) := List.Lex.cons before

def CarriedBy (path : List UInt8) (x : Leaf) (s : Scalar) : Prop :=
  s.path = x.address path ∧ x.type.abi.bridge = some s.primitives

theorem carriedBy_under {path name : List UInt8} {x : Leaf} {s : Scalar} (place : Nat)
    (carried : x.CarriedBy (path ++ utf8 "." ++ name) s) :
    (x.under place name).CarriedBy path s := by
  obtain ⟨addressed, known⟩ := carried
  exact ⟨by rw [address_under, addressed], known⟩

end Leaf

theorem addresses {path : List UInt8} {leaves : List Leaf} {parts : List Scalar}
    (carried : List.Forall₂ (Leaf.CarriedBy path) leaves parts) :
    leaves.map (Leaf.address path) = parts.map Scalar.path := by
  induction carried with
  | nil => rfl
  | cons first _ ih => rw [List.map_cons, List.map_cons, first.1, ih]

inductive LeafOf (declared : List UInt8 → StructDecl → Prop) : ScriptType → Leaf → Prop where
  | scalar : LeafOf declared (.basic type) ⟨[], type⟩
  | field : declared name d → d.fields[place]? = some f → LeafOf declared f.content.type.content x →
      LeafOf declared (.struct name) (x.under place f.content.name)

def Ordered (holds : Leaf → Prop) (leaves : List Leaf) : Prop :=
  (∀ x, x ∈ leaves ↔ holds x) ∧ leaves.Pairwise Leaf.Before

section fields

variable {declared : List UInt8 → StructDecl → Prop}

-- The leaves inside some fields, if `skipped` fields stand in front of them.
def LeafIn (declared : List UInt8 → StructDecl → Prop) (fields : List (Traced VarDecl))
    (skipped : Nat) (x : Leaf) : Prop :=
  ∃ place f y, fields[place]? = some f ∧ LeafOf declared f.content.type.content y ∧
    x = y.under (skipped + place) f.content.name

theorem leafIn_cons_iff {f : Traced VarDecl} {fields : List (Traced VarDecl)} {skipped : Nat}
    {x : Leaf} : LeafIn declared (f :: fields) skipped x ↔
      (∃ y, LeafOf declared f.content.type.content y ∧ x = y.under skipped f.content.name) ∨
        LeafIn declared fields (skipped + 1) x := by
  constructor
  · rintro ⟨place, g, y, found, leaf, same⟩
    cases place with
    | zero =>
        cases found
        exact .inl ⟨y, leaf, same⟩
    | succ place =>
        rw [List.getElem?_cons_succ] at found
        rw [Nat.add_comm place, ← Nat.add_assoc] at same
        exact .inr ⟨place, g, y, found, leaf, same⟩
  · rintro (⟨y, leaf, same⟩ | ⟨place, g, y, found, leaf, same⟩)
    · exact ⟨0, f, y, rfl, leaf, same⟩
    · refine ⟨place + 1, g, y, by rwa [List.getElem?_cons_succ], leaf, ?_⟩
      rw [Nat.add_comm place, ← Nat.add_assoc]
      exact same

theorem before_later {fields : List (Traced VarDecl)} {skipped : Nat} {name : List UInt8}
    {y x : Leaf} (later : LeafIn declared fields (skipped + 1) x) :
    (y.under skipped name).Before x := by
  obtain ⟨place, f, z, _, _, rfl⟩ := later
  exact List.Lex.rel (by omega)

theorem ordered_cons {f : Traced VarDecl} {fields : List (Traced VarDecl)} {skipped : Nat}
    {first others : List Leaf} (here : Ordered (LeafOf declared f.content.type.content) first)
    (there : Ordered (LeafIn declared fields (skipped + 1)) others) :
    Ordered (LeafIn declared (f :: fields) skipped)
      (first.map (Leaf.under skipped f.content.name) ++ others) := by
  constructor
  · intro x
    rw [List.mem_append, leafIn_cons_iff, there.1, List.mem_map]
    apply or_congr_left
    constructor
    · rintro ⟨y, present, rfl⟩
      exact ⟨y, (here.1 y).mp present, rfl⟩
    · rintro ⟨y, leaf, rfl⟩
      exact ⟨y, (here.1 y).mpr leaf, rfl⟩
  · apply List.pairwise_append.mpr
    refine ⟨List.pairwise_map.mpr (here.2.imp (Leaf.before_under _ _)), there.2, ?_⟩
    intro x present y later
    obtain ⟨z, _, rfl⟩ := List.mem_map.mp present
    exact before_later ((there.1 y).mp later)

theorem leaves_of_fields {path : List UInt8} {read : Traced VarDecl → List Scalar → Prop}
    {fields : List (Traced VarDecl)} {parts : List (List Scalar)}
    (each : List.Forall₂ read fields parts)
    (inside : ∀ f part, read f part → ∃ leaves,
      Ordered (LeafOf declared f.content.type.content) leaves ∧
        List.Forall₂ (Leaf.CarriedBy (path ++ utf8 "." ++ f.content.name)) leaves part)
    (skipped : Nat) :
    ∃ leaves, Ordered (LeafIn declared fields skipped) leaves ∧
      List.Forall₂ (Leaf.CarriedBy path) leaves parts.flatten := by
  induction each generalizing skipped with
  | nil =>
      refine ⟨[], ⟨?_, .nil⟩, .nil⟩
      intro x
      constructor
      · intro present
        cases present
      · rintro ⟨_, _, _, found, _⟩
        cases found
  | @cons f part fields parts first _ ih =>
      obtain ⟨here, ordered, carried⟩ := inside f part first
      obtain ⟨there, orderedThere, carriedThere⟩ := ih (skipped + 1)
      refine ⟨_, ordered_cons ordered orderedThere, List.rel_append ?_ carriedThere⟩
      apply List.forall₂_map_left_iff.mpr
      exact carried.imp fun _ _ => Leaf.carriedBy_under skipped

end fields

section leaves

variable {table : List StructDecl}

theorem leafOf_struct_iff {name : List UInt8} {d : StructDecl} (found : Listed table name d)
    (x : Leaf) : LeafOf (Listed table) (.struct name) x ↔ LeafIn (Listed table) d.fields 0 x := by
  constructor
  · intro leaf
    cases leaf with
    | @field _ e place f y there member inner =>
        cases found.symm.trans there
        exact ⟨place, f, y, member, inner, by rw [Nat.zero_add]⟩
  · rintro ⟨place, f, y, member, inner, rfl⟩
    rw [Nat.zero_add]
    exact .field found member inner

theorem flatten_leaves {room : Nat} {path : List UInt8} {type : ScriptType} {parts : List Scalar}
    (accepted : flatten table room path type = .ok parts) :
    ∃ leaves, Ordered (LeafOf (Listed table) type) leaves ∧
      List.Forall₂ (Leaf.CarriedBy path) leaves parts := by
  induction room using Nat.strongRecOn generalizing path type parts with
  | ind room ih =>
      cases type with
      | basic basic =>
          obtain ⟨primitives, known, rfl⟩ := flatten_basic_iff.mp accepted
          refine ⟨[⟨[], basic⟩], ⟨?_, List.pairwise_singleton _ _⟩, .cons ⟨?_, known⟩ .nil⟩
          · intro x
            rw [List.mem_singleton]
            constructor
            · rintro rfl
              exact .scalar
            · intro leaf
              cases leaf
              rfl
          · simp [Leaf.address]
      | struct name =>
          obtain ⟨less, d, each, rfl, found, rfl, read⟩ := flatten_struct_ok accepted
          obtain ⟨leaves, ordered, carried⟩ :=
            leaves_of_fields read (fun _ _ => ih less (Nat.lt_succ_self less)) 0
          refine ⟨leaves, ⟨?_, ordered.2⟩, carried⟩
          intro x
          rw [leafOf_struct_iff found]
          exact ordered.1 x

end leaves

-- A value is taken apart exactly if nothing stands in the way, into its leaves and nothing else, and
-- what is named when it is refused does stand in the way.
theorem scalars_exact (decls : List Decl) (path : List UInt8) (type : ScriptType) :
    ((∃ parts, scalars (structTable decls) path type = .ok parts) ↔
      Carriable (Declares decls) type) ∧
    (∀ parts, scalars (structTable decls) path type = .ok parts →
      ∃ leaves, Ordered (LeafOf (Declares decls) type) leaves ∧
        List.Forall₂ (Leaf.CarriedBy path) leaves parts) ∧
    (∀ obstacle, scalars (structTable decls) path type = .error obstacle →
      Explains (Declares decls) type obstacle) := by
  rw [← listed_structTable]
  exact ⟨scalars_succeed_iff, fun _ => flatten_leaves, fun _ => scalars_explained⟩

-- One struct stands in two fields of another, and the later of its two declarations counts. A third
-- struct contains itself, and the room ends at a field of it that does not.
theorem scalars_exact_shared :
    let field (name : String) (type : ScriptType) : Traced VarDecl :=
      ⟨⟨⟨type, []⟩, utf8 name, none, false⟩, []⟩
    let replaced : StructDecl := ⟨utf8 "I", [field "x" (.basic .action)]⟩
    let outer : StructDecl :=
      ⟨utf8 "O", [field "a" (.struct (utf8 "I")), field "b" (.struct (utf8 "I"))]⟩
    let inner : StructDecl := ⟨utf8 "I", [field "n" (.basic .int), field "s" (.basic .string)]⟩
    let looped : StructDecl :=
      ⟨utf8 "L", [field "i" (.struct (utf8 "I")), field "l" (.struct (utf8 "L"))]⟩
    let decls : List Decl := [.struct replaced, .struct outer, .struct inner, .struct looped]
    (∃ leaves, Ordered (LeafOf (Declares decls) (.struct (utf8 "O"))) leaves ∧
      leaves.map (Leaf.address (utf8 "p")) =
        [utf8 "p.a.n", utf8 "p.a.s", utf8 "p.b.n", utf8 "p.b.s"]) ∧
    scalars (structTable decls) (utf8 "p") (.struct (utf8 "L")) =
      .error (.recursiveStruct (utf8 "I")) ∧
    ∃ name, Reaches (Declares decls) (.struct (utf8 "L")) (.struct name) ∧
      Relation.TransGen (Contains (Declares decls)) (.struct name) (.struct name) := by
  intro field replaced outer inner looped decls
  have shown : (scalars (structTable decls) (utf8 "p") (.struct (utf8 "O"))).toOption.map
      (·.map Scalar.path) = some [utf8 "p.a.n", utf8 "p.a.s", utf8 "p.b.n", utf8 "p.b.s"] := by
    decide +kernel
  have refused : scalars (structTable decls) (utf8 "p") (.struct (utf8 "L")) =
      .error (.recursiveStruct (utf8 "I")) := by rfl
  refine ⟨?_, refused, (scalars_exact decls _ _).2.2 _ refused⟩
  cases accepted : scalars (structTable decls) (utf8 "p") (.struct (utf8 "O")) with
  | error obstacle =>
      rw [accepted] at shown
      cases shown
  | ok parts =>
      rw [accepted] at shown
      obtain ⟨leaves, ordered, carried⟩ := (scalars_exact decls _ _).2.1 parts accepted
      refine ⟨leaves, ordered, ?_⟩
      rw [← Option.some.inj shown]
      exact addresses carried

end NwscriptBindings.Plugin
