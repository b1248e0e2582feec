import Mathlib.Data.List.Induction
import NwscriptBindings.Proofs.Binding.Generated

namespace NwscriptBindings.Plugin

-- A struct stands for its name unless a later one with the same name follows it.
def Declares (decls : List Decl) (name : List UInt8) (d : StructDecl) : Prop :=
  ∃ before after, decls = before ++ .struct d :: after ∧ d.name = name ∧
    ∀ e, Decl.struct e ∈ after → e.name ≠ name

theorem lookup_insertStruct (table : List StructDecl) (d : StructDecl) (name : List UInt8) :
    lookup (insertStruct table d) name = if d.name = name then some d else lookup table name := by
  unfold lookup insertStruct
  rw [List.find?_append, List.find?_filter]
  split
  · rename_i same
    subst same
    rw [List.find?_eq_none.mpr]
    · simp
    · intro e _
      simp
  · rename_i other
    have kept : (fun e : StructDecl => decide ((e.name != d.name) = true ∧ (e.name == name) = true)) =
        fun e => e.name == name := by
      funext e
      by_cases same : e.name = name
      · simp [same, Ne.symm other]
      · simp [same]
    rw [kept]
    simp [other]

theorem Declares.before {decls : List Decl} {name : List UInt8} {d : StructDecl} {last : Decl}
    (found : Declares decls name d) (other : ∀ e, last = .struct e → e.name ≠ name) :
    Declares (decls ++ [last]) name d := by
  obtain ⟨before, after, rfl, named, later⟩ := found
  refine ⟨before, after ++ [last], by simp, named, ?_⟩
  intro e present
  rcases List.mem_append.mp present with earlier | final
  · exact later e earlier
  · exact other e (List.mem_singleton.mp final).symm

theorem lookup_structTable {decls : List Decl} {name : List UInt8} {d : StructDecl}
    (found : lookup (structTable decls) name = some d) : Declares decls name d := by
  induction decls using List.reverseRecOn with
  | nil => cases found
  | append_singleton decls last ih =>
      rw [structTable, List.foldl_append] at found
      cases last with
      | struct s =>
          replace found : lookup (insertStruct (structTable decls) s) name = some d := found
          rw [lookup_insertStruct] at found
          split at found
          · rename_i named
            cases found
            exact ⟨decls, [], rfl, named, by simp⟩
          · rename_i other
            refine (ih found).before ?_
            intro e same
            cases same
            exact other
      | _ => exact (ih found).before (by simp)

structure Slot where
  path : List UInt8
  type : BasicType
deriving DecidableEq

section flattening

variable (declared : List UInt8 → StructDecl → Prop)

mutual

inductive Flattens : List UInt8 → ScriptType → List Slot → Prop where
  | scalar : Flattens path (.basic type) [⟨path, type⟩]
  | struct : declared name d → FlattensFields path d.fields slots →
      Flattens path (.struct name) slots

inductive FlattensFields : List UInt8 → List (Traced VarDecl) → List Slot → Prop where
  | nil : FlattensFields path [] []
  | cons : Flattens (path ++ utf8 "." ++ f.content.name) f.content.type.content first →
      FlattensFields path fields others → FlattensFields path (f :: fields) (first ++ others)

end

end flattening

def Slot.CarriedBy (x : Slot) (s : Scalar) : Prop :=
  s.path = x.path ∧ x.type.abi.bridge = some s.primitives

theorem flatten_basic_iff {table : List StructDecl} {room : Nat} {path : List UInt8}
    {type : BasicType} {parts : List Scalar} : flatten table room path (.basic type) = .ok parts ↔
      ∃ primitives, type.abi.bridge = some primitives ∧ parts = [⟨path, primitives⟩] := by
  unfold flatten
  cases type.abi.bridge with
  | none => simp
  | some primitives => simp [eq_comm]

theorem flatten_struct_ok {table : List StructDecl} {room : Nat} {path name : List UInt8}
    {parts : List Scalar} (accepted : flatten table room path (.struct name) = .ok parts) :
    ∃ less d each, room = less + 1 ∧ lookup table name = some d ∧ parts = each.flatten ∧
      List.Forall₂ (fun (f : Traced VarDecl) part =>
        flatten table less (path ++ utf8 "." ++ f.content.name) f.content.type.content = .ok part)
          d.fields each := by
  cases room with
  | zero =>
      unfold flatten at accepted
      split at accepted <;> cases accepted
  | succ less =>
      unfold flatten at accepted
      split at accepted
      · cases accepted
      · rename_i d found
        obtain ⟨each, read, rest⟩ := bind_ok_iff.mp accepted
        cases rest
        exact ⟨less, d, each, rfl, found, rfl, mapM_ok_iff.mp read⟩

theorem flatten_fields {declared : List UInt8 → StructDecl → Prop} {path : List UInt8}
    {read : Traced VarDecl → List Scalar → Prop} {fields : List (Traced VarDecl)}
    {parts : List (List Scalar)} (each : List.Forall₂ read fields parts)
    (sound : ∀ f part, read f part → ∃ slots,
      Flattens declared (path ++ utf8 "." ++ f.content.name) f.content.type.content slots ∧
        List.Forall₂ Slot.CarriedBy slots part) :
    ∃ slots, FlattensFields declared path fields slots ∧
      List.Forall₂ Slot.CarriedBy slots parts.flatten := by
  induction each with
  | nil => exact ⟨[], .nil, .nil⟩
  | cons first _ ih =>
      obtain ⟨slots, flat, carried⟩ := sound _ _ first
      obtain ⟨others, flats, carriedOthers⟩ := ih
      exact ⟨slots ++ others, .cons flat flats, List.rel_append carried carriedOthers⟩

-- Induction on the room: each struct on the way down takes some of it.
theorem flatten_sound {table : List StructDecl} {room : Nat} {path : List UInt8}
    {type : ScriptType} {parts : List Scalar} (accepted : flatten table room path type = .ok parts) :
    ∃ slots, Flattens (fun name d => lookup table name = some d) path type slots ∧
      List.Forall₂ Slot.CarriedBy slots parts := by
  induction room using Nat.strongRecOn generalizing path type parts with
  | ind room ih =>
      cases type with
      | basic b =>
          obtain ⟨primitives, known, rfl⟩ := flatten_basic_iff.mp accepted
          exact ⟨[⟨path, b⟩], .scalar, .cons ⟨rfl, known⟩ .nil⟩
      | struct name =>
          obtain ⟨less, d, each, rfl, found, rfl, read⟩ := flatten_struct_ok accepted
          obtain ⟨slots, flat, carried⟩ :=
            flatten_fields read fun _ _ => ih less (Nat.lt_succ_self less)
          exact ⟨slots, .struct found flat, carried⟩

mutual

theorem Flattens.imp {declared other : List UInt8 → StructDecl → Prop}
    (same : ∀ name d, declared name d → other name d) {path : List UInt8} {type : ScriptType}
    {slots : List Slot} : Flattens declared path type slots → Flattens other path type slots
  | .scalar => .scalar
  | .struct found fields => .struct (same _ _ found) (fields.imp same)

theorem FlattensFields.imp {declared other : List UInt8 → StructDecl → Prop}
    (same : ∀ name d, declared name d → other name d) {path : List UInt8}
    {fields : List (Traced VarDecl)} {slots : List Slot} :
    FlattensFields declared path fields slots → FlattensFields other path fields slots
  | .nil => .nil
  | .cons first others => .cons (first.imp same) (others.imp same)

end

def Slot.within (root : List UInt8) (x : Slot) : Slot := ⟨root ++ x.path, x.type⟩

theorem Slot.within_within (root inner : List UInt8) (slots : List Slot) :
    (slots.map (Slot.within inner)).map (Slot.within root) =
      slots.map (Slot.within (root ++ inner)) := by
  simp [within, Function.comp_def]

-- Where a value is addressed goes into the paths of its scalars and into nothing else.
mutual

theorem Flattens.rooted {declared : List UInt8 → StructDecl → Prop} {path : List UInt8}
    {type : ScriptType} {slots : List Slot} : Flattens declared path type slots →
      ∃ tails : List Slot, slots = tails.map (Slot.within path) ∧
        ∀ other, Flattens declared other type (tails.map (Slot.within other))
  | .scalar => by
      rename_i basic
      refine ⟨[⟨[], basic⟩], ?_, fun other => ?_⟩
      · rw [List.map_singleton, Slot.within, List.append_nil]
      · rw [List.map_singleton, Slot.within, List.append_nil]
        exact .scalar
  | .struct found fields => by
      obtain ⟨tails, same, moved⟩ := fields.rooted
      exact ⟨tails, same, fun other => .struct found (moved other)⟩

theorem FlattensFields.rooted {declared : List UInt8 → StructDecl → Prop} {path : List UInt8}
    {fields : List (Traced VarDecl)} {slots : List Slot} :
    FlattensFields declared path fields slots →
      ∃ tails : List Slot, slots = tails.map (Slot.within path) ∧
        ∀ other, FlattensFields declared other fields (tails.map (Slot.within other))
  | .nil => ⟨[], rfl, fun _ => .nil⟩
  | .cons (f := f) first others => by
      obtain ⟨tails, same, moved⟩ := first.rooted
      obtain ⟨more, sameMore, movedMore⟩ := others.rooted
      have inner : ∀ root, (tails.map (Slot.within (utf8 "." ++ f.content.name))).map
          (Slot.within root) = tails.map (Slot.within (root ++ utf8 "." ++ f.content.name)) := by
        intro root
        rw [Slot.within_within, ← List.append_assoc]
      refine ⟨tails.map (Slot.within (utf8 "." ++ f.content.name)) ++ more, ?_, fun other => ?_⟩
      · rw [List.map_append, inner, ← same, ← sameMore]
      · rw [List.map_append, inner]
        exact .cons (moved _) (movedMore other)

end

-- Behind the address of a value only fields follow, and a field begins with a point.
mutual

theorem Flattens.dotted {declared : List UInt8 → StructDecl → Prop} {path : List UInt8}
    {type : ScriptType} {slots : List Slot} : Flattens declared path type slots →
      ∀ x ∈ slots, x.path = path ∨ ∃ rest, x.path = path ++ utf8 "." ++ rest
  | .scalar => by
      intro x present
      rw [List.mem_singleton] at present
      exact .inl (by rw [present])
  | .struct _ fields => fun x present => .inr (fields.dotted x present)

theorem FlattensFields.dotted {declared : List UInt8 → StructDecl → Prop} {path : List UInt8}
    {fields : List (Traced VarDecl)} {slots : List Slot} :
    FlattensFields declared path fields slots →
      ∀ x ∈ slots, ∃ rest, x.path = path ++ utf8 "." ++ rest
  | .nil => by simp
  | .cons (f := f) first others => by
      intro x present
      rcases List.mem_append.mp present with here | there
      · rcases first.dotted x here with same | ⟨rest, deeper⟩
        · exact ⟨f.content.name, same⟩
        · exact ⟨f.content.name ++ utf8 "." ++ rest, by simp only [deeper, List.append_assoc]⟩
      · exact others.dotted x there

end

theorem scalars_sound {decls : List Decl} {path : List UInt8} {type : ScriptType}
    {parts : List Scalar} (accepted : scalars (structTable decls) path type = .ok parts) :
    ∃ slots, Flattens (Declares decls) path type slots ∧
      List.Forall₂ Slot.CarriedBy slots parts := by
  obtain ⟨slots, flat, carried⟩ := flatten_sound accepted
  exact ⟨slots, flat.imp fun _ _ => lookup_structTable, carried⟩

end NwscriptBindings.Plugin
