import NwscriptBindings.Grammar.ScriptUnit
import NwscriptBindings.Proofs.Binding.Places
import NwscriptBindings.Proofs.Binding.Support
import NwscriptBindings.Token.Stream

namespace NwscriptBindings

def Value.isSentinel : Value → Bool
  | .literal .objectSelf | .literal .objectInvalid => true
  | _ => false

theorem Value.Stated.not_sentinel {v : Value} (stated : v.Stated) : v.isSentinel = false := by
  cases stated <;> rfl

namespace Param

def hasSentinel (p : Param) : Bool := (p.default.map Traced.content).any Value.isSentinel

def IsObject (p : Param) : Prop := p.type.content = .basic .object

def dropSentinel (p : Param) : Param := if p.hasSentinel then { p with default := none } else p

theorem hasSentinel_iff {p : Param} : p.hasSentinel = true ↔
    p.default.map Traced.content = some (.literal .objectSelf) ∨
      p.default.map Traced.content = some (.literal .objectInvalid) := by
  unfold hasSentinel
  generalize p.default.map Traced.content = given
  cases given with
  | none => simp
  | some v =>
      cases v with
      | reference name => simp [Value.isSentinel]
      | literal l => cases l <;> simp [Value.isSentinel]

theorem dropSentinel_type (p : Param) : p.dropSentinel.type = p.type := by
  unfold dropSentinel
  split <;> rfl

end Param

def Signature.dropSentinels (sig : Signature) : Signature :=
  { sig with params := sig.params.map fun p => ⟨p.content.dropSentinel, p.tokens⟩ }

def Decl.dropSentinels : Decl → Decl
  | .prototype sig => .prototype sig.dropSentinels
  | .function sig body => .function sig.dropSentinels body
  | d => d

def ScriptUnit.dropSentinels (u : ScriptUnit) : ScriptUnit :=
  { u with decls := u.decls.map fun d => ⟨d.content.dropSentinels, d.tokens⟩ }

theorem ScriptUnit.dropSentinels_contents (u : ScriptUnit) :
    u.dropSentinels.decls.map (·.content) = (u.decls.map (·.content)).map Decl.dropSentinels := by
  simp [dropSentinels, Function.comp_def]

namespace Engine

theorem allows_sentinel {basic : BasicType} {v : Value} (allowed : Allows basic v)
    (sentinel : v.isSentinel = true) : basic = .object := by
  have stated : ¬ v.Stated := by
    intro stated
    rw [stated.not_sentinel] at sentinel
    cases sentinel
  cases basic with
  | object => rfl
  | vector =>
      rcases allowed with ⟨x, y, z, rfl⟩ | allowed
      · cases sentinel
      · exact (stated allowed).elim
  | _ => exact (stated allowed).elim

theorem passable_sentinel {p : Param} (passable : Passable p) (sentinel : p.hasSentinel = true) :
    p.IsObject := by
  obtain ⟨basic, typed, _, allowed⟩ := passable
  rw [Param.IsObject, typed]
  rcases Param.hasSentinel_iff.mp sentinel with self | invalid
  · rw [allows_sentinel (allowed _ self) rfl]
  · rw [allows_sentinel (allowed _ invalid) rfl]

end Engine

namespace Plugin

section support

variable {decls before : List Decl}

theorem structTable_dropSentinels (decls : List Decl) :
    structTable (decls.map Decl.dropSentinels) = structTable decls := by
  unfold structTable
  rw [List.foldl_map]
  congr 1
  funext table d
  cases d <;> rfl

theorem declares_dropSentinels (decls : List Decl) :
    Declares (decls.map Decl.dropSentinels) = Declares decls := by
  rw [← listed_structTable, structTable_dropSentinels, listed_structTable]

theorem names_dropSentinels (decls : List Decl) :
    names (decls.map Decl.dropSentinels) = names decls := by
  unfold names
  rw [List.flatMap_map]
  congr 1
  funext d
  cases d <;> rfl

theorem passable_dropSentinel_iff {p : Param} :
    Passable decls p.dropSentinel ↔ Passable decls p := by
  unfold Passable
  rw [Param.dropSentinel_type]
  refine and_congr_right fun _ => ?_
  unfold Param.dropSentinel
  split
  · rename_i sentinel
    refine iff_of_true (by simp) ?_
    intro v given
    rcases Param.hasSentinel_iff.mp sentinel with self | invalid
    · exact .inl (Option.some.inj (given.symm.trans self))
    · exact .inr (.inl (Option.some.inj (given.symm.trans invalid)))
  · rfl

theorem bindable_dropSentinels_iff {sig : Signature} :
    Bindable (decls.map Decl.dropSentinels) sig.dropSentinels ↔ Bindable decls sig := by
  unfold Bindable
  have params : (∀ p ∈ sig.dropSentinels.params, Passable decls p.content) ↔
      ∀ p ∈ sig.params, Passable decls p.content := by
    simp only [Signature.dropSentinels, List.forall_mem_map, passable_dropSentinel_iff]
  rw [← params]
  simp only [Passable, declares_dropSentinels]
  rfl

theorem supported_dropSentinels_iff {d : Decl} :
    Supported (decls.map Decl.dropSentinels) (before.map Decl.dropSentinels) d.dropSentinels ↔
      Supported decls before d := by
  cases d with
  | prototype sig | function sig body =>
      simp only [Decl.dropSentinels, Supported, names_dropSentinels, bindable_dropSentinels_iff]
      rfl
  | _ => rfl

end support

section arguments

variable {decls : List Decl} {profile : Profile} {p : Param} {a : Passed}

theorem pushed_scalar {scalars slots : List Slot} {y : Slot}
    (pushed : List.Forall₂ (PushedAs p) scalars slots) (present : y ∈ slots) :
    ∃ x ∈ scalars, PushedAs p x y := by
  induction pushed with
  | nil => cases present
  | @cons x _ scalars _ first _ ih =>
      rcases List.mem_cons.mp present with rfl | later
      · exact ⟨x, List.mem_cons_self, first⟩
      · obtain ⟨own, among, found⟩ := ih later
        exact ⟨own, List.mem_cons_of_mem x among, found⟩

theorem callerPath_iff (passes : Passes decls p a.slots) :
    ∀ y ∈ a.slots, callerPath p <+: y.path ↔
      p.default.map Traced.content = some (.literal .objectSelf) := by
  obtain ⟨scalars, flat, pushed⟩ := passes
  intro y present
  obtain ⟨x, own, found⟩ := pushed_scalar pushed present
  cases found with
  | own other =>
      refine iff_of_false (fun found => ?_) other
      rcases flat.dotted y own with same | ⟨rest, deeper⟩
      · have longer : 0 < (utf8 " ?? Internal.OBJECT_SELF").length := by decide
        have short := found.length_le
        rw [same, callerPath, List.length_append] at short
        omega
      · rw [deeper, List.append_assoc, callerPath, List.prefix_append_right_inj] at found
        obtain ⟨more, begins⟩ := found
        exact absurd (List.cons.inj begins).1 (by decide)
  | caller self object =>
      rw [object] at flat
      cases flat with
      | scalar =>
          obtain rfl := List.mem_singleton.mp own
          exact iff_of_true (List.prefix_refl _) self
  | torn self other => exact iff_of_true (List.prefix_append _ _) self

-- Null only for objects: as the default value in the method, and in front of what is pushed.
structure NullsObjects (p : Param) (a : Passed) : Prop where
  declared : p.hasSentinel = true → utf8 " = null" <:+ a.declared → p.IsObject
  pushed : ∀ x ∈ a.slots, callerPath p <+: x.path → p.IsObject

structure Nulled (profile : Profile) (p : Param) (a : Passed) : Prop where
  declared : p.hasSentinel = true → a.declared =
    profile.typeName p.type.content ++ utf8 " " ++ p.name ++ utf8 " = null"
  pushed : ∀ x ∈ a.slots, callerPath p <+: x.path ↔
    p.default.map Traced.content = some (.literal .objectSelf)
  objects_iff : NullsObjects p a ↔ (p.hasSentinel = true → p.IsObject)

theorem declared_sentinel {text : List UInt8} (declared : DeclaredAs profile p text)
    (sentinel : p.hasSentinel = true) :
    text = profile.typeName p.type.content ++ utf8 " " ++ p.name ++ utf8 " = null" := by
  rw [Param.hasSentinel_iff] at sentinel
  cases declared with
  | required none => simp [none] at sentinel
  | null => rfl
  | stated given stated =>
      rcases sentinel with self | invalid
      · rw [self] at given
        cases given
        cases stated
      · rw [invalid] at given
        cases given
        cases stated

theorem passed_nulled (declared : DeclaredAs profile p a.declared)
    (passes : Passes decls p a.slots) : Nulled profile p a := by
  refine ⟨declared_sentinel declared, callerPath_iff passes, ?_, ?_⟩
  · intro rule sentinel
    apply rule.declared sentinel
    rw [declared_sentinel declared sentinel]
    exact List.suffix_append _ _
  · intro typed
    refine ⟨fun sentinel _ => typed sentinel, fun x present found => typed ?_⟩
    exact Param.hasSentinel_iff.mpr (.inl ((callerPath_iff passes x present).mp found))

end arguments

end Plugin

namespace ScriptUnit

open Plugin

theorem generates_dropSentinels_iff {u : ScriptUnit} {plugin : List UInt8}
    (named : Profile.ofUnitName? u.name = some (.plugin plugin)) :
    u.dropSentinels.Generates ↔ u.Generates := by
  have other : Profile.ofUnitName? u.dropSentinels.name = some (.plugin plugin) := named
  rw [generates_plugin_iff named, generates_plugin_iff other, dropSentinels_contents]
  constructor
  · intro each before d after parts
    have moved : (u.decls.map (·.content)).map Decl.dropSentinels =
        before.map Decl.dropSentinels ++ d.dropSentinels :: after.map Decl.dropSentinels := by
      rw [parts, List.map_append, List.map_cons]
    exact supported_dropSentinels_iff.mp (each _ _ _ moved)
  · intro each before d after parts
    obtain ⟨front, rest, split, rfl, behind⟩ := List.map_eq_append_iff.mp parts
    obtain ⟨e, rear, rfl, rfl, rfl⟩ := List.map_eq_cons_iff.mp behind
    exact supported_dropSentinels_iff.mpr (each front e rear split)

theorem generate_engine_sentinel {u : ScriptUnit} (named : u.name = utf8 "nwscript.nss")
    {sig : Signature} (present : Decl.prototype sig ∈ u.decls.map (·.content))
    (bound : isHandWritten sig.name = false) {p : Traced Param} (param : p ∈ sig.params)
    (sentinel : p.content.hasSentinel = true) (other : ¬ p.content.IsObject) :
    ∃ obstacle, u.generate = .error ⟨u.name, .unsupported obstacle⟩ := by
  obtain ⟨d, among, content⟩ := List.mem_map.mp present
  have refused : ¬ u.Generates := by
    rw [generates_engine_iff named]
    intro each
    have supported := Engine.member_succeeds_iff.mp (each d among)
    rw [content] at supported
    rcases supported with written | ⟨_, passable⟩
    · rw [bound] at written
      cases written
    · exact other (Engine.passable_sentinel (passable p param) sentinel)
  cases outcome : u.generate with
  | ok code => exact (refused ⟨code, outcome⟩).elim
  | error e =>
      obtain ⟨unit, ⟨unknown, _⟩ | ⟨_, obstacle, fault⟩⟩ := generate_error outcome
      · rw [Profile.ofUnitName?_engine_iff.mpr named] at unknown
        cases unknown
      · refine ⟨obstacle, ?_⟩
        rw [← unit, ← fault]

-- A plugin unit is refused with its object constants exactly if it is refused without them, and the
-- rule that null is for objects holds of a parameter only where its own type sees to it. For engine
-- functions the rule is kept: there such a constant of another type is an unsupported construct.
theorem generate_sentinels (u : ScriptUnit) :
    (∀ plugin, Profile.ofUnitName? u.name = some (.plugin plugin) →
      (u.dropSentinels.Generates ↔ u.Generates) ∧
      ∀ code, u.generate = .ok code →
        let decls := u.decls.map (·.content)
        ∃ blocks, code = (Profile.plugin plugin).classText blocks ∧
          blocks.length = decls.length ∧
          ∀ before d after, decls = before ++ d :: after →
            ∃ front block rear, blocks = front ++ block :: rear ∧ front.length = before.length ∧
              Place plugin before d block fun sig => ∃ passed answered statements,
                MethodText plugin decls sig passed answered statements block ∧
                List.Forall₂ (fun (p : Traced Param) a => Nulled (.plugin plugin) p.content a)
                  sig.params passed) ∧
    (u.name = utf8 "nwscript.nss" → ∀ sig, Decl.prototype sig ∈ u.decls.map (·.content) →
      isHandWritten sig.name = false → ∀ p ∈ sig.params, p.content.hasSentinel = true →
        ¬ p.content.IsObject → ∃ obstacle, u.generate = .error ⟨u.name, .unsupported obstacle⟩) := by
  refine ⟨?_, ?_⟩
  · intro plugin named
    refine ⟨generates_dropSentinels_iff named, ?_⟩
    intro code generated decls
    obtain ⟨blocks, shown, long, each⟩ := generate_blocks named generated
    refine ⟨blocks, shown, long, fun before d after parts => ?_⟩
    obtain ⟨front, place, rear, cut, length, found⟩ := each before d after parts
    refine ⟨front, memberText place, rear, cut, length, member_place found ?_⟩
    rintro sig m made rfl
    obtain ⟨passed, answered, statements, text⟩ := method_text made
    refine ⟨passed, answered, statements, text, text.params.imp ?_⟩
    rintro p a ⟨declared, passes⟩
    exact passed_nulled declared passes
  · intro named sig present bound p param sentinel other
    exact generate_engine_sentinel named present bound param sentinel other

-- A struct set to the caller next to an object set to none: only the object keeps the rule.
theorem generate_sentinels_struct :
    let s : StructDecl := ⟨utf8 "S", [⟨⟨⟨.basic .int, []⟩, utf8 "n", none, false⟩, []⟩]⟩
    let record : Param := ⟨⟨.struct (utf8 "S"), []⟩, utf8 "a", some ⟨.literal .objectSelf, []⟩⟩
    let single : Param := ⟨⟨.basic .object, []⟩, utf8 "o", some ⟨.literal .objectInvalid, []⟩⟩
    let sig : Signature := ⟨⟨.basic .void, []⟩, utf8 "F", [⟨record, []⟩, ⟨single, []⟩]⟩
    let u : ScriptUnit := ⟨utf8 "NWNX_X.nss", [⟨.struct s, []⟩, ⟨.prototype sig, []⟩], []⟩
    let v : ScriptUnit := ⟨utf8 "nwscript.nss", u.decls, []⟩
    u.Generates ∧ u.dropSentinels.Generates ∧
      (∃ first second answered statements block,
        MethodText (utf8 "X") [.struct s, .prototype sig] sig [first, second] answered statements
          block ∧
        first.declared = utf8 "S a = null" ∧ ¬ NullsObjects record first ∧
        second.declared = utf8 "NWN.Object o = null" ∧ NullsObjects single second) ∧
      ∃ obstacle, v.generate = .error ⟨v.name, .unsupported obstacle⟩ := by
  intro s record single sig u v
  have named : Profile.ofUnitName? u.name = some (.plugin (utf8 "X")) := by decide +kernel
  obtain ⟨code, generated⟩ : u.Generates := ok_of_isSome (by decide +kernel)
  obtain ⟨plugin, _⟩ := generate_sentinels u
  obtain ⟨_, engine⟩ := generate_sentinels v
  obtain ⟨dropped, emitted⟩ := plugin _ named
  obtain ⟨blocks, _, _, each⟩ := emitted code generated
  obtain ⟨_, block, _, _, _, place⟩ := each [.struct s] (.prototype sig) [] rfl
  obtain ⟨passed, answered, statements, text, nulled⟩ := place.first sig rfl (by decide +kernel)
  cases nulled with
  | @cons _ first _ _ nulledFirst others =>
      cases others with
      | @cons _ second _ _ nulledSecond none =>
          cases none
          refine ⟨⟨code, generated⟩, dropped.mpr ⟨code, generated⟩,
            ⟨first, second, answered, statements, block, text, nulledFirst.declared rfl, ?_,
              nulledSecond.declared rfl, nulledSecond.objects_iff.mpr fun _ => rfl⟩, ?_⟩
          · intro rule
            have typed : record.IsObject := nulledFirst.objects_iff.mp rule rfl
            cases typed
          · refine engine rfl sig (by simp [v, u]) (by decide +kernel) ⟨record, []⟩
              List.mem_cons_self rfl ?_
            intro typed
            cases typed

-- An integer is set to null and pushed as the caller.
theorem caller_for_integer :
    let text := utf8 "void f(int n = OBJECT_SELF);"
    (parse (utf8 "NWNX_X.nss") [] (tokenize text)).toOption.bind (·.generate.toOption) =
      some (Bytes.endLines (["using NWN;", "", "namespace NWNX", "\x7b",
        "    public static class X", "    \x7b",
        "        const string PLUGIN_NAME = \"NWNX_X\";", "",
        "        public static void f(int n = null)", "        \x7b",
        "            Internal.NativeFunctions.nwnxSetFunction(PLUGIN_NAME, \"f\");",
        "            Internal.NativeFunctions.nwnxPushInt(n ?? Internal.OBJECT_SELF);",
        "            Internal.NativeFunctions.nwnxCallFunction();",
        "        \x7d", "", "    \x7d", "\x7d"].map utf8)) := by decide +kernel

end ScriptUnit
end NwscriptBindings
