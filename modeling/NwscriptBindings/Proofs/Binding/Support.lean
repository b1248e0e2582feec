import NwscriptBindings.Proofs.Binding.Carriage
import NwscriptBindings.Proofs.Binding.Numbering
import NwscriptBindings.Proofs.Binding.PluginMethods
import NwscriptBindings.Proofs.Text.Splitting

namespace NwscriptBindings

inductive Value.Stated : Value → Prop where
  | int {v : Int32} {raw : List UInt8} : Stated (.literal (.int v raw))
  | float {v : Binary32} {raw : List UInt8} : Stated (.literal (.float v raw))
  | string {body : List UInt8} : Stated (.literal (.string body))
  | reference {name : List UInt8} : Stated (.reference name)

theorem defaultText_succeeds_iff {v : Value} :
    (∃ text, defaultText v = .ok text) ↔ v.Stated := by
  unfold defaultText
  constructor
  · rintro ⟨text, accepted⟩
    cases v with
    | reference name => exact .reference
    | literal l =>
        cases l with
        | int => exact .int
        | float => exact .float
        | string => exact .string
        | _ => cases accepted
  · intro stated
    cases stated <;> exact ⟨_, rfl⟩

def VarDecl.Supported (d : VarDecl) : Prop :=
  d.init = none ∨ ∃ basic, d.type.content = .basic basic

theorem variableMember_succeeds_iff {profile : Profile} {d : VarDecl} :
    (∃ m, profile.variableMember d = .ok m) ↔ d.Supported := by
  unfold Profile.variableMember VarDecl.Supported
  cases d.init with
  | none => simp
  | some init =>
      cases d.type.content with
      | basic basic => simp
      | struct name => simp

namespace Engine

-- The default values of a parameter. Objects are known to the runtime only, so no object is written
-- out; for a vector null stands in.
def Allows : BasicType → Value → Prop
  | .object, v => v = .literal .objectSelf ∨ v = .literal .objectInvalid ∨
      v = .reference (utf8 "OBJECT_TYPE_INVALID") ∨ v = .reference (utf8 "OBJECT_INVALID")
  | .vector, v => (∃ x y z, v = .literal (.vector x y z)) ∨ v.Stated
  | _, v => v.Stated

def OnStack (type : ScriptType) : Prop :=
  ∃ basic, type = .basic basic ∧ basic.abi.stack.isSome = true

def Passable (p : Param) : Prop :=
  ∃ basic, p.type.content = .basic basic ∧ basic.abi.stack.isSome = true ∧
    ∀ v ∈ p.default.map Traced.content, Allows basic v

def Bindable (sig : Signature) : Prop :=
  (sig.result.content = .basic .void ∨ OnStack sig.result.content) ∧
    ∀ p ∈ sig.params, Passable p.content

def Supported : Decl → Prop
  | .directive _ | .comment _ | .struct _ => True
  | .var d => d.Supported
  | .prototype sig => isHandWritten sig.name = true ∨ Bindable sig
  | .function _ _ => False

theorem objectDefault_succeeds_iff {given : Option Value} :
    (∃ o, objectDefault given = .ok o) ↔ ∀ v ∈ given, Allows .object v := by
  cases given with
  | none => simp [objectDefault]
  | some v =>
      simp only [Option.mem_some_iff, forall_eq', Allows]
      cases v with
      | reference name =>
          by_cases listed : name = utf8 "OBJECT_TYPE_INVALID" ∨ name = utf8 "OBJECT_INVALID"
          · simp [objectDefault, listed]
          · simp [objectDefault, listed]
      | literal l => cases l <;> simp [objectDefault]

theorem plainArgument_succeeds_iff {declared name : List UInt8} {primitive : String}
    {given : Option Value} :
    (∃ arg, plainArgument declared name primitive given = .ok arg) ↔ ∀ v ∈ given, v.Stated := by
  cases given with
  | none => simp [plainArgument]
  | some v =>
      simp only [Option.mem_some_iff, forall_eq', ← defaultText_succeeds_iff, plainArgument,
        bind_ok_iff, pure_ok_iff]
      constructor
      · rintro ⟨_, text, stated, _⟩
        exact ⟨text, stated⟩
      · rintro ⟨text, stated⟩
        exact ⟨_, text, stated, rfl⟩

def Written (basic : BasicType) (given : Option Value) : Prop :=
  basic = .vector ∧ ∃ x y z, given = some (.literal (.vector x y z))

theorem allows_stated_iff {basic : BasicType} {given : Option Value} (other : basic ≠ .object)
    (unwritten : ¬ Written basic given) :
    (∀ v ∈ given, Allows basic v) ↔ ∀ v ∈ given, v.Stated := by
  cases basic with
  | object => exact (other rfl).elim
  | vector =>
      refine forall₂_congr fun v present => or_iff_right ?_
      rintro ⟨x, y, z, rfl⟩
      exact unwritten ⟨rfl, x, y, z, present⟩
  | _ => exact Iff.rfl

theorem argument_allows_iff {p : Param} {basic : BasicType} {primitives : Primitives}
    (typed : p.type.content = .basic basic) (known : basic.abi.stack = some primitives) :
    (∃ arg, argument p = .ok arg) ↔ ∀ v ∈ p.default.map Traced.content, Allows basic v := by
  unfold argument
  rw [stackPrimitives_ok_iff.mpr ⟨typed, known⟩]
  simp only [bind, Except.bind]
  generalize p.default.map Traced.content = given
  split
  · rw [← objectDefault_succeeds_iff]
    cases objectDefault given <;> simp [pure, Except.pure]
  · rename_i x y z
    refine ⟨fun _ v same => .inl ⟨x, y, z, (Option.some.inj same).symm⟩, fun _ => ⟨_, rfl⟩⟩
  · rename_i other unwritten
    rw [plainArgument_succeeds_iff, allows_stated_iff]
    · exact other
    · rintro ⟨rfl, x, y, z, rfl⟩
      exact unwritten x y z rfl rfl

theorem argument_succeeds_iff {p : Param} : (∃ arg, argument p = .ok arg) ↔ Passable p := by
  constructor
  · intro accepted
    obtain ⟨_, given⟩ := accepted
    obtain ⟨⟨basic, primitives⟩, found, _⟩ := bind_ok_iff.mp given
    obtain ⟨typed, known⟩ := stackPrimitives_ok_iff.mp found
    refine ⟨basic, typed, by rw [known]; rfl, ?_⟩
    exact (argument_allows_iff typed known).mp ⟨_, given⟩
  · rintro ⟨basic, typed, carried, allowed⟩
    obtain ⟨primitives, known⟩ := Option.isSome_iff_exists.mp carried
    exact (argument_allows_iff typed known).mpr allowed

theorem resultSteps_succeeds_iff {type : ScriptType} :
    (∃ steps, resultSteps type = .ok steps) ↔ type = .basic .void ∨ OnStack type := by
  unfold resultSteps
  by_cases void : type = .basic .void
  · rw [void]
    simp [ScriptType.isVoid]
  · have value : type.isVoid = false := by simpa [ScriptType.isVoid] using void
    rw [value, or_iff_right void]
    constructor
    · rintro ⟨steps, accepted⟩
      cases found : stackPrimitives type with
      | error cause => simp [found] at accepted
      | ok pair =>
          obtain ⟨typed, known⟩ := stackPrimitives_ok_iff.mp found
          exact ⟨pair.1, typed, by rw [known]; rfl⟩
    · rintro ⟨basic, typed, carried⟩
      obtain ⟨primitives, known⟩ := Option.isSome_iff_exists.mp carried
      simp [stackPrimitives_ok_iff.mpr ⟨typed, known⟩]

theorem method_succeeds_iff {index : Nat} {sig : Signature} :
    (∃ m, method index sig = .ok m) ↔ Bindable sig := by
  have params : (∃ args, sig.params.mapM (fun p => inParameter p.content.name
      (argument p.content)) = .ok args) ↔ ∀ p ∈ sig.params, Passable p.content := by
    simp only [mapM_succeeds_iff, inParameter_ok_iff, argument_succeeds_iff]
  unfold method Bindable
  rw [← resultSteps_succeeds_iff, ← params]
  simp only [bind_ok_iff, pure_ok_iff]
  constructor
  · rintro ⟨_, returned, result, arguments, passed, _⟩
    exact ⟨⟨returned, result⟩, arguments, passed⟩
  · rintro ⟨⟨returned, result⟩, arguments, passed⟩
    exact ⟨_, returned, result, arguments, passed, rfl⟩

theorem member_succeeds_iff {d : Decl} : (∃ m, member 0 d = .ok m) ↔ Supported d := by
  cases d with
  | directive text => simp [member, Supported]
  | comment c => simp [member, Supported]
  | struct s => simp [member, Supported]
  | function sig body => simp [member, Supported]
  | var v =>
      rw [Supported, ← @variableMember_succeeds_iff .engine, member]
      cases Profile.engine.variableMember v <;> simp [Except.map]
  | prototype sig =>
      simp only [member_prototype_iff, Supported, ← @method_succeeds_iff 0]
      cases isHandWritten sig.name <;> simp

end Engine

namespace Plugin

-- Null stands for the object that the runtime resolves, whatever the type of the parameter.
def Allows (v : Value) : Prop :=
  v = .literal .objectSelf ∨ v = .literal .objectInvalid ∨ v.Stated

def Passable (decls : List Decl) (p : Param) : Prop :=
  Carriable (Declares decls) p.type.content ∧ ∀ v ∈ p.default.map Traced.content, Allows v

def Bindable (decls : List Decl) (sig : Signature) : Prop :=
  (sig.result.content = .basic .void ∨ Carriable (Declares decls) sig.result.content) ∧
    ∀ p ∈ sig.params, Passable decls p.content

-- Support of a declaration of a unit behind those in `before`, whose functions have their methods
-- already.
def Supported (decls before : List Decl) : Decl → Prop
  | .directive _ | .comment _ | .struct _ => True
  | .var d => d.Supported
  | .prototype sig | .function sig _ => sig.name ∈ names before ∨ Bindable decls sig

section support

variable {decls : List Decl} {profile : Profile}

theorem declaration_succeeds_iff {p : Param} :
    (∃ text, declaration profile p = .ok text) ↔ ∀ v ∈ p.default.map Traced.content, Allows v := by
  unfold declaration
  generalize p.default.map Traced.content = given
  cases given with
  | none => simp
  | some v =>
      simp only [Option.mem_some_iff, forall_eq', Allows, ← defaultText_succeeds_iff]
      cases v with
      | reference name => simp [defaultText, defaultText?, bind, Except.bind, pure, Except.pure]
      | literal l =>
          cases l <;> simp [defaultText, defaultText?, bind, Except.bind, pure, Except.pure]

theorem argument_succeeds_iff {p : Param} :
    (∃ arg, argument profile (structTable decls) p = .ok arg) ↔ Passable decls p := by
  unfold argument Passable
  rw [← @scalars_carriable_iff decls (argumentPath p), ← @declaration_succeeds_iff profile]
  simp only [bind_ok_iff, pure_ok_iff]
  constructor
  · rintro ⟨_, declared, stated, parts, read, _⟩
    exact ⟨⟨parts, read⟩, declared, stated⟩
  · rintro ⟨⟨parts, read⟩, declared, stated⟩
    exact ⟨_, declared, stated, parts, read, rfl⟩

theorem resultSteps_succeeds_iff {type : ScriptType} :
    (∃ steps, resultSteps profile (structTable decls) type = .ok steps) ↔
      type = .basic .void ∨ Carriable (Declares decls) type := by
  unfold resultSteps
  by_cases void : type = .basic .void
  · rw [void]
    simp [ScriptType.isVoid]
  · have value : type.isVoid = false := by simpa [ScriptType.isVoid] using void
    rw [value, or_iff_right void, ← @scalars_carriable_iff decls Action.resultName]
    simp only [Bool.false_eq_true, if_false, bind_ok_iff]
    constructor
    · rintro ⟨_, parts, read, _⟩
      exact ⟨parts, read⟩
    · rintro ⟨parts, read⟩
      cases type with
      | basic basic => exact ⟨_, parts, read, rfl⟩
      | struct name => exact ⟨_, parts, read, rfl⟩

theorem method_succeeds_iff {plugin : List UInt8} {sig : Signature} :
    (∃ m, method plugin (structTable decls) sig = .ok m) ↔ Bindable decls sig := by
  have params : (∃ args, sig.params.mapM (fun p => inParameter p.content.name
      (argument (.plugin plugin) (structTable decls) p.content)) = .ok args) ↔
        ∀ p ∈ sig.params, Passable decls p.content := by
    simp only [mapM_succeeds_iff, inParameter_ok_iff, argument_succeeds_iff]
  unfold method Bindable
  rw [← @resultSteps_succeeds_iff decls (.plugin plugin), ← params]
  simp only [bind_ok_iff, pure_ok_iff, mapError_ok_iff]
  constructor
  · rintro ⟨_, arguments, passed, returned, result, _⟩
    exact ⟨⟨returned, result⟩, arguments, passed⟩
  · rintro ⟨⟨returned, result⟩, arguments, passed⟩
    exact ⟨_, arguments, passed, returned, result, rfl⟩

theorem member_succeeds_iff {plugin : List UInt8} {before : List Decl} {d : Decl} :
    (∃ m, member plugin (structTable decls) (names before) d = .ok m) ↔
      Supported decls before d := by
  have function : ∀ sig : Signature,
      (∃ m, (if (names before).contains sig.name then .ok none
        else inFunction sig.name (method plugin (structTable decls) sig)) = .ok m) ↔
          sig.name ∈ names before ∨ Bindable decls sig := by
    intro sig
    by_cases earlier : sig.name ∈ names before
    · simp [earlier]
    · simp [earlier, inFunction_ok_iff, ← @method_succeeds_iff decls plugin]
  cases d with
  | directive text => simp [member, Supported]
  | comment c => simp [member, Supported]
  | struct s => simp [member, Supported]
  | var v =>
      rw [Supported, ← @variableMember_succeeds_iff (.plugin plugin), member]
      cases (Profile.plugin plugin).variableMember v <;> simp [Except.map]
  | prototype sig => exact function sig
  | function sig body => exact function sig

theorem members_succeed_iff {plugin : List UInt8} {table : List StructDecl}
    {seen : List (List UInt8)} :
    (∃ ms, members plugin table seen decls = .ok ms) ↔ ∀ before d after,
      decls = before ++ d :: after → ∃ m, member plugin table (seen ++ names before) d = .ok m := by
  constructor
  · rintro ⟨ms, accepted⟩ before d after rfl
    obtain ⟨_, m, _, _, _, found⟩ := members_place accepted
    exact ⟨m, found⟩
  · intro each
    induction decls generalizing seen with
    | nil => exact ⟨[], rfl⟩
    | cons d rest ih =>
        obtain ⟨m, first⟩ := each [] d rest rfl
        rw [names, List.flatMap_nil, List.append_nil] at first
        have later : ∃ ms, members plugin table (seen ++ names [d]) rest = .ok ms := by
          apply ih
          intro before e after split
          rw [List.append_assoc, names, names, ← List.flatMap_append]
          exact each (d :: before) e after (by rw [split]; rfl)
        obtain ⟨others, accepted⟩ := later
        rw [names, List.flatMap_singleton] at accepted
        exact ⟨m :: others, bind_ok_iff.mpr ⟨m, first, bind_ok_iff.mpr ⟨others, accepted, rfl⟩⟩⟩

end support

end Plugin

namespace Profile

theorem pluginName?_iff {unit plugin : List UInt8} : pluginName? unit = some plugin ↔
    plugin ≠ [] ∧ unit = utf8 "NWNX_" ++ plugin ++ utf8 ".nss" := by
  have stripped : ∀ found, (Bytes.stripStart? pluginMark unit).bind
      (Bytes.stripStop? (utf8 ".nss")) = some found ↔
        unit = utf8 "NWNX_" ++ found ++ utf8 ".nss" := by
    intro found
    simp only [Option.bind_eq_some_iff, Bytes.stripStart?_iff, Bytes.stripStop?_iff]
    constructor
    · rintro ⟨_, rfl, rfl⟩
      rw [pluginMark, List.append_assoc]
    · rintro rfl
      exact ⟨found ++ utf8 ".nss", by rw [pluginMark, List.append_assoc], rfl⟩
  rw [← stripped, pluginName?]
  split
  · rename_i empty
    rw [empty]
    constructor
    · intro found
      cases found
    · rintro ⟨nonempty, same⟩
      exact (nonempty (Option.some.inj same).symm).elim
  · rename_i given
    constructor
    · intro found
      refine ⟨?_, found⟩
      rintro rfl
      exact given found
    · exact fun both => both.2

theorem ofUnitName?_plugin_iff {unit plugin : List UInt8} :
    ofUnitName? unit = some (.plugin plugin) ↔
      plugin ≠ [] ∧ unit = utf8 "NWNX_" ++ plugin ++ utf8 ".nss" := by
  rw [← pluginName?_iff, ofUnitName?]
  by_cases engine : unit = engineUnit
  · -- The two kinds of names differ in their first letter.
    have other : pluginName? engineUnit = none := by decide +kernel
    simp [engine, other]
  · simp [engine]

theorem ofUnitName?_engine_iff {unit : List UInt8} :
    ofUnitName? unit = some .engine ↔ unit = utf8 "nwscript.nss" := by
  unfold ofUnitName?
  by_cases engine : unit = engineUnit
  · rw [if_pos engine]
    exact iff_of_true rfl engine
  · rw [if_neg engine]
    cases pluginName? unit with
    | none => exact iff_of_false (by simp) engine
    | some plugin => exact iff_of_false (by simp) engine

theorem ofUnitName?_none_iff {unit : List UInt8} :
    ofUnitName? unit = none ↔ unit ≠ utf8 "nwscript.nss" ∧
      ¬ ∃ plugin, plugin ≠ [] ∧ unit = utf8 "NWNX_" ++ plugin ++ utf8 ".nss" := by
  simp only [ne_eq, ← ofUnitName?_engine_iff, ← ofUnitName?_plugin_iff]
  cases ofUnitName? unit with
  | none => simp
  | some profile => cases profile <;> simp

end Profile

namespace BindingError

variable {e : BindingError}

theorem message_ends {ending : List UInt8} (ends : ending <:+ e.fault.text) :
    ending <:+ e.message :=
  ends.trans (List.suffix_append _ _)

-- The two endings differ in their last letter, so no message has both.
theorem message_one_ending (unknown : utf8 "unrecognized compilation unit name" <:+ e.message)
    (unsupported : utf8 ": unsupported construct" <:+ e.message) : False := by
  have letters : (utf8 "unrecognized compilation unit name").getLast? ≠
      (utf8 ": unsupported construct").getLast? := by decide +kernel
  obtain ⟨front, first⟩ := unknown
  obtain ⟨other, second⟩ := unsupported
  refine letters ?_
  have last := congrArg List.getLast? (first.trans second.symm)
  rwa [List.getLast?_append_of_ne_nil _ (by decide), List.getLast?_append_of_ne_nil _ (by decide)]
    at last

theorem message_unknown_iff :
    utf8 "unrecognized compilation unit name" <:+ e.message ↔ e.fault = .unknownUnit := by
  constructor
  · intro unknown
    cases fault : e.fault with
    | unknownUnit => rfl
    | unsupported obstacle =>
        refine (message_one_ending unknown (message_ends ?_)).elim
        rw [fault]
        exact List.suffix_append _ _
  · intro fault
    refine message_ends ?_
    rw [fault]
    exact List.suffix_refl _

theorem message_unsupported_iff : utf8 ": unsupported construct" <:+ e.message ↔
    ∃ obstacle, e.fault = .unsupported obstacle := by
  constructor
  · intro unsupported
    cases fault : e.fault with
    | unknownUnit => exact (message_one_ending (message_unknown_iff.mpr fault) unsupported).elim
    | unsupported obstacle => exact ⟨obstacle, rfl⟩
  · rintro ⟨obstacle, fault⟩
    refine message_ends ?_
    rw [fault]
    exact List.suffix_append _ _

end BindingError

namespace ScriptUnit

theorem generate_error {u : ScriptUnit} {e : BindingError} (refused : u.generate = .error e) :
    e.unit = u.name ∧ (Profile.ofUnitName? u.name = none ∧ e.fault = .unknownUnit ∨
      Profile.ofUnitName? u.name ≠ none ∧ ∃ obstacle, e.fault = .unsupported obstacle) := by
  unfold generate at refused
  split at refused
  · rename_i unknown
    cases refused
    exact ⟨rfl, .inl ⟨unknown, rfl⟩⟩
  · rename_i profile known
    split at refused
    · cases refused
    · rename_i obstacle _
      cases refused
      exact ⟨rfl, .inr ⟨by simp [known], obstacle, rfl⟩⟩

theorem generates_plugin_iff {u : ScriptUnit} {plugin : List UInt8}
    (named : Profile.ofUnitName? u.name = some (.plugin plugin)) :
    u.Generates ↔ ∀ before d after, u.decls.map (·.content) = before ++ d :: after →
      Plugin.Supported (u.decls.map (·.content)) before d := by
  have each := @Plugin.members_succeed_iff (u.decls.map (·.content)) plugin
    (Plugin.structTable (u.decls.map (·.content))) []
  simp only [List.nil_append, Plugin.member_succeeds_iff] at each
  rw [← each, Generates]
  simp only [generate_ok_iff, named]
  constructor
  · rintro ⟨code, _, ms, same, accepted, _⟩
    cases same
    exact ⟨ms, accepted⟩
  · rintro ⟨ms, accepted⟩
    exact ⟨_, .plugin plugin, ms, rfl, accepted, rfl⟩

theorem generate_unknown_iff {u : ScriptUnit} :
    (∃ e, u.generate = .error e ∧ e.fault = .unknownUnit) ↔
      Profile.ofUnitName? u.name = none := by
  constructor
  · rintro ⟨e, refused, unknown⟩
    obtain ⟨_, ⟨none, _⟩ | ⟨_, obstacle, unsupported⟩⟩ := generate_error refused
    · exact none
    · rw [unknown] at unsupported
      cases unsupported
  · intro none
    refine ⟨⟨u.name, .unknownUnit⟩, ?_, rfl⟩
    unfold generate
    rw [none]

theorem generates_supported_iff {u : ScriptUnit} : u.Generates ↔
    (Profile.ofUnitName? u.name = some .engine ∧ ∀ d ∈ u.decls, Engine.Supported d.content) ∨
      ∃ plugin, Profile.ofUnitName? u.name = some (.plugin plugin) ∧
        ∀ before d after, u.decls.map (·.content) = before ++ d :: after →
          Plugin.Supported (u.decls.map (·.content)) before d := by
  have engine : Profile.ofUnitName? u.name = some .engine →
      (u.Generates ↔ ∀ d ∈ u.decls, Engine.Supported d.content) := by
    intro known
    simp only [generates_engine_iff (Profile.ofUnitName?_engine_iff.mp known),
      Engine.member_succeeds_iff]
  constructor
  · intro generates
    obtain ⟨code, generated⟩ := generates
    obtain ⟨profile, _, known, _⟩ := generate_ok_iff.mp generated
    cases profile with
    | engine => exact .inl ⟨known, (engine known).mp ⟨code, generated⟩⟩
    | plugin name => exact .inr ⟨name, known, (generates_plugin_iff known).mp ⟨code, generated⟩⟩
  · intro supported
    rcases supported with ⟨known, each⟩ | ⟨plugin, known, each⟩
    · exact (engine known).mpr each
    · exact (generates_plugin_iff known).mpr each

-- Generation gives code exactly if the name fits a profile and all declarations are supported by
-- it. An error names the unit, and how its text ends tells which of the two is wrong.
theorem generate_classified (u : ScriptUnit) :
    (∀ e, u.generate = .error e → e.unit = u.name ∧ u.name ++ utf8 ": " <+: e.message ∧
      (e.fault = .unknownUnit ↔ utf8 "unrecognized compilation unit name" <:+ e.message) ∧
      ((∃ obstacle, e.fault = .unsupported obstacle) ↔
        utf8 ": unsupported construct" <:+ e.message) ∧
      Xor (utf8 "unrecognized compilation unit name" <:+ e.message)
        (utf8 ": unsupported construct" <:+ e.message)) ∧
    ((∃ e, u.generate = .error e ∧ e.fault = .unknownUnit) ↔
      u.name ≠ utf8 "nwscript.nss" ∧
        ¬ ∃ plugin, plugin ≠ [] ∧ u.name = utf8 "NWNX_" ++ plugin ++ utf8 ".nss") ∧
    (u.Generates ↔
      (u.name = utf8 "nwscript.nss" ∧ ∀ d ∈ u.decls, Engine.Supported d.content) ∨
      ∃ plugin, plugin ≠ [] ∧ u.name = utf8 "NWNX_" ++ plugin ++ utf8 ".nss" ∧
        ∀ before d after, u.decls.map (·.content) = before ++ d :: after →
          Plugin.Supported (u.decls.map (·.content)) before d) := by
  refine ⟨?_, ?_, ?_⟩
  · intro e refused
    obtain ⟨named, either⟩ := generate_error refused
    refine ⟨named, ?_, BindingError.message_unknown_iff.symm,
      BindingError.message_unsupported_iff.symm, ?_⟩
    · rw [← named]
      exact List.prefix_append _ _
    · rcases either with ⟨_, unknown⟩ | ⟨_, unsupported⟩
      · have ends := BindingError.message_unknown_iff.mpr unknown
        exact .inl ⟨ends, BindingError.message_one_ending ends⟩
      · have ends := BindingError.message_unsupported_iff.mpr unsupported
        exact .inr ⟨ends, fun other => BindingError.message_one_ending other ends⟩
  · rw [generate_unknown_iff, Profile.ofUnitName?_none_iff]
  · rw [generates_supported_iff]
    simp only [Profile.ofUnitName?_engine_iff, Profile.ofUnitName?_plugin_iff, and_assoc]

end ScriptUnit
end NwscriptBindings
