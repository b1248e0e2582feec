import NwscriptBindings.Proofs.Binding.Bridge

namespace NwscriptBindings.Plugin

-- What is pushed for a scalar of a parameter: the scalar itself or, where an object is the caller by
-- default, the caller in place of null. A parameter of another type with this default is torn apart:
-- its fields are looked for in the caller.
inductive PushedAs (p : Param) : Slot → Slot → Prop where
  | own {x : Slot} : p.default.map Traced.content ≠ some (.literal .objectSelf) → PushedAs p x x
  | caller {x : Slot} : p.default.map Traced.content = some (.literal .objectSelf) →
      p.type.content = .basic .object →
      PushedAs p x ⟨x.path ++ utf8 " ?? Internal.OBJECT_SELF", x.type⟩
  | torn {fields : List UInt8} {type : BasicType} :
      p.default.map Traced.content = some (.literal .objectSelf) →
      p.type.content ≠ .basic .object →
      PushedAs p ⟨p.name ++ fields, type⟩
        ⟨p.name ++ utf8 " ?? Internal.OBJECT_SELF" ++ fields, type⟩

def Passes (decls : List Decl) (p : Param) (pushed : List Slot) : Prop :=
  ∃ scalars, Flattens (Declares decls) p.name p.type.content scalars ∧
    List.Forall₂ (PushedAs p) scalars pushed

inductive DeclaredAs (profile : Profile) (p : Param) : List UInt8 → Prop where
  | required : p.default.map Traced.content = none →
      DeclaredAs profile p (profile.typeName p.type.content ++ utf8 " " ++ p.name)
  | null : p.default.map Traced.content = some (.literal .objectSelf) ∨
        p.default.map Traced.content = some (.literal .objectInvalid) →
      DeclaredAs profile p (profile.typeName p.type.content ++ utf8 " " ++ p.name ++ utf8 " = null")
  | stated {v : Value} {text : List UInt8} : p.default.map Traced.content = some v →
      defaultText? v = some text →
      DeclaredAs profile p
        (profile.typeName p.type.content ++ utf8 " " ++ p.name ++ utf8 " = " ++ text)

structure Passed where
  declared : List UInt8
  slots : List Slot

-- The block of a method. Its lines spell a body that pushes what is passed and fetches what is
-- answered.
structure MethodText (plugin : List UInt8) (decls : List Decl) (sig : Signature)
    (passed : List Passed) (answered : List Slot) (statements : List Statement)
    (block : List UInt8) : Prop where
  params : List.Forall₂ (fun (p : Traced Param) a =>
    DeclaredAs (.plugin plugin) p.content (Passed.declared a) ∧ Passes decls p.content a.slots)
      sig.params passed
  body : ∃ returned, Answers plugin decls sig.result.content answered returned ∧
    statements = body (Profile.shortName plugin sig.name) (passed.flatMap (·.slots)) returned
  lines : ∃ lines, List.Forall₂ Statement.Spelled statements lines ∧
    block = methodText ((Profile.plugin plugin).typeName sig.result.content)
      (Profile.shortName plugin sig.name) (passed.map (·.declared)) lines

theorem MethodText.trampoline {plugin : List UInt8} {decls : List Decl} {sig : Signature}
    {passed : List Passed} {answered : List Slot} {statements : List Statement} {block : List UInt8}
    (text : MethodText plugin decls sig passed answered statements block) :
    Trampoline (Profile.shortName plugin sig.name) sig.result.content statements
      (passed.flatMap (·.slots)) answered := by
  obtain ⟨returned, answers, rfl⟩ := text.body
  exact answers.trampoline _ _

section methods

variable {decls : List Decl} {profile : Profile}

theorem argument_scalars {table : List StructDecl} {p : Param} {arg : Argument}
    (accepted : argument profile table p = .ok arg) :
    scalars table (argumentPath p) p.type.content = .ok arg.scalars := by
  obtain ⟨declared, _, rest⟩ := bind_ok_iff.mp accepted
  obtain ⟨parts, read, rest⟩ := bind_ok_iff.mp rest
  cases rest
  exact read

theorem argument_declaration {table : List StructDecl} {p : Param} {arg : Argument}
    (accepted : argument profile table p = .ok arg) :
    declaration profile p = .ok arg.declaration := by
  obtain ⟨declared, stated, rest⟩ := bind_ok_iff.mp accepted
  obtain ⟨parts, _, rest⟩ := bind_ok_iff.mp rest
  cases rest
  exact stated

def callerPath (p : Param) : List UInt8 := p.name ++ utf8 " ?? Internal.OBJECT_SELF"

theorem argumentPath_self {p : Param}
    (given : p.default.map Traced.content = some (.literal .objectSelf)) :
    argumentPath p = callerPath p := by
  unfold argumentPath
  rw [given]
  rfl

theorem argumentPath_other {p : Param}
    (other : p.default.map Traced.content ≠ some (.literal .objectSelf)) :
    argumentPath p = p.name := by
  unfold argumentPath
  split
  · rename_i given
    exact (other given).elim
  · rfl

theorem flattens_passes {p : Param} {slots : List Slot}
    (flat : Flattens (Declares decls) (argumentPath p) p.type.content slots) :
    Passes decls p slots := by
  by_cases self : p.default.map Traced.content = some (.literal .objectSelf)
  · rw [argumentPath_self self] at flat
    by_cases object : p.type.content = .basic .object
    · rw [object] at flat
      cases flat with
      | scalar => exact ⟨[⟨p.name, .object⟩], object ▸ .scalar, .cons (.caller self object) .nil⟩
    · obtain ⟨tails, rfl, moved⟩ := flat.rooted
      refine ⟨tails.map (Slot.within p.name), moved p.name, ?_⟩
      rw [List.forall₂_map_left_iff, List.forall₂_map_right_iff, List.forall₂_same]
      intro x _
      exact .torn self object
  · rw [argumentPath_other self] at flat
    exact ⟨slots, flat, List.forall₂_same.mpr fun _ _ => .own self⟩

theorem resultSteps_cases {type : ScriptType} {steps : List Action}
    (accepted : resultSteps profile (structTable decls) type = .ok steps) :
    type = .basic .void ∧ steps = [] ∨
      (∃ basic primitives, type = .basic basic ∧ basic ≠ .void ∧
        basic.abi.bridge = some primitives ∧ steps = [.returnBridgePop primitives.pop]) ∨
      ∃ name parts, type = .struct name ∧
        scalars (structTable decls) Action.resultName type = .ok parts ∧
        steps = .newResult (profile.typeName type) :: (parts.reverse.map popStep ++
          [.returnResult]) := by
  unfold resultSteps at accepted
  split at accepted
  · rename_i void
    cases accepted
    exact .inl ⟨by simpa [ScriptType.isVoid] using void, rfl⟩
  · rename_i value
    obtain ⟨parts, read, rest⟩ := bind_ok_iff.mp accepted
    cases type with
    | basic basic =>
        obtain ⟨primitives, known, rfl⟩ := flatten_basic_iff.mp read
        cases rest
        refine .inr (.inl ⟨basic, primitives, rfl, ?_, known, rfl⟩)
        intro same
        exact value (by rw [same]; rfl)
    | struct name =>
        cases rest
        exact .inr (.inr ⟨name, parts, rfl, read, rfl⟩)

-- Pushes and pops both go from the last scalar to the first.
theorem carried_spelled {statement : Slot → Statement} {step : Scalar → Action}
    (spelled : ∀ x part, x.CarriedBy part →
      Statement.Spelled (statement x) ((step part).text ++ utf8 ";"))
    {slots : List Slot} {parts : List Scalar} (carried : List.Forall₂ Slot.CarriedBy slots parts) :
    List.Forall₂ Statement.Spelled (slots.reverse.map statement)
      ((parts.reverse.map step).map fun a => a.text ++ utf8 ";") := by
  rw [List.map_map, List.forall₂_map_left_iff, List.forall₂_map_right_iff,
    List.forall₂_reverse_iff]
  exact carried.imp spelled

theorem results_answered {plugin : List UInt8} {type : ScriptType} {steps : List Action}
    (accepted : resultSteps (.plugin plugin) (structTable decls) type = .ok steps) :
    ∃ slots returned, Answers plugin decls type slots returned ∧
      List.Forall₂ Statement.Spelled returned (steps.map fun a => a.text ++ utf8 ";") := by
  rcases resultSteps_cases accepted with ⟨rfl, rfl⟩ | ⟨basic, primitives, rfl, value, known, rfl⟩ |
    ⟨name, parts, rfl, read, rfl⟩
  · exact ⟨_, _, .nothing, .nil⟩
  · exact ⟨_, _, .scalar value, .cons (Statement.give_spelled known) .nil⟩
  · obtain ⟨slots, flat, carried⟩ := scalars_sound read
    refine ⟨slots, _, .record flat, .cons (Statement.create_spelled _) ?_⟩
    rw [List.map_append]
    exact List.rel_append (carried_spelled (fun _ _ => Statement.fill_spelled) carried)
      (.cons Statement.giveRecord_spelled .nil)

theorem declaration_ok {p : Param} {text : List UInt8}
    (accepted : declaration profile p = .ok text) : DeclaredAs profile p text := by
  unfold declaration at accepted
  split at accepted
  · rename_i none
    cases accepted
    exact .required none
  · rename_i self
    cases accepted
    exact .null (.inl self)
  · rename_i invalid
    cases accepted
    exact .null (.inr invalid)
  · rename_i given
    obtain ⟨own, stated, rest⟩ := bind_ok_iff.mp accepted
    cases rest
    exact .stated given (defaultText_ok_iff.mp stated)

theorem arguments_passed {params : List (Traced Param)} {arguments : List Argument}
    (each : List.Forall₂ (fun (p : Traced Param) arg =>
      argument profile (structTable decls) p.content = .ok arg) params arguments) :
    ∃ passed, List.Forall₂ (fun (p : Traced Param) a =>
        DeclaredAs profile p.content (Passed.declared a) ∧ Passes decls p.content a.slots)
          params passed ∧
      passed.map Passed.declared = arguments.map (·.declaration) ∧
      List.Forall₂ Slot.CarriedBy (passed.flatMap (·.slots)) (arguments.flatMap (·.scalars)) := by
  induction each with
  | nil => exact ⟨[], .nil, rfl, .nil⟩
  | @cons _ arg _ _ first _ ih =>
      obtain ⟨slots, flat, carried⟩ := scalars_sound (argument_scalars first)
      obtain ⟨passed, passes, declared, others⟩ := ih
      refine ⟨⟨arg.declaration, slots⟩ :: passed,
        .cons ⟨declaration_ok (argument_declaration first), flattens_passes flat⟩ passes, ?_,
        List.rel_append carried others⟩
      rw [List.map_cons, List.map_cons, declared]

theorem method_text {plugin : List UInt8} {sig : Signature} {m : Method}
    (accepted : method plugin (structTable decls) sig = .ok m) :
    ∃ passed answered statements,
      MethodText plugin decls sig passed answered statements (memberText (some (.method m))) := by
  unfold method at accepted
  obtain ⟨arguments, read, accepted⟩ := bind_ok_iff.mp accepted
  obtain ⟨returned, result, accepted⟩ := bind_ok_iff.mp accepted
  cases accepted
  obtain ⟨passed, passes, declared, carried⟩ := arguments_passed
    ((mapM_ok_iff.mp read).imp fun _ _ bound => inParameter_ok_iff.mp bound)
  obtain ⟨answered, back, answers, spelled⟩ := results_answered (mapError_ok_iff.mp result)
  have lines := List.rel_append (List.rel_append (List.rel_append
    (.cons (Statement.select_spelled (Profile.shortName plugin sig.name)) .nil)
    (carried_spelled (fun _ _ => Statement.push_spelled) carried))
    (.cons Statement.call_spelled .nil)) spelled
  refine ⟨passed, answered, _, passes, ⟨back, answers, rfl⟩, _, lines, ?_⟩
  rw [memberText_method, List.map_append, List.map_append, List.map_append, ← declared]
  rfl

end methods

section places

variable {plugin : List UInt8} {table : List StructDecl} {seen : List (List UInt8)} {d : Decl}

def names (decls : List Decl) : List (List UInt8) :=
  decls.flatMap fun d => ((signature? d).map (·.name)).toList

theorem members_cons_ok {rest : List Decl} {ms : List (Option Member)}
    (accepted : members plugin table seen (d :: rest) = .ok ms) :
    ∃ m others, member plugin table seen d = .ok m ∧
      members plugin table (seen ++ names [d]) rest = .ok others ∧ ms = m :: others := by
  obtain ⟨m, first, accepted⟩ := bind_ok_iff.mp accepted
  obtain ⟨others, later, accepted⟩ := bind_ok_iff.mp accepted
  cases accepted
  rw [names, List.flatMap_singleton]
  exact ⟨m, others, first, later, rfl⟩

theorem members_length {decls : List Decl} {ms : List (Option Member)}
    (accepted : members plugin table seen decls = .ok ms) : ms.length = decls.length := by
  induction decls generalizing seen ms with
  | nil =>
      cases accepted
      rfl
  | cons d decls ih =>
      obtain ⟨m, others, _, later, rfl⟩ := members_cons_ok accepted
      rw [List.length_cons, List.length_cons, ih later]

theorem members_place {before after : List Decl} {ms : List (Option Member)}
    (accepted : members plugin table seen (before ++ d :: after) = .ok ms) :
    ∃ front m rear, ms = front ++ m :: rear ∧ front.length = before.length ∧
      member plugin table (seen ++ names before) d = .ok m := by
  induction before generalizing seen ms with
  | nil =>
      obtain ⟨m, others, first, _, rfl⟩ := members_cons_ok accepted
      refine ⟨[], m, others, rfl, rfl, ?_⟩
      rw [names, List.flatMap_nil, List.append_nil]
      exact first
  | cons e before ih =>
      obtain ⟨m, others, _, later, rfl⟩ := members_cons_ok accepted
      obtain ⟨front, place, rear, rfl, long, found⟩ := ih later
      refine ⟨m :: front, place, rear, rfl, by simp [long], ?_⟩
      rw [List.append_assoc, names, names, ← List.flatMap_append] at found
      exact found

theorem function_cases {sig : Signature} {place : Option Member}
    (function : signature? d = some sig) (accepted : member plugin table seen d = .ok place) :
    sig.name ∈ seen ∧ place = none ∨
      sig.name ∉ seen ∧ ∃ m, method plugin table sig = .ok m ∧ place = some (.method m) := by
  have chosen : (if seen.contains sig.name then .ok none
      else inFunction sig.name (method plugin table sig)) = Except.ok place := by
    cases d with
    | prototype own | function own body =>
        cases function
        exact accepted
    | _ => cases function
  split at chosen
  · rename_i earlier
    cases chosen
    exact .inl ⟨List.contains_iff_mem.mp earlier, rfl⟩
  · rename_i fresh
    exact .inr ⟨fun earlier => fresh (List.contains_iff_mem.mpr earlier),
      inFunction_ok_iff.mp chosen⟩

theorem member_shows {place : Option Member}
    (accepted : member plugin table seen d = .ok place) (other : signature? d = none) :
    (Profile.plugin plugin).Shows d (memberText place) := by
  cases d with
  | directive text =>
      cases accepted
      exact .directive
  | comment c =>
      cases accepted
      exact Profile.shows_comment _ c
  | struct s =>
      cases accepted
      exact Profile.shows_struct _ s
  | var v =>
      obtain ⟨own, stated, rfl⟩ := map_ok_iff.mp accepted
      exact Profile.shows_variable stated
  | prototype sig | function sig body => cases other

-- The block of a declaration: a method for the first function of each name, nothing for a later one.
structure Place (plugin : List UInt8) (before : List Decl) (d : Decl) (block : List UInt8)
    (method : Signature → Prop) : Prop where
  first : ∀ sig, signature? d = some sig → sig.name ∉ names before → method sig
  later : ∀ sig, signature? d = some sig → sig.name ∈ names before → block = []
  plain : signature? d = none → (Profile.plugin plugin).Shows d block

theorem member_place {before : List Decl} {place : Option Member} {bound : Signature → Prop}
    (accepted : member plugin table (names before) d = .ok place)
    (methods : ∀ sig m, method plugin table sig = .ok m → place = some (.method m) → bound sig) :
    Place plugin before d (memberText place) bound where
  first sig function fresh := by
    rcases function_cases function accepted with ⟨earlier, _⟩ | ⟨_, m, made, same⟩
    · exact absurd earlier fresh
    · exact methods sig m made same
  later sig function earlier := by
    rcases function_cases function accepted with ⟨_, rfl⟩ | ⟨fresh, _⟩
    · rfl
    · exact absurd earlier fresh
  plain := member_shows accepted

end places

end NwscriptBindings.Plugin

namespace NwscriptBindings.ScriptUnit

open Plugin

theorem generate_plugin_iff {u : ScriptUnit} {plugin code : List UInt8}
    (named : Profile.ofUnitName? u.name = some (.plugin plugin)) : u.generate = .ok code ↔
      ∃ ms, members plugin (structTable (u.decls.map (·.content))) [] (u.decls.map (·.content)) =
          .ok ms ∧ code = (Profile.plugin plugin).classText (ms.map memberText) := by
  simp only [generate_ok_iff, named]
  constructor
  · rintro ⟨_, ms, same, accepted, rfl⟩
    cases same
    exact ⟨ms, accepted, rfl⟩
  · rintro ⟨ms, accepted, rfl⟩
    exact ⟨.plugin plugin, ms, rfl, accepted, rfl⟩

end NwscriptBindings.ScriptUnit
