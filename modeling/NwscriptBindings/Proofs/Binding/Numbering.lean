import NwscriptBindings.Proofs.Binding.Emission

namespace NwscriptBindings.Engine

-- What a method hands over for a parameter: its name, for an object with a mark whether null is
-- the caller, and for a vector with the default that stands in for null.
def pushedText (p : Param) : List UInt8 :=
  match p.type.content, p.default.map Traced.content with
  | .basic .object, given =>
      p.name ++ if given = some (.literal .objectSelf) then utf8 ", true" else utf8 ", false"
  | .basic .vector, some (.literal (.vector x y z)) => p.name ++ utf8 " ?? " ++ vectorText x y z
  | _, _ => p.name

def stackName? : BasicType → Option String
  | .int => some "Integer"
  | .float => some "Float"
  | .string => some "String"
  | .object => some "Object"
  | .location => some "Location"
  | .vector => some "Vector"
  | .itemProperty => some "ItemProperty"
  | .effect => some "Effect"
  | .talent => some "Talent"
  | .event => some "Event"
  | _ => none

theorem stack_names {type : BasicType} {primitives : Primitives}
    (known : type.abi.stack = some primitives) :
    ∃ name, stackName? type = some name ∧
      utf8 primitives.push = utf8 "StackPush" ++ utf8 name ∧
      utf8 primitives.pop = utf8 "StackPop" ++ utf8 name := by
  cases type <;> cases known <;> exact ⟨_, rfl, by decide +kernel, by decide +kernel⟩

def objectConstants : List Value :=
  [.literal .objectSelf, .literal .objectInvalid, .reference (utf8 "OBJECT_TYPE_INVALID"),
    .reference (utf8 "OBJECT_INVALID")]

-- How a parameter is declared. Null is the default of objects, and stands in for a vector.
inductive DeclaredAs (p : Param) : List UInt8 → Prop where
  | required : p.default.map Traced.content = none →
      DeclaredAs p (Profile.engine.typeName p.type.content ++ utf8 " " ++ p.name)
  | object {v : Value} : p.default.map Traced.content = some v → v ∈ objectConstants →
      p.type.content = .basic .object → DeclaredAs p (utf8 "NWN.Object " ++ p.name ++ utf8 " = null")
  | vector {x y z : Binary32} : p.default.map Traced.content = some (.literal (.vector x y z)) →
      p.type.content = .basic .vector → DeclaredAs p (utf8 "NWN.Vector? " ++ p.name ++ utf8 " = null")
  | stated {v : Value} {text : List UInt8} : p.default.map Traced.content = some v →
      p.type.content ≠ .basic .object → defaultText? v = some text →
      DeclaredAs p
        (Profile.engine.typeName p.type.content ++ utf8 " " ++ p.name ++ utf8 " = " ++ text)

def PushLine (p : Param) (line : List UInt8) : Prop :=
  ∃ type name, p.type.content = .basic type ∧ stackName? type = some name ∧
    line = utf8 "Internal.StackPush" ++ utf8 name ++ utf8 "(" ++ pushedText p ++ utf8 ");"

inductive ReturnLines : ScriptType → List (List UInt8) → Prop where
  | nothing : ReturnLines (.basic .void) []
  | value {type : BasicType} {name : String} : type ≠ .void → stackName? type = some name →
      ReturnLines (.basic type) [utf8 "return Internal.StackPop" ++ utf8 name ++ utf8 "();"]

-- The block of the engine function with a number: its pushes, the call and what it returns, with
-- nothing between them or behind them.
def CallText (index : Nat) (sig : Signature) (declared : List (List UInt8))
    (block : List UInt8) : Prop :=
  List.Forall₂ (fun p text => DeclaredAs p.content text) sig.params declared ∧
  ∃ pushes returned, block = methodText (Profile.engine.typeName sig.result.content) sig.name
      declared (pushes ++ [utf8 "Internal.CallBuiltIn(" ++ Bytes.ofNat index ++ utf8 ");"] ++
        returned) ∧
    List.Forall₂ (fun p line => PushLine p.content line) sig.params pushes ∧
    ReturnLines sig.result.content returned

theorem stackPrimitives_ok_iff {type : ScriptType} {basic : BasicType} {primitives : Primitives} :
    stackPrimitives type = .ok (basic, primitives) ↔
      type = .basic basic ∧ basic.abi.stack = some primitives := by
  cases type with
  | struct name => simp [stackPrimitives]
  | basic b =>
      cases found : b.abi.stack with
      | none =>
          simp only [stackPrimitives, found, reduceCtorEq, ScriptType.basic.injEq, false_iff,
            not_and]
          rintro rfl
          simp [found]
      | some given =>
          simp only [stackPrimitives, found, Except.ok.injEq, Prod.mk.injEq,
            ScriptType.basic.injEq]
          constructor
          · rintro ⟨rfl, rfl⟩
            exact ⟨rfl, found⟩
          · rintro ⟨rfl, same⟩
            exact ⟨rfl, Option.some.inj (found.symm.trans same)⟩

theorem argument_cases {p : Param} {arg : Argument} (accepted : argument p = .ok arg) :
    ∃ type primitives, p.type.content = .basic type ∧ type.abi.stack = some primitives ∧
      let declared := utf8 type.abi.target ++ utf8 " " ++ p.name
      let given := p.default.map Traced.content
      ((type = .object ∧ ∃ object, objectDefault given = .ok object ∧
          arg = objectArgument declared p.name primitives.push object) ∨
        (type = .vector ∧ ∃ x y z, given = some (.literal (.vector x y z)) ∧
          arg = ⟨utf8 type.abi.target ++ utf8 "? " ++ p.name ++ utf8 " = null",
            .push primitives.push (p.name ++ utf8 " ?? " ++ vectorText x y z)⟩) ∨
        (type ≠ .object ∧ (∀ x y z, type = .vector → given ≠ some (.literal (.vector x y z))) ∧
          plainArgument declared p.name primitives.push given = .ok arg)) := by
  unfold argument at accepted
  obtain ⟨⟨type, primitives⟩, carried, rest⟩ := bind_ok_iff.mp accepted
  obtain ⟨basic, found⟩ := stackPrimitives_ok_iff.mp carried
  refine ⟨type, primitives, basic, found, ?_⟩
  simp only at rest
  split at rest
  · obtain ⟨object, known, rest⟩ := bind_ok_iff.mp rest
    cases rest
    exact .inl ⟨rfl, object, known, rfl⟩
  · rename_i x y z shown
    cases rest
    exact .inr (.inl ⟨rfl, x, y, z, shown, rfl⟩)
  · rename_i notObject notVector
    exact .inr (.inr ⟨notObject, notVector, rest⟩)

theorem objectDefault_some {given : Option Value} {object : ObjectDefault}
    (accepted : objectDefault given = .ok object) :
    given = none ∧ object = .required ∨
      given = some (.literal .objectSelf) ∧ object = .self ∨
      (∃ v ∈ objectConstants, given = some v) ∧ given ≠ some (.literal .objectSelf) ∧
        object = .invalid := by
  unfold objectDefault at accepted
  split at accepted
  · cases accepted
    exact .inl ⟨rfl, rfl⟩
  · cases accepted
    exact .inr (.inl ⟨rfl, rfl⟩)
  · cases accepted
    exact .inr (.inr ⟨⟨_, by simp [objectConstants], rfl⟩, by simp, rfl⟩)
  · split at accepted
    · rename_i listed
      cases accepted
      exact .inr (.inr ⟨⟨_, by simpa [objectConstants] using listed, rfl⟩, by simp, rfl⟩)
    · cases accepted
  · cases accepted

theorem plainArgument_ok {declared name : List UInt8} {primitive : String}
    {given : Option Value} {arg : Argument}
    (accepted : plainArgument declared name primitive given = .ok arg) :
    arg.push = .push primitive name ∧
      (given = none ∧ arg.declaration = declared ∨
        ∃ v text, given = some v ∧ defaultText? v = some text ∧
          arg.declaration = declared ++ utf8 " = " ++ text) := by
  cases given with
  | none =>
      cases accepted
      exact ⟨rfl, .inl ⟨rfl, rfl⟩⟩
  | some value =>
      obtain ⟨text, stated, rest⟩ := bind_ok_iff.mp accepted
      cases rest
      exact ⟨rfl, .inr ⟨value, text, rfl, defaultText_ok_iff.mp stated, rfl⟩⟩

theorem argument_push {p : Param} {arg : Argument} (accepted : argument p = .ok arg) :
    ∃ type primitives, p.type.content = .basic type ∧ type.abi.stack = some primitives ∧
      arg.push = .push primitives.push (pushedText p) := by
  obtain ⟨type, primitives, basic, found, shape⟩ := argument_cases accepted
  refine ⟨type, primitives, basic, found, ?_⟩
  unfold pushedText
  rw [basic]
  rcases shape with ⟨rfl, object, known, rfl⟩ | ⟨rfl, x, y, z, shown, rfl⟩ |
    ⟨notObject, notVector, plain⟩
  · rcases objectDefault_some known with ⟨none, rfl⟩ | ⟨self, rfl⟩ | ⟨_, other, rfl⟩
    · simp [none, objectArgument]
    · simp [self, objectArgument]
    · simp [other, objectArgument]
  · rw [shown]
  · rw [(plainArgument_ok plain).1]
    split
    · rename_i same
      exact (notObject (ScriptType.basic.inj same)).elim
    · rename_i same shown
      exact (notVector _ _ _ (ScriptType.basic.inj same) shown).elim
    · rfl

theorem argument_declared {p : Param} {arg : Argument} (accepted : argument p = .ok arg) :
    DeclaredAs p arg.declaration := by
  obtain ⟨type, primitives, basic, found, shape⟩ := argument_cases accepted
  have target : Profile.engine.typeName p.type.content = utf8 type.abi.target := by rw [basic]; rfl
  rcases shape with ⟨rfl, object, known, rfl⟩ | ⟨rfl, x, y, z, shown, rfl⟩ |
    ⟨notObject, notVector, plain⟩
  · rcases objectDefault_some known with ⟨none, rfl⟩ | ⟨self, rfl⟩ | ⟨⟨v, listed, given⟩, _, rfl⟩
    · exact target ▸ .required none
    · exact .object self (by simp [objectConstants]) basic
    · exact .object given listed basic
  · exact .vector shown basic
  · rcases (plainArgument_ok plain).2 with ⟨none, declared⟩ | ⟨v, text, given, stated, declared⟩
    · rw [declared, ← target]
      exact .required none
    · rw [declared, ← target]
      refine .stated given ?_ stated
      rw [basic]
      exact fun same => notObject (ScriptType.basic.inj same)

theorem callBuiltIn_line (index : Nat) : (Action.callBuiltIn index).text ++ utf8 ";" =
    utf8 "Internal.CallBuiltIn(" ++ Bytes.ofNat index ++ utf8 ");" := by
  rw [Action.text, Action.engineCall_line]
  rfl

theorem returnPop_line {primitives : Primitives} {name : String}
    (popped : utf8 primitives.pop = utf8 "StackPop" ++ utf8 name) :
    (Action.returnPop primitives.pop).text ++ utf8 ";" =
      utf8 "return Internal.StackPop" ++ utf8 name ++ utf8 "();" := by
  rw [Action.text, List.append_assoc, Action.engineCall_line, popped]
  simp only [List.append_nil, List.append_assoc]
  rfl

theorem push_line {p : Param} {arg : Argument} (accepted : argument p = .ok arg) :
    PushLine p (arg.push.text ++ utf8 ";") := by
  obtain ⟨type, primitives, basic, found, step⟩ := argument_push accepted
  obtain ⟨name, named, pushed, _⟩ := stack_names found
  refine ⟨type, name, basic, named, ?_⟩
  rw [step, Action.text, Action.engineCall_line, pushed, ← List.append_assoc _ _ (utf8 name)]
  rfl

theorem return_lines {type : ScriptType} {steps : List Action}
    (accepted : resultSteps type = .ok steps) :
    ReturnLines type (steps.map fun a => a.text ++ utf8 ";") := by
  unfold resultSteps at accepted
  split at accepted
  · rename_i void
    cases accepted
    obtain rfl : type = .basic .void := by simpa [ScriptType.isVoid] using void
    exact .nothing
  · rename_i value
    split at accepted
    · rename_i basic primitives carried
      cases accepted
      obtain ⟨rfl, found⟩ := stackPrimitives_ok_iff.mp carried
      obtain ⟨name, named, _, popped⟩ := stack_names found
      rw [List.map_singleton, returnPop_line popped]
      refine .value ?_ named
      rintro rfl
      exact value rfl
    · cases accepted

theorem method_text {index : Nat} {sig : Signature} {m : Method}
    (accepted : method index sig = .ok m) :
    CallText index sig m.params (memberText (some (.method m))) := by
  unfold method at accepted
  obtain ⟨returned, result, accepted⟩ := bind_ok_iff.mp accepted
  obtain ⟨arguments, params, accepted⟩ := bind_ok_iff.mp accepted
  cases accepted
  have each := (mapM_ok_iff.mp params).imp fun _ _ bound => inParameter_ok_iff.mp bound
  refine ⟨?_, arguments.map fun arg => arg.push.text ++ utf8 ";", _, ?_, ?_, return_lines result⟩
  · rw [List.forall₂_map_right_iff]
    exact each.imp fun _ _ => argument_declared
  · rw [memberText_method, List.map_append, List.map_append, List.map_map, List.map_singleton,
      callBuiltIn_line]
    rfl
  · rw [List.forall₂_map_right_iff]
    exact each.imp fun _ _ => push_line

theorem method_renumbered {index : Nat} {sig : Signature} {m : Method}
    (accepted : method index sig = .ok m) (other : Nat) : ∃ n, method other sig = .ok n := by
  unfold method at accepted ⊢
  obtain ⟨returned, result, accepted⟩ := bind_ok_iff.mp accepted
  obtain ⟨arguments, params, _⟩ := bind_ok_iff.mp accepted
  exact ⟨_, bind_ok_iff.mpr ⟨returned, result, bind_ok_iff.mpr ⟨arguments, params, rfl⟩⟩⟩

theorem member_prototype_iff {index : Nat} {sig : Signature} {m : Option Member} :
    member index (.prototype sig) = .ok m ↔
      isHandWritten sig.name = true ∧ m = none ∨
        isHandWritten sig.name = false ∧ ∃ f, method index sig = .ok f ∧ m = some (.method f) := by
  by_cases written : isHandWritten sig.name = true
  · simp [member, written, eq_comm]
  · simp [member, written, inFunction_ok_iff]

theorem member_renumbered {index : Nat} {d : Decl} {m : Option Member}
    (accepted : member index d = .ok m) (other : Nat) : ∃ n, member other d = .ok n := by
  cases d with
  | prototype sig =>
      rcases member_prototype_iff.mp accepted with ⟨written, _⟩ | ⟨bound, f, found, _⟩
      · exact ⟨none, member_prototype_iff.mpr (.inl ⟨written, rfl⟩)⟩
      · obtain ⟨g, again⟩ := method_renumbered found other
        exact ⟨some (.method g), member_prototype_iff.mpr (.inr ⟨bound, g, again, rfl⟩)⟩
  | _ => exact ⟨m, accepted⟩

def numbered (decls : List Decl) : List Signature :=
  decls.filterMap fun
    | .prototype sig => if isHandWritten sig.name then none else some sig
    | _ => none

theorem numbered_append (front rear : List Decl) :
    numbered (front ++ rear) = numbered front ++ numbered rear := List.filterMap_append

theorem numbered_length_cons (index : Nat) (d : Decl) (decls : List Decl) :
    index + (numbered (d :: decls)).length =
      (if takesNumber d then index + 1 else index) + (numbered decls).length := by
  have alone : (if takesNumber d then index + 1 else index) = index + (numbered [d]).length := by
    cases d with
    | prototype sig => cases written : isHandWritten sig.name <;> simp [takesNumber, numbered, written]
    | _ => rfl
  rw [alone, ← List.singleton_append, numbered_append, List.length_append, Nat.add_assoc]

theorem members_cons_iff {index : Nat} {d : Decl} {rest : List Decl} {ms : List (Option Member)} :
    members index (d :: rest) = .ok ms ↔ ∃ m others, member index d = .ok m ∧
      members (if takesNumber d then index + 1 else index) rest = .ok others ∧
      ms = m :: others := by
  rw [members]
  simp only [bind_ok_iff, pure_ok_iff]
  constructor
  · rintro ⟨m, first, others, later, rfl⟩
    exact ⟨m, others, first, later, rfl⟩
  · rintro ⟨m, others, first, later, rfl⟩
    exact ⟨m, first, others, later, rfl⟩

theorem members_succeed_iff {index : Nat} {decls : List Decl} :
    (∃ ms, members index decls = .ok ms) ↔ ∀ d ∈ decls, ∃ m, member 0 d = .ok m := by
  induction decls generalizing index with
  | nil => simp [members]
  | cons d rest ih =>
      rw [List.forall_mem_cons, ← ih]
      constructor
      · rintro ⟨ms, accepted⟩
        obtain ⟨m, others, first, later, _⟩ := members_cons_iff.mp accepted
        exact ⟨member_renumbered first 0, others, later⟩
      · rintro ⟨⟨m, first⟩, others, later⟩
        obtain ⟨n, again⟩ := member_renumbered first index
        exact ⟨n :: others, members_cons_iff.mpr ⟨n, others, again, later, rfl⟩⟩

def blockText (index : Nat) (d : Decl) : List UInt8 :=
  match member index d with
  | .ok m => memberText m
  | .error _ => []

theorem blockText_of_ok {index : Nat} {d : Decl} {m : Option Member}
    (accepted : member index d = .ok m) : blockText index d = memberText m := by
  rw [blockText, accepted]

-- The counter in the recursion is the count of numbered functions in front.
theorem members_texts {index : Nat} {decls : List Decl} {ms : List (Option Member)}
    (accepted : members index decls = .ok ms) : ms.map memberText =
      decls.mapIdx fun i d => blockText (index + (numbered (decls.take i)).length) d := by
  induction decls generalizing index ms with
  | nil =>
      cases accepted
      rfl
  | cons d rest ih =>
      obtain ⟨m, others, first, later, rfl⟩ := members_cons_iff.mp accepted
      rw [List.map_cons, List.mapIdx_cons, ih later, ← blockText_of_ok first]
      simp only [← numbered_length_cons, List.take_succ_cons]
      rfl

-- Directives and prototypes of functions that have a binding of their own.
def Silent (d : Decl) : Prop :=
  (∃ text, d = .directive text) ∨ ∃ sig, d = .prototype sig ∧ isHandWritten sig.name = true

theorem silent_contributes {d : Decl} (silent : Silent d) :
    (∀ index, blockText index d = []) ∧
      ∀ before after, numbered (before ++ d :: after) = numbered (before ++ after) := by
  have skipped : (∀ index, blockText index d = []) ∧ numbered [d] = [] := by
    rcases silent with ⟨text, rfl⟩ | ⟨sig, rfl, written⟩
    · exact ⟨fun _ => rfl, rfl⟩
    · refine ⟨fun index => ?_, by simp [numbered, written]⟩
      exact blockText_of_ok (member_prototype_iff.mpr (.inl ⟨written, rfl⟩))
  refine ⟨skipped.1, fun before after => ?_⟩
  rw [← List.singleton_append, numbered_append, numbered_append, skipped.2, List.nil_append,
    ← numbered_append]

theorem members_place {index : Nat} {before after : List Decl} {d : Decl}
    {ms : List (Option Member)} (accepted : members index (before ++ d :: after) = .ok ms) :
    ∃ front m rear, ms = front ++ m :: rear ∧ front.length = before.length ∧
      member (index + (numbered before).length) d = .ok m := by
  induction before generalizing index ms with
  | nil =>
      obtain ⟨m, others, first, _, rfl⟩ := members_cons_iff.mp accepted
      exact ⟨[], m, others, rfl, rfl, first⟩
  | cons e before ih =>
      obtain ⟨m, others, _, later, rfl⟩ := members_cons_iff.mp accepted
      obtain ⟨front, place, rear, rfl, long, found⟩ := ih later
      refine ⟨m :: front, place, rear, rfl, by simp [long], ?_⟩
      rw [numbered_length_cons]
      exact found

theorem member_shows {index : Nat} {d : Decl} {m : Option Member}
    (accepted : member index d = .ok m) (other : ∀ sig, d ≠ .prototype sig) :
    Profile.engine.Shows d (memberText m) := by
  cases d with
  | directive text =>
      cases accepted
      exact .directive
  | comment c =>
      cases accepted
      exact Profile.shows_comment .engine c
  | struct s =>
      cases accepted
      exact Profile.shows_struct .engine s
  | var v =>
      obtain ⟨own, stated, rfl⟩ := map_ok_iff.mp accepted
      exact Profile.shows_variable stated
  | prototype sig => exact (other sig rfl).elim
  | function sig body => cases accepted

end NwscriptBindings.Engine

namespace NwscriptBindings.ScriptUnit

open Engine

def Generates (u : ScriptUnit) : Prop := ∃ code, u.generate = .ok code

theorem generate_engine_iff {u : ScriptUnit} (named : u.name = utf8 "nwscript.nss")
    {code : List UInt8} : u.generate = .ok code ↔
      ∃ ms, members 0 (u.decls.map (·.content)) = .ok ms ∧
        code = Profile.engine.classText (ms.map memberText) := by
  have profile : Profile.ofUnitName? u.name = some .engine := by rw [named]; rfl
  rw [generate_ok_iff, profile]
  constructor
  · rintro ⟨_, ms, same, accepted, shown⟩
    cases same
    exact ⟨ms, accepted, shown⟩
  · rintro ⟨ms, accepted, shown⟩
    exact ⟨.engine, ms, rfl, accepted, shown⟩

theorem generates_engine_iff {u : ScriptUnit} (named : u.name = utf8 "nwscript.nss") :
    u.Generates ↔ ∀ d ∈ u.decls, ∃ m, member 0 d.content = .ok m := by
  have each : (∃ ms, members 0 (u.decls.map (·.content)) = .ok ms) ↔
      ∀ d ∈ u.decls, ∃ m, member 0 d.content = .ok m := by
    rw [members_succeed_iff, List.forall_mem_map]
  rw [← each]
  constructor
  · rintro ⟨code, generated⟩
    obtain ⟨ms, accepted, _⟩ := (generate_engine_iff named).mp generated
    exact ⟨ms, accepted⟩
  · rintro ⟨ms, accepted⟩
    exact ⟨_, (generate_engine_iff named).mpr ⟨ms, accepted, rfl⟩⟩

-- A function behind `k` others is number `k`, whatever else stands between them; and whether there
-- is code at all is decided declaration by declaration.
theorem generate_engine_numbered {u : ScriptUnit} (named : u.name = utf8 "nwscript.nss") :
    let decls := u.decls.map (·.content)
    (∀ code, u.generate = .ok code →
      code = Profile.engine.classText
        (decls.mapIdx fun i d => blockText (numbered (decls.take i)).length d) ∧
      ∀ before d after, decls = before ++ d :: after →
        (∀ sig, d = .prototype sig → isHandWritten sig.name = false →
          ∃ declared, CallText (numbered before).length sig declared
            (blockText (numbered before).length d)) ∧
        ((∀ sig, d ≠ .prototype sig) →
          Profile.engine.Shows d (blockText (numbered before).length d))) ∧
    (∀ d, Silent d → (∀ index, blockText index d = []) ∧
      ∀ before after, numbered (before ++ d :: after) = numbered (before ++ after)) ∧
    ∀ v w : ScriptUnit, v.name = utf8 "nwscript.nss" → w.name = utf8 "nwscript.nss" →
      u.decls = v.decls ++ w.decls → (u.Generates ↔ v.Generates ∧ w.Generates) := by
  intro decls
  refine ⟨?_, fun d => silent_contributes, ?_⟩
  · intro code generated
    obtain ⟨ms, accepted, shown⟩ := (generate_engine_iff named).mp generated
    constructor
    · rw [shown, members_texts accepted]
      simp only [Nat.zero_add, decls]
    · intro before d after parts
      rw [show u.decls.map (·.content) = _ from parts] at accepted
      obtain ⟨_, m, _, _, _, found⟩ := members_place accepted
      rw [Nat.zero_add] at found
      rw [blockText_of_ok found]
      refine ⟨?_, member_shows found⟩
      rintro sig rfl bound
      rcases member_prototype_iff.mp found with ⟨written, _⟩ | ⟨_, f, made, rfl⟩
      · rw [bound] at written
        cases written
      · exact ⟨f.params, method_text made⟩
  · intro v w first second parts
    rw [generates_engine_iff named, generates_engine_iff first, generates_engine_iff second, parts,
      List.forall_mem_append]

-- Between the two functions stand a directive and one that takes no number, so the later one is
-- number one.
theorem generate_engine_numbered_later :
    let first : Signature := ⟨⟨.basic .void, []⟩, utf8 "First", []⟩
    let written : Signature := ⟨⟨.basic .void, []⟩, utf8 "DelayCommand",
      [⟨⟨⟨.basic .action, []⟩, utf8 "a", none⟩, []⟩]⟩
    let later : Signature := ⟨⟨.basic .float, []⟩, utf8 "Later",
      [⟨⟨⟨.basic .object, []⟩, utf8 "o", some ⟨.literal .objectSelf, []⟩⟩, []⟩,
        ⟨⟨⟨.basic .vector, []⟩, utf8 "v", some ⟨.literal (.vector .zero .zero .zero), []⟩⟩, []⟩]⟩
    let front : List Decl :=
      [.prototype first, .directive (utf8 "#define A"), .prototype written]
    let u : ScriptUnit :=
      ⟨utf8 "nwscript.nss", (front ++ [Decl.prototype later]).map fun d => ⟨d, []⟩, []⟩
    u.Generates ∧ (numbered front).length = 1 ∧
      ∃ declared, CallText 1 later declared (blockText 1 (.prototype later)) := by
  intro first written later front u
  obtain ⟨code, generated⟩ : u.Generates := ok_of_isSome (by decide +kernel)
  have count : (numbered front).length = 1 := by decide +kernel
  obtain ⟨blocks, _⟩ := generate_engine_numbered (u := u) rfl
  obtain ⟨calls, _⟩ := (blocks code generated).2 front (.prototype later) [] rfl
  obtain ⟨declared, text⟩ := calls later rfl (by decide +kernel)
  rw [count] at text
  exact ⟨⟨code, generated⟩, count, declared, text⟩

end NwscriptBindings.ScriptUnit
