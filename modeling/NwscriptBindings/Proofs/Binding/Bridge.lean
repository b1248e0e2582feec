import NwscriptBindings.Proofs.Binding.Emission
import NwscriptBindings.Proofs.Binding.Flattening

namespace NwscriptBindings.Plugin

-- What the bridge calls a type in its primitives.
def bridgeName? : BasicType → Option String
  | .int => some "Int"
  | .float => some "Float"
  | .string => some "String"
  | .object => some "Object"
  | .effect => some "Effect"
  | .itemProperty => some "ItemProperty"
  | _ => none

theorem bridge_names {type : BasicType} {primitives : Primitives}
    (known : type.abi.bridge = some primitives) :
    ∃ name, bridgeName? type = some name ∧
      utf8 primitives.push = utf8 "nwnxPush" ++ utf8 name ∧
      utf8 primitives.pop = utf8 "nwnxPop" ++ utf8 name := by
  cases type <;> cases known <;> exact ⟨_, rfl, by decide +kernel, by decide +kernel⟩

inductive Statement where
  | select (function : List UInt8)
  | push (type : BasicType) (argument : List UInt8)
  | call
  | create (type : List UInt8)
  | fill (field : List UInt8) (type : BasicType)
  | give (type : BasicType)
  | giveRecord

inductive Statement.Spelled : Statement → List UInt8 → Prop where
  | select {function : List UInt8} : Spelled (.select function)
      (utf8 "Internal.NativeFunctions.nwnxSetFunction(PLUGIN_NAME, " ++ Quoted.quote function ++
        utf8 ");")
  | push {type : BasicType} {argument : List UInt8} {name : String} :
      bridgeName? type = some name → Spelled (.push type argument)
        (utf8 "Internal.NativeFunctions.nwnxPush" ++ utf8 name ++ utf8 "(" ++ argument ++ utf8 ");")
  | call : Spelled .call (utf8 "Internal.NativeFunctions.nwnxCallFunction();")
  | create {type : List UInt8} :
      Spelled (.create type) (utf8 "var retVal = new " ++ type ++ utf8 "();")
  | fill {field : List UInt8} {type : BasicType} {name : String} :
      bridgeName? type = some name → Spelled (.fill field type)
        (field ++ utf8 " = Internal.NativeFunctions.nwnxPop" ++ utf8 name ++ utf8 "();")
  | give {type : BasicType} {name : String} : bridgeName? type = some name → Spelled (.give type)
      (utf8 "return Internal.NativeFunctions.nwnxPop" ++ utf8 name ++ utf8 "();")
  | giveRecord : Spelled .giveRecord (utf8 "return retVal;")

namespace Statement

def isPush : Statement → Bool
  | push _ _ => true
  | _ => false

def isPop : Statement → Bool
  | fill _ _ | give _ => true
  | _ => false

section lines

variable {x : Slot} {part : Scalar}

theorem select_spelled (function : List UInt8) :
    Spelled (.select function) ((Action.selectFunction function).text ++ utf8 ";") := by
  rw [Action.text, Action.bridgeCall_line, ← List.append_assoc _ (utf8 "PLUGIN_NAME, ")]
  exact .select

theorem call_spelled : Spelled .call (Action.callFunction.text ++ utf8 ";") := by
  rw [Action.text, Action.bridgeCall_line]
  exact .call

theorem push_spelled (carried : x.CarriedBy part) :
    Spelled (.push x.type x.path) ((pushStep part).text ++ utf8 ";") := by
  obtain ⟨path, known⟩ := carried
  obtain ⟨name, named, pushed, _⟩ := bridge_names known
  rw [pushStep, Action.text, Action.bridgeCall_line, pushed, path, ← List.append_assoc _ _ (utf8 name)]
  exact .push named

theorem popCall_line {type : BasicType} {primitives : Primitives}
    (known : type.abi.bridge = some primitives) : ∃ name, bridgeName? type = some name ∧
      Action.bridgeCall primitives.pop [] ++ utf8 ";" =
        utf8 "Internal.NativeFunctions.nwnxPop" ++ utf8 name ++ utf8 "();" := by
  obtain ⟨name, named, _, popped⟩ := bridge_names known
  refine ⟨name, named, ?_⟩
  rw [Action.bridgeCall_line, popped, List.append_nil, List.append_assoc _ _ (utf8 ");"),
    ← List.append_assoc _ _ (utf8 name)]
  rfl

theorem fill_spelled (carried : x.CarriedBy part) :
    Spelled (.fill x.path x.type) ((popStep part).text ++ utf8 ";") := by
  obtain ⟨path, known⟩ := carried
  obtain ⟨name, named, line⟩ := popCall_line known
  have shown : (popStep part).text ++ utf8 ";" = x.path ++
      utf8 " = Internal.NativeFunctions.nwnxPop" ++ utf8 name ++ utf8 "();" := by
    rw [popStep, Action.text, List.append_assoc, line, path]
    simp only [List.append_assoc]
    rfl
  rw [shown]
  exact .fill named

theorem give_spelled {type : BasicType} {primitives : Primitives}
    (known : type.abi.bridge = some primitives) :
    Spelled (.give type) ((Action.returnBridgePop primitives.pop).text ++ utf8 ";") := by
  obtain ⟨name, named, line⟩ := popCall_line known
  rw [Action.text, List.append_assoc, line, ← List.append_assoc]
  exact .give named

theorem create_spelled (type : List UInt8) :
    Spelled (.create type) ((Action.newResult type).text ++ utf8 ";") := by
  rw [Action.text, List.append_assoc]
  exact .create

theorem giveRecord_spelled : Spelled .giveRecord (Action.returnResult.text ++ utf8 ";") := .giveRecord

end lines

end Statement

inductive Reply (V : Type) where
  | scalar (value : V)
  | record (fields : List (List UInt8 × V))

-- A call in progress: the bridge with its top in front, the function that was selected, the fields
-- that a struct result has been given so far, and what was returned.
structure Frame (V : Type) where
  stack : List (BasicType × V)
  function : Option (List UInt8) := none
  fields : Option (List (List UInt8 × V)) := none
  reply : Option (Reply V) := none

section machine

-- `value` evaluates the expressions in a body. `plugin` is what a call does to the stack; like every
-- step it may refuse.
variable {V : Type} (value : List UInt8 → V)
  (plugin : List UInt8 → List (BasicType × V) → Option (List (BasicType × V)))

-- One step. A pop takes only what a push of the same type has left.
def step (f : Frame V) : Statement → Option (Frame V)
  | .select function => some { f with function := some function }
  | .push type argument => some { f with stack := (type, value argument) :: f.stack }
  | .call => do pure { f with stack := ← plugin (← f.function) f.stack }
  | .create _ => some { f with fields := some [] }
  | .fill field type =>
      match f.stack, f.fields with
      | (held, v) :: rest, some fields =>
          if held = type then
            some { f with stack := rest, fields := some (fields ++ [(field, v)]) }
          else none
      | _, _ => none
  | .give type =>
      match f.stack with
      | (held, v) :: rest =>
          if held = type then some { f with stack := rest, reply := some (.scalar v) } else none
      | [] => none
  | .giveRecord => do pure { f with reply := some (.record (← f.fields)) }

-- All steps in their order. Nothing may stand behind a return.
def run (f : Frame V) : List Statement → Option (Frame V)
  | [] => some f
  | a :: rest => if f.reply.isSome then none else (step value plugin f a).bind (run · rest)

def pushAll (entries stack : List (BasicType × V)) : List (BasicType × V) :=
  entries.foldl (fun stack entry => entry :: stack) stack

theorem run_append (f : Frame V) (first second : List Statement) :
    run value plugin f (first ++ second) =
      (run value plugin f first).bind (run value plugin · second) := by
  induction first generalizing f with
  | nil => rfl
  | cons a first ih =>
      rw [List.cons_append, run, run]
      split
      · rfl
      · rw [Option.bind_assoc]
        congr 1
        funext next
        exact ih next

theorem run_single {f : Frame V} (going : f.reply = none) (a : Statement) :
    run value plugin f [a] = step value plugin f a := by
  rw [run, going]
  cases step value plugin f a with
  | none => rfl
  | some next => rfl

def pushes (slots : List Slot) : List Statement := slots.reverse.map fun x => .push x.type x.path

def fills (slots : List Slot) : List Statement := slots.reverse.map fun x => .fill x.path x.type

-- Pushed last to first, so that the first is on top.
theorem run_pushes (slots : List Slot) (base : List (BasicType × V))
    (function : Option (List UInt8)) :
    run value plugin ⟨base, function, none, none⟩ (pushes slots) =
      some ⟨slots.map (fun x => (x.type, value x.path)) ++ base, function, none, none⟩ := by
  induction slots with
  | nil => rfl
  | cons x slots ih =>
      rw [pushes, List.reverse_cons, List.map_append, run_append, ← pushes, ih, Option.bind_some,
        List.map_singleton, run_single value plugin rfl]
      rfl

theorem run_fills (filled : List (Slot × V)) (base : List (BasicType × V))
    (function : Option (List UInt8)) (fields : List (List UInt8 × V)) :
    run value plugin
        ⟨pushAll (filled.map fun x => (x.1.type, x.2)) base, function, some fields, none⟩
        (fills (filled.map Prod.fst)) =
      some ⟨base, function, some (fields ++ filled.reverse.map fun x => (x.1.path, x.2)), none⟩ := by
  induction filled generalizing base with
  | nil => simp [run, pushAll, fills]
  | cons x filled ih =>
      rw [List.map_cons, pushAll, List.foldl_cons, ← pushAll, List.map_cons, fills,
        List.reverse_cons, List.map_append, run_append, ← fills, ih, Option.bind_some,
        List.map_singleton, run_single value plugin rfl]
      simp [step]

end machine

-- The scalars of a result and the statements that fetch them. A struct is collected field by field,
-- anything else comes in one piece.
inductive Answers (plugin : List UInt8) (decls : List Decl) :
    ScriptType → List Slot → List Statement → Prop where
  | nothing : Answers plugin decls (.basic .void) [] []
  | scalar {type : BasicType} : type ≠ .void →
      Answers plugin decls (.basic type) [⟨utf8 "retVal", type⟩] [.give type]
  | record {name : List UInt8} {slots : List Slot} :
      Flattens (Declares decls) (utf8 "retVal") (.struct name) slots →
      Answers plugin decls (.struct name) slots
        ([.create ((Profile.plugin plugin).typeName (.struct name))] ++ fills slots ++ [.giveRecord])

def replyOf {V : Type} (type : ScriptType) (filled : List (Slot × V)) : Option (Reply V) :=
  match type with
  | .basic _ => filled.head?.map fun x => .scalar x.2
  | .struct _ => some (.record (filled.reverse.map fun x => (x.1.path, x.2)))

-- The pushes alone, and the whole body around any plugin that answers a call of the function with
-- the scalars of the result in their order.
structure Trampoline (function : List UInt8) (type : ScriptType) (body : List Statement)
    (given answered : List Slot) : Prop where
  pushes : ∀ {V : Type} (value : List UInt8 → V)
    (plugin : List UInt8 → List (BasicType × V) → Option (List (BasicType × V)))
    (base : List (BasicType × V)),
    run value plugin ⟨base, none, none, none⟩ (body.filter Statement.isPush) =
      some ⟨given.map (fun x => (x.type, value x.path)) ++ base, none, none, none⟩
  pops : body.countP Statement.isPop = answered.length
  answers : ∀ {V : Type} (value : List UInt8 → V)
    (plugin : List UInt8 → List (BasicType × V) → Option (List (BasicType × V)))
    (base : List (BasicType × V)) (filled : List (Slot × V)), filled.map Prod.fst = answered →
    plugin function (given.map (fun x => (x.type, value x.path)) ++ base) =
      some (pushAll (filled.map fun x => (x.1.type, x.2)) base) →
    ∃ f, run value plugin ⟨base, none, none, none⟩ body = some f ∧ f.stack = base ∧
      f.reply = replyOf type filled

section bodies

variable {plugin : List UInt8} {decls : List Decl} {type : ScriptType} {answered : List Slot}
  {returned : List Statement}

theorem filter_pushes (slots : List Slot) :
    (pushes slots).filter Statement.isPush = pushes slots := by
  simp [pushes, List.filter_eq_self, Statement.isPush]

theorem countP_pushes (slots : List Slot) : (pushes slots).countP Statement.isPop = 0 := by
  simp [pushes, List.countP_eq_zero, Statement.isPop]

theorem countP_fills (slots : List Slot) :
    (fills slots).countP Statement.isPop = slots.length := by
  rw [List.countP_eq_length.mpr] <;> simp [fills, Statement.isPop]

theorem Answers.quiet (answers : Answers plugin decls type answered returned) :
    returned.filter Statement.isPush = [] ∧
      returned.countP Statement.isPop = answered.length := by
  cases answers with
  | nothing => exact ⟨rfl, rfl⟩
  | scalar _ => exact ⟨rfl, rfl⟩
  | record _ =>
      refine ⟨by simp [fills, Statement.isPush], ?_⟩
      rw [List.countP_append, List.countP_append, countP_fills]
      exact Nat.zero_add _

theorem Answers.run (answers : Answers plugin decls type answered returned) {V : Type}
    (value : List UInt8 → V)
    (effect : List UInt8 → List (BasicType × V) → Option (List (BasicType × V)))
    (base : List (BasicType × V)) (function : Option (List UInt8)) (filled : List (Slot × V))
    (same : filled.map Prod.fst = answered) :
    ∃ f, Plugin.run value effect
        ⟨pushAll (filled.map fun x => (x.1.type, x.2)) base, function, none, none⟩ returned =
          some f ∧ f.stack = base ∧ f.reply = replyOf type filled := by
  cases answers with
  | nothing =>
      obtain rfl := List.map_eq_nil_iff.mp same
      exact ⟨_, rfl, rfl, rfl⟩
  | scalar _ =>
      obtain ⟨x, rfl, own⟩ := List.map_eq_singleton_iff.mp same
      refine ⟨⟨base, function, none, some (.scalar x.2)⟩, ?_, rfl, rfl⟩
      rw [run_single value effect rfl]
      simp [step, pushAll, own]
  | record _ =>
      subst same
      let fields := filled.reverse.map fun x => (x.1.path, x.2)
      refine ⟨⟨base, function, some fields, some (.record fields)⟩, ?_, rfl, rfl⟩
      rw [run_append, run_append, run_single value effect rfl, step, Option.bind_some,
        run_fills value effect, Option.bind_some, run_single value effect rfl]
      rfl

def body (function : List UInt8) (given : List Slot) (returned : List Statement) :
    List Statement := [.select function] ++ pushes given ++ [.call] ++ returned

theorem Answers.trampoline (answers : Answers plugin decls type answered returned)
    (function : List UInt8) (given : List Slot) :
    Trampoline function type (body function given returned) given answered where
  pushes value effect base := by
    rw [← run_pushes value effect given base none, body, List.filter_append, List.filter_append,
      List.filter_append, filter_pushes, answers.quiet.1]
    simp [Statement.isPush]
  pops := by
    rw [body, List.countP_append, List.countP_append, List.countP_append, countP_pushes,
      answers.quiet.2]
    simp [Statement.isPop]
  answers value effect base filled same called := by
    obtain ⟨f, ran, rest⟩ := answers.run value effect base (some function) filled same
    refine ⟨f, ?_, rest⟩
    rw [body, run_append, run_append, run_append, run_single value effect rfl, step,
      Option.bind_some, run_pushes value effect given base, Option.bind_some,
      run_single value effect rfl, step, Option.bind_eq_bind, Option.bind_some, called]
    exact ran

end bodies

end NwscriptBindings.Plugin
