import NwscriptBindings.Proofs.Binding.Places
import NwscriptBindings.Proofs.Binding.SpelledLiterals
import NwscriptBindings.Proofs.Grammar.Reemission

namespace NwscriptBindings

open Token
open NwscriptBindings.Parser (Terminal)

namespace Grammar

variable {bare : Bool} {ts : List Token}

theorem value_ends {v : Value} (derived : ValueRule v ts) : EndsVisible ts := by
  cases derived with
  | reference name => exact endsVisible_of_terminal name []
  | literal literal =>
      cases literal with
      | objectSelf word | objectInvalid word => exact endsVisible_of_terminal word []
      | zeroVector _ bracket => exact endsVisible_of_terminal bracket _
      | @vector os x xs cs y ys ds z zs es _ _ _ _ _ _ bracket =>
          have ends := endsVisible_of_terminal bracket (os ++ (xs ++ (cs ++ (ys ++ (ds ++ zs)))))
          simpa only [List.append_assoc] using ends
      | string text => exact endsVisible_of_terminal text []
      | number number =>
          cases number with
          | plain text => exact endsVisible_of_terminal text []
          | negative _ text => exact endsVisible_of_terminal text _

theorem param_default {p : Param} {v : Traced Value} (derived : ParamRule p ts)
    (given : p.default = some v) : ∃ front vs, ts = front ++ vs ∧ TracedRule ValueRule v vs := by
  cases derived with
  | @intro type us name ns _ ds _ _ default =>
      cases default with
      | absent => cases given
      | @present os _ vs _ value =>
          cases given
          exact ⟨us ++ (ns ++ os), vs, by simp only [List.append_assoc], value⟩

def Followed (ts whole : List Token) : Prop :=
  ∃ before after, whole = before ++ (ts ++ after) ∧ after ≠ []

theorem Followed.behind {whole : List Token} (place : Followed ts whole) (front : List Token) :
    Followed ts (front ++ whole) := by
  obtain ⟨before, after, rfl, follows⟩ := place
  exact ⟨front ++ before, after, (List.append_assoc ..).symm, follows⟩

theorem Followed.before {whole : List Token} (place : Followed ts whole) (back : List Token) :
    Followed ts (whole ++ back) := by
  obtain ⟨before, after, rfl, follows⟩ := place
  exact ⟨before, after ++ back, by simp only [List.append_assoc], by simp [follows]⟩

theorem Followed.tail {front whole : List Token} (place : Followed (front ++ ts) whole) :
    Followed ts whole := by
  obtain ⟨before, after, rfl, follows⟩ := place
  exact ⟨before ++ front, after, by simp only [List.append_assoc], follows⟩

-- Behind the last parameter there is still the parenthesis.
theorem params_place {params : List (Traced Param)} {p : Traced Param}
    (derived : ParamsRule params ts) (present : p ∈ params) :
    ∃ us, Followed us ts ∧ ParamRule p.content us := by
  have closes : ∀ {es : List Token}, Terminal (.separator .closeParen) es → es ≠ [] := by
    rintro _ ⟨t, ⟨gap, rfl, _⟩, _⟩
    simp
  cases derived with
  | empty => cases present
  | @some first ps others os es one others close =>
      rcases List.mem_cons.mp present with rfl | later
      · exact ⟨ps, ⟨[], os ++ es, rfl, by simp [closes close]⟩, one.1⟩
      · obtain ⟨before, us, after, rfl, following⟩ := others.place_of_mem later
        cases following with
        | @intro cs _ qs _ param =>
            refine ⟨qs, ⟨ps ++ (before ++ cs), after ++ es, ?_, by simp [closes close]⟩, param.1⟩
            simp only [List.append_assoc]

theorem signature_place {sig : Signature} {p : Traced Param} (derived : SignatureRule sig ts)
    (present : p ∈ sig.params) : ∃ us, Followed us ts ∧ ParamRule p.content us := by
  cases derived with
  | intro _ _ _ params =>
      obtain ⟨us, place, param⟩ := params_place params present
      exact ⟨us, ((place.behind _).behind _).behind _, param⟩

theorem decl_signature {d : Decl} {sig : Signature} (derived : DeclRule bare d ts)
    (function : Plugin.signature? d = some sig) :
    ∃ us rest, ts = us ++ rest ∧ SignatureRule sig us := by
  cases derived with
  | prototype _ signature _ | function _ signature _ =>
      cases function
      exact ⟨_, _, rfl, signature⟩
  | _ => cases function

theorem var_initializer {d : VarDecl} {e : Traced Expr} (derived : VarRule bare d ts)
    (given : d.init = some e) :
    e.content.text = Expr.textOf e.tokens ∧ Followed e.tokens ts ∧ EndsVisible e.tokens := by
  cases derived with
  | plain => cases given
  | initialized _ _ _ _ value =>
      cases given
      obtain ⟨text, place⟩ := arithmetic_located value.1
      refine ⟨text, (((Followed.behind place _).behind _).behind _).behind _, ?_⟩
      obtain ⟨range, _, _, _, rfl⟩ := value.1
      exact trimTrivia_last range

section units

variable {u : ScriptUnit}

theorem unit_initializer {d : VarDecl} {us : List Token} {e : Traced Expr}
    (derived : UnitRule bare u ts) (present : ⟨.var d, us⟩ ∈ u.decls) (given : d.init = some e) :
    e.content.text = Expr.textOf e.tokens ∧ Followed e.tokens ts ∧ EndsVisible e.tokens := by
  cases derived with
  | intro decls _ =>
      obtain ⟨before, own, after, rfl, rule, _⟩ := decls.place_of_mem present
      cases rule with
      | var _ declared =>
          obtain ⟨text, place, ends⟩ := var_initializer declared given
          exact ⟨text, ((place.before after).behind before).before _, ends⟩

theorem unit_default {d : Traced Decl} {sig : Signature} {p : Traced Param} {v : Traced Value}
    (derived : UnitRule bare u ts) (present : d ∈ u.decls)
    (function : Plugin.signature? d.content = some sig) (param : p ∈ sig.params)
    (given : p.content.default = some v) : ∃ vs, Followed vs ts ∧ TracedRule ValueRule v vs := by
  cases derived with
  | intro decls _ =>
      obtain ⟨before, own, after, rfl, rule, _⟩ := decls.place_of_mem present
      obtain ⟨ss, rest, rfl, signature⟩ := decl_signature rule function
      obtain ⟨us, place, param⟩ := signature_place signature param
      obtain ⟨front, vs, rfl, value⟩ := param_default param given
      exact ⟨vs, (((place.tail.before rest).before after).behind before).before _, value⟩

end units

end Grammar

def Profile.Declares (profile : Profile) (p : Param) (declared : List UInt8) : Prop :=
  ∀ l text, p.default.map Traced.content = some (.literal l) →
    defaultText? (.literal l) = some text → declared =
      profile.typeName p.type.content ++ utf8 " " ++ p.name ++ utf8 " = " ++ text

namespace Engine

-- An object takes no such default, and a vector has no text.
theorem DeclaredAs.declares {p : Param} {text : List UInt8} (declared : DeclaredAs p text) :
    Profile.engine.Declares p text := by
  intro l shown given stated
  cases declared with
  | required none => simp [none] at given
  | object own listed _ =>
      rw [given] at own
      cases own
      rcases List.mem_cons.mp listed with same | listed
      · cases same
        cases stated
      · simp only [List.mem_cons, Value.literal.injEq, reduceCtorEq, List.not_mem_nil, or_false]
          at listed
        cases listed
        cases stated
  | vector own _ =>
      rw [given] at own
      cases own
      cases stated
  | stated own _ known =>
      rw [given] at own
      cases own
      rw [Option.some.inj (stated.symm.trans known)]

end Engine

namespace Plugin

theorem DeclaredAs.declares {profile : Profile} {p : Param} {text : List UInt8}
    (declared : DeclaredAs profile p text) : profile.Declares p text := by
  intro l shown given stated
  cases declared with
  | required none => simp [none] at given
  | null own =>
      rw [given] at own
      rcases own with same | same
      · cases same
        cases stated
      · cases same
        cases stated
  | stated own known =>
      rw [given] at own
      cases own
      rw [Option.some.inj (stated.symm.trans known)]

end Plugin

namespace Profile

theorem member_declares {profile : Profile} {decls before : List Decl} {d : Decl}
    {sig : Signature} {place : Option Member} (function : Plugin.signature? d = some sig)
    (emits : profile.Emits before sig)
    (accepted : profile.member decls before d = .ok place) :
    ∃ declared lines, memberText place = methodText (profile.typeName sig.result.content)
        (profile.methodName sig.name) declared lines ∧
      List.Forall₂ (fun (p : Traced Param) text => profile.Declares p.content text)
        sig.params declared := by
  cases profile with
  | engine =>
      cases d with
      | prototype own =>
          cases function
          rcases Engine.member_prototype_iff.mp accepted with ⟨written, _⟩ | ⟨_, m, made, rfl⟩
          · exact absurd (emits.symm.trans written) (by decide)
          · obtain ⟨params, pushes, returned, shown, _⟩ := Engine.method_text made
            exact ⟨_, _, shown, params.imp fun _ _ => Engine.DeclaredAs.declares⟩
      | function own body => cases accepted
      | _ => cases function
  | plugin name =>
      rcases Plugin.function_cases function accepted with ⟨earlier, _⟩ | ⟨_, m, made, rfl⟩
      · exact absurd earlier emits
      · obtain ⟨passed, answered, statements, text⟩ := Plugin.method_text made
        obtain ⟨lines, _, shown⟩ := text.lines
        refine ⟨_, lines, shown, ?_⟩
        rw [List.forall₂_map_right_iff]
        exact text.params.imp fun _ _ both => both.1.declares

theorem shows_literal {profile : Profile} {v : VarDecl} {block : List UInt8} {e : Traced Expr}
    {l : Literal} (shows : profile.Shows (.var v) block) (given : v.init = some e)
    (text : e.content.text = Expr.textOf e.tokens) (agrees : l.Agrees e.tokens)
    (other : v.type.content = .basic .float → ∃ body, l = .string body) :
    ∃ type, v.type.content = .basic type ∧ block = Bytes.endLines [memberLine
      ((if type ∈ [.int, .float, .string] then utf8 "public const "
          else utf8 "public static readonly ") ++
        profile.typeName (.basic type) ++ utf8 " " ++ v.name ++ utf8 " = " ++
          visibleText e.tokens ++ utf8 ";")] := by
  have value : ∀ type, v.type.content = .basic type →
      constantText type e = visibleText e.tokens := by
    intro type typed
    exact agrees.captured e type rfl text fun float => other (by rw [typed, float])
  cases shows with
  | field none =>
      rw [given] at none
      cases none
  | @constant _ own type same typed listed =>
      cases given.symm.trans same
      rw [value type typed]
      exact ⟨type, typed, by rw [if_pos listed]⟩
  | @readOnly _ own type same typed unlisted =>
      cases given.symm.trans same
      rw [value type typed]
      exact ⟨type, typed, by rw [if_neg unlisted]⟩

-- What the block of `d` states of the ints and strings that `d` holds: each by the text of its
-- tokens.
structure States (profile : Profile) (before : List Decl) (d : Decl) (block : List UInt8) :
    Prop where
  initializer : ∀ v e l, d = .var v → v.init = some e → Literal.Spelled l (visible e.tokens) →
    (v.type.content = .basic .float → ∃ body, l = .string body) →
    ∃ type, v.type.content = .basic type ∧ block = Bytes.endLines [memberLine
      ((if type ∈ [.int, .float, .string] then utf8 "public const "
          else utf8 "public static readonly ") ++
        profile.typeName (.basic type) ++ utf8 " " ++ v.name ++ utf8 " = " ++
          visibleText e.tokens ++ utf8 ";")]
  defaults : ∀ sig, Plugin.signature? d = some sig → profile.Emits before sig →
    ∃ declared lines, block = methodText (profile.typeName sig.result.content)
        (profile.methodName sig.name) declared lines ∧
      List.Forall₂ (fun (p : Traced Param) text => ∀ v l, p.content.default = some v →
        Literal.Spelled l (visible v.tokens) → text =
          profile.typeName p.content.type.content ++ utf8 " " ++ p.content.name ++ utf8 " = " ++
            visibleText v.tokens) sig.params declared

end Profile

namespace ScriptUnit

open Grammar

variable {u : ScriptUnit} {name source : List UInt8} {lines : List (List UInt8)} {l : Literal}

theorem agrees_followed {ts : List Token} (place : Followed ts (tokenize source))
    (spelled : l.Spelled (visible ts)) (ends : EndsVisible ts) : l.Agrees ts := by
  obtain ⟨before, after, parts, follows⟩ := place
  exact spelled.agrees ends (Scanner.tokenize_literals parts follows)

theorem parse_initializer {d : VarDecl} {us : List Token} {e : Traced Expr}
    (parsed : parse name lines (tokenize source) = .ok u) (present : ⟨.var d, us⟩ ∈ u.decls)
    (given : d.init = some e) (spelled : l.Spelled (visible e.tokens)) :
    e.content.text = Expr.textOf e.tokens ∧ l.Agrees e.tokens := by
  obtain ⟨text, place, ends⟩ := unit_initializer (parseWith_sound parsed).2 present given
  exact ⟨text, agrees_followed place spelled ends⟩

theorem parse_default {d : Traced Decl} {sig : Signature} {p : Traced Param} {v : Traced Value}
    (parsed : parse name lines (tokenize source) = .ok u) (present : d ∈ u.decls)
    (function : Plugin.signature? d.content = some sig) (param : p ∈ sig.params)
    (given : p.content.default = some v) (spelled : l.Spelled (visible v.tokens)) :
    v.content = .literal l ∧ l.Agrees v.tokens := by
  obtain ⟨vs, place, rule, own⟩ :=
    unit_default (parseWith_sound parsed).2 present function param given
  have parts : vs = vs.takeWhile Token.isSpace ++ v.tokens := by
    rw [own, List.takeWhile_append_dropWhile]
  have blank : visible (vs.takeWhile Token.isSpace) = [] :=
    visible_trivia_iff.mpr fun t skipped =>
      Parser.trivia_of_space (List.all_eq_true.mp List.all_takeWhile t skipped)
  have shown : visible vs = visible v.tokens := by
    rw [parts, visible_append, blank, List.nil_append]
  have ends := value_ends rule
  refine ⟨?_, ?_⟩
  · -- What the value parser reads off the tokens is one thing only.
    have literal : LiteralRule l vs := Literal.Spelled.rule (shown ▸ spelled) ends
    have first : Parser.Reads Parser.value v.content vs [] := Parser.reads_value_iff.mpr rule
    have second : Parser.Reads Parser.value (.literal l) vs [] :=
      Parser.reads_value_iff.mpr (.literal literal)
    exact (Outcome.accepted.inj (first.symm.trans second)).1
  · rw [parts] at place ends
    exact agrees_followed place.tail spelled ends.back

theorem member_states {decls before : List Decl} {d : Traced Decl} {profile : Profile}
    {place : Option Member} (parsed : parse name lines (tokenize source) = .ok u)
    (present : d ∈ u.decls) (accepted : profile.member decls before d.content = .ok place) :
    profile.States before d.content (memberText place) := by
  constructor
  · intro v e l same given spelled other
    obtain ⟨content, us⟩ := d
    obtain rfl : content = .var v := same
    obtain ⟨text, agrees⟩ := parse_initializer parsed present given spelled
    rw [Profile.member_var] at accepted
    obtain ⟨m, stated, rfl⟩ := map_ok_iff.mp accepted
    exact Profile.shows_literal (Profile.shows_variable stated) given text agrees other
  · intro sig function emits
    have known : ∀ p ∈ sig.params, ∀ v l, p.content.default = some v →
        Literal.Spelled l (visible v.tokens) → v.content = .literal l ∧ l.Agrees v.tokens :=
      fun p param v l given spelled => parse_default parsed present function param given spelled
    obtain ⟨declared, lines, shown, declares⟩ := Profile.member_declares function emits accepted
    refine ⟨declared, lines, shown, (List.forall₂_and_left _ _ |>.mpr ⟨known, declares⟩).imp ?_⟩
    rintro p stated ⟨own, declares⟩ v l given spelled
    obtain ⟨content, agrees⟩ := own v l given spelled
    exact declares l _ (by rw [given, Option.map_some, content]) agrees.parsed

-- An int or a string is found as itself in an initializer and in a default, both ways of writing it
-- agree and are read as it again, and the code states it so in either place.
theorem generate_literals (parsed : parse name lines (tokenize source) = .ok u) :
    (∀ d us e l, ⟨.var d, us⟩ ∈ u.decls → d.init = some e →
      Literal.Spelled l (visible e.tokens) →
        e.content.text = Expr.textOf e.tokens ∧ l.Agrees e.tokens) ∧
    (∀ d ∈ u.decls, ∀ sig p v l, Plugin.signature? d.content = some sig → p ∈ sig.params →
      p.content.default = some v → Literal.Spelled l (visible v.tokens) →
        v.content = .literal l ∧ l.Agrees v.tokens) ∧
    ∀ code, u.generate = .ok code →
      ∃ profile blocks, Profile.ofUnitName? u.name = some profile ∧
        code = profile.classText blocks ∧ blocks.length = u.decls.length ∧
        ∀ before d after, u.decls = before ++ d :: after →
          ∃ front block rear, blocks = front ++ block :: rear ∧ front.length = before.length ∧
            profile.States (before.map (·.content)) d.content block := by
  refine ⟨?_, ?_, ?_⟩
  · intro d us e l present given spelled
    exact parse_initializer parsed present given spelled
  · intro d present sig p v l function param given spelled
    exact parse_default parsed present function param given spelled
  · intro code generated
    obtain ⟨profile, _, named, _⟩ := generate_ok_iff.mp generated
    obtain ⟨blocks, shown, long, each⟩ := generate_blocks named generated
    refine ⟨profile, blocks, named, shown, by rw [long, List.length_map], ?_⟩
    intro before d after parts
    obtain ⟨front, place, rear, cut, length, accepted⟩ := each (before.map (·.content)) d.content
      (after.map (·.content)) (by rw [parts, List.map_append, List.map_cons])
    rw [List.length_map] at length
    exact ⟨front, memberText place, rear, cut, length,
      member_states parsed (by simp [parts]) accepted⟩

-- A sign apart from its number, by a comment in an initializer and by a line end in a default that
-- stands behind a string of escapes.
theorem generate_literals_apart :
    let source := utf8 "int A = - /* c */ 0x10;\nvoid f(string s = \"\\\\\\\"\", int n = -\n0x10);"
    let l : Literal := .int (-16) (utf8 "-0x10")
    ∃ u code, parse (utf8 "NWNX_X.nss") [] (tokenize source) = .ok u ∧ u.generate = .ok code ∧
      (∃ d us e, ⟨.var d, us⟩ ∈ u.decls ∧ d.init = some e ∧ l.Agrees e.tokens ∧
        visibleText e.tokens = utf8 "-0x10") ∧
      (∃ blocks, code = (Profile.plugin (utf8 "X")).classText blocks ∧
        utf8 "        public const int A = -0x10;\n" ∈ blocks) ∧
      ∃ p v, Param.default p = some v ∧ v.content = .literal l ∧ l.Agrees v.tokens ∧
        visibleText v.tokens = utf8 "-0x10" := by
  intro source l
  let shown : List Lexeme := [.operator .minus, .literal (.int (utf8 "0x10"))]
  have spelled : l.Spelled shown := .negative (by decide +kernel)
  have text : ∀ ts, visible ts = shown → visibleText ts = utf8 "-0x10" := by
    intro ts same
    rw [visibleText, same]
    decide +kernel
  have found : (parse (utf8 "NWNX_X.nss") [] (tokenize source)).toOption.any (fun u =>
      u.generate.toOption.isSome &&
      (u.decls.any fun d => match d.content with
        | .var v => v.name == utf8 "A" && v.type.content == .basic .int &&
            v.init.map (fun e => visible e.tokens) == some shown
        | _ => false) &&
      u.decls.any fun d => (Plugin.signature? d.content).toList.any fun sig =>
        sig.params.any fun p =>
          p.content.default.map (fun v => visible v.tokens) == some shown) = true := by
    decide +kernel
  cases parsed : parse (utf8 "NWNX_X.nss") [] (tokenize source) with
  | error e =>
      rw [parsed] at found
      cases found
  | ok u =>
      simp only [parsed, Except.toOption, Option.any_some, Bool.and_eq_true, List.any_eq_true,
        beq_iff_eq, Option.mem_toList, Option.map_eq_some_iff] at found
      obtain ⟨⟨accepted, ⟨content, us⟩, declared, initialized⟩, d, present, sig, function, p, param,
        v, given, shownDefault⟩ := found
      obtain ⟨initializers, defaults, emitted⟩ := generate_literals parsed
      obtain ⟨code, generated⟩ := ok_of_isSome accepted
      cases content with
      | var own =>
          simp only [Bool.and_eq_true, beq_iff_eq, Option.map_eq_some_iff] at initialized
          obtain ⟨⟨named, type⟩, e, init, shownInit⟩ := initialized
          obtain ⟨_, agrees⟩ := initializers own us e l declared init (shownInit ▸ spelled)
          obtain ⟨same, also⟩ := defaults d present sig p v l function param given
            (shownDefault ▸ spelled)
          obtain ⟨before, after, parts⟩ := List.append_of_mem declared
          obtain ⟨profile, blocks, known, whole, _, each⟩ := emitted code generated
          obtain ⟨front, block, rear, cut, _, states⟩ := each before _ after parts
          obtain ⟨basic, typed, line⟩ := states.initializer own e l rfl init
            (shownInit ▸ spelled) (fun float => absurd (type.symm.trans float) (by decide))
          cases typed.symm.trans type
          rw [named, text _ shownInit] at line
          have unit : u.name = utf8 "NWNX_X.nss" := (parseWith_sound parsed).1
          have profiled : Profile.ofUnitName? u.name = some (.plugin (utf8 "X")) := by
            rw [unit]
            decide +kernel
          cases known.symm.trans profiled
          have shown : block = utf8 "        public const int A = -0x10;\n" := by
            rw [line]
            decide +kernel
          exact ⟨u, code, rfl, generated,
            ⟨own, us, e, declared, init, agrees, text _ shownInit⟩,
            ⟨blocks, whole, by simp [cut, shown]⟩,
            p.content, v, given, same, also, text _ shownDefault⟩
      | _ => cases initialized

end ScriptUnit

end NwscriptBindings
