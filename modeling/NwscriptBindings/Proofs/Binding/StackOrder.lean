import NwscriptBindings.Grammar.ScriptUnit
import NwscriptBindings.Proofs.Binding.Places
import NwscriptBindings.Token.Stream

namespace NwscriptBindings.ScriptUnit

open Plugin

-- The first function of each name has a method, a trampoline over the stack: what the plugin finds
-- there are the scalars of the parameters in their order, each pushed as itself unless a parameter
-- other than an object is the caller by default.
theorem generate_plugin_lifo {u : ScriptUnit} {plugin code : List UInt8}
    (named : Profile.ofUnitName? u.name = some (.plugin plugin)) (generated : u.generate = .ok code) :
    let decls := u.decls.map (·.content)
    ∃ blocks, code = (Profile.plugin plugin).classText blocks ∧ blocks.length = decls.length ∧
      ∀ before d after, decls = before ++ d :: after →
        ∃ front block rear, blocks = front ++ block :: rear ∧ front.length = before.length ∧
          Place plugin before d block fun sig => ∃ passed answered statements,
            MethodText plugin decls sig passed answered statements block ∧
            Trampoline (Profile.shortName plugin sig.name) sig.result.content statements
              (passed.flatMap (·.slots)) answered := by
  intro decls
  obtain ⟨blocks, shown, long, each⟩ := generate_blocks named generated
  refine ⟨blocks, shown, long, fun before d after parts => ?_⟩
  obtain ⟨front, place, rear, cut, length, found⟩ := each before d after parts
  refine ⟨front, memberText place, rear, cut, length, member_place found ?_⟩
  rintro sig m made rfl
  obtain ⟨passed, answered, statements, text⟩ := method_text made
  exact ⟨passed, answered, statements, text, text.trampoline⟩

-- A struct inside a struct goes out and comes back.
theorem generate_plugin_lifo_nested :
    let field (name : String) (type : ScriptType) : Traced VarDecl :=
      ⟨⟨⟨type, []⟩, utf8 name, none, false⟩, []⟩
    let inner : StructDecl := ⟨utf8 "I", [field "n" (.basic .int), field "s" (.basic .string)]⟩
    let outer : StructDecl :=
      ⟨utf8 "O", [field "o" (.basic .object), field "i" (.struct (utf8 "I"))]⟩
    let sig : Signature := ⟨⟨.struct (utf8 "O"), []⟩, utf8 "F",
      [⟨⟨⟨.struct (utf8 "O"), []⟩, utf8 "a", none⟩, []⟩,
        ⟨⟨⟨.basic .float, []⟩, utf8 "f", none⟩, []⟩]⟩
    let decls : List Decl := [.struct inner, .struct outer, .prototype sig]
    let u : ScriptUnit := ⟨utf8 "NWNX_X.nss", decls.map fun d => ⟨d, []⟩, []⟩
    (∃ plugin code, Profile.ofUnitName? u.name = some (.plugin plugin) ∧ u.generate = .ok code) ∧
      ∃ passed answered statements block,
        MethodText (utf8 "X") decls sig passed answered statements block ∧
        Trampoline (utf8 "F") (.struct (utf8 "O")) statements (passed.flatMap (·.slots)) answered := by
  intro field inner outer sig decls u
  have named : Profile.ofUnitName? u.name = some (.plugin (utf8 "X")) := by decide +kernel
  obtain ⟨code, generated⟩ : u.Generates := ok_of_isSome (by decide +kernel)
  obtain ⟨blocks, _, _, each⟩ := generate_plugin_lifo named generated
  obtain ⟨_, block, _, _, _, place⟩ :=
    each [.struct inner, .struct outer] (.prototype sig) [] rfl
  obtain ⟨passed, answered, statements, text, trampoline⟩ :=
    place.first sig rfl (by decide +kernel)
  exact ⟨⟨_, code, named, generated⟩, passed, answered, statements, block, text, trampoline⟩

-- The field of a struct that is the caller by default is looked for in the caller.
theorem field_of_caller :
    let text := utf8 "struct S \x7b int n; \x7d; void f(struct S s = OBJECT_SELF);"
    (parse (utf8 "NWNX_X.nss") [] (tokenize text)).toOption.bind (·.generate.toOption) =
      some (Bytes.endLines (["using NWN;", "", "namespace NWNX", "\x7b",
        "    public static class X", "    \x7b",
        "        const string PLUGIN_NAME = \"NWNX_X\";", "",
        "        public struct S", "        \x7b", "            public int n;", "        \x7d", "",
        "        public static void f(S s = null)", "        \x7b",
        "            Internal.NativeFunctions.nwnxSetFunction(PLUGIN_NAME, \"f\");",
        "            Internal.NativeFunctions.nwnxPushInt(s ?? Internal.OBJECT_SELF.n);",
        "            Internal.NativeFunctions.nwnxCallFunction();",
        "        \x7d", "", "    \x7d", "\x7d"].map utf8)) := by decide +kernel

end NwscriptBindings.ScriptUnit
