import NwscriptBindings.Binding.Engine
import NwscriptBindings.Binding.Plugin

namespace NwscriptBindings

def closing : List CodeLine := [⟨1, utf8 "\x7d"⟩, ⟨0, utf8 "\x7d"⟩]

def classLines (opening : List CodeLine) (members : List (Option Member)) : List CodeLine :=
  opening ++ members.flatMap (fun m => (m.map (Member.lines 2)).getD []) ++ closing

namespace Profile

def opening : Profile → List CodeLine
  | engine => Engine.opening
  | plugin name => Plugin.opening name

def members (profile : Profile) (decls : List Decl) : Except Obstacle (List (Option Member)) :=
  match profile with
  | engine => Engine.members 0 decls
  | plugin name => Plugin.members name (Plugin.structTable decls) [] decls

end Profile

namespace ScriptUnit

def generate (u : ScriptUnit) : Except BindingError (List UInt8) :=
  match Profile.ofUnitName? u.name with
  | none => .error ⟨u.name, .unknownUnit⟩
  | some profile =>
      match profile.members (u.decls.map (·.content)) with
      | .ok members => .ok (renderCode (classLines profile.opening members))
      | .error obstacle => .error ⟨u.name, .unsupported obstacle⟩

end ScriptUnit
end NwscriptBindings
