import NwscriptBindings.Proofs.Binding.Generated

namespace NwscriptBindings

namespace Bytes

def indented (depth : Nat) (line : List UInt8) : List UInt8 :=
  if line = [] then [] else List.replicate (4 * depth) (byte ' ') ++ line

end Bytes

theorem CodeLine.render_indented (depth : Nat) (text : List UInt8) :
    render ⟨depth, text⟩ = Bytes.indented depth text ++ [Bytes.newline] := by
  cases text with
  | nil => rfl
  | cons c rest => rfl

theorem render_append (first second : List CodeLine) :
    renderCode (first ++ second) = renderCode first ++ renderCode second := by
  simp [renderCode]

theorem renderCode_lines (lines : List CodeLine) :
    renderCode lines = Bytes.endLines (lines.map fun l => Bytes.indented l.depth l.text) := by
  rw [renderCode, Bytes.endLines, List.flatMap_map]
  congr 1
  funext l
  exact CodeLine.render_indented l.depth l.text

-- A line of a class, and a line of what stands in braces there.
def memberLine (text : List UInt8) : List UInt8 := utf8 "        " ++ text

def innerLine (text : List UInt8) : List UInt8 := utf8 "            " ++ text

theorem indented_member {text : List UInt8} (nonempty : text ≠ []) :
    Bytes.indented 2 text = memberLine text := if_neg nonempty

theorem indented_inner {text : List UInt8} (nonempty : text ≠ []) :
    Bytes.indented 3 text = innerLine text := if_neg nonempty

def braced (head : List UInt8) (inside : List (List UInt8)) : List UInt8 :=
  Bytes.endLines ([memberLine head, memberLine (utf8 "\x7b")] ++ inside.map innerLine ++
    [memberLine (utf8 "\x7d"), []])

def methodText (result name : List UInt8) (params statements : List (List UInt8)) : List UInt8 :=
  braced (utf8 "public static " ++ result ++ utf8 " " ++ name ++ utf8 "(" ++
    List.intercalate (utf8 ", ") params ++ utf8 ")") statements

def memberText (m : Option Member) : List UInt8 := renderCode ((m.map (Member.lines 2)).getD [])

section members

theorem memberText_lines (m : Member) : memberText (some m) =
    Bytes.endLines ((m.lines 2).map fun l => Bytes.indented l.depth l.text) :=
  renderCode_lines (m.lines 2)

theorem statement_nonempty (text : List UInt8) : text ++ utf8 ";" ≠ [] :=
  List.append_ne_nil_of_right_ne_nil text (by decide)

theorem memberText_statement {m : Member} {text : List UInt8}
    (shown : m.lines 2 = [.statement 2 text]) :
    memberText (some m) = Bytes.endLines [memberLine (text ++ utf8 ";")] := by
  rw [memberText_lines, shown, List.map_singleton]
  exact congrArg (Bytes.endLines [·]) (indented_member (statement_nonempty text))

theorem memberText_group {m : Member} {head : List UInt8} {inside : List (List UInt8)}
    (nonempty : head ≠ [])
    (shown : m.lines 2 = CodeLine.group 2 head (inside.map (CodeLine.statement 3))) :
    memberText (some m) = braced head (inside.map (· ++ utf8 ";")) := by
  have statements : (inside.map (CodeLine.statement 3)).map
      (fun l => Bytes.indented l.depth l.text) = (inside.map (· ++ utf8 ";")).map innerLine := by
    rw [List.map_map, List.map_map]
    exact List.map_congr_left fun text _ => indented_inner (statement_nonempty text)
  rw [memberText_lines, shown, CodeLine.group, List.map_append, List.map_append, statements, braced,
    ← indented_member nonempty]
  rfl

theorem memberText_method (m : Method) : memberText (some (.method m)) =
    methodText m.result m.name m.params (m.body.map fun a => a.text ++ utf8 ";") := by
  have lines : Member.lines 2 (.method m) = CodeLine.group 2 (utf8 "public static " ++ m.result ++
      utf8 " " ++ m.name ++ utf8 "(" ++ List.intercalate (utf8 ", ") m.params ++ utf8 ")")
        ((m.body.map Action.text).map (CodeLine.statement 3)) := by
    rw [List.map_map]
    rfl
  rw [memberText_group (List.append_ne_nil_of_right_ne_nil _ (by decide)) lines, List.map_map]
  rfl

theorem memberText_struct (name : List UInt8) (fields : List (List UInt8 × List UInt8)) :
    memberText (some (.struct name fields)) = braced (utf8 "public struct " ++ name)
      (fields.map fun f => utf8 "public " ++ f.1 ++ utf8 " " ++ f.2 ++ utf8 ";") := by
  have lines : Member.lines 2 (.struct name fields) = CodeLine.group 2 (utf8 "public struct " ++ name)
      ((fields.map fun f => utf8 "public " ++ f.1 ++ utf8 " " ++ f.2).map
        (CodeLine.statement 3)) := by
    rw [List.map_map]
    rfl
  rw [memberText_group (List.append_ne_nil_of_left_ne_nil (by decide) _) lines, List.map_map]
  rfl

theorem memberText_field (type name : List UInt8) : memberText (some (.field type name)) =
    Bytes.endLines
      [memberLine (utf8 "public static " ++ type ++ utf8 " " ++ name ++ utf8 ";")] :=
  memberText_statement rfl

theorem memberText_constant (type name value : List UInt8) :
    memberText (some (.constant type name value)) = Bytes.endLines [memberLine
      (utf8 "public const " ++ type ++ utf8 " " ++ name ++ utf8 " = " ++ value ++ utf8 ";")] :=
  memberText_statement rfl

theorem memberText_readOnly (type name value : List UInt8) :
    memberText (some (.readOnly type name value)) = Bytes.endLines [memberLine
      (utf8 "public static readonly " ++ type ++ utf8 " " ++ name ++ utf8 " = " ++ value ++
        utf8 ";")] :=
  memberText_statement rfl

theorem memberText_lineComment (text : List UInt8) : memberText (some (.lineComment text)) =
    Bytes.endLines [memberLine (utf8 "//" ++ Bytes.trimEnd Bytes.isBlank text)] := by
  rw [memberText_lines]
  exact congrArg (Bytes.endLines [·])
    (indented_member (List.append_ne_nil_of_left_ne_nil (by decide) _))

theorem memberText_blockComment (lines : List (List UInt8)) :
    memberText (some (.blockComment lines)) = Bytes.endLines ([memberLine (utf8 "/*")] ++
      lines.map (fun l => Bytes.indented 2 (Bytes.trimEnd Bytes.isBlank l)) ++
        [memberLine (utf8 "*/")]) := by
  rw [memberText_lines, Member.lines, List.map_append, List.map_append, List.map_map]
  rfl

end members

namespace Action

theorem engineCall_line (name : String) (argument : List UInt8) :
    engineCall name argument ++ utf8 ";" =
      utf8 "Internal." ++ utf8 name ++ utf8 "(" ++ argument ++ utf8 ");" := by
  rw [engineCall, List.append_assoc]
  rfl

theorem bridgeCall_line (name : String) (argument : List UInt8) :
    bridgeCall name argument ++ utf8 ";" =
      utf8 "Internal.NativeFunctions." ++ utf8 name ++ utf8 "(" ++ argument ++ utf8 ");" := by
  rw [bridgeCall, List.append_assoc]
  rfl

end Action

def Profile.header : Profile → List UInt8
  | engine => Bytes.endLines [utf8 "namespace NWN", utf8 "\x7b",
      utf8 "    public static partial class NWScript", utf8 "    \x7b"]
  | plugin name => Bytes.endLines [utf8 "using NWN;", [], utf8 "namespace NWNX", utf8 "\x7b",
      utf8 "    public static class " ++ name, utf8 "    \x7b",
      memberLine (utf8 "const string PLUGIN_NAME = " ++ Quoted.quote (utf8 "NWNX_" ++ name) ++
        utf8 ";"), []]

def footer : List UInt8 := Bytes.endLines [utf8 "    \x7d", utf8 "\x7d"]

def Profile.classText (profile : Profile) (blocks : List (List UInt8)) : List UInt8 :=
  profile.header ++ blocks.flatten ++ footer

theorem render_opening (profile : Profile) : renderCode profile.opening = profile.header := by
  rw [renderCode_lines]
  cases profile with
  | engine => rfl
  | plugin name => rfl

theorem render_class (profile : Profile) (members : List (Option Member)) :
    renderCode (classLines profile.opening members) =
      profile.classText (members.map memberText) := by
  have inside : renderCode (members.flatMap fun m => (m.map (Member.lines 2)).getD []) =
      (members.map memberText).flatten := by
    induction members with
    | nil => rfl
    | cons m members ih => rw [List.flatMap_cons, render_append, ih, List.map_cons,
        List.flatten_cons, memberText]
  rw [classLines, render_append, render_append, inside, render_opening, Profile.classText]
  rfl

theorem ScriptUnit.generate_ok_iff {u : ScriptUnit} {code : List UInt8} : u.generate = .ok code ↔
    ∃ profile members, Profile.ofUnitName? u.name = some profile ∧
      profile.members (u.decls.map (·.content)) = .ok members ∧
      code = profile.classText (members.map memberText) := by
  unfold generate
  cases Profile.ofUnitName? u.name with
  | none => simp
  | some profile =>
      simp only
      cases found : profile.members (u.decls.map (·.content)) with
      | error obstacle => simp [found]
      | ok members => simp [found, render_class, eq_comm]

namespace Profile

-- The text of a declaration that is no function.
inductive Shows (profile : Profile) : Decl → List UInt8 → Prop where
  | directive {text : List UInt8} : Shows profile (.directive text) []
  | line {text : List UInt8} : Shows profile (.comment (.line text))
      (Bytes.endLines [memberLine (utf8 "//" ++ Bytes.trimEnd Bytes.isBlank text)])
  | block {text : List UInt8} {closed : Bool} : Shows profile (.comment (.block text closed))
      (Bytes.endLines ([memberLine (utf8 "/*")] ++ (Bytes.lines text).map (fun l =>
        Bytes.indented 2 (Bytes.trimEnd Bytes.isBlank l)) ++ [memberLine (utf8 "*/")]))
  | field {v : VarDecl} : v.init = none → Shows profile (.var v) (Bytes.endLines [memberLine
      (utf8 "public static " ++ profile.typeName v.type.content ++ utf8 " " ++ v.name ++
        utf8 ";")])
  | constant {v : VarDecl} {e : Traced Expr} {type : BasicType} : v.init = some e →
      v.type.content = .basic type → type ∈ [.int, .float, .string] →
      Shows profile (.var v) (Bytes.endLines [memberLine
        (utf8 "public const " ++ profile.typeName (.basic type) ++ utf8 " " ++ v.name ++
          utf8 " = " ++ constantText type e ++ utf8 ";")])
  | readOnly {v : VarDecl} {e : Traced Expr} {type : BasicType} : v.init = some e →
      v.type.content = .basic type → type ∉ [.int, .float, .string] →
      Shows profile (.var v) (Bytes.endLines [memberLine
        (utf8 "public static readonly " ++ profile.typeName (.basic type) ++ utf8 " " ++ v.name ++
          utf8 " = " ++ constantText type e ++ utf8 ";")])
  | struct {d : StructDecl} : Shows profile (.struct d)
      (braced (utf8 "public struct " ++ profile.structName d.name)
        (d.fields.map fun f => utf8 "public " ++ profile.typeName f.content.type.content ++
          utf8 " " ++ f.content.name ++ utf8 ";"))

theorem isConst_iff (type : BasicType) :
    type.abi.isConst = true ↔ type ∈ [.int, .float, .string] := by
  cases type <;> decide

theorem shows_comment (profile : Profile) (c : Comment) :
    profile.Shows (.comment c) (memberText (some c.member)) := by
  cases c with
  | line text =>
      rw [Comment.member, memberText_lineComment]
      exact .line
  | block text closed =>
      rw [Comment.member, memberText_blockComment]
      exact .block

theorem shows_variable {profile : Profile} {v : VarDecl} {m : Member}
    (accepted : profile.variableMember v = .ok m) :
    profile.Shows (.var v) (memberText (some m)) := by
  unfold variableMember at accepted
  split at accepted
  · rename_i none
    cases accepted
    rw [memberText_field]
    exact .field none
  · rename_i e type given typed
    simp only [Except.ok.injEq] at accepted
    split at accepted
    · rename_i constant
      rw [← accepted, memberText_constant, typed]
      exact .constant given typed ((isConst_iff type).mp constant)
    · rename_i other
      rw [← accepted, memberText_readOnly, typed]
      exact .readOnly given typed fun constant => other ((isConst_iff type).mpr constant)
  · cases accepted

theorem shows_struct (profile : Profile) (d : StructDecl) :
    profile.Shows (.struct d) (memberText (some (profile.structMember d))) := by
  rw [structMember, memberText_struct, List.map_map]
  exact .struct

end Profile

end NwscriptBindings
