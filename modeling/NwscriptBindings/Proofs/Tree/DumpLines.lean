import NwscriptBindings.Proofs.Grammar.NodeRules
import NwscriptBindings.Proofs.Grammar.WellFormed
import NwscriptBindings.Proofs.Token.Closing
import NwscriptBindings.Proofs.Tree.Dumps

namespace NwscriptBindings

open Bytes (OneLine Proper)

def Node.words : Node → List (List UInt8)
  | decl ⟨.struct d, _⟩ => [d.name]
  | decl ⟨.prototype sig, _⟩ | decl ⟨.function sig _, _⟩ => [sig.name]
  | decl ⟨.var d, _⟩ | stmt (.var d _) => [d.name]
  | param p => [p.content.name]
  | type ⟨.struct name, _⟩ => [name]
  | value ⟨.reference name, _⟩ => [name]
  | value ⟨.literal (.float _ raw), _⟩ => [raw]
  | stmt (.call name _ _) => [name]
  | _ => []

namespace Outline

def Neat (tree : Rose (List UInt8)) : Prop := ∀ line ∈ tree.preorder, Proper line

section lines

variable {line name text : List UInt8} {tree : Rose (List UInt8)} {trees : List (Rose (List UInt8))}

theorem neat_node : Neat (.node line trees) ↔ Proper line ∧ ∀ tree ∈ trees, Neat tree := by
  simp only [Neat, Grammar.mem_preorder_node]
  constructor
  · intro neat
    exact ⟨neat line (.inl rfl), fun tree present l inside => neat l (.inr ⟨tree, present, inside⟩)⟩
  · rintro ⟨own, each⟩ l (rfl | ⟨tree, present, inside⟩)
    · exact own
    · exact each tree present l inside

theorem neat_leaf (proper : Proper line) : Neat (.leaf line) := neat_node.mpr ⟨proper, by simp⟩

theorem neat_labelled {label : String} (proper : Proper (utf8 label ++ utf8 ":"))
    (inner : Neat tree) : Neat (labelled label tree) :=
  neat_node.mpr ⟨proper, List.forall_mem_singleton.mpr inner⟩

theorem neat_two {first second : String} {other : Rose (List UInt8)} (proper : Proper line)
    (labels : Proper (utf8 first ++ utf8 ":") ∧ Proper (utf8 second ++ utf8 ":"))
    (left : Neat tree) (right : Neat other) :
    Neat (.node line [labelled first tree, labelled second other]) := by
  refine neat_node.mpr ⟨proper, ?_⟩
  simp only [List.forall_mem_cons]
  exact ⟨neat_labelled labels.1 left, neat_labelled labels.2 right, by simp⟩

theorem neat_nameLine {label : String} (proper : Proper (utf8 label ++ utf8 ": "))
    (plain : OneLine name) : Neat (nameLine label name) := neat_leaf (proper.append plain)

theorem oneLine_nameLine {label : String} (neat : Neat (nameLine label name)) : OneLine name :=
  (Bytes.oneLine_append.mp (neat_node.mp neat).1.2).2

theorem proper_head (typeName : String) (proper : Proper (utf8 typeName)) (tokens : List Token) :
    Proper (head typeName tokens) :=
  (proper.append (by decide)).append (Pos.oneLine_text _)

theorem proper_spaced (proper : Proper line) (plain : OneLine text) :
    Proper (line ++ utf8 " " ++ text) := (proper.append (by decide)).append plain

end lines

section nodes

theorem neat_comment (c : Comment) (tokens : List Token) : Neat (comment c tokens) := by
  cases c with
  | line text =>
      exact neat_leaf (proper_spaced (proper_head "LineComment" (by decide) tokens)
        (Quoted.oneLine_quote text))
  | block text closed =>
      refine neat_leaf ((((proper_head "BlockComment" (by decide) tokens).append (by decide)).append
        (Bytes.oneLine_ofNat _)).append ?_)
      split <;> decide

theorem neat_expr (e : Traced Expr) : Neat (expr e) := by
  have name (k : Capture) : Proper (utf8 k.name) := by cases k <;> decide
  exact neat_leaf (proper_spaced (proper_head _ (name _) _) (Quoted.oneLine_quote _))

theorem neat_value {v : Traced Value} (words : ∀ w ∈ (Node.value v).words, OneLine w) :
    Neat (value v) := by
  obtain ⟨content, tokens⟩ := v
  cases content with
  | reference name =>
      exact neat_leaf (proper_spaced (proper_head "Lvalue" (by decide) tokens)
        (List.forall_mem_singleton.mp words))
  | literal l =>
      refine neat_leaf ?_
      cases l with
      | int v raw =>
          exact proper_spaced (proper_head "IntLiteral" (by decide) tokens) (Bytes.oneLine_ofInt _)
      | float v raw =>
          exact proper_spaced (proper_head "FloatLiteral" (by decide) tokens)
            (List.forall_mem_singleton.mp words)
      | string body =>
          exact proper_spaced (proper_head "StringLiteral" (by decide) tokens)
            (Quoted.oneLine_quote body)
      | vector x y z =>
          have coordinate := Binary32.oneLine_text coordinateStyle
          exact (((((((proper_head "VectorLiteral" (by decide) tokens).append (by decide)).append
            (coordinate x)).append (by decide)).append (coordinate y)).append (by decide)).append
            (coordinate z)).append (by decide)
      | objectInvalid => exact proper_head "ObjectInvalid" (by decide) tokens
      | objectSelf => exact proper_head "ObjectSelf" (by decide) tokens

theorem oneLine_reference {name : Traced (List UInt8)} (neat : Neat (value name.asValue)) :
    OneLine name.content :=
  (Bytes.oneLine_append.mp (neat_node.mp neat).1.2).2

theorem oneLine_type {t : Traced ScriptType} (neat : Neat (type t)) : OneLine t.content.name :=
  (Bytes.oneLine_append.mp (neat_node.mp neat).1.2).2

theorem neat_var {d : VarDecl} (named : OneLine d.name)
    (below : ∀ child ∈ d.parts, Neat child.value.outline) (tokens : List Token) :
    Neat (varDecl d tokens) := by
  obtain ⟨t, name, init, isConst⟩ := d
  obtain ⟨typed, _⟩ := List.forall_mem_cons.mp below
  have kind : Proper (utf8 (if isConst then "ConstDecl" else "VarDecl")) := by
    cases isConst <;> decide
  refine neat_node.mpr ⟨proper_head _ kind tokens, List.forall_mem_append.mpr ⟨?_, ?_⟩⟩
  · simp only [List.forall_mem_cons]
    exact ⟨neat_nameLine (by decide) named, neat_nameLine (by decide) (oneLine_type typed), by simp⟩
  · cases init with
    | none => simp
    | some e => exact List.forall_mem_singleton.mpr (neat_labelled (by decide) (neat_expr e))

theorem neat_field {d : Traced VarDecl}
    (neat : Neat (varDecl d.content d.tokens)) : Neat (field d) := by
  obtain ⟨named, typed, _⟩ := by
    simpa only [List.forall_mem_cons] using
      (List.forall_mem_append.mp (neat_node.mp neat).2).1
  exact neat_nameLine (by decide)
    (((oneLine_nameLine named).append (by decide)).append (oneLine_nameLine typed))

theorem neat_signature {sig : Signature} (named : OneLine sig.name)
    (below : ∀ child ∈ sig.parts, Neat child.value.outline) :
    ∀ tree ∈ signature sig, Neat tree := by
  obtain ⟨typed, params⟩ := List.forall_mem_cons.mp below
  refine List.forall_mem_append.mpr ⟨?_, ?_⟩
  · simp only [List.forall_mem_cons]
    exact ⟨neat_nameLine (by decide) named, neat_nameLine (by decide) (oneLine_type typed), by simp⟩
  · split
    · simp
    · refine List.forall_mem_singleton.mpr (neat_node.mpr ⟨by decide, ?_⟩)
      have each := List.forall_mem_map.mp params
      exact List.forall_mem_map.mpr each

theorem neat_param {p : Traced Param} (named : OneLine p.content.name)
    (below : ∀ child ∈ (Node.param p).parts, Neat child.value.outline) : Neat (param p) := by
  obtain ⟨⟨t, name, given⟩, tokens⟩ := p
  obtain ⟨typed, values⟩ := List.forall_mem_cons.mp below
  have begins : Proper (utf8 "Param ") := by decide
  refine neat_node.mpr ⟨proper_spaced (begins.append named) (oneLine_type typed), ?_⟩
  cases given with
  | none => simp
  | some v =>
      have stated := List.forall_mem_singleton.mp values
      exact List.forall_mem_singleton.mpr (neat_labelled (by decide) stated)

theorem neat_decl {d : Traced Decl} (words : ∀ w ∈ (Node.decl d).words, OneLine w)
    (below : ∀ child ∈ d.content.parts, Neat child.value.outline) : Neat (decl d) := by
  obtain ⟨content, tokens⟩ := d
  cases content with
  | directive text =>
      exact neat_leaf (proper_spaced (proper_head "Preprocessor" (by decide) tokens)
        (Quoted.oneLine_quote text))
  | comment c => exact neat_comment c tokens
  | struct s =>
      refine neat_node.mpr ⟨proper_head "StructDecl" (by decide) tokens, ?_⟩
      refine List.forall_mem_cons.mpr
        ⟨neat_nameLine (by decide) (List.forall_mem_singleton.mp words), ?_⟩
      exact List.forall_mem_map.mpr fun d present =>
        neat_field (List.forall_mem_map.mp below d present)
  | prototype sig =>
      exact neat_node.mpr ⟨proper_head "FuncDecl" (by decide) tokens,
        neat_signature (List.forall_mem_singleton.mp words) below⟩
  | function sig body =>
      obtain ⟨signed, inside⟩ := List.forall_mem_append.mp below
      refine neat_node.mpr ⟨proper_head "FuncImpl" (by decide) tokens, ?_⟩
      refine List.forall_mem_append.mpr
        ⟨neat_signature (List.forall_mem_singleton.mp words) signed, ?_⟩
      have bodied := List.forall_mem_singleton.mp inside
      exact List.forall_mem_singleton.mpr (neat_labelled (by decide) bodied)
  | var d => exact neat_var (List.forall_mem_singleton.mp words) below tokens

theorem neat_stmtList {stmts : List Stmt}
    (below : ∀ child ∈ Stmt.trees stmts, Neat child.value.outline) :
    ∀ tree ∈ stmtList stmts, Neat tree := by
  rw [Node.stmt_trees] at below
  rw [stmtList_eq]
  have each := List.forall_mem_map.mp below
  exact List.forall_mem_map.mpr each

theorem proper_stmtHead {s : Stmt} (other : s.isComment = false) : Proper (stmtHead s) := by
  refine proper_head _ ?_ _
  cases s with
  | comment c tokens => cases other
  | _ =>
      rw [Stmt.typeName]
      decide

theorem neat_stmt {s : Stmt} (words : ∀ w ∈ (Node.stmt s).words, OneLine w)
    (below : ∀ child ∈ s.parts, Neat child.value.outline) : Neat (stmt s) := by
  cases s with
  | comment c tokens =>
      rw [stmt]
      exact neat_comment c tokens
  | var d tokens =>
      rw [stmt]
      rw [Stmt.parts] at below
      exact neat_var (List.forall_mem_singleton.mp words) below tokens
  | block stmts tokens =>
      rw [stmt]
      rw [Stmt.parts] at below
      exact neat_node.mpr ⟨proper_stmtHead rfl, neat_stmtList below⟩
  | assign target op value tokens =>
      rw [stmt]
      rw [Stmt.parts] at below
      obtain ⟨named, _⟩ := List.forall_mem_cons.mp below
      have sign : OneLine (utf8 op.text) := by cases op <;> decide
      refine neat_node.mpr ⟨proper_spaced (proper_spaced (proper_stmtHead rfl)
        (oneLine_reference named)) sign, List.forall_mem_singleton.mpr (neat_expr value)⟩
  | step target op tokens =>
      rw [stmt]
      rw [Stmt.parts] at below
      have named := List.forall_mem_singleton.mp below
      have sign : OneLine (utf8 op.text) := by cases op <;> decide
      exact neat_leaf (proper_spaced (proper_spaced (proper_stmtHead rfl)
        (oneLine_reference named)) sign)
  | call name args tokens =>
      rw [stmt]
      exact neat_node.mpr ⟨proper_spaced (proper_stmtHead rfl) (List.forall_mem_singleton.mp words),
        List.forall_mem_singleton.mpr (neat_expr args)⟩
  | whileLoop cond body tokens =>
      rw [stmt]
      rw [Stmt.parts] at below
      simp only [List.forall_mem_cons] at below
      exact neat_two (proper_stmtHead rfl) (by decide) below.1 below.2.1
  | forLoop init cond post body tokens =>
      rw [stmt]
      rw [Stmt.parts] at below
      simp only [List.forall_mem_cons] at below
      refine neat_node.mpr ⟨proper_stmtHead rfl, ?_⟩
      simp only [List.forall_mem_cons]
      exact ⟨neat_labelled (by decide) below.1, neat_labelled (by decide) below.2.1,
        neat_labelled (by decide) below.2.2.1, neat_labelled (by decide) below.2.2.2.1, by simp⟩
  | doLoop body cond tokens =>
      rw [stmt]
      rw [Stmt.parts] at below
      simp only [List.forall_mem_cons] at below
      exact neat_two (proper_stmtHead rfl) (by decide) below.1 below.2.1
  | ifThen cond body tokens =>
      rw [stmt]
      rw [Stmt.parts] at below
      simp only [List.forall_mem_cons] at below
      exact neat_two (proper_stmtHead rfl) (by decide) below.1 below.2.1
  | ifElse cond body other elseTokens tokens =>
      rw [stmt]
      rw [Stmt.parts] at below
      simp only [List.forall_mem_cons] at below
      refine neat_node.mpr ⟨proper_stmtHead rfl, ?_⟩
      simp only [List.forall_mem_cons]
      exact ⟨neat_labelled (by decide) below.1, neat_labelled (by decide) below.2.1, below.2.2.1,
        by simp⟩
  | leave result tokens =>
      rw [stmt]
      refine neat_node.mpr ⟨proper_stmtHead rfl, ?_⟩
      cases result with
      | none => simp
      | some e => exact List.forall_mem_singleton.mpr (neat_expr e)
  | switch tag stmts blockTokens tokens =>
      rw [stmt]
      rw [Stmt.parts] at below
      simp only [List.forall_mem_cons] at below
      have block := below.2.1
      rw [Rose.value, Node.outline, stmt] at block
      exact neat_two (proper_stmtHead rfl) (by decide) below.1 block
  | label value tokens =>
      cases value with
      | none =>
          rw [stmt]
          exact neat_leaf (proper_head "Default" (by decide) tokens)
      | some v =>
          rw [stmt]
          rw [Stmt.parts] at below
          have stated := List.forall_mem_singleton.mp below
          exact neat_node.mpr
            ⟨proper_head "Case" (by decide) tokens, List.forall_mem_singleton.mpr stated⟩
  | breakOut tokens =>
      rw [stmt]
      exact neat_leaf (proper_stmtHead rfl)
  | continueOn tokens =>
      rw [stmt]
      exact neat_leaf (proper_stmtHead rfl)

theorem neat_of_below {n : Node} (words : ∀ w ∈ n.words, OneLine w)
    (below : ∀ child ∈ n.parts, Neat child.value.outline) : Neat n.outline := by
  cases n with
  | unit u =>
      have begins : Proper (utf8 "CompilationUnit ") := by decide
      have each := List.forall_mem_map.mp below
      exact neat_node.mpr
        ⟨begins.append (Quoted.oneLine_quote u.name), List.forall_mem_map.mpr each⟩
  | decl d => exact neat_decl words below
  | param p => exact neat_param (List.forall_mem_singleton.mp words) below
  | type t =>
      obtain ⟨content, tokens⟩ := t
      have begins : Proper (utf8 "Type ") := by decide
      have known (b : BasicType) : OneLine (utf8 b.name) := by cases b <;> decide
      cases content with
      | basic b => exact neat_leaf (begins.append (known b))
      | struct name =>
          have word : OneLine (utf8 "struct ") := by decide
          exact neat_leaf (begins.append (word.append (List.forall_mem_singleton.mp words)))
  | value v => exact neat_value words
  | expr e => exact neat_expr e
  | stmt s => exact neat_stmt words below
  | otherwise body tokens =>
      have inside := List.forall_mem_singleton.mp below
      exact neat_node.mpr
        ⟨proper_head "ElseStmt" (by decide) tokens, List.forall_mem_singleton.mpr inside⟩

end nodes

end Outline

structure Token.Legible (t : Token) : Prop where
  word : ∀ name, t.lexeme = .word name → OneLine name
  float : ∀ raw, t.lexeme = .literal (.float raw) → OneLine raw

theorem Scanner.tokenize_legible {text : List UInt8} {t : Token} (present : t ∈ tokenize text) :
    t.Legible := by
  obtain ⟨before, more, parts⟩ := List.append_of_mem present
  obtain ⟨here, behind, _, _, found, _⟩ := tokenize_step parts
  refine ⟨fun name same breaks => ?_, fun raw same breaks => ?_⟩
  · have separates := (((next?_scanned found).word name same).2 Bytes.newline breaks).1
    exact absurd separates (by decide)
  · obtain ⟨c, rest, _, takes⟩ := next?_takes found
    rw [same] at takes
    rcases Scan.takes_literal takes with ⟨_, other, _⟩ | ⟨_, number, _⟩
    · cases other
    · have wordBytes := Scan.number_wordBytes (c :: rest)
      rw [← number] at wordBytes
      exact absurd (wordBytes Bytes.newline breaks) (by decide)

namespace Grammar

open NwscriptBindings.Parser (Terminal)

section words

variable {bare : Bool} {ts : List Token}

theorem name_oneLine {name : List UInt8} (named : NameRule name ts)
    (legible : ∀ t ∈ ts, t.Legible) : OneLine name := by
  obtain ⟨t, ⟨gap, rfl, _⟩, same⟩ := named
  exact (legible t (by simp)).word name same

theorem var_oneLine {d : VarDecl} (derived : VarRule bare d ts) (legible : ∀ t ∈ ts, t.Legible) :
    OneLine d.name := by
  cases derived with
  | plain _ _ named _ _ =>
      simp only [List.forall_mem_append] at legible
      exact name_oneLine named legible.2.2.1
  | initialized _ _ named _ _ =>
      simp only [List.forall_mem_append] at legible
      exact name_oneLine named legible.2.2.1

theorem signature_oneLine {sig : Signature} (derived : SignatureRule sig ts)
    (legible : ∀ t ∈ ts, t.Legible) : OneLine sig.name := by
  cases derived with
  | intro _ named _ _ =>
      simp only [List.forall_mem_append] at legible
      exact name_oneLine named legible.2.1

theorem number_oneLine {negative : Bool} {l : RawLiteral} {v : Binary32} {raw : List UInt8}
    (found : Terminal (.literal l) ts)
    (valued : Parser.numberLiteral negative l = some (.float v raw))
    (legible : ∀ t ∈ ts, t.Legible) : OneLine raw := by
  obtain ⟨t, ⟨gap, rfl, _⟩, same⟩ := found
  cases l with
  | int text =>
      obtain ⟨_, _, other⟩ := Option.map_eq_some_iff.mp valued
      cases other
  | float text =>
      obtain ⟨_, _, spelled⟩ := Option.map_eq_some_iff.mp valued
      cases spelled
      have sign : OneLine (signText negative) := by cases negative <;> decide
      exact sign.append ((legible t (by simp)).float text same)
  | string body closed => cases valued

theorem float_oneLine {v : Binary32} {raw : List UInt8} (derived : LiteralRule (.float v raw) ts)
    (legible : ∀ t ∈ ts, t.Legible) : OneLine raw := by
  cases derived with
  | number spelled =>
      cases spelled with
      | plain found valued => exact number_oneLine found valued legible
      | negative _ found valued =>
          exact number_oneLine found valued (List.forall_mem_append.mp legible).2

theorem decl_oneLine {d : Traced Decl} (derived : DeclRule bare d.content ts)
    (legible : ∀ t ∈ ts, t.Legible) : ∀ w ∈ (Node.decl d).words, OneLine w := by
  obtain ⟨content, tokens⟩ := d
  cases derived with
  | directive => simp [Node.words]
  | comment => simp [Node.words]
  | prototype _ sig _ =>
      exact List.forall_mem_singleton.mpr
        (signature_oneLine sig (List.forall_mem_append.mp legible).1)
  | function _ sig _ =>
      exact List.forall_mem_singleton.mpr
        (signature_oneLine sig (List.forall_mem_append.mp legible).1)
  | var _ d => exact List.forall_mem_singleton.mpr (var_oneLine d legible)
  | struct _ d =>
      cases d with
      | intro _ named _ _ _ _ =>
          simp only [List.forall_mem_append] at legible
          exact List.forall_mem_singleton.mpr (name_oneLine named legible.2.1)

theorem stmt_oneLine {s : Stmt} (derived : StmtRule bare s ts) (legible : ∀ t ∈ ts, t.Legible) :
    ∀ w ∈ (Node.stmt s).words, OneLine w := by
  cases derived with
  | var d => exact List.forall_mem_singleton.mpr (var_oneLine d legible)
  | call named _ _ =>
      exact List.forall_mem_singleton.mpr
        (name_oneLine named (List.forall_mem_append.mp legible).1)
  | _ => simp [Node.words]

theorem NodeRule.words_oneLine {n : Node} (derived : NodeRule bare n ts)
    (legible : ∀ t ∈ ts, t.Legible) : ∀ w ∈ n.words, OneLine w := by
  cases derived with
  | decl derived => exact decl_oneLine derived.1 legible
  | field derived => exact List.forall_mem_singleton.mpr (var_oneLine derived.1.1 legible)
  | @param p ts derived =>
      obtain ⟨content, tokens⟩ := p
      cases derived.1 with
      | intro _ named _ =>
          simp only [List.forall_mem_append] at legible
          exact List.forall_mem_singleton.mpr (name_oneLine named legible.2.1)
  | @type t ts derived =>
      obtain ⟨content, tokens⟩ := t
      cases derived.1 with
      | basic _ => simp [Node.words]
      | struct _ named =>
          exact List.forall_mem_singleton.mpr
            (name_oneLine named (List.forall_mem_append.mp legible).2)
  | @value v ts derived =>
      obtain ⟨content, tokens⟩ := v
      cases derived.1 with
      | reference named => exact List.forall_mem_singleton.mpr (name_oneLine named legible)
      | @literal l _ spelled =>
          cases l with
          | float v raw => exact List.forall_mem_singleton.mpr (float_oneLine spelled legible)
          | _ => simp [Node.words]
  | stmt derived => exact stmt_oneLine derived legible
  | _ => simp [Node.words]

end words

end Grammar

namespace Node

def dumpLines (n : Node) : List (List UInt8) := (Bytes.lines n.dumpText).dropLast

theorem dumpLines_eq {n : Node} (neat : Outline.Neat n.outline) :
    n.dumpLines = (n.outline.levels 0).map Bytes.written := by
  have plain : ∀ l ∈ (n.outline.levels 0).map Bytes.written, Bytes.newline ∉ l := by
    refine List.forall_mem_map.mpr fun x present => Bytes.oneLine_written (neat x.2 ?_).2
    rw [← Rose.levels_values 0]
    exact List.mem_map_of_mem present
  rw [dumpLines, dumpText, Rose.indented_eq, Bytes.lines_endLines plain, List.dropLast_concat]

end Node

namespace ScriptUnit

theorem parse_neat {name text : List UInt8} {lines : List (List UInt8)} {u : ScriptUnit}
    (parsed : parse name lines (tokenize text) = .ok u) : Outline.Neat (Node.unit u).outline := by
  have derived := (parseWith_sound parsed).2
  refine Node.rises (Grammar.Derived false (tokenize text)) (fun n => Outline.Neat n.outline)
    (fun _ known => known.below) ?_ u.tree (Node.unit_tree u).symm (Grammar.unit_derived derived)
  intro n known below
  obtain ⟨front, ts, back, whole, rule⟩ := known
  refine Outline.neat_of_below (rule.words_oneLine fun t present => ?_) below
  have scanned : t ∈ tokenize text := by
    rw [whole]
    simp [present]
  exact Scanner.tokenize_legible scanned

-- What is read off the lines of a dump, depth by depth, is what was written. The dump of a node
-- stands in that of the unit as one block, and nothing deeper follows it.
theorem parse_dump_indented {name text : List UInt8} {lines : List (List UInt8)} {u : ScriptUnit}
    (parsed : parse name lines (tokenize text) = .ok u) {path : List Node.Slot} {n : Node} {d : Nat}
    (found : (Node.unit u).at? path = some n) (deep : Node.Slot.pathDepth? path = some d) :
    n.dumpLines.map Bytes.measured = (n.outline.levels 0).map (fun x => (2 * x.1, x.2)) ∧
      ∃ before after, (Node.unit u).dumpLines =
          before ++ (n.dumpLines.map (List.replicate (2 * d) (byte ' ') ++ ·) ++ after) ∧
        ∀ line ∈ after.head?, (Bytes.measured line).1 ≤ 2 * d := by
  have neat := parse_neat parsed
  have under := Outline.path_under found deep
  have inner : Outline.Neat n.outline := fun line present =>
    neat line (under.preorder_subset line present)
  obtain ⟨before, after, block, next⟩ := under.block 0
  rw [Nat.zero_add] at block next
  rw [Node.dumpLines_eq neat, Node.dumpLines_eq inner, List.map_map]
  refine ⟨?_, before.map Bytes.written, after.map Bytes.written, ?_, ?_⟩
  · refine List.map_congr_left fun x present => Bytes.measured_written (inner x.2 ?_)
    rw [← Rose.levels_values 0]
    exact List.mem_map_of_mem present
  · have shifted := Rose.levels_shift 0 d n.outline
    rw [Nat.zero_add] at shifted
    rw [block, shifted, List.map_append, List.map_append, List.map_map, List.map_map]
    congr 2
    refine List.map_congr_left fun x _ => ?_
    exact Bytes.written_deeper x.1 d x.2
  · intro line first
    rw [List.head?_map] at first
    obtain ⟨x, follows, rfl⟩ := Option.map_eq_some_iff.mp first
    have present : x ∈ (Node.unit u).outline.levels 0 := by
      rw [block]
      simp [List.mem_of_mem_head? follows]
    have proper : Bytes.Proper x.2 := by
      refine neat x.2 ?_
      rw [← Rose.levels_values 0]
      exact List.mem_map_of_mem present
    rw [Bytes.measured_written proper]
    exact Nat.mul_le_mul_left 2 (next x follows)

-- A string with a line end in it that looks like a block is still one line.
theorem parse_dump_indented_string :
    let text := utf8 "void f() \x7b if (a) return \"x\n  Block 9:9\"; \x7d"
    let path : List Node.Slot := [.decl 0, .body, .stmt 0, .body, .returned]
    ∃ u n, parse [] [] (tokenize text) = .ok u ∧ (Node.unit u).at? path = some n ∧
      Node.Slot.pathDepth? path = some 7 ∧ (Node.unit u).outline.preorder.length = 12 ∧
      n.dumpLines.map Bytes.measured = (n.outline.levels 0).map (fun x => (2 * x.1, x.2)) ∧
      ∃ before after, (Node.unit u).dumpLines =
          before ++ (n.dumpLines.map (List.replicate 14 (byte ' ') ++ ·) ++ after) ∧
        ∀ line ∈ after.head?, (Bytes.measured line).1 ≤ 14 := by
  intro text path
  have found : (parse [] [] (tokenize text)).toOption.any (fun u =>
      ((Node.unit u).at? path).isSome && (Node.unit u).outline.preorder.length == 12) = true := by
    decide +kernel
  cases outcome : parse [] [] (tokenize text) with
  | error e =>
      rw [outcome] at found
      cases found
  | ok u =>
      simp only [outcome, Except.toOption, Option.any_some, Bool.and_eq_true, beq_iff_eq] at found
      obtain ⟨n, here⟩ := Option.isSome_iff_exists.mp found.1
      exact ⟨u, n, rfl, here, rfl, found.2, parse_dump_indented outcome here rfl⟩

end ScriptUnit
end NwscriptBindings
