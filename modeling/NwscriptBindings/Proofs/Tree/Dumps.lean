import NwscriptBindings.Proofs.Tree.Levels
import NwscriptBindings.Proofs.Tree.Traversal

namespace NwscriptBindings

namespace Node.Slot

-- How much deeper than a node what stands in a slot of it is printed. A type and the target of an
-- assignment are part of a line, and so is a member of a struct.
def depth? : Slot → Option Nat
  | .decl _ | .value | .args | .stmt _ | .otherwise | .branch | .returned => some 1
  | .param _ | .default | .tag | .init | .cond | .post | .body | .again => some 2
  | .member _ | .result | .type | .target => none

def pathDepth? : List Slot → Option Nat
  | [] => some 0
  | slot :: path => slot.depth?.bind fun k => (pathDepth? path).map (k + ·)

end Node.Slot

namespace Outline

open Rose (Under)

section places

variable {line : List UInt8} {tree : Rose (List UInt8)} {children : List (Rose (List UInt8))}

theorem under_child (present : tree ∈ children) : Under (.node line children) 1 tree :=
  .deeper present .here

theorem under_labelled (label : String) (present : labelled label tree ∈ children) :
    Under (.node line children) 2 tree :=
  .deeper present (under_child (List.mem_singleton.mpr rfl))

-- A slot that is always filled, with a label above what stands in it or without one.
theorem slot_under {n m : Node} {k : Nat} (found : some n = some m) (deep : some 1 = some k)
    (present : n.outline ∈ children) : Under (.node line children) k m.outline := by
  cases found
  cases deep
  exact under_child present

theorem labelledSlot_under {n m : Node} {k : Nat} (found : some n = some m)
    (deep : some 2 = some k) (label : String) (present : labelled label n.outline ∈ children) :
    Under (.node line children) k m.outline := by
  cases found
  cases deep
  exact under_labelled label present

theorem var_under {d : VarDecl} {slot : Node.Slot} {m : Node} {k : Nat}
    (found : d.held slot = some m) (deep : slot.depth? = some k) (tokens : List Token) :
    Under (varDecl d tokens) k m.outline := by
  cases slot with
  | init =>
      obtain ⟨e, given, rfl⟩ := Option.map_eq_some_iff.mp found
      cases deep
      exact under_labelled "Init" (by simp [given, Node.outline])
  | type => cases deep
  | _ => cases found

theorem stmtList_eq (stmts : List Stmt) : stmtList stmts = stmts.map stmt := by
  induction stmts with
  | nil => rw [stmtList, List.map_nil]
  | cons s stmts ih => rw [stmtList, ih, List.map_cons]

theorem stmt_under {s : Stmt} {slot : Node.Slot} {m : Node} {k : Nat}
    (found : s.held slot = some m) (deep : slot.depth? = some k) :
    Under (stmt s) k m.outline := by
  cases s with
  | comment c tokens => cases slot <;> cases found
  | var d tokens =>
      rw [stmt]
      exact var_under found deep tokens
  | block stmts tokens =>
      rw [stmt, stmtList_eq]
      cases slot with
      | stmt i =>
          obtain ⟨s, listed, rfl⟩ := Option.map_eq_some_iff.mp found
          cases deep
          exact under_child (List.mem_map_of_mem (List.mem_of_getElem? listed))
      | _ => cases found
  | assign target op value tokens =>
      rw [stmt]
      cases slot with
      | target => cases deep
      | value => exact slot_under found deep (by simp [Node.outline])
      | _ => cases found
  | step target op tokens =>
      cases slot with
      | target => cases deep
      | _ => cases found
  | call name args tokens =>
      rw [stmt]
      cases slot with
      | args => exact slot_under found deep (by simp [Node.outline])
      | _ => cases found
  | whileLoop cond body tokens =>
      rw [stmt]
      cases slot with
      | cond => exact labelledSlot_under found deep "Cond" (by simp [Node.outline])
      | body => exact labelledSlot_under found deep "Body" (by simp [Node.outline])
      | _ => cases found
  | forLoop init cond post body tokens =>
      rw [stmt]
      cases slot with
      | init => exact labelledSlot_under found deep "Init" (by simp [Node.outline])
      | cond => exact labelledSlot_under found deep "Cond" (by simp [Node.outline])
      | post => exact labelledSlot_under found deep "Post" (by simp [Node.outline])
      | body => exact labelledSlot_under found deep "Body" (by simp [Node.outline])
      | _ => cases found
  | doLoop body cond tokens =>
      rw [stmt]
      cases slot with
      | body => exact labelledSlot_under found deep "Body" (by simp [Node.outline])
      | again => exact labelledSlot_under found deep "Cond" (by simp [Node.outline])
      | _ => cases found
  | ifThen cond body tokens =>
      rw [stmt]
      cases slot with
      | cond => exact labelledSlot_under found deep "Cond" (by simp [Node.outline])
      | body => exact labelledSlot_under found deep "Then" (by simp [Node.outline])
      | _ => cases found
  | ifElse cond body other elseTokens tokens =>
      rw [stmt]
      cases slot with
      | cond => exact labelledSlot_under found deep "Cond" (by simp [Node.outline])
      | body => exact labelledSlot_under found deep "Then" (by simp [Node.outline])
      | otherwise => exact slot_under found deep (by simp [Node.outline])
      | _ => cases found
  | leave result tokens =>
      rw [stmt]
      cases slot with
      | returned =>
          obtain ⟨e, given, rfl⟩ := Option.map_eq_some_iff.mp found
          cases deep
          exact under_child (by simp [given, Node.outline])
      | _ => cases found
  | switch tag stmts blockTokens tokens =>
      rw [stmt]
      cases slot with
      | tag => exact labelledSlot_under found deep "Tag" (by simp [Node.outline])
      | body =>
          refine labelledSlot_under found deep "Body" ?_
          rw [Node.outline, stmt]
          exact List.mem_cons_of_mem _ (List.mem_singleton.mpr rfl)
      | _ => cases found
  | label value tokens =>
      cases slot with
      | value =>
          obtain ⟨v, given, rfl⟩ := Option.map_eq_some_iff.mp found
          cases deep
          rw [given, stmt]
          exact under_child (List.mem_singleton.mpr rfl)
      | _ => cases found
  | breakOut tokens => cases slot <;> cases found
  | continueOn tokens => cases slot <;> cases found

theorem param_under {sig : Signature} {slot : Node.Slot} {m : Node} {k : Nat}
    (found : sig.held slot = some m) (deep : slot.depth? = some k)
    (present : ∀ tree ∈ signature sig, tree ∈ children) :
    Under (.node line children) k m.outline := by
  cases slot with
  | param i =>
      obtain ⟨p, listed, rfl⟩ := Option.map_eq_some_iff.mp found
      cases deep
      have among := List.mem_of_getElem? listed
      have params : .node (utf8 "Params:") (sig.params.map param) ∈ signature sig := by
        refine List.mem_append_right _ ?_
        rw [if_neg (by simpa using List.ne_nil_of_mem among)]
        exact List.mem_singleton.mpr rfl
      have held : param p ∈ sig.params.map param := List.mem_map_of_mem among
      exact .deeper (present _ params) (under_child held)
  | result => cases deep
  | _ => cases found

theorem decl_under {d : Traced Decl} {slot : Node.Slot} {m : Node} {k : Nat}
    (found : d.content.held slot = some m) (deep : slot.depth? = some k) :
    Under (decl d) k m.outline := by
  obtain ⟨content, tokens⟩ := d
  cases content with
  | directive text => cases found
  | comment c => cases found
  | struct s =>
      cases slot with
      | member i => cases deep
      | _ => cases found
  | prototype sig => exact param_under found deep fun _ present => present
  | function sig body =>
      cases slot with
      | body =>
          exact labelledSlot_under found deep "Body"
            (List.mem_append_right _ (List.mem_singleton.mpr rfl))
      | param i =>
          have held : sig.held (.param i) = some m := found
          exact param_under held deep fun _ present => List.mem_append_left _ present
      | result => cases deep
      | _ => cases found
  | var d => exact var_under found deep tokens

theorem held_under {n m : Node} {slot : Node.Slot} {k : Nat} (found : n.held slot = some m)
    (deep : slot.depth? = some k) : Under n.outline k m.outline := by
  cases n with
  | unit u =>
      cases slot with
      | decl i =>
          obtain ⟨d, listed, rfl⟩ := Option.map_eq_some_iff.mp found
          cases deep
          have held : decl d ∈ u.decls.map decl :=
            List.mem_map_of_mem (List.mem_of_getElem? listed)
          exact under_child held
      | _ => cases found
  | decl d => exact decl_under found deep
  | param p =>
      cases slot with
      | default =>
          obtain ⟨v, given, rfl⟩ := Option.map_eq_some_iff.mp found
          cases deep
          exact under_labelled "Default" (by simp [given, Node.outline])
      | type => cases deep
      | _ => cases found
  | type t => cases slot <;> cases found
  | value v => cases slot <;> cases found
  | expr e => cases slot <;> cases found
  | stmt s => exact stmt_under found deep
  | otherwise body tokens =>
      cases slot with
      | branch => exact slot_under found deep (List.mem_singleton.mpr rfl)
      | _ => cases found

theorem path_under {n m : Node} {path : List Node.Slot} {d : Nat} (found : n.at? path = some m)
    (deep : Node.Slot.pathDepth? path = some d) : Under n.outline d m.outline := by
  induction path generalizing n d with
  | nil =>
      cases found
      cases deep
      exact .here
  | cons slot path ih =>
      obtain ⟨next, held, found⟩ := Option.bind_eq_some_iff.mp found
      obtain ⟨k, deeper, rest⟩ := Option.bind_eq_some_iff.mp deep
      obtain ⟨e, inside, rfl⟩ := Option.map_eq_some_iff.mp rest
      exact (held_under held deeper).trans (ih found inside)

end places

end Outline
end NwscriptBindings
