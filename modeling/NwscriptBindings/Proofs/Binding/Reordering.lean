import Mathlib.Data.List.Nodup
import NwscriptBindings.Proofs.Binding.Support

namespace NwscriptBindings.Plugin

section tables

structure Alike (table other : List StructDecl) : Prop where
  found : ∀ name, lookup table name = lookup other name
  length : table.length = other.length

variable {table other : List StructDecl}

theorem Alike.flatten (alike : Alike table other) (room : Nat) (path : List UInt8)
    (type : ScriptType) : flatten table room path type = flatten other room path type := by
  induction room generalizing path type with
  | zero =>
      cases type with
      | basic basic => rfl
      | struct name => simp only [Plugin.flatten, alike.found]
  | succ room ih =>
      cases type with
      | basic basic => rfl
      | struct name => simp only [Plugin.flatten, alike.found, ih]

theorem Alike.scalars (alike : Alike table other) (path : List UInt8) (type : ScriptType) :
    scalars table path type = scalars other path type := by
  rw [Plugin.scalars, Plugin.scalars, alike.length]
  exact alike.flatten _ _ _

theorem Alike.method (alike : Alike table other) (plugin : List UInt8) (sig : Signature) :
    method plugin table sig = method plugin other sig := by
  have arguments : ∀ p : Param,
      argument (.plugin plugin) table p = argument (.plugin plugin) other p := by
    intro p
    simp only [argument, alike.scalars]
  have results : resultSteps (.plugin plugin) table sig.result.content =
      resultSteps (.plugin plugin) other sig.result.content := by
    simp only [resultSteps, alike.scalars]
  simp only [Plugin.method, arguments, results]

theorem Alike.member (alike : Alike table other) (plugin : List UInt8) (seen : List (List UInt8))
    (d : Decl) : member plugin table seen d = member plugin other seen d := by
  cases d with
  | prototype sig | function sig body => simp only [Plugin.member, alike.method]
  | _ => rfl

theorem lookup_iff {name : List UInt8} {d : StructDecl}
    (distinct : (table.map StructDecl.name).Nodup) :
    lookup table name = some d ↔ d ∈ table ∧ d.name = name := by
  constructor
  · intro found
    exact ⟨List.mem_of_find?_eq_some found, by simpa using List.find?_some found⟩
  · rintro ⟨present, rfl⟩
    cases found : lookup table d.name with
    | none => simpa using List.find?_eq_none.mp found d present
    | some e =>
        have named : e.name = d.name := by simpa using List.find?_some found
        rw [List.inj_on_of_nodup_map distinct (List.mem_of_find?_eq_some found) present named]

theorem alike_of_perm (distinct : (table.map StructDecl.name).Nodup) (perm : table.Perm other) :
    Alike table other := by
  have distinctOther := (perm.map StructDecl.name).nodup_iff.mp distinct
  refine ⟨fun name => Option.ext fun d => ?_, perm.length_eq⟩
  rw [lookup_iff distinct, lookup_iff distinctOther, perm.mem_iff]

end tables

section structs

def struct? : Decl → Option StructDecl
  | .struct d => some d
  | _ => none

def structNames (decls : List Decl) : List (List UInt8) :=
  (decls.filterMap struct?).map StructDecl.name

theorem insertStruct_fresh {table : List StructDecl} {d : StructDecl}
    (fresh : d.name ∉ table.map StructDecl.name) : insertStruct table d = table ++ [d] := by
  have kept : table.filter (·.name != d.name) = table := by
    rw [List.filter_eq_self]
    intro e present
    have other : e.name ≠ d.name := fun same => fresh (List.mem_map.mpr ⟨e, present, same⟩)
    simpa using other
  rw [insertStruct, kept]

-- No struct takes the place of another, so the table holds them all in their order.
theorem structTable_distinct {decls : List Decl} (distinct : (structNames decls).Nodup) :
    structTable decls = decls.filterMap struct? := by
  induction decls using List.reverseRecOn with
  | nil => rfl
  | append_singleton decls last ih =>
      rw [structNames, List.filterMap_append, List.map_append] at distinct
      rw [structTable, List.foldl_append, ← structTable, List.filterMap_append,
        ih (List.Nodup.of_append_left distinct)]
      cases last with
      | struct d =>
          refine insertStruct_fresh fun earlier => ?_
          exact List.disjoint_of_nodup_append distinct earlier (by simp [struct?])
      | _ => simp [struct?]

theorem structTable_alike {decls others : List Decl} (perm : decls.Perm others)
    (distinct : (structNames decls).Nodup) : Alike (structTable decls) (structTable others) := by
  have structs := perm.filterMap struct?
  have distinctOthers : (structNames others).Nodup :=
    (structs.map StructDecl.name).nodup_iff.mp distinct
  rw [structTable_distinct distinct, structTable_distinct distinctOthers]
  exact alike_of_perm distinct structs

end structs

section places

variable {plugin : List UInt8} {table : List StructDecl} {seen : List (List UInt8)}

def blockText (plugin : List UInt8) (table : List StructDecl) (seen : List (List UInt8))
    (d : Decl) : List UInt8 :=
  match member plugin table seen d with
  | .ok m => memberText m
  | .error _ => []

theorem blockText_ok {d : Decl} {m : Option Member}
    (accepted : member plugin table seen d = .ok m) :
    blockText plugin table seen d = memberText m := by
  rw [blockText, accepted]

theorem Alike.blockText {other : List StructDecl} (alike : Alike table other)
    (seen : List (List UInt8)) :
    Plugin.blockText plugin table seen = Plugin.blockText plugin other seen := by
  funext d
  rw [Plugin.blockText, Plugin.blockText, alike.member]

theorem names_cons (d : Decl) (decls : List Decl) :
    names (d :: decls) = names [d] ++ names decls := by
  rw [names, names, names, ← List.flatMap_append, List.singleton_append]

theorem members_blocks {decls : List Decl} {ms : List (Option Member)}
    (accepted : members plugin table seen decls = .ok ms) : ms.map memberText =
      decls.mapIdx fun i d => blockText plugin table (seen ++ names (decls.take i)) d := by
  induction decls generalizing seen ms with
  | nil =>
      cases accepted
      rfl
  | cons d rest ih =>
      obtain ⟨m, others, first, later, rfl⟩ := members_cons_ok accepted
      rw [List.map_cons, List.mapIdx_cons, ih later, ← blockText_ok first]
      simp [names]

theorem member_unseen {d : Decl} (fresh : ∀ name ∈ names [d], name ∉ seen) :
    member plugin table seen d = member plugin table [] d := by
  cases d with
  | prototype sig | function sig body =>
      have unseen : seen.contains sig.name = false := by
        simpa using fresh sig.name (by simp [names, signature?])
      rw [member, member, unseen, List.contains_nil]
  | _ => rfl

theorem members_distinct {decls : List Decl} (distinct : (seen ++ names decls).Nodup) :
    members plugin table seen decls = decls.mapM (member plugin table []) := by
  induction decls generalizing seen with
  | nil => rfl
  | cons d rest ih =>
      rw [names_cons] at distinct
      have fresh : ∀ name ∈ names [d], name ∉ seen := by
        intro name own earlier
        exact List.disjoint_of_nodup_append distinct earlier (List.mem_append_left _ own)
      have later : members plugin table (seen ++ names [d]) rest =
          rest.mapM (member plugin table []) := ih (by rwa [List.append_assoc])
      rw [names, List.flatMap_singleton] at later
      rw [members, List.mapM_cons, member_unseen fresh, later]

theorem blocks_distinct {decls : List Decl} {ms : List (Option Member)}
    (distinct : (names decls).Nodup) (accepted : members plugin table [] decls = .ok ms) :
    ms.map memberText = decls.map (blockText plugin table []) := by
  rw [members_distinct (show ([] ++ names _).Nodup from distinct), mapM_ok_iff] at accepted
  clear distinct
  induction accepted with
  | nil => rfl
  | cons first _ ih => rw [List.map_cons, List.map_cons, blockText_ok first, ih]

end places

end NwscriptBindings.Plugin

namespace NwscriptBindings.ScriptUnit

open Plugin

theorem generates_distinct_iff {u : ScriptUnit} {plugin : List UInt8}
    (named : Profile.ofUnitName? u.name = some (.plugin plugin))
    (functions : (names (u.decls.map (·.content))).Nodup) :
    u.Generates ↔ ∀ d ∈ u.decls.map (·.content),
      ∃ m, member plugin (structTable (u.decls.map (·.content))) [] d = .ok m := by
  rw [← mapM_succeeds_iff, ← members_distinct (show ([] ++ names _).Nodup from functions),
    Generates]
  simp only [generate_plugin_iff named]
  constructor
  · rintro ⟨_, ms, accepted, _⟩
    exact ⟨ms, accepted⟩
  · rintro ⟨ms, accepted⟩
    exact ⟨_, ms, accepted, rfl⟩

theorem generate_distinct {u : ScriptUnit} {plugin code : List UInt8}
    (named : Profile.ofUnitName? u.name = some (.plugin plugin))
    (functions : (names (u.decls.map (·.content))).Nodup) (generated : u.generate = .ok code) :
    code = (Profile.plugin plugin).classText ((u.decls.map (·.content)).map
      (blockText plugin (structTable (u.decls.map (·.content))) [])) := by
  obtain ⟨ms, accepted, rfl⟩ := (generate_plugin_iff named).mp generated
  rw [blocks_distinct functions accepted]

-- The class is a block for each declaration in its place, of which a function has a method exactly
-- if it is the first of its name. In another order of the declarations, if their names are
-- distinct, each of them keeps its block.
theorem generate_plugin_reordered {u : ScriptUnit} {plugin : List UInt8}
    (named : Profile.ofUnitName? u.name = some (.plugin plugin)) :
    let decls := u.decls.map (·.content)
    (∀ code, u.generate = .ok code →
      code = (Profile.plugin plugin).classText (decls.mapIdx fun i d =>
        blockText plugin (structTable decls) (names (decls.take i)) d) ∧
      ∀ before d after, decls = before ++ d :: after →
        let block := blockText plugin (structTable decls) (names before) d
        Place plugin before d block fun sig => ∃ passed answered statements,
          MethodText plugin decls sig passed answered statements block) ∧
    ∀ v : ScriptUnit, v.name = u.name → (v.decls.map (·.content)).Perm decls →
      (names decls).Nodup → (structNames decls).Nodup →
        (v.Generates ↔ u.Generates) ∧
        (∀ code, u.generate = .ok code → code =
          (Profile.plugin plugin).classText (decls.map (blockText plugin (structTable decls) []))) ∧
        ∀ code, v.generate = .ok code → code =
          (Profile.plugin plugin).classText ((v.decls.map (·.content)).map
            (blockText plugin (structTable decls) [])) := by
  intro decls
  refine ⟨?_, ?_⟩
  · intro code generated
    obtain ⟨ms, accepted, rfl⟩ := (generate_plugin_iff named).mp generated
    refine ⟨?_, ?_⟩
    · rw [members_blocks accepted]
      simp only [List.nil_append, decls]
    · intro before d after parts
      obtain ⟨place, found⟩ := members_succeed_iff.mp ⟨ms, accepted⟩ before d after parts
      simp only [List.nil_append] at found
      rw [show blockText plugin (structTable decls) (names before) d = _ from blockText_ok found]
      refine member_place found ?_
      rintro sig m made rfl
      exact method_text made
  · intro v same perm functions structs
    have namedOther : Profile.ofUnitName? v.name = some (.plugin plugin) := by rw [same, named]
    have functionsOther : (names (v.decls.map (·.content))).Nodup :=
      (perm.flatMap_right _).nodup_iff.mpr functions
    have alike : Alike (structTable decls) (structTable (v.decls.map (·.content))) :=
      structTable_alike perm.symm structs
    refine ⟨?_, ?_, ?_⟩
    · rw [generates_distinct_iff named functions, generates_distinct_iff namedOther functionsOther]
      simp only [← alike.member, perm.mem_iff, decls]
    · intro code generated
      exact generate_distinct named functions generated
    · intro code generated
      rw [generate_distinct namedOther functionsOther generated, alike.blockText]

-- A function in front of the struct that it takes.
theorem generate_plugin_reordered_ahead :
    let s : StructDecl := ⟨utf8 "S", [⟨⟨⟨.basic .int, []⟩, utf8 "n", none, false⟩, []⟩]⟩
    let sig : Signature :=
      ⟨⟨.struct (utf8 "S"), []⟩, utf8 "F", [⟨⟨⟨.struct (utf8 "S"), []⟩, utf8 "a", none⟩, []⟩]⟩
    let u : ScriptUnit := ⟨utf8 "NWNX_X.nss", [⟨.struct s, []⟩, ⟨.prototype sig, []⟩], []⟩
    let v : ScriptUnit := ⟨utf8 "NWNX_X.nss", [⟨.prototype sig, []⟩, ⟨.struct s, []⟩], []⟩
    Profile.ofUnitName? u.name = some (.plugin (utf8 "X")) ∧ u.Generates ∧ v.Generates ∧
      ∀ code, v.generate = .ok code → code = (Profile.plugin (utf8 "X")).classText
        [blockText (utf8 "X") [s] [] (.prototype sig), blockText (utf8 "X") [s] [] (.struct s)] := by
  intro s sig u v
  have named : Profile.ofUnitName? u.name = some (.plugin (utf8 "X")) := by decide +kernel
  obtain ⟨_, reordered⟩ := generate_plugin_reordered named
  obtain ⟨both, _, moved⟩ := reordered v rfl (.swap _ _ []) (by decide +kernel) (by decide +kernel)
  have generates : u.Generates := ok_of_isSome (by decide +kernel)
  exact ⟨named, generates, both.mpr generates, moved⟩

end NwscriptBindings.ScriptUnit
