import NwscriptBindings.Proofs.Binding.Numbering
import NwscriptBindings.Proofs.Binding.PluginMethods

namespace NwscriptBindings

namespace Profile

def member (profile : Profile) (decls before : List Decl) (d : Decl) :
    Except Obstacle (Option Member) :=
  match profile with
  | engine => Engine.member (Engine.numbered before).length d
  | plugin name => Plugin.member name (Plugin.structTable decls) (Plugin.names before) d

theorem members_length {profile : Profile} {decls : List Decl} {ms : List (Option Member)}
    (accepted : profile.members decls = .ok ms) : ms.length = decls.length := by
  cases profile with
  | engine =>
      have texts := congrArg List.length (Engine.members_texts accepted)
      rwa [List.length_map, List.length_mapIdx] at texts
  | plugin name => exact Plugin.members_length accepted

theorem members_place {profile : Profile} {decls before after : List Decl} {d : Decl}
    {ms : List (Option Member)} (accepted : profile.members decls = .ok ms)
    (parts : decls = before ++ d :: after) :
    ∃ front m rear, ms = front ++ m :: rear ∧ front.length = before.length ∧
      profile.member decls before d = .ok m := by
  cases profile with
  | engine =>
      rw [members, parts] at accepted
      obtain ⟨front, m, rear, cut, long, found⟩ := Engine.members_place accepted
      rw [Nat.zero_add] at found
      exact ⟨front, m, rear, cut, long, found⟩
  | plugin name =>
      have listed : Plugin.members name (Plugin.structTable decls) [] (before ++ d :: after) =
          .ok ms := parts ▸ accepted
      obtain ⟨front, m, rear, cut, long, found⟩ := Plugin.members_place listed
      rw [List.nil_append] at found
      exact ⟨front, m, rear, cut, long, found⟩

theorem member_comment (profile : Profile) (decls before : List Decl) (c : Comment) :
    profile.member decls before (.comment c) = .ok (some c.member) := by
  cases profile with
  | engine => rfl
  | plugin name => rfl

-- A function has a method, unless it is bound by hand or stands behind one of its name.
def Emits (profile : Profile) (before : List Decl) (sig : Signature) : Prop :=
  match profile with
  | engine => isHandWritten sig.name = false
  | plugin _ => sig.name ∉ Plugin.names before

def methodName (profile : Profile) (name : List UInt8) : List UInt8 :=
  match profile with
  | engine => name
  | plugin own => shortName own name

theorem member_var (profile : Profile) (decls before : List Decl) (d : VarDecl) :
    profile.member decls before (.var d) = (profile.variableMember d).map some := by
  cases profile with
  | engine => rfl
  | plugin name => rfl

end Profile

namespace ScriptUnit

variable {u : ScriptUnit} {code : List UInt8}

theorem generate_blocks {profile : Profile} (named : Profile.ofUnitName? u.name = some profile)
    (generated : u.generate = .ok code) :
    ∃ blocks, code = profile.classText blocks ∧ blocks.length = (u.decls.map (·.content)).length ∧
      ∀ before d after, u.decls.map (·.content) = before ++ d :: after →
        ∃ front place rear, blocks = front ++ memberText place :: rear ∧
          front.length = before.length ∧
          profile.member (u.decls.map (·.content)) before d = .ok place := by
  obtain ⟨own, ms, known, accepted, rfl⟩ := generate_ok_iff.mp generated
  obtain rfl : profile = own := Option.some.inj (named.symm.trans known)
  refine ⟨ms.map memberText, rfl, ?_, ?_⟩
  · rw [List.length_map, Profile.members_length accepted]
  · intro before d after parts
    obtain ⟨front, place, rear, rfl, long, found⟩ := Profile.members_place accepted parts
    refine ⟨front.map memberText, place, rear.map memberText, ?_, by simp [long], found⟩
    rw [List.map_append, List.map_cons]

theorem generate_place {before after : List (Traced Decl)} {d : Traced Decl}
    (generated : u.generate = .ok code) (parts : u.decls = before ++ d :: after) :
    ∃ profile m front rear, Profile.ofUnitName? u.name = some profile ∧
      profile.member (u.decls.map (·.content)) (before.map (·.content)) d.content = .ok m ∧
      code = front ++ (memberText m ++ rear) := by
  obtain ⟨profile, _, named, _⟩ := generate_ok_iff.mp generated
  obtain ⟨blocks, rfl, _, each⟩ := generate_blocks named generated
  have contents : u.decls.map (·.content) =
      before.map (·.content) ++ d.content :: after.map (·.content) := by
    rw [parts, List.map_append, List.map_cons]
  obtain ⟨front, m, rear, rfl, _, found⟩ := each _ _ _ contents
  refine ⟨profile, m, profile.header ++ front.flatten, rear.flatten ++ footer, named, found, ?_⟩
  rw [Profile.classText, List.flatten_append, List.flatten_cons]
  simp only [List.append_assoc]

end ScriptUnit

end NwscriptBindings
