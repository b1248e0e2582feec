import Mathlib.Data.List.TakeWhile
import NwscriptBindings.Command.Report
import NwscriptBindings.Proofs.Binding.Support
import NwscriptBindings.Proofs.Command.Following
import NwscriptBindings.Proofs.Text.Splitting

namespace NwscriptBindings

theorem unit_letters : utf8 ".nss" = [46, 110, 115, 115] := by decide +kernel

theorem code_letters : utf8 ".cs" = [46, 99, 115] := by decide +kernel

namespace Path

variable {path name : List UInt8}

theorem lastElement_whole (path : List UInt8) : slash ∉ lastElement path := by
  intro present
  have other := List.mem_takeWhile_imp (List.mem_reverse.mp present)
  simp at other

theorem whole_reverse (whole : slash ∉ name) : ∀ c ∈ name.reverse, (c != slash) = true := by
  intro c present
  rw [bne_iff_ne]
  rintro rfl
  exact whole (List.mem_reverse.mp present)

theorem lastElement_name (whole : slash ∉ name) : lastElement name = name := by
  rw [lastElement, List.takeWhile_eq_self_iff.mpr (whole_reverse whole), List.reverse_reverse]

theorem lastElement_below (dir : List UInt8) (whole : slash ∉ name) :
    lastElement (dir ++ slash :: name) = name := by
  rw [lastElement, List.reverse_append, List.reverse_cons, List.append_assoc,
    List.takeWhile_append_of_pos (whole_reverse whole)]
  simp

theorem base_eq (present : lastElement path ≠ []) : base path = lastElement path := by
  have trimmed : trimSlashes path = path := by
    rw [trimSlashes, Bytes.trimEnd]
    cases back : path.reverse with
    | nil => rw [List.reverse_eq_nil_iff.mp back]; rfl
    | cons c rest =>
        have other : c ≠ slash := by
          rintro rfl
          simp [lastElement, back] at present
        rw [List.dropWhile_cons_of_neg (by simpa using other), ← back, List.reverse_reverse]
  have nonempty : path ≠ [] := by
    rintro rfl
    exact present rfl
  simp [base, trimmed, nonempty]

theorem base_whole (path : List UInt8) : base path = [slash] ∨ slash ∉ base path := by
  simp only [base]
  split
  · exact .inr (by decide +kernel)
  · split
    · exact .inl rfl
    · exact .inr (lastElement_whole _)

theorem clean_ne_nil (path : List UInt8) : clean path ≠ [] := by
  simp only [clean]
  split
  · exact List.cons_ne_nil _ _
  · split
    · decide +kernel
    · rename_i nonempty
      simpa using nonempty

theorem intercalate_concat (names : List (List UInt8)) (name : List UInt8) :
    List.intercalate [slash] (names ++ [name]) = name ∨
      ∃ dir, List.intercalate [slash] (names ++ [name]) = dir ++ slash :: name := by
  induction names with
  | nil => exact .inl (by simp [List.intercalate])
  | cons first names ih =>
      refine .inr ?_
      have more : names ++ [name] ≠ [] := by simp
      obtain ⟨second, rest, shape⟩ := List.exists_cons_of_ne_nil more
      have opened : List.intercalate [slash] (first :: (names ++ [name])) =
          first ++ slash :: List.intercalate [slash] (names ++ [name]) := by
        rw [shape]
        simp [List.intercalate]
      rw [List.cons_append, opened]
      rcases ih with alone | ⟨dir, below⟩
      · exact ⟨first, by rw [alone]⟩
      · exact ⟨first ++ slash :: dir, by simp [below]⟩

theorem lastElement_clean (dir : List UInt8) (plain : FileTree.Plain name) (whole : slash ∉ name) :
    lastElement (clean (dir ++ slash :: name)) = name := by
  obtain ⟨nonempty, noDot, noDots⟩ := plain
  have single : Bytes.splitOn slash name = [name] := by
    rw [Bytes.splitOn_eq]
    exact List.splitOn_eq_singleton whole
  have kept (rooted : Bool) (above : List (List UInt8)) :
      cleanStep rooted above name = name :: above := by
    simp [cleanStep, nonempty, noDot, noDots]
  simp only [clean, Bytes.splitOn_append, single, List.foldl_append, List.foldl_cons,
    List.foldl_nil, kept, List.reverse_cons]
  generalize (List.foldl _ [] (Bytes.splitOn slash dir)).reverse = names
  rcases intercalate_concat names name with alone | ⟨above, below⟩
  · rw [alone]
    split
    · exact lastElement_below [] whole
    · rw [if_neg (by simpa using nonempty), lastElement_name whole]
  · rw [below]
    split
    · exact lastElement_below (slash :: above) whole
    · rw [if_neg (by simp), lastElement_below above whole]

theorem lastElement_join {dir : List UInt8} (given : dir ≠ []) (plain : FileTree.Plain name)
    (whole : slash ∉ name) : lastElement (join dir name) = name := by
  rw [join, if_neg (by simpa using given), List.append_assoc]
  exact lastElement_clean dir plain whole

theorem stem_unit (whole : slash ∉ name) : stem (name ++ utf8 ".nss") = name := by
  have still : slash ∉ name ++ utf8 ".nss" := by
    rw [List.mem_append, not_or]
    exact ⟨whole, by decide +kernel⟩
  have point : byte '.' = 46 := by decide +kernel
  rw [stem, extension, lastElement_name still, unit_letters]
  simp [point]

end Path

-- The names for which there is code: the engine's and those of plugins.
def IsStem (name : List UInt8) : Prop :=
  name = utf8 "nwscript" ∨ ∃ plugin, plugin ≠ [] ∧ name = utf8 "NWNX_" ++ plugin

def IsUnitName (name : List UInt8) : Prop := ∃ stem, IsStem stem ∧ name = stem ++ utf8 ".nss"

def IsCodeName (name : List UInt8) : Prop := ∃ stem, IsStem stem ∧ name = stem ++ utf8 ".cs"

theorem ScriptUnit.generate_isUnitName {u : ScriptUnit} {code : List UInt8}
    (generated : u.generate = .ok code) : IsUnitName u.name := by
  obtain ⟨profile, members, named, _⟩ := generate_ok_iff.mp generated
  cases profile with
  | engine =>
      rw [Profile.ofUnitName?_engine_iff] at named
      exact ⟨utf8 "nwscript", .inl rfl, named.trans (by decide +kernel)⟩
  | plugin plugin =>
      obtain ⟨nonempty, shape⟩ := Profile.ofUnitName?_plugin_iff.mp named
      exact ⟨utf8 "NWNX_" ++ plugin, .inr ⟨plugin, nonempty, rfl⟩, shape⟩

theorem plain_of_long {name : List UInt8} (long : 2 < name.length) : FileTree.Plain name := by
  refine ⟨?_, ?_, ?_⟩
  · rintro rfl
    simp at long
  · rintro rfl
    exact absurd long (by decide +kernel)
  · rintro rfl
    exact absurd long (by decide +kernel)

namespace IsUnitName

variable {unit name path : List UInt8}

theorem plain (source : IsUnitName unit) : FileTree.Plain unit := by
  obtain ⟨stem, _, rfl⟩ := source
  exact plain_of_long (by simp [unit_letters])

theorem ne_codeName (source : IsUnitName unit)
    (code : IsCodeName name) : unit ≠ name := by
  obtain ⟨stem, _, rfl⟩ := source
  obtain ⟨other, _, rfl⟩ := code
  rw [unit_letters, code_letters]
  intro same
  -- The last letters agree, those before them do not.
  have ends := congrArg (fun text => (text.reverse.drop 1).head?) same
  simp at ends

theorem codeName (source : IsUnitName (Path.base path)) :
    IsCodeName (NwscriptBindings.codeName path) ∧
      Path.slash ∉ NwscriptBindings.codeName path := by
  obtain ⟨stem, known, named⟩ := source
  have whole : Path.slash ∉ stem := by
    rcases Path.base_whole path with root | whole
    · rw [named, unit_letters] at root
      have sizes := congrArg List.length root
      simp at sizes
    · rw [named, List.mem_append, not_or] at whole
      exact whole.1
  rw [NwscriptBindings.codeName, named, Path.stem_unit whole]
  refine ⟨⟨stem, known, rfl⟩, ?_⟩
  rw [List.mem_append, not_or]
  exact ⟨whole, by decide +kernel⟩

end IsUnitName

theorem IsCodeName.plain {name : List UInt8} (code : IsCodeName name) : FileTree.Plain name := by
  obtain ⟨stem, _, rfl⟩ := code
  exact plain_of_long (by simp [code_letters])

theorem codePath_lastElement {path : List UInt8} (dir : List UInt8)
    (source : IsUnitName (Path.base path)) :
    Path.lastElement (codePath dir path) = codeName path := by
  obtain ⟨code, whole⟩ := source.codeName
  rw [codePath]
  refine Path.lastElement_join ?_ code.plain whole
  split
  · exact Path.clean_ne_nil _
  · rename_i given
    simpa using given

end NwscriptBindings
