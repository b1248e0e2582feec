import NwscriptBindings.Proofs.Text.Splitting
import NwscriptBindings.Proofs.Token.Extent

namespace NwscriptBindings

namespace Bytes

def returnEnd : List UInt8 := [byte '\r', newline]

def trimReturn (line : List UInt8) : List UInt8 :=
  if line.getLast? = some (byte '\r') then line.dropLast else line

-- Behind the last line there is no line end, so it stays as it is.
def trimReturns (ls : List (List UInt8)) : List (List UInt8) :=
  ls.dropLast.map trimReturn ++ ls.getLast?.toList

theorem trimReturns_cons {ls : List (List UInt8)} (line : List UInt8) (more : ls ≠ []) :
    trimReturns (line :: ls) = trimReturn line :: trimReturns ls := by
  obtain ⟨next, rest, rfl⟩ := List.exists_cons_of_ne_nil more
  rw [trimReturns, List.dropLast_cons_of_ne_nil more, List.getLast?_cons_cons]
  rfl

theorem trimReturn_cons {c : UInt8} {line : List UInt8} (kept : line = [] → c ≠ byte '\r') :
    trimReturn (c :: line) = c :: trimReturn line := by
  cases line with
  | nil =>
      have other : c ≠ byte '\r' := kept rfl
      simp [trimReturn, other]
  | cons d line =>
      simp only [trimReturn, List.getLast?_cons_cons]
      split
      · rfl
      · rfl

theorem lines_newline (text : List UInt8) : lines (newline :: text) = [] :: lines text := rfl

theorem lines_cons {c : UInt8} {text line : List UInt8} {ls : List (List UInt8)}
    (other : c ≠ newline) (parts : lines text = line :: ls) :
    lines (c :: text) = (c :: line) :: ls := by
  rw [lines, splitOn, if_neg other]
  rw [lines] at parts
  rw [parts]

theorem lines_parts (text : List UInt8) : ∃ line ls, lines text = line :: ls :=
  List.exists_cons_of_ne_nil (splitOn_ne_nil newline text)

theorem lines_head {c : UInt8} {text : List UInt8} {ls : List (List UInt8)}
    (parts : lines (c :: text) = [] :: ls) : c = newline := by
  by_cases ends : c = newline
  · exact ends
  · obtain ⟨line, more, inside⟩ := lines_parts text
    rw [lines_cons ends inside] at parts
    cases parts

end Bytes

namespace Source

open Bytes (newline returnEnd)

theorem unify_head {d : UInt8} {rest : List UInt8} :
    (unifyLineEnds (d :: rest)).head? = some newline ↔
      d = newline ∨ d = byte '\r' ∧ rest.head? = some newline := by
  cases rest with
  | nil => simp [unifyLineEnds]
  | cons e rest =>
      rw [unifyLineEnds]
      split
      · rename_i ends
        simp [ends]
      · rename_i other
        rw [List.head?_cons, Option.some.injEq, List.head?_cons, Option.some.injEq]
        exact (or_iff_left other).symm

theorem returnEnd_prefix_iff {c : UInt8} {text : List UInt8} :
    returnEnd <+: c :: text ↔ c = byte '\r' ∧ text.head? = some newline := by
  cases text with
  | nil => simp [returnEnd]
  | cons d rest => simp [returnEnd, eq_comm]

theorem returnEnd_infix_iff {c : UInt8} {text : List UInt8} :
    returnEnd <:+: c :: text ↔
      c = byte '\r' ∧ text.head? = some newline ∨ returnEnd <:+: text := by
  rw [List.infix_cons_iff, returnEnd_prefix_iff]

-- The pass looks at each byte once: of a row of returns only the last is taken.
theorem unify_returnEnd_iff (text : List UInt8) :
    returnEnd <:+: unifyLineEnds text ↔ byte '\r' :: returnEnd <:+: text := by
  fun_induction unifyLineEnds text with
  | case1 => simp [returnEnd]
  | case2 c => simp [returnEnd, List.infix_cons_iff]
  | case3 c d rest ends ih =>
      obtain ⟨rfl, rfl⟩ := ends
      have differ : newline ≠ byte '\r' := by decide
      rw [returnEnd_infix_iff, ih, List.infix_cons_iff, List.infix_cons_iff,
        List.cons_prefix_cons, returnEnd_prefix_iff, List.cons_prefix_cons]
      simp [differ, differ.symm]
  | case4 c d rest other ih =>
      rw [returnEnd_infix_iff, ih, unify_head, @List.infix_cons_iff _ _ c, List.cons_prefix_cons,
        returnEnd_prefix_iff]
      refine or_congr_left ⟨?_, ?_⟩
      · rintro ⟨rfl, rfl | twice⟩
        · exact (other ⟨rfl, rfl⟩).elim
        · exact ⟨rfl, twice⟩
      · rintro ⟨rfl, twice⟩
        exact ⟨rfl, .inr twice⟩

theorem unify_same_iff (text : List UInt8) :
    unifyLineEnds text = text ↔ ¬ returnEnd <:+: text := by
  fun_induction unifyLineEnds text with
  | case1 => simp [returnEnd]
  | case2 c => simp [returnEnd, List.infix_cons_iff]
  | case3 c d rest ends ih =>
      obtain ⟨rfl, rfl⟩ := ends
      refine iff_of_false (fun same => ?_) (fun none => none ⟨[], rest, rfl⟩)
      exact absurd (List.cons.inj same).1 (by decide)
  | case4 c d rest other ih =>
      rw [List.cons_inj_right, ih, @returnEnd_infix_iff c, List.head?_cons, Option.some.injEq,
        or_iff_right other]

theorem lines_unify (text : List UInt8) :
    Bytes.lines (unifyLineEnds text) = Bytes.trimReturns (Bytes.lines text) := by
  fun_induction unifyLineEnds text with
  | case1 => rfl
  | case2 c =>
      by_cases ends : c = newline
      · rw [ends]
        rfl
      · rw [Bytes.lines_cons ends rfl]
        rfl
  | case3 c d rest ends ih =>
      obtain ⟨rfl, rfl⟩ := ends
      obtain ⟨line, ls, parts⟩ := Bytes.lines_parts rest
      have first : Bytes.lines (byte '\r' :: newline :: rest) = [byte '\r'] :: Bytes.lines rest :=
        Bytes.lines_cons (by decide) (Bytes.lines_newline rest)
      rw [Bytes.lines_newline, ih, first, Bytes.trimReturns_cons _ (by simp [parts])]
      rfl
  | case4 c d rest other ih =>
      obtain ⟨line, ls, parts⟩ := Bytes.lines_parts (d :: rest)
      by_cases ends : c = newline
      · subst ends
        rw [Bytes.lines_newline, ih, Bytes.lines_newline,
          Bytes.trimReturns_cons _ (by simp [parts])]
        rfl
      · have kept : line = [] → c ≠ byte '\r' := by
          rintro rfl rfl
          exact other ⟨rfl, Bytes.lines_head parts⟩
        rw [Bytes.lines_cons ends parts]
        cases ls with
        | nil =>
            rw [parts] at ih
            exact Bytes.lines_cons ends ih
        | cons next ls =>
            have more : next :: ls ≠ [] := List.cons_ne_nil next ls
            rw [parts, Bytes.trimReturns_cons _ more] at ih
            rw [Bytes.lines_cons ends ih, Bytes.trimReturns_cons _ more,
              Bytes.trimReturn_cons kept]

theorem ofText_text (name text : List UInt8) : (ofText name text).text = unifyLineEnds text :=
  Bytes.intercalate_splitOn newline (unifyLineEnds text)

theorem ofText_same_iff (name text : List UInt8) :
    ofText name text = ofText name (unifyLineEnds text) ↔ ¬ returnEnd <:+: unifyLineEnds text := by
  rw [← unify_same_iff, ofText, ofText, mk.injEq, Bytes.lines, Bytes.lines, Bytes.splitOn_inj,
    and_iff_right rfl]
  exact eq_comm

-- What loading does to each line, that lines and text tell the same, and which texts keep a return
-- in front of a line end, so that loading them again changes them.
theorem ofText_line_ends (name text : List UInt8) :
    let source := ofText name text
    let raw := Bytes.lines text
    source.lines = raw.dropLast.map Bytes.trimReturn ++ raw.getLast?.toList ∧
      Bytes.unlines source.lines = source.text ∧ Bytes.lines source.text = source.lines ∧
      (∀ line ∈ source.lines, newline ∉ line) ∧
      ([byte '\r', newline] <:+: source.text ↔ [byte '\r', byte '\r', newline] <:+: text) ∧
      (ofText name source.text = source ↔ ¬ [byte '\r', byte '\r', newline] <:+: text) := by
  intro source raw
  have joined : source.text = unifyLineEnds text := ofText_text name text
  have left : returnEnd <:+: source.text ↔ byte '\r' :: returnEnd <:+: text := by
    rw [joined]
    exact unify_returnEnd_iff text
  refine ⟨lines_unify text, rfl, ?_, ofText_split name text, left, ?_⟩
  · rw [joined]
    rfl
  · rw [joined, eq_comm]
    exact (ofText_same_iff name text).trans (not_congr (unify_returnEnd_iff text))

-- Two returns in a row: one of them stays in front of the line end.
theorem double_return_kept :
    let source := ofText (utf8 "t.nss") (utf8 "a\r\r\nb")
    source.text = utf8 "a\r\nb" ∧ source.lines = [utf8 "a\r", utf8 "b"] ∧
      [byte '\r', newline] <:+: source.text ∧
      ofText (utf8 "t.nss") source.text ≠ source := by decide +kernel

end Source
end NwscriptBindings
