import Mathlib.Data.List.GetD
import NwscriptBindings.Proofs.Text.Splitting
import NwscriptBindings.Token.Stream
import NwscriptBindings.Token.Table

namespace NwscriptBindings

namespace Bytes

def trimLineEnds (text : List UInt8) : List UInt8 := trimEnd (· == newline) text

theorem trimLineEnds_parts (text : List UInt8) :
    ∃ k, text = trimLineEnds text ++ List.replicate k newline :=
  trimEnd_parts newline text

theorem trimLineEnds_append (text : List UInt8) (k : Nat) :
    trimLineEnds (text ++ List.replicate k newline) = trimLineEnds text := by
  have dropped : ∀ c ∈ List.replicate k newline, (c == newline) = true := by
    intro c present
    simp [List.eq_of_mem_replicate present]
  rw [trimLineEnds, trimEnd, List.reverse_append, List.reverse_replicate,
    List.dropWhile_append_of_pos dropped]
  rfl

theorem lines_append_ends (text : List UInt8) (k : Nat) :
    lines (text ++ List.replicate k newline) = lines text ++ List.replicate k [] := by
  induction k with
  | zero => simp
  | succ k ih =>
      have last : text ++ List.replicate (k + 1) newline =
          (text ++ List.replicate k newline) ++ newline :: [] := by
        rw [List.replicate_succ', List.append_assoc]
      rw [lines] at ih ⊢
      rw [last, splitOn_append, ih, List.replicate_succ', List.append_assoc]
      rfl

theorem length_lines (text : List UInt8) : (lines text).length = text.count newline + 1 := by
  induction text with
  | nil => rfl
  | cons c rest ih =>
      rw [lines, splitOn, List.count_cons]
      rw [lines] at ih
      split
      · rename_i ends
        simp [ends, ih]
      · rename_i other
        cases pieces : splitOn newline rest with
        | nil => exact (splitOn_ne_nil _ _ pieces).elim
        | cons piece more =>
            rw [pieces] at ih
            simpa [other] using ih

def SameLines (ls ms : List (List UInt8)) : Prop := ∀ i, ls.getD i [] = ms.getD i []

theorem SameLines.padded {ls ms : List (List UInt8)} (same : SameLines ls ms)
    (shorter : ls.length ≤ ms.length) : ms = ls ++ List.replicate (ms.length - ls.length) [] := by
  refine List.ext_getElem (by simp; omega) fun i inside _ => ?_
  have here : ms[i] = ls.getD i [] := by
    rw [same i, List.getD_eq_getElem _ _ inside]
  rw [here, List.getElem_append]
  split
  · rename_i early
    exact List.getD_eq_getElem _ _ early
  · rename_i late
    rw [List.getElem_replicate]
    exact List.getD_eq_default _ _ (by omega)

theorem SameLines.text {x y : List UInt8} (same : SameLines (lines x) (lines y))
    (shorter : (lines x).length ≤ (lines y).length) :
    y = x ++ List.replicate ((lines y).length - (lines x).length) newline := by
  have padded := same.padded shorter
  rw [← lines_append_ends, lines, lines, splitOn_inj] at padded
  exact padded

theorem sameLines_iff {x y : List UInt8} :
    SameLines (lines x) (lines y) ↔ trimLineEnds x = trimLineEnds y := by
  constructor
  · intro same
    rcases Nat.le_total (lines x).length (lines y).length with shorter | shorter
    · rw [same.text shorter, trimLineEnds_append]
    · have back : SameLines (lines y) (lines x) := fun i => (same i).symm
      rw [back.text shorter, trimLineEnds_append]
  · intro same i
    obtain ⟨k, left⟩ := trimLineEnds_parts x
    obtain ⟨l, right⟩ := trimLineEnds_parts y
    rw [left, right, same, lines_append_ends, lines_append_ends]
    simp only [List.getD_eq_getElem?_getD, List.getElem?_append, List.getElem?_replicate]
    split
    · rfl
    · split <;> split <;> rfl

end Bytes

namespace Token

open Bytes (SameLines trimLineEnds newline)

theorem mismatches_nil_iff {source : Source} {tokens : List Token} :
    mismatches source tokens = [] ↔ SameLines (Bytes.lines (rawText tokens)) source.lines := by
  simp only [mismatches, List.filterMap_eq_nil_iff, List.mem_range, SameLines]
  constructor
  · intro each i
    by_cases inside : i < max (Bytes.lines (rawText tokens)).length source.lines.length
    · have quiet := each i inside
      split at quiet
      · assumption
      · cases quiet
    · rw [List.getD_eq_default _ _ (by omega), List.getD_eq_default _ _ (by omega)]
  · intro same i _
    rw [if_pos (same i)]

-- Where both texts have as many line ends the check is exact.
theorem roundTrip_silent_iff (name text : List UInt8) (tokens : List Token) :
    let source := Source.ofText name text
    (mismatches source tokens = [] ↔ trimLineEnds (rawText tokens) = trimLineEnds source.text) ∧
      ((rawText tokens).count newline = source.text.count newline →
        (mismatches source tokens = [] ↔ rawText tokens = source.text)) := by
  intro source
  have joined : source.text = Source.unifyLineEnds text := Bytes.intercalate_splitOn _ _
  have split : source.lines = Bytes.lines source.text := by
    rw [joined]
    rfl
  rw [mismatches_nil_iff, split]
  refine ⟨Bytes.sameLines_iff, fun count => ⟨fun same => ?_, ?_⟩⟩
  · have long : (Bytes.lines (rawText tokens)).length = (Bytes.lines source.text).length := by
      rw [Bytes.length_lines, Bytes.length_lines, count]
    have whole := same.text (Nat.le_of_eq long)
    rw [long, Nat.sub_self, List.replicate_zero, List.append_nil] at whole
    exact whole.symm
  · intro same i
    rw [same]

-- The line end is lost, and nothing is said.
theorem roundTrip_misses_line_end :
    let source := Source.ofText (utf8 "t.nss") (utf8 "a\n")
    let tokens := tokenize (utf8 "a")
    mismatches source tokens = [] ∧ rawText tokens ≠ source.text := by decide +kernel

end Token
end NwscriptBindings
