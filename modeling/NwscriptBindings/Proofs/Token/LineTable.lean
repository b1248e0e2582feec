import Mathlib.Data.List.GetD
import Mathlib.Data.List.Induction
import NwscriptBindings.LineTable
import NwscriptBindings.Proofs.Token.Extent

namespace NwscriptBindings

open Bytes (lineAfter columnAfter)

namespace LineTable

theorem startsFrom_append (offset : Nat) (front rest : List UInt8) :
    startsFrom offset (front ++ rest) =
      startsFrom offset front ++ startsFrom (offset + front.length) rest := by
  induction front generalizing offset with
  | nil => rfl
  | cons c front ih =>
      have shifted : offset + 1 + front.length = offset + (c :: front).length := by
        rw [List.length_cons]
        omega
      rw [List.cons_append, startsFrom, startsFrom, ih, shifted]
      split <;> rfl

theorem startsFrom_bounds {offset start : Nat} {text : List UInt8}
    (present : start ∈ startsFrom offset text) : offset < start ∧ start ≤ offset + text.length := by
  induction text generalizing offset with
  | nil => cases present
  | cons c rest ih =>
      rw [List.length_cons]
      have later (there : start ∈ startsFrom (offset + 1) rest) :
          offset < start ∧ start ≤ offset + (rest.length + 1) := by
        have bounds := ih there
        omega
      rw [startsFrom] at present
      split at present
      · rcases List.mem_cons.mp present with here | there
        · omega
        · exact later there
      · exact later present

theorem startsFrom_length (offset : Nat) (text : List UInt8) :
    (startsFrom offset text).length = text.count Bytes.newline := by
  induction text generalizing offset with
  | nil => rfl
  | cons c rest ih =>
      rw [startsFrom, List.count_cons]
      split
      · rename_i ends
        simp [ih, ends]
      · rename_i other
        simp [ih, other]

theorem starts_last (front : List UInt8) : ∃ start,
    (0 :: startsFrom 0 front).getLast? = some start ∧
      start + columnAfter front = front.length + 1 := by
  induction front using List.reverseRecOn with
  | nil => exact ⟨0, rfl, rfl⟩
  | append_singleton front c ih =>
      obtain ⟨start, last, counted⟩ := ih
      rw [startsFrom_append, Nat.zero_add, ← List.cons_append, startsFrom, startsFrom,
        List.length_append, List.length_singleton]
      split
      · rename_i ends
        rw [ends, Bytes.columnAfter_line_end]
        exact ⟨front.length + 1, List.getLast?_concat, rfl⟩
      · rename_i other
        have plain : Bytes.newline ∉ [c] := by simpa using Ne.symm other
        rw [Bytes.columnAfter_append front plain, List.append_nil]
        exact ⟨start, last, by rw [List.length_singleton]; omega⟩

-- The invariant of the halving: the place that is looked for stays between its ends.
theorem search_eq {passes : Nat → Bool} {low place high : Nat} (lower : low ≤ place)
    (upper : place ≤ high) (split : ∀ i, low ≤ i → i < high → (passes i = true ↔ place ≤ i)) :
    search passes low high = place := by
  fun_induction search passes low high with
  | case1 low high more middle passed ih =>
      have here := (split middle (by omega) (by omega)).mp passed
      exact ih lower here fun i above below => split i above (by omega)
  | case2 low high more middle failed ih =>
      have behind : ¬ place ≤ middle := fun here =>
        failed ((split middle (by omega) (by omega)).mpr here)
      exact ih (by omega) upper fun i above below => split i (by omega) below
  | case3 low high done => omega

section lookup
variable (front rest : List UInt8)

theorem starts_length : (0 :: startsFrom 0 front).length = lineAfter front := by
  rw [List.length_cons, startsFrom_length, lineAfter, Nat.add_comm]

theorem starts_size : (ofText (front ++ rest)).starts.size =
    lineAfter front + (startsFrom front.length rest).length := by
  rw [ofText, List.size_toArray, startsFrom_append, Nat.zero_add, ← List.cons_append,
    List.length_append, starts_length]

theorem starts_getD (i : Nat) : (ofText (front ++ rest)).starts.getD i 0 =
    if i < lineAfter front then (0 :: startsFrom 0 front).getD i 0
    else (startsFrom front.length rest).getD (i - lineAfter front) 0 := by
  rw [ofText, startsFrom_append, Nat.zero_add, ← List.cons_append,
    Array.getD_eq_getD_getElem?, List.getElem?_toArray, List.getElem?_append, starts_length]
  split <;> rfl

theorem search_starts :
    search (fun i => front.length < (ofText (front ++ rest)).starts.getD i 0) 0
      (ofText (front ++ rest)).starts.size = lineAfter front := by
  rw [starts_size]
  refine search_eq (Nat.zero_le _) (Nat.le_add_right _ _) fun i _ below => ?_
  rw [decide_eq_true_iff, starts_getD]
  split
  · rename_i first
    have present : (0 :: startsFrom 0 front).getD i 0 ∈ 0 :: startsFrom 0 front := by
      rw [← starts_length] at first
      rw [List.getD_eq_getElem _ _ first]
      exact List.getElem_mem first
    have low : (0 :: startsFrom 0 front).getD i 0 ≤ front.length := by
      rcases List.mem_cons.mp present with zero | later
      · omega
      · have bounds := startsFrom_bounds later
        omega
    omega
  · rename_i later
    have inside : i - lineAfter front < (startsFrom front.length rest).length := by omega
    have high : front.length < (startsFrom front.length rest).getD (i - lineAfter front) 0 := by
      rw [List.getD_eq_getElem _ _ inside]
      exact (startsFrom_bounds (List.getElem_mem inside)).1
    omega

theorem pos_eq : (ofText (front ++ rest)).pos front.length =
    ⟨.ofNat (lineAfter front), .ofNat (columnAfter front)⟩ := by
  obtain ⟨start, last, counted⟩ := starts_last front
  have positive : 0 < lineAfter front := by
    rw [lineAfter]
    omega
  have begins : (ofText (front ++ rest)).starts.getD (lineAfter front - 1) 0 = start := by
    rw [starts_getD, if_pos (by omega), List.getD_eq_getElem?_getD, ← starts_length,
      ← List.getLast?_eq_getElem?, last, Option.getD_some]
  have line : lineAfter front - 1 + 1 = lineAfter front := by omega
  have column : front.length - start + 1 = columnAfter front := by
    have some : 0 < columnAfter front := by
      rw [columnAfter]
      omega
    omega
  rw [pos, search_starts, begins, line, column]

end lookup

end LineTable

-- Words run over in the same way on both sides, so no bound on the text is needed.
theorem Pos.advanceBy_start (front : List UInt8) :
    Pos.start.advanceBy front = ⟨.ofNat (lineAfter front), .ofNat (columnAfter front)⟩ := by
  induction front using List.reverseRecOn with
  | nil => rfl
  | append_singleton front c ih =>
      rw [Pos.advanceBy_append, ih]
      change Pos.advance _ c = _
      rw [Pos.advance]
      split
      · rename_i ends
        rw [ends, Bytes.columnAfter_line_end, Bytes.lineAfter_append, UInt32.ofNat_add]
        rfl
      · rename_i other
        have plain : Bytes.newline ∉ [c] := by simpa using Ne.symm other
        rw [Bytes.columnAfter_append front plain, Bytes.lineAfter_append,
          List.count_eq_zero_of_not_mem plain, Nat.add_zero, UInt32.ofNat_add]
        rfl

-- The position that runs along with the scanner is the one the table would look up.
theorem Scanner.tokenize_spans_table {text : List UInt8} {before after : List Token} {t : Token}
    (parts : tokenize text = before ++ t :: after) :
    t.span = (LineTable.ofText text).span (Token.rawText before).length
      ((Token.rawText before).length + t.raw.length) := by
  obtain ⟨rest, whole, nonempty, span, _⟩ := tokenize_token parts
  have size := List.length_pos_iff.mpr nonempty
  have cut : text = (Token.rawText before ++ t.raw.dropLast) ++ (t.raw.getLast nonempty :: rest) := by
    rw [whole, List.append_assoc, List.append_cons, List.dropLast_concat_getLast]
  have stop : (Token.rawText before).length + t.raw.length - 1 =
      (Token.rawText before ++ t.raw.dropLast).length := by
    rw [List.length_append, List.length_dropLast]
    omega
  have first : (LineTable.ofText text).pos (Token.rawText before).length =
      Pos.start.advanceBy (Token.rawText before) := by
    rw [whole, LineTable.pos_eq, Pos.advanceBy_start]
  have last : (LineTable.ofText text).pos ((Token.rawText before).length + t.raw.length - 1) =
      Pos.start.advanceBy (Token.rawText before ++ t.raw.dropLast) := by
    rw [stop, cut, LineTable.pos_eq, Pos.advanceBy_start]
  rw [LineTable.span, if_neg (by omega), first, last, span, Span.ofText, Pos.advanceBy_append]

end NwscriptBindings
