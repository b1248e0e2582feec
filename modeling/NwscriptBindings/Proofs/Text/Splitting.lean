import NwscriptBindings.Text.Bytes

namespace NwscriptBindings.Bytes

variable {sep : UInt8}

theorem splitOn_eq (sep : UInt8) (text : List UInt8) :
    splitOn sep text = List.splitOn sep text := by
  induction text with
  | nil => rfl
  | cons c rest ih =>
      simp only [splitOn, ih, List.splitOn, List.splitOnP_cons_eq_if_modifyHead, beq_iff_eq]
      split
      · rfl
      · cases pieces : List.splitOnP (· == sep) rest with
        | nil => exact (List.splitOn_ne_nil sep rest pieces).elim
        | cons piece more => rfl

theorem splitOn_ne_nil (sep : UInt8) (text : List UInt8) : splitOn sep text ≠ [] := by
  rw [splitOn_eq]
  exact List.splitOn_ne_nil sep text

theorem intercalate_splitOn (sep : UInt8) (text : List UInt8) :
    List.intercalate [sep] (splitOn sep text) = text := by
  rw [splitOn_eq]
  exact List.intercalate_splitOn sep

theorem splitOn_inj {text other : List UInt8} :
    splitOn sep text = splitOn sep other ↔ text = other := by
  constructor
  · intro same
    rw [← intercalate_splitOn sep text, same, intercalate_splitOn]
  · rintro rfl
    rfl

theorem splitOn_append (front rest : List UInt8) :
    splitOn sep (front ++ sep :: rest) = splitOn sep front ++ splitOn sep rest := by
  simp only [splitOn_eq, List.splitOn]
  exact List.splitOnP_append_cons front rest (beq_self_eq_true sep)

theorem lines_unlines {ls : List (List UInt8)} (some : ls ≠ [])
    (plain : ∀ l ∈ ls, newline ∉ l) : lines (unlines ls) = ls := by
  rw [lines, splitOn_eq, unlines]
  exact List.splitOn_intercalate newline plain some

theorem unlines_snoc (ls : List (List UInt8)) (last : List UInt8) :
    unlines (ls ++ [last]) = endLines ls ++ last := by
  induction ls with
  | nil => simp [unlines, endLines]
  | cons l ls ih =>
      obtain ⟨next, more, parts⟩ := List.exists_cons_of_ne_nil
        (List.append_ne_nil_of_right_ne_nil ls (List.cons_ne_nil last []))
      rw [parts] at ih
      rw [List.cons_append, parts, unlines, List.intercalate_cons_cons, ← unlines, ih]
      simp [endLines]

theorem lines_endLines {ls : List (List UInt8)} (plain : ∀ l ∈ ls, newline ∉ l) :
    lines (endLines ls) = ls ++ [[]] := by
  have whole := unlines_snoc ls []
  rw [List.append_nil] at whole
  rw [← whole]
  refine lines_unlines (by simp) ?_
  exact List.forall_mem_append.mpr ⟨plain, by simp⟩

theorem trimEnd_append {drop : UInt8 → Bool} {front back : List UInt8} (nonempty : front ≠ [])
    (kept : ∀ b, front.getLast? = some b → drop b = false) :
    trimEnd drop (front ++ back) = front ++ trimEnd drop back := by
  have stays : front.reverse.dropWhile drop = front.reverse := by
    cases shown : front.reverse with
    | nil => exact (nonempty (List.reverse_eq_nil_iff.mp shown)).elim
    | cons b more =>
        have last : front.getLast? = some b := by
          rw [← List.head?_reverse, shown]
          rfl
        simp [kept b last]
  simp only [trimEnd, List.reverse_append, List.dropWhile_append, stays]
  split
  · rename_i none
    simp [List.isEmpty_iff.mp none]
  · simp

theorem trimEnd_parts (mark : UInt8) (text : List UInt8) :
    ∃ k, text = trimEnd (· == mark) text ++ List.replicate k mark := by
  refine ⟨(text.reverse.takeWhile (· == mark)).length, ?_⟩
  have ends : text.reverse.takeWhile (· == mark) =
      List.replicate (text.reverse.takeWhile (· == mark)).length mark := by
    refine List.eq_replicate_of_mem fun c present => ?_
    simpa using List.all_eq_true.mp List.all_takeWhile c present
  have whole := congrArg List.reverse
    (List.takeWhile_append_dropWhile (p := (· == mark)) (l := text.reverse))
  rw [List.reverse_append, List.reverse_reverse, ends, List.reverse_replicate] at whole
  exact whole.symm

theorem trimEnd_last (drop : UInt8 → Bool) (text : List UInt8) {c : UInt8}
    (last : (trimEnd drop text).getLast? = some c) : drop c = false := by
  rw [trimEnd, List.getLast?_reverse] at last
  have stopped := List.head?_dropWhile_not drop text.reverse
  rw [last] at stopped
  exact stopped

theorem digits_cut {digits : List UInt8} {c : UInt8} (all : ∀ d ∈ digits, isDigit d = true)
    (stop : isDigit c = false) (rest : List UInt8) :
    (digits ++ c :: rest).takeWhile isDigit = digits ∧
      (digits ++ c :: rest).dropWhile isDigit = c :: rest := by
  rw [List.takeWhile_append_of_pos all, List.dropWhile_append_of_pos all]
  simp [stop]

theorem stripStart?_iff {start text rest : List UInt8} :
    stripStart? start text = some rest ↔ text = start ++ rest := by
  unfold stripStart?
  constructor
  · intro found
    split at found
    · rename_i fits
      obtain ⟨more, rfl⟩ := List.isPrefixOf_iff_prefix.mp fits
      rw [List.drop_left] at found
      rw [Option.some.inj found]
    · cases found
  · rintro rfl
    rw [if_pos (List.isPrefixOf_iff_prefix.mpr (List.prefix_append start rest)), List.drop_left]

theorem stripStop?_iff {stop text rest : List UInt8} :
    stripStop? stop text = some rest ↔ text = rest ++ stop := by
  unfold stripStop?
  constructor
  · intro found
    split at found
    · rename_i fits
      obtain ⟨more, rfl⟩ := List.isSuffixOf_iff_suffix.mp fits
      rw [List.length_append, Nat.add_sub_cancel, List.take_left] at found
      rw [Option.some.inj found]
    · cases found
  · rintro rfl
    rw [if_pos (List.isSuffixOf_iff_suffix.mpr (List.suffix_append rest stop)),
      List.length_append, Nat.add_sub_cancel, List.take_left]

end NwscriptBindings.Bytes
