import NwscriptBindings.Proofs.Token.Lossless

namespace NwscriptBindings

namespace Pos

def Room (p : Pos) (n : Nat) : Prop :=
  p.line.toNat + n < UInt32.size ∧ p.col.toNat + n < UInt32.size

theorem before_iff {p q : Pos} : p.before q = true ↔
    p.line.toNat < q.line.toNat ∨ p.line = q.line ∧ p.col.toNat < q.col.toNat := by
  simp [before, UInt32.lt_iff_toNat_lt]

theorem before_trans {p q r : Pos} (first : p.before q = true) (second : q.before r = true) :
    p.before r = true := by
  rw [before_iff] at *
  rcases first with lines | ⟨same, cols⟩ <;> rcases second with lines' | ⟨same', cols'⟩
  · exact .inl (by omega)
  · exact .inl (same' ▸ lines)
  · exact .inl (same ▸ lines')
  · exact .inr ⟨same.trans same', by omega⟩

theorem before_irrefl (p : Pos) : p.before p = false := by
  simp [before]

theorem toNat_next {w : UInt32} (room : w.toNat + 1 < UInt32.size) :
    (w + 1).toNat = w.toNat + 1 := by
  rw [UInt32.size] at room
  simp only [UInt32.toNat_add, UInt32.reduceToNat]
  omega

theorem advance_room {p : Pos} {n : Nat} (c : UInt8) (room : p.Room (n + 1)) :
    (p.advance c).Room n := by
  obtain ⟨lines, cols⟩ := room
  unfold advance
  split
  · refine ⟨?_, by simp; omega⟩
    rw [toNat_next (by omega)]
    omega
  · refine ⟨by simp only; omega, ?_⟩
    rw [toNat_next (by omega)]
    omega

theorem before_advance {p : Pos} {n : Nat} (c : UInt8) (room : p.Room (n + 1)) :
    p.before (p.advance c) = true := by
  obtain ⟨lines, cols⟩ := room
  rw [before_iff]
  unfold advance
  split
  · left
    rw [toNat_next (by omega)]
    omega
  · right
    refine ⟨rfl, ?_⟩
    rw [toNat_next (by omega)]
    omega

theorem advanceBy_room {p : Pos} {n : Nat} (text : List UInt8) (room : p.Room (text.length + n)) :
    (p.advanceBy text).Room n := by
  induction text generalizing p with
  | nil => simpa [advanceBy] using room
  | cons c text ih =>
      refine ih (advance_room c ?_)
      rw [List.length_cons] at room
      rwa [Nat.add_right_comm]

theorem before_advanceBy {p : Pos} {text : List UInt8} (room : p.Room text.length)
    (nonempty : text ≠ []) : p.before (p.advanceBy text) = true := by
  induction text generalizing p with
  | nil => exact (nonempty rfl).elim
  | cons c text ih =>
      have step := before_advance c room
      cases text with
      | nil => exact step
      | cons d more => exact before_trans step (ih (advance_room c room) (by simp))

end Pos

namespace Scanner

theorem next?_position {s after : Scanner} {t : Token} (found : s.next? = some (t, after)) :
    t.span.first = s.pos ∧ after.pos = s.pos.advanceBy t.raw := by
  unfold next? at found
  split at found
  · cases found
  · cases found
    exact ⟨rfl, rfl⟩

-- The invariant of a run: there is room for what is left, and all tokens to come begin at the
-- cursor or behind it.
theorem run_ordered {s after : Scanner} {ts : List Token} (path : Run s ts after)
    (room : s.pos.Room s.rest.length) :
    ts.Pairwise (fun a b => a.span.first.before b.span.first = true) ∧
      ∀ t ∈ ts, t.span.first = s.pos ∨ s.pos.before t.span.first = true := by
  induction path with
  | stop => exact ⟨.nil, fun _ none => nomatch none⟩
  | @step t middle ts after s found _ ih =>
      obtain ⟨nonempty, parts⟩ := next?_parts _ _ _ found
      obtain ⟨begins, moved⟩ := next?_position found
      rw [← parts, List.length_append] at room
      have behind : s.pos.before middle.pos = true := by
        rw [moved]
        exact Pos.before_advanceBy ⟨by have := room.1; omega, by have := room.2; omega⟩ nonempty
      obtain ⟨ordered, later⟩ := ih (moved ▸ Pos.advanceBy_room t.raw room)
      have follow : ∀ u ∈ ts, s.pos.before u.span.first = true := by
        intro u present
        rcases later u present with same | further
        · rw [same]
          exact behind
        · exact Pos.before_trans behind further
      refine ⟨.cons (fun u present => begins ▸ follow u present) ordered, fun u present => ?_⟩
      rcases List.mem_cons.mp present with rfl | further
      · exact .inl begins
      · exact .inr (follow u further)

theorem spans_distinct {text : List UInt8} (short : text.length < UInt32.size - 1) :
    (tokenize text).Pairwise (fun a b => a.span ≠ b.span) := by
  obtain ⟨last, path, _⟩ := run_tokens { rest := text }
  have room : Pos.start.Room text.length := by
    constructor <;> simp only [Pos.start, UInt32.reduceToNat] <;> omega
  refine (run_ordered path room).1.imp fun {a b} ahead same => ?_
  rw [same, Pos.before_irrefl] at ahead
  cases ahead

end Scanner
end NwscriptBindings
