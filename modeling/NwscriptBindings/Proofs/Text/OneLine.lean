import NwscriptBindings.Number.Decimal
import NwscriptBindings.Proofs.Number.Numerals
import NwscriptBindings.Proofs.Text.Encoding
import NwscriptBindings.Span
import NwscriptBindings.Text.Quoted

namespace NwscriptBindings

namespace Bytes

def OneLine (text : List UInt8) : Prop := newline ∉ text

instance (text : List UInt8) : Decidable (OneLine text) := inferInstanceAs (Decidable (_ ∉ text))

theorem oneLine_append {front back : List UInt8} :
    OneLine (front ++ back) ↔ OneLine front ∧ OneLine back := by
  simp [OneLine]

theorem OneLine.append {front back : List UInt8} (first : OneLine front) (second : OneLine back) :
    OneLine (front ++ back) := oneLine_append.mpr ⟨first, second⟩

theorem OneLine.sublist {text part : List UInt8} (plain : OneLine text)
    (inside : part.Sublist text) : OneLine part := fun present => plain (inside.subset present)

theorem oneLine_digits {text : List UInt8} (digits : ∀ c ∈ text, isDigit c = true) :
    OneLine text := by
  intro present
  cases digits newline present

theorem oneLine_replicate {c : UInt8} (other : c ≠ newline) (k : Nat) :
    OneLine (List.replicate k c) := by
  intro present
  exact other (List.eq_of_mem_replicate present).symm

theorem oneLine_ofNat (n : Nat) : OneLine (ofNat n) := oneLine_digits (Digits.ofNat_digits n)

theorem oneLine_ofInt (n : Int) : OneLine (ofInt n) := by
  unfold ofInt
  split
  · have minus : OneLine [byte '-'] := by decide
    exact minus.append (oneLine_ofNat _)
  · exact oneLine_ofNat _

end Bytes

open Bytes (OneLine)

theorem Pos.oneLine_text (p : Pos) : OneLine p.text :=
  ((Bytes.oneLine_ofNat _).append (by decide)).append (Bytes.oneLine_ofNat _)

namespace Decimal

theorem oneLine_digits (d : Decimal) : OneLine d.digits := Bytes.oneLine_ofNat d.coefficient

theorem oneLine_positional (d : Decimal) : OneLine d.positional := by
  have zeros (k : Nat) : OneLine (List.replicate k (byte '0')) :=
    Bytes.oneLine_replicate (by decide) k
  unfold positional
  dsimp only
  split
  · exact d.oneLine_digits.append (zeros _)
  · split
    · exact ((d.oneLine_digits.sublist (List.take_sublist _ _)).append (by decide)).append
        (d.oneLine_digits.sublist (List.drop_sublist _ _))
    · exact (OneLine.append (by decide) (zeros _)).append d.oneLine_digits

theorem oneLine_scientific (width : Nat) (d : Decimal) : OneLine (d.scientific width) := by
  unfold scientific
  dsimp only
  refine ((((d.oneLine_digits.sublist (List.take_sublist _ _)).append ?_).append (by decide)).append
    ?_).append (Bytes.oneLine_digits (Digits.padded_digits _ _))
  · split
    · decide
    · exact OneLine.append (by decide) (d.oneLine_digits.sublist (List.drop_sublist _ _))
  · split <;> decide

theorem oneLine_render (style : Style) (d : Decimal) : OneLine (d.render style) := by
  unfold render
  split
  · exact d.oneLine_positional
  · exact d.oneLine_scientific _

end Decimal

theorem Binary32.oneLine_text (style : Decimal.Style) (v : Binary32) : OneLine (v.text style) := by
  refine OneLine.append ?_ (Decimal.oneLine_render style _)
  split <;> decide

namespace Quoted

theorem oneLine_hex (width n : Nat) : OneLine (hex width n) := by
  induction width generalizing n with
  | zero =>
      rw [hex]
      decide
  | succ width ih =>
      have all : ∀ d : Fin 16, OneLine [byte (Nat.digitChar d)] := by decide
      exact (ih (n / 16)).append (all ⟨n % 16, Nat.mod_lt n (by decide)⟩)

theorem oneLine_escape {c : Char} {letter : UInt8} (found : escapeLetter? c = some letter) :
    OneLine [byte '\\', letter] := by
  unfold escapeLetter? at found
  repeat' split at found
  all_goals cases found
  all_goals decide

theorem oneLine_encodeChar {c : Char} (other : c ≠ '\n') : OneLine (Utf8.encodeChar c) := by
  intro present
  have same := (Utf8.encodes_encodeChar c).ascii present (by decide)
  exact other (Char.toNat_inj.mp same)

theorem oneLine_glyph (g : Glyph) : OneLine (glyph g) := by
  cases g with
  | stray b => exact OneLine.append (by decide) (oneLine_hex _ _)
  | char c =>
      rw [glyph]
      cases found : escapeLetter? c with
      | some letter => exact oneLine_escape found
      | none =>
          dsimp only
          split
          · refine oneLine_encodeChar ?_
            rintro rfl
            cases found
          split
          · exact OneLine.append (by decide) (oneLine_hex _ _)
          split
          · exact OneLine.append (by decide) (oneLine_hex _ _)
          · exact OneLine.append (by decide) (oneLine_hex _ _)

theorem oneLine_quote (text : List UInt8) : OneLine (quote text) := by
  refine (OneLine.append (by decide) ?_).append (by decide)
  intro present
  obtain ⟨g, _, inside⟩ := List.mem_flatMap.mp present
  exact oneLine_glyph g inside

end Quoted
end NwscriptBindings
