import NwscriptBindings.Proofs.Text.OneLine
import NwscriptBindings.Proofs.Text.Splitting
import NwscriptBindings.Proofs.Token.Closing
import NwscriptBindings.Token.Table

namespace NwscriptBindings

namespace Quoted

open Bytes (newline)
open Scan (Escaped)

def ofLetter? (letter : UInt8) : Option UInt8 :=
  if letter = byte 'n' then some newline
  else if letter = byte 't' then some (byte '\t')
  else if letter = byte 'r' then some (byte '\r')
  else if letter = byte '\\' then some (byte '\\')
  else if letter = byte '"' then some (byte '"')
  else none

def unescape? : List UInt8 → Option (List UInt8)
  | [] => some []
  | [c] => if c = byte '\\' then none else some [c]
  | c :: d :: rest =>
      if c = byte '\\' then (ofLetter? d).bind fun e => (unescape? rest).map (e :: ·)
      else (unescape? (d :: rest)).map (c :: ·)

theorem unescape?_plain {c : UInt8} (other : c ≠ byte '\\') (rest : List UInt8) :
    unescape? (c :: rest) = (unescape? rest).map (c :: ·) := by
  cases rest with
  | nil => simp [unescape?, other]
  | cons d rest => simp [unescape?, other]

theorem unescape?_pair {letter c : UInt8} (found : ofLetter? letter = some c) (rest : List UInt8) :
    unescape? (byte '\\' :: letter :: rest) = (unescape? rest).map (c :: ·) := by
  rw [unescape?, if_pos rfl, found, Option.bind_some]

-- What stands between the outer quotes of a cell, and the text that it stands for.
structure Cell (inside text : List UInt8) : Prop where
  bare : ∀ c ∈ inside, c ≠ newline ∧ c ≠ byte '\t' ∧ c ≠ byte '\r'
  escaped : ∀ front back, inside = front ++ byte '"' :: back → Escaped front
  closed : ¬ Escaped inside
  undone : unescape? inside = some text

def escapes : List Char := ['\n', '\t', '\r', '\\', '"']

inductive Written : List UInt8 → List UInt8 → Prop where
  | nil : Written [] []
  | pair {letter c : UInt8} {inside text : List UInt8} : ofLetter? letter = some c →
      Written inside text → Written (byte '\\' :: letter :: inside) (c :: text)
  | plain {c : UInt8} {inside text : List UInt8} : c ∉ escapes.map byte →
      Written inside text → Written (c :: inside) (c :: text)

theorem ofLetter?_bare {letter c : UInt8} (found : ofLetter? letter = some c) :
    letter ≠ newline ∧ letter ≠ byte '\t' ∧ letter ≠ byte '\r' := by
  refine ⟨?_, ?_, ?_⟩ <;> rintro rfl <;> cases found

theorem plain_ne {c : UInt8} (plain : c ∉ escapes.map byte) {e : Char} (present : e ∈ escapes) :
    c ≠ byte e := by
  rintro rfl
  exact plain (List.mem_map_of_mem present)

namespace Written

variable {inside text : List UInt8}

theorem bare (written : Written inside text) :
    ∀ c ∈ inside, c ≠ newline ∧ c ≠ byte '\t' ∧ c ≠ byte '\r' := by
  induction written with
  | nil => simp
  | pair found _ ih =>
      refine List.forall_mem_cons.mpr ⟨by decide, List.forall_mem_cons.mpr ⟨?_, ih⟩⟩
      exact ofLetter?_bare found
  | plain other _ ih =>
      refine List.forall_mem_cons.mpr ⟨⟨?_, ?_, ?_⟩, ih⟩ <;> exact plain_ne other (by decide)

-- Every quote is the second byte of a pair, and pairs are whole in front of it.
theorem escaped (written : Written inside text) {front back : List UInt8}
    (parts : inside = front ++ byte '"' :: back) : Escaped front := by
  induction written generalizing front with
  | nil => exact absurd parts (by simp)
  | pair found _ ih =>
      cases front with
      | nil => exact absurd (List.cons.inj parts).1 (by decide)
      | cons b front =>
          obtain ⟨rfl, more⟩ := List.cons.inj parts
          cases front with
          | nil => exact rfl
          | cons d front => exact (Scan.escaped_pair d front).mpr (ih (List.cons.inj more).2)
  | plain other _ ih =>
      cases front with
      | nil => exact absurd (List.cons.inj parts).1 (plain_ne other (by decide))
      | cons b front =>
          obtain ⟨rfl, more⟩ := List.cons.inj parts
          exact (Scan.escaped_plain front (plain_ne other (by decide))).mpr (ih more)

theorem closed (written : Written inside text) : ¬ Escaped inside := by
  induction written with
  | nil => exact Nat.zero_ne_one
  | pair _ _ ih => rwa [Scan.escaped_pair]
  | plain other _ ih => rwa [Scan.escaped_plain _ (plain_ne other (by decide))]

theorem undone (written : Written inside text) : unescape? inside = some text := by
  induction written with
  | nil => rfl
  | pair found _ ih => rw [unescape?_pair found, ih, Option.map_some]
  | plain other _ ih => rw [unescape?_plain (plain_ne other (by decide)), ih, Option.map_some]

theorem cell (written : Written inside text) : Cell inside text :=
  ⟨written.bare, fun _ _ => written.escaped, written.closed, written.undone⟩

theorem plain_append {piece : List UInt8} (plain : ∀ c ∈ piece, c ∉ escapes.map byte)
    (written : Written inside text) : Written (piece ++ inside) (piece ++ text) := by
  induction piece with
  | nil => exact written
  | cons c piece ih =>
      obtain ⟨first, others⟩ := List.forall_mem_cons.mp plain
      exact .plain first (ih others)

end Written

theorem escapes_ascii {e : Char} (present : e ∈ escapes) :
    (byte e).toNat = e.toNat ∧ (byte e).toNat < 0x80 := by
  simp only [escapes, List.mem_cons, List.not_mem_nil, or_false] at present
  rcases present with rfl | rfl | rfl | rfl | rfl <;> exact ⟨rfl, by decide⟩

-- No byte of a longer character is one of the five.
theorem encodeChar_plain {c : Char} (other : c ∉ escapes) :
    ∀ b ∈ Utf8.encodeChar c, b ∉ escapes.map byte := by
  intro b present found
  obtain ⟨e, among, rfl⟩ := List.mem_map.mp found
  obtain ⟨same, small⟩ := escapes_ascii among
  have whole := (Utf8.encodes_encodeChar c).ascii present small
  exact other (Char.toNat_inj.mp (whole.trans same) ▸ among)

theorem Written.char {inside text : List UInt8} (written : Written inside text) (c : Char) :
    Written (cellGlyph (.char c) ++ inside) (Utf8.encodeChar c ++ text) := by
  by_cases present : c ∈ escapes
  · simp only [escapes, List.mem_cons, List.not_mem_nil, or_false] at present
    rcases present with rfl | rfl | rfl | rfl | rfl <;> exact .pair rfl written
  · have shown : cellGlyph (.char c) = Utf8.encodeChar c := by
      simp only [escapes, List.mem_cons, List.not_mem_nil, or_false, not_or] at present
      simp only [cellGlyph, present, if_false]
    rw [shown]
    exact written.plain_append (encodeChar_plain present)

theorem quoteCell_written {text : List UInt8} (valid : Utf8.isValid text = true) :
    ∃ inside, quoteCell text = utf8 "\"" ++ inside ++ utf8 "\"" ∧ Written inside text := by
  refine ⟨_, rfl, ?_⟩
  obtain ⟨chars, rfl⟩ := Utf8.isValid_iff.mp valid
  have read := Utf8.decode_encode chars []
  rw [List.append_nil, Utf8.decode, List.append_nil] at read
  rw [read]
  clear read valid
  induction chars with
  | nil => exact .nil
  | cons c chars ih => exact ih.char c

def cellText? (cell : List UInt8) : Option (List UInt8) := unescape? cell.tail.dropLast

theorem cellText?_quoteCell {text : List UInt8} (valid : Utf8.isValid text = true) :
    cellText? (quoteCell text) = some text := by
  obtain ⟨inside, shown, written⟩ := quoteCell_written valid
  have between : (quoteCell text).tail.dropLast = inside := by
    rw [shown]
    exact List.dropLast_concat
  rw [cellText?, between, written.undone]

end Quoted

namespace Bytes

def Column (text : List UInt8) : Prop := OneLine text ∧ byte '"' ∉ text

instance (text : List UInt8) : Decidable (Column text) := inferInstanceAs (Decidable (_ ∧ _))

theorem Column.append {front back : List UInt8} (first : Column front) (second : Column back) :
    Column (front ++ back) :=
  ⟨first.1.append second.1, List.not_mem_append first.2 second.2⟩

theorem Column.padEnd {text : List UInt8} (column : Column text) (width : Nat) :
    Column (padEnd width text) := by
  refine column.append ⟨oneLine_replicate (by decide) _, fun present => ?_⟩
  exact absurd (List.eq_of_mem_replicate present) (by decide)

theorem column_ofNat (n : Nat) : Column (ofNat n) := by
  refine ⟨oneLine_ofNat n, fun present => ?_⟩
  cases Digits.ofNat_digits n _ present

end Bytes

theorem Pos.column_text (p : Pos) : Bytes.Column p.text :=
  ((Bytes.column_ofNat _).append (by decide)).append (Bytes.column_ofNat _)

theorem Span.column_text (s : Span) : Bytes.Column s.text := by
  have begins : Bytes.Column (utf8 "line " ++ s.first.text) :=
    Bytes.Column.append (by decide) s.first.column_text
  exact (begins.append (by decide)).append s.last.column_text

theorem Kind.column_name (k : Kind) : Bytes.Column (utf8 k.name) := by
  cases k <;> decide

namespace Token

open Bytes (newline OneLine Column)
open Quoted (quoteCell cellText?)

def rowText? (row : List UInt8) : Option (List UInt8) := cellText? (row.dropWhile (· != byte '"'))

theorem tokenRow_parts (t : Token) :
    ∃ front, tokenRow t = front ++ quoteCell t.raw ∧ Column front := by
  refine ⟨_, rfl, ?_⟩
  have span := t.span.column_text.padEnd 28
  have kind := t.kind.column_name.padEnd 12
  exact ((span.append (by decide)).append kind).append (by decide)

theorem tokenRow_oneLine {t : Token} (valid : Utf8.isValid t.raw = true) :
    OneLine (tokenRow t) := by
  obtain ⟨front, parts, column⟩ := tokenRow_parts t
  obtain ⟨inside, shown, written⟩ := Quoted.quoteCell_written valid
  have within : OneLine inside := fun present => (written.bare newline present).1 rfl
  have quote : OneLine (utf8 "\"") := by decide
  rw [parts, shown]
  exact column.1.append ((quote.append within).append quote)

theorem rowText?_tokenRow {t : Token} (valid : Utf8.isValid t.raw = true) :
    rowText? (tokenRow t) = some t.raw := by
  obtain ⟨front, parts, column⟩ := tokenRow_parts t
  have skipped : ∀ c ∈ front, (c != byte '"') = true := by
    intro c present
    exact bne_iff_ne.mpr (ne_of_mem_of_not_mem present column.2)
  have starts : (quoteCell t.raw).dropWhile (· != byte '"') = quoteCell t.raw := rfl
  rw [rowText?, parts, List.dropWhile_append_of_pos skipped, starts,
    Quoted.cellText?_quoteCell valid]

theorem lines_table {tokens : List Token} (valid : ∀ t ∈ tokens, Utf8.isValid t.raw = true) :
    Bytes.lines (table tokens) = (tableHead ++ tokens.map tokenRow) ++ [[]] := by
  refine Bytes.lines_endLines (List.forall_mem_append.mpr ⟨by decide, ?_⟩)
  exact List.forall_mem_map.mpr fun t present => tokenRow_oneLine (valid t present)

theorem rowText?_at {tokens : List Token} (valid : ∀ t ∈ tokens, Utf8.isValid t.raw = true)
    (n : Nat) :
    (tableHead ++ tokens.map tokenRow)[n + 2]?.bind rowText? = tokens[n]?.map (·.raw) := by
  have behind : (tableHead ++ tokens.map tokenRow)[n + 2]? = tokens[n]?.map tokenRow := by
    rw [List.getElem?_append_right (by simp [tableHead]), List.getElem?_map]
    rfl
  rw [behind]
  cases found : tokens[n]? with
  | none => rfl
  | some t =>
      rw [Option.map_some, Option.bind_some, Option.map_some]
      exact rowText?_tokenRow (valid t (List.mem_of_getElem? found))

-- Every row is ended, so nothing stands behind the last. Two rows are the head.
theorem table_unambiguous :
    (∀ text, Utf8.isValid text = true →
      ∃ inside, quoteCell text = utf8 "\"" ++ inside ++ utf8 "\"" ∧ Quoted.Cell inside text) ∧
    (∀ text other, Utf8.isValid text = true → Utf8.isValid other = true →
      quoteCell text = quoteCell other → text = other) ∧
    ∀ tokens : List Token, (∀ t ∈ tokens, Utf8.isValid t.raw = true) →
      ∃ rows, Bytes.lines (table tokens) = rows ++ [[]] ∧ rows.length = tokens.length + 2 ∧
        ∀ n, rows[n + 2]?.bind rowText? = tokens[n]?.map (·.raw) := by
  refine ⟨?_, ?_, ?_⟩
  · intro text valid
    obtain ⟨inside, shown, written⟩ := Quoted.quoteCell_written valid
    exact ⟨inside, shown, written.cell⟩
  · intro text other valid valid' same
    have read := Quoted.cellText?_quoteCell valid
    rw [same, Quoted.cellText?_quoteCell valid'] at read
    exact (Option.some.inj read).symm
  · intro tokens valid
    refine ⟨_, lines_table valid, ?_, rowText?_at valid⟩
    rw [List.length_append, List.length_map, Nat.add_comm]
    rfl

-- A backslash with a letter, the line end that the two stand for in a cell, and a text that looks
-- like the rest of a row.
theorem table_unambiguous_lookalikes :
    let forged := utf8 "\\\\\"\n Keyword \"é\\"
    let tokens : List Token := [utf8 "\\n", utf8 "\n", forged].map (⟨.directive ·, .zero⟩)
    (∀ t ∈ tokens, Utf8.isValid t.raw = true) ∧
      (∃ inside, quoteCell forged = utf8 "\"" ++ inside ++ utf8 "\"" ∧ Quoted.Cell inside forged) ∧
      quoteCell (utf8 "\\n") ≠ quoteCell (utf8 "\n") ∧
      ∃ rows, Bytes.lines (table tokens) = rows ++ [[]] ∧ rows.length = 5 ∧
        rows[2]?.bind rowText? = some (utf8 "\\n") ∧ rows[3]?.bind rowText? = some (utf8 "\n") ∧
        rows[4]?.bind rowText? = some forged := by
  intro forged tokens
  have valid : ∀ t ∈ tokens, Utf8.isValid t.raw = true := by decide +kernel
  obtain ⟨cells, injective, table⟩ := table_unambiguous
  obtain ⟨rows, ended, count, read⟩ := table tokens valid
  refine ⟨valid, cells forged (by decide +kernel), ?_, rows, ended, count, read 0, read 1, read 2⟩
  intro same
  exact absurd (injective _ _ (by decide +kernel) (by decide +kernel) same) (by decide)

end Token
end NwscriptBindings
