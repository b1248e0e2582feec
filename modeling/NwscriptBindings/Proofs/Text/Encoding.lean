import NwscriptBindings.Text.Utf8

namespace NwscriptBindings.Utf8

theorem isContinuation_iff {b : UInt8} :
    isContinuation b = true ↔ 0x80 ≤ b.toNat ∧ b.toNat ≤ 0xBF := by
  simp [isContinuation, UInt8.le_iff_toNat_le]

theorem scalar?_eq_some_iff {least code : Nat} {c : Char} :
    scalar? least code = some c ↔ least ≤ code ∧ c.toNat = code := by
  unfold scalar?
  split
  · rename_i fits
    simp only [Option.some.injEq, fits.1, true_and]
    constructor
    · rintro rfl
      rw [Char.ofNat, dif_pos fits.2]
      rfl
    · rintro rfl
      exact Char.ofNat_toNat c
  · rename_i misfit
    simp only [reduceCtorEq, false_iff, not_and]
    rintro order rfl
    exact misfit ⟨order, c.valid⟩

-- The bytes of a character: how many there are, and what each contributes to its code point.
inductive Encodes (c : Char) : List UInt8 → Prop where
  | one : b.toNat < 0x80 → c.toNat = b.toNat → Encodes c [b]
  | two : 0xC0 ≤ b.toNat → b.toNat < 0xE0 → isContinuation b1 = true → 0x80 ≤ c.toNat →
      c.toNat = b.toNat % 32 * 64 + payload b1 → Encodes c [b, b1]
  | three : 0xE0 ≤ b.toNat → b.toNat < 0xF0 → isContinuation b1 = true →
      isContinuation b2 = true → 0x800 ≤ c.toNat →
      c.toNat = (b.toNat % 16 * 64 + payload b1) * 64 + payload b2 → Encodes c [b, b1, b2]
  | four : 0xF0 ≤ b.toNat → b.toNat < 0xF8 → isContinuation b1 = true →
      isContinuation b2 = true → isContinuation b3 = true → 0x10000 ≤ c.toNat →
      c.toNat = ((b.toNat % 8 * 64 + payload b1) * 64 + payload b2) * 64 + payload b3 →
      Encodes c [b, b1, b2, b3]

theorem encodes_encodeChar (c : Char) : Encodes c (encodeChar c) := by
  have bound : c.toNat < 0x110000 := by
    have valid := c.valid
    simp only [UInt32.isValidChar, Nat.isValidChar, Char.toNat_val] at valid
    omega
  have tail (n : Nat) : isContinuation (UInt8.ofNat (n % 64 + 128)) = true :=
    isContinuation_iff.mpr (by simp only [UInt8.toNat_ofNat']; omega)
  unfold encodeChar String.utf8EncodeChar
  simp only [Char.toNat_val]
  split
  · exact .one (by simp only [UInt8.toNat_ofNat']; omega) (by simp only [UInt8.toNat_ofNat']; omega)
  split
  · exact .two (by simp only [UInt8.toNat_ofNat']; omega) (by simp only [UInt8.toNat_ofNat']; omega)
      (tail _) (by omega) (by simp only [payload, UInt8.toNat_ofNat']; omega)
  split
  · exact .three (by simp only [UInt8.toNat_ofNat']; omega)
      (by simp only [UInt8.toNat_ofNat']; omega) (tail _) (tail _) (by omega)
      (by simp only [payload, UInt8.toNat_ofNat']; omega)
  · exact .four (by simp only [UInt8.toNat_ofNat']; omega)
      (by simp only [UInt8.toNat_ofNat']; omega) (tail _) (tail _) (tail _) (by omega)
      (by simp only [payload, UInt8.toNat_ofNat']; omega)

theorem Encodes.charAt? {c : Char} {b : UInt8} {tail : List UInt8} (encodes : Encodes c (b :: tail))
    (rest : List UInt8) : charAt? b (tail ++ rest) = some (c, tail.length) := by
  unfold Utf8.charAt?
  cases encodes with
  | one low same =>
      have first : b < 0x80 := UInt8.lt_iff_toNat_lt.mpr low
      have code : scalar? 0 b.toNat = some c := scalar?_eq_some_iff.mpr ⟨Nat.zero_le _, same⟩
      simp [first, code]
  | two low high next least same =>
      simp only [UInt8.lt_iff_toNat_lt, UInt8.reduceToNat]
      have code := scalar?_eq_some_iff.mpr ⟨same ▸ least, same⟩
      rw [if_neg (by omega), if_neg (by omega), if_pos (by omega)]
      simp [next, code]
  | three low high next last least same =>
      simp only [UInt8.lt_iff_toNat_lt, UInt8.reduceToNat]
      have code := scalar?_eq_some_iff.mpr ⟨same ▸ least, same⟩
      rw [if_neg (by omega), if_neg (by omega), if_neg (by omega), if_pos (by omega)]
      simp [next, last, code]
  | four low high next third last least same =>
      simp only [UInt8.lt_iff_toNat_lt, UInt8.reduceToNat]
      have code := scalar?_eq_some_iff.mpr ⟨same ▸ least, same⟩
      rw [if_neg (by omega), if_neg (by omega), if_neg (by omega), if_neg (by omega),
        if_pos (by omega)]
      simp [next, third, last, code]

theorem Encodes.eq_encodeChar {c : Char} {bs : List UInt8} (encodes : Encodes c bs) :
    bs = encodeChar c := by
  unfold encodeChar String.utf8EncodeChar
  simp only [Char.toNat_val]
  cases encodes with
  | one low same =>
      rw [if_pos (by omega), same, UInt8.ofNat_toNat]
  | @two b b1 low high next least same =>
      rw [isContinuation_iff] at next
      rw [payload] at same
      rw [if_neg (by omega), if_pos (by omega)]
      simp only [List.cons.injEq, and_true, ← UInt8.toNat_inj, UInt8.toNat_ofNat']
      omega
  | @three b b1 b2 low high next last least same =>
      rw [isContinuation_iff] at next last
      simp only [payload] at same
      rw [if_neg (by omega), if_neg (by omega), if_pos (by omega)]
      simp only [List.cons.injEq, and_true, ← UInt8.toNat_inj, UInt8.toNat_ofNat']
      omega
  | @four b b1 b2 b3 low high next third last least same =>
      rw [isContinuation_iff] at next third last
      simp only [payload] at same
      rw [if_neg (by omega), if_neg (by omega), if_neg (by omega)]
      simp only [List.cons.injEq, and_true, ← UInt8.toNat_inj, UInt8.toNat_ofNat']
      omega

theorem charAt?_encodes {b : UInt8} {rest : List UInt8} {c : Char} {n : Nat}
    (found : charAt? b rest = some (c, n)) : Encodes c (b :: rest.take n) ∧ n ≤ rest.length := by
  unfold charAt? at found
  simp only [UInt8.lt_iff_toNat_lt, UInt8.reduceToNat] at found
  split at found
  · obtain ⟨_, code, ⟨⟩⟩ := Option.map_eq_some_iff.mp found
    exact ⟨.one ‹_› (scalar?_eq_some_iff.mp code).2, Nat.zero_le _⟩
  split at found
  · cases found
  split at found
  · split at found
    · split at found
      · rename_i next
        obtain ⟨_, code, ⟨⟩⟩ := Option.map_eq_some_iff.mp found
        obtain ⟨least, same⟩ := scalar?_eq_some_iff.mp code
        exact ⟨.two (by omega) (by omega) next (by omega) same, by simp⟩
      · cases found
    · cases found
  split at found
  · split at found
    · split at found
      · rename_i next
        obtain ⟨_, code, ⟨⟩⟩ := Option.map_eq_some_iff.mp found
        obtain ⟨least, same⟩ := scalar?_eq_some_iff.mp code
        rw [Bool.and_eq_true] at next
        exact ⟨.three (by omega) (by omega) next.1 next.2 (by omega) same, by simp⟩
      · cases found
    · cases found
  split at found
  · split at found
    · split at found
      · rename_i next
        obtain ⟨_, code, ⟨⟩⟩ := Option.map_eq_some_iff.mp found
        obtain ⟨least, same⟩ := scalar?_eq_some_iff.mp code
        simp only [Bool.and_eq_true] at next
        exact ⟨.four (by omega) (by omega) next.1.1 next.1.2 next.2 (by omega) same, by simp⟩
      · cases found
    · cases found
  · cases found

theorem encodeChar_ne_nil (c : Char) : encodeChar c ≠ [] := by
  intro empty
  have encodes := encodes_encodeChar c
  rw [empty] at encodes
  cases encodes

theorem decode_encodeChar (c : Char) (rest : List UInt8) :
    decode (encodeChar c ++ rest) = .char c :: decode rest := by
  have encodes := encodes_encodeChar c
  cases shown : encodeChar c with
  | nil => exact (encodeChar_ne_nil c shown).elim
  | cons b tail =>
      rw [shown] at encodes
      rw [List.cons_append, decode, encodes.charAt? rest]
      simp

def encode (chars : List Char) : List UInt8 := chars.flatMap encodeChar

theorem decode_encode (chars : List Char) (rest : List UInt8) :
    decode (encode chars ++ rest) = chars.map .char ++ decode rest := by
  induction chars with
  | nil => rfl
  | cons c chars ih =>
      rw [encode, List.flatMap_cons, List.append_assoc, decode_encodeChar, ← encode, ih]
      rfl

theorem isValid_iff {text : List UInt8} : isValid text = true ↔ ∃ chars, text = encode chars := by
  constructor
  · intro valid
    unfold isValid at valid
    fun_induction decode text with
    | case1 => exact ⟨[], rfl⟩
    | case2 b rest c n found ih =>
        obtain ⟨encodes, _⟩ := charAt?_encodes found
        rw [List.all_cons, Bool.and_eq_true] at valid
        obtain ⟨chars, later⟩ := ih valid.2
        refine ⟨c :: chars, ?_⟩
        rw [encode, List.flatMap_cons, ← encodes.eq_encodeChar, ← encode, ← later,
          List.cons_append, List.take_append_drop]
    | case3 b rest none ih => simp at valid
  · rintro ⟨chars, rfl⟩
    have read := decode_encode chars []
    rw [List.append_nil] at read
    simp [isValid, read, decode]

theorem decode_append {text : List UInt8} (valid : isValid text = true) (rest : List UInt8) :
    decode (text ++ rest) = decode text ++ decode rest := by
  obtain ⟨chars, rfl⟩ := isValid_iff.mp valid
  have alone := decode_encode chars []
  rw [List.append_nil] at alone
  rw [decode_encode, alone, decode, List.append_nil]

theorem isValid_append {text : List UInt8} (valid : isValid text = true) (rest : List UInt8) :
    isValid (text ++ rest) = isValid rest := by
  unfold isValid at *
  rw [decode_append valid, List.all_append, valid, Bool.true_and]

-- Only the first byte of a character can stand behind another one.
theorem Encodes.tail {c : Char} {bs : List UInt8} (encodes : Encodes c bs) :
    ∀ b ∈ bs.tail, isContinuation b = true := by
  cases encodes <;> simp [*]

theorem Encodes.ascii {c : Char} {bs : List UInt8} {b : UInt8} (encodes : Encodes c bs)
    (present : b ∈ bs) (ascii : b.toNat < 0x80) : c.toNat = b.toNat := by
  cases encodes with
  | one low same => rwa [List.mem_singleton.mp present]
  | two high _ tail _ _ =>
      simp only [isContinuation_iff] at tail
      simp only [List.mem_cons, List.not_mem_nil, or_false] at present
      rcases present with rfl | rfl <;> omega
  | three high _ tail tail' _ _ =>
      simp only [isContinuation_iff] at tail tail'
      simp only [List.mem_cons, List.not_mem_nil, or_false] at present
      rcases present with rfl | rfl | rfl <;> omega
  | four high _ tail tail' tail'' _ _ =>
      simp only [isContinuation_iff] at tail tail' tail''
      simp only [List.mem_cons, List.not_mem_nil, or_false] at present
      rcases present with rfl | rfl | rfl | rfl <;> omega

-- A place in a text where no character is cut.
def Boundary (rest : List UInt8) : Prop := ∀ b ∈ rest.head?, isContinuation b = false

theorem isValid_cut {front rest : List UInt8} (valid : isValid (front ++ rest) = true)
    (boundary : Boundary rest) : isValid front = true ∧ isValid rest = true := by
  simp only [isValid_iff] at valid ⊢
  obtain ⟨chars, whole⟩ := valid
  induction chars generalizing front with
  | nil =>
      obtain ⟨rfl, rfl⟩ := List.append_eq_nil_iff.mp whole
      exact ⟨⟨[], rfl⟩, ⟨[], rfl⟩⟩
  | cons c chars ih =>
      cases front with
      | nil => exact ⟨⟨[], rfl⟩, ⟨c :: chars, whole⟩⟩
      | cons b front =>
          rw [encode, List.flatMap_cons, ← encode] at whole
          rcases List.append_eq_append_iff.mp whole with ⟨back, same, begins⟩ | ⟨more, same, later⟩
          · cases back with
            | nil =>
                refine ⟨⟨[c], ?_⟩, ⟨chars, begins⟩⟩
                rw [List.append_nil] at same
                simp [encode, same]
            | cons d back =>
                have inside := (encodes_encodeChar c).tail d (by simp [same])
                rw [boundary d (by simp [begins])] at inside
                cases inside
          · obtain ⟨⟨first, shown⟩, behind⟩ := ih later.symm
            refine ⟨⟨c :: first, ?_⟩, behind⟩
            rw [same, shown, encode, encode, List.flatMap_cons]

theorem boundary_ascii {b : UInt8} (ascii : b < 0x80) (rest : List UInt8) :
    Boundary (b :: rest) := by
  rintro _ ⟨⟩
  simp only [UInt8.lt_iff_toNat_lt, UInt8.reduceToNat] at ascii
  rw [← Bool.not_eq_true, isContinuation_iff]
  omega

theorem encodeChar_ascii {b : UInt8} (ascii : b < 0x80) :
    encodeChar (Char.ofNat b.toNat) = [b] := by
  have small : b.toNat < 0x80 := UInt8.lt_iff_toNat_lt.mp ascii
  have code : scalar? 0 b.toNat = some (Char.ofNat b.toNat) :=
    if_pos ⟨Nat.zero_le _, .inl (by omega)⟩
  exact (Encodes.one small (scalar?_eq_some_iff.mp code).2).eq_encodeChar.symm

theorem isValid_ascii {text : List UInt8} (ascii : ∀ b ∈ text, b < 0x80) : isValid text = true := by
  refine isValid_iff.mpr ⟨text.map fun b => Char.ofNat b.toNat, ?_⟩
  induction text with
  | nil => rfl
  | cons b text ih =>
      obtain ⟨first, others⟩ := List.forall_mem_cons.mp ascii
      rw [List.map_cons, encode, List.flatMap_cons, encodeChar_ascii first, ← encode, ← ih others]
      rfl

theorem isValid_cons {b : UInt8} (ascii : b < 0x80) (rest : List UInt8) :
    isValid (b :: rest) = isValid rest :=
  isValid_append (isValid_ascii (List.forall_mem_singleton.mpr ascii)) rest

end NwscriptBindings.Utf8
