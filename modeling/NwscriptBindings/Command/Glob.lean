import NwscriptBindings.Command.Path
import NwscriptBindings.Text.Utf8

namespace NwscriptBindings.Glob

inductive Piece where
  | literal (b : UInt8)
  | anyChar
  | oneOf (negated : Bool) (ranges : List (Nat × Nat))
deriving DecidableEq

-- Brackets do not nest here.
def chunkText (inBrackets : Bool) : List UInt8 → List UInt8 × List UInt8
  | [] => ([], [])
  | [c] => if c = byte '*' ∧ !inBrackets then ([], [c]) else ([c], [])
  | c :: d :: rest =>
      if c = byte '\\' then
        let after := chunkText inBrackets rest
        (c :: d :: after.1, after.2)
      else if c = byte '*' ∧ !inBrackets then ([], c :: d :: rest)
      else
        let inside := if c = byte '[' then true else if c = byte ']' then false else inBrackets
        let after := chunkText inside (d :: rest)
        (c :: after.1, after.2)

theorem chunkText_length (inBrackets : Bool) (text : List UInt8) :
    (chunkText inBrackets text).2.length ≤ text.length := by
  fun_induction chunkText inBrackets text with
  | case1 => simp
  | case2 => simp
  | case3 => simp
  | case4 inBrackets d rest after ih =>
      show (chunkText inBrackets rest).2.length ≤ _
      simp only [List.length_cons]
      omega
  | case5 => simp
  | case6 inBrackets c d rest notEscape notStar inside after ih =>
      show (chunkText inside (d :: rest)).2.length ≤ _
      simp only [List.length_cons] at ih ⊢
      omega

theorem chunkText_shorter (c : UInt8) (rest : List UInt8) (noStar : c ≠ byte '*') :
    (chunkText false (c :: rest)).2.length < (c :: rest).length := by
  cases rest with
  | nil => simp [chunkText, noStar]
  | cons d rest =>
      rw [chunkText]
      split
      · have := chunkText_length false rest
        simp only [List.length_cons]
        omega
      · simp only [noStar, false_and, if_false]
        have := chunkText_length
          (if c = byte '[' then true else if c = byte ']' then false else false) (d :: rest)
        simp only [List.length_cons] at this ⊢
        omega

-- A byte that belongs to no character counts as the replacement character.
def codeAt : List UInt8 → Option (Nat × List UInt8)
  | [] => none
  | b :: rest =>
      match Utf8.charAt? b rest with
      | some (c, n) => some (c.toNat, rest.drop n)
      | none => some (Utf8.replacement.toNat, rest)

def rangeEnd? (text : List UInt8) : Option (Nat × List UInt8) :=
  let spelled :=
    match text with
    | [] => []
    | c :: rest =>
        if c = byte '-' ∨ c = byte ']' then [] else if c = byte '\\' then rest else text
  match spelled with
  | [] => none
  | b :: rest =>
      match Utf8.charAt? b rest with
      | some (c, n) => if (rest.drop n).isEmpty then none else some (c.toNat, rest.drop n)
      | none => none

theorem rangeEnd?_shorter (text rest : List UInt8) (code : Nat)
    (found : rangeEnd? text = some (code, rest)) : rest.length < text.length := by
  unfold rangeEnd? at found
  simp only at found
  split at found
  · cases found
  · rename_i b tail shape
    split at found
    · split at found
      · cases found
      · cases found
        cases text with
        | nil => simp at shape
        | cons c more =>
            simp only at shape
            split at shape
            · cases shape
            · split at shape
              · subst shape; simp only [List.length_drop, List.length_cons]; omega
              · cases shape; simp only [List.length_drop, List.length_cons]; omega
    · cases found

def range? (text : List UInt8) : Option ((Nat × Nat) × List UInt8) :=
  match rangeEnd? text with
  | none => none
  | some (low, rest) =>
      if rest.head? = some (byte '-') then
        (rangeEnd? rest.tail).map fun (high, after) => ((low, high), after)
      else some ((low, low), rest)

theorem range?_shorter (text rest : List UInt8) (range : Nat × Nat)
    (found : range? text = some (range, rest)) : rest.length < text.length := by
  unfold range? at found
  split at found
  · cases found
  · rename_i low tail shape
    have first := rangeEnd?_shorter _ _ _ shape
    split at found
    · obtain ⟨⟨high, after⟩, got, same⟩ := Option.map_eq_some_iff.mp found
      cases same
      have second := rangeEnd?_shorter _ _ _ got
      simp only [List.length_tail] at second
      omega
    · cases found
      exact first

def ranges? (needed : Bool) (text : List UInt8) : Option (List (Nat × Nat) × List UInt8) :=
  if !needed && text.head? == some (byte ']') then some ([], text.tail)
  else
    match _found : range? text with
    | none => none
    | some (range, rest) =>
        (ranges? false rest).map fun (ranges, after) => (range :: ranges, after)
termination_by text.length
decreasing_by exact range?_shorter _ _ _ _found

theorem ranges?_length (needed : Bool) (text rest : List UInt8) (ranges : List (Nat × Nat))
    (found : ranges? needed text = some (ranges, rest)) : rest.length ≤ text.length := by
  fun_induction ranges? needed text generalizing ranges with
  | case1 => cases found; simp
  | case2 => cases found
  | case3 needed text open_ range tail got ih =>
      obtain ⟨⟨more, after⟩, inner, same⟩ := Option.map_eq_some_iff.mp found
      cases same
      have := ih _ inner
      have := range?_shorter _ _ _ got
      omega

def pieces? (text : List UInt8) : Option (List Piece) :=
  match text with
  | [] => some []
  | c :: rest =>
      if c = byte '[' then
        let negated := rest.head? == some (byte '^')
        match _found : ranges? true (if negated then rest.tail else rest) with
        | none => none
        | some (ranges, after) => (pieces? after).map (.oneOf negated ranges :: ·)
      else if c = byte '?' then (pieces? rest).map (.anyChar :: ·)
      else if c = byte '\\' then
        match rest with
        | [] => none
        | d :: after => (pieces? after).map (.literal d :: ·)
      else (pieces? rest).map (.literal c :: ·)
termination_by text.length
decreasing_by
  · have shorter := ranges?_length _ _ _ _ _found
    have tail : rest.tail.length ≤ rest.length := by simp
    simp only [List.length_cons]
    split at shorter <;> omega
  · simp
  · simp only [List.length_cons]; omega
  · simp

def nextChunk (pattern : List UInt8) : List UInt8 × List UInt8 :=
  chunkText false (pattern.dropWhile (· == byte '*'))

theorem nextChunk_shorter (c : UInt8) (rest : List UInt8) :
    (nextChunk (c :: rest)).2.length < (c :: rest).length := by
  unfold nextChunk
  by_cases star : c = byte '*'
  · have cut := (rest.dropWhile_sublist (· == byte '*')).length_le
    have := chunkText_length false (rest.dropWhile (· == byte '*'))
    simp only [star, List.dropWhile_cons, beq_self_eq_true, if_true, List.length_cons]
    omega
  · have same : (c :: rest).dropWhile (· == byte '*') = c :: rest := by
      simp [star]
    rw [same]
    exact chunkText_shorter c rest star

def Piece.accept (p : Piece) (name : List UInt8) : Option (List UInt8) :=
  match p, name with
  | _, [] => none
  | .literal b, c :: rest => if b = c then some rest else none
  | .anyChar, c :: rest => if c = Path.slash then none else (codeAt (c :: rest)).map (·.2)
  | .oneOf negated ranges, c :: rest =>
      (codeAt (c :: rest)).bind fun (code, after) =>
        if ranges.any (fun (low, high) => low ≤ code && code ≤ high) == negated then none
        else some after

def acceptAll : List Piece → List UInt8 → Option (List UInt8)
  | [], name => some name
  | p :: ps, name => (p.accept name).bind (acceptAll ps)

def fit (last : Bool) (pieces : List Piece) (name : List UInt8) : Option (List UInt8) :=
  (acceptAll pieces name).filter fun rest => rest.isEmpty || !last

def seek (last : Bool) (pieces : List Piece) : List UInt8 → Option (List UInt8)
  | [] => fit last pieces []
  | c :: rest =>
      match fit last pieces (c :: rest) with
      | some left => some left
      | none => if c = Path.slash then none else seek last pieces rest

-- A star takes as little as lets its chunk fit, and what it took is never tried again. Behind a
-- chunk that fits nowhere none is read.
def test? (pattern name : List UInt8) : Option Bool :=
  match pattern with
  | [] => some name.isEmpty
  | c :: more =>
      let star := c == byte '*'
      let later := (nextChunk (c :: more)).2
      match pieces? (nextChunk (c :: more)).1 with
      | none => none
      | some pieces =>
          if star && pieces.isEmpty then some (!name.contains Path.slash)
          else
            match (if star then seek later.isEmpty pieces name
              else fit later.isEmpty pieces name) with
            | some rest => test? later rest
            | none => some false
termination_by pattern.length
decreasing_by exact nextChunk_shorter c more

def select? (pattern : List UInt8) : List (List UInt8) → Option (List (List UInt8))
  | [] => some []
  | name :: names =>
      match test? pattern name, select? pattern names with
      | some fits, some others => some (if fits then name :: others else others)
      | _, _ => none

def isWild (c : UInt8) : Bool := c == byte '*' || c == byte '?' || c == byte '['

def isSpecial (c : UInt8) : Bool := isWild c || c == byte '\\'

def directory (pattern : List UInt8) : List UInt8 :=
  let part := Path.upToLastSlash pattern
  if part.isEmpty then Path.dot else if part = [Path.slash] then part else part.dropLast

section search

variable {m : Type → Type} [Monad m]

-- `list` gives the names in a directory; nothing if there is no such directory.
variable (list : List UInt8 → m (Option (List (List UInt8))))

def inDirectory (dir pattern : List UInt8) : m (Option (List (List UInt8))) := do
  match ← list dir with
  | none => pure (some [])
  | some names =>
      pure ((select? pattern (names.mergeSort Bytes.le)).map (·.map (Path.join dir)))

def inDirectories (pattern : List UInt8) : List (List UInt8) → m (Option (List (List UInt8)))
  | [] => pure (some [])
  | dir :: dirs => do
      match ← inDirectory list dir pattern with
      | none => pure none
      | some found =>
          match ← inDirectories pattern dirs with
          | none => pure none
          | some more => pure (some (found ++ more))

-- None if the pattern shows to be malformed, to the empty name or to a name that is tested, or has
-- too many levels.
def expand : Nat → List UInt8 → m (Option (List (List UInt8)))
  | 0, _ => pure none
  | levels + 1, pattern =>
      if (test? pattern []).isNone then pure none
      else
        let dir := directory pattern
        let name := Path.lastElement pattern
        if dir.any isSpecial then do
          match ← expand levels dir with
          | none => pure none
          | some dirs => inDirectories list name dirs
        else inDirectory list dir name

def maxLevels : Nat := 10000

end search

end NwscriptBindings.Glob
