import NwscriptBindings.Span

namespace NwscriptBindings

-- The offsets at which the lines of a text begin. A line end belongs to the line that it ends.
structure LineTable where
  starts : Array Nat
deriving DecidableEq

namespace LineTable

def startsFrom (offset : Nat) : List UInt8 → List Nat
  | [] => []
  | c :: rest =>
      if c = Bytes.newline then (offset + 1) :: startsFrom (offset + 1) rest
      else startsFrom (offset + 1) rest

def ofText (text : List UInt8) : LineTable := ⟨(0 :: startsFrom 0 text).toArray⟩

-- The first place from `low` on that passes a test, or `high`, by halving what is left.
def search (passes : Nat → Bool) (low high : Nat) : Nat :=
  if low < high then
    let middle := (low + high) / 2
    if passes middle then search passes low middle else search passes (middle + 1) high
  else low
termination_by high - low

def pos (table : LineTable) (offset : Nat) : Pos :=
  let line := search (fun i => offset < table.starts.getD i 0) 0 table.starts.size - 1
  ⟨.ofNat (line + 1), .ofNat (offset - table.starts.getD line 0 + 1)⟩

def span (table : LineTable) (start stop : Nat) : Span :=
  let stop := if stop ≤ start then start + 1 else stop
  ⟨table.pos start, table.pos (stop - 1)⟩

end LineTable
end NwscriptBindings
