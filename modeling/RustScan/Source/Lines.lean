import RustScan.Bytes

/-!
# Where lines start

A line begins at the start of a text and behind every line feed.  `LineIndex` keeps these offsets
in order, so that the line of an offset is found by bisection (`LineIndex.lineOf`).
-/

set_option autoImplicit false

namespace RustScan

/-- The offsets at which the lines of a text start. -/
structure LineIndex where
  starts : Array Nat
  deriving DecidableEq

namespace LineIndex

/-- The starts of the lines that begin behind a line feed of `text`, which itself begins at
`offset`. -/
def startsBehind (offset : Nat) : Bytes → List Nat
  | [] => []
  | c :: rest =>
    if c = Bytes.lf then (offset + 1) :: startsBehind (offset + 1) rest
    else startsBehind (offset + 1) rest

/-- The index of a text. -/
def ofBytes (text : Bytes) : LineIndex := ⟨(0 :: startsBehind 0 text).toArray⟩

/-- The number of lines. -/
def size (index : LineIndex) : Nat := index.starts.size

/-- Where line `i` starts, if there are so many lines. -/
def start? (index : LineIndex) (i : Nat) : Option Nat := index.starts[i]?

/-- The least position from `lo` to `hi` at which the increasing sequence `xs` is above `x`, by
bisection; `hi` if it is nowhere above `x` before that. -/
def firstAbove (xs : Array Nat) (x lo hi : Nat) : Nat :=
  if lo < hi then
    if xs.getD ((lo + hi) / 2) 0 ≤ x then firstAbove xs x ((lo + hi) / 2 + 1) hi
    else firstAbove xs x lo ((lo + hi) / 2)
  else lo
termination_by hi - lo

/-- The line that an offset lies in: the last one that does not start behind it. -/
def lineOf (index : LineIndex) (offset : Nat) : Nat :=
  firstAbove index.starts offset 0 index.size - 1

end LineIndex
end RustScan
