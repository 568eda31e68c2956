import RustScan.Scan.Machine

/-!
# Scanning a whole text

`Scanner` runs the machine and keeps everything it finds.  The word `union` is a keyword only in
front of another word, so it is first kept as an identifier, and `Scanner.add` makes a keyword of it
when the next token turns out to be a word.

`scan` reads a whole text.
-/

set_option autoImplicit false

namespace RustScan.Scan

/-- Whether the token is the word `union`, as an identifier. -/
def isUnion (t : Token) : Bool := t.kind = .ident && t.text = some (ascii "union")

/-- The word `union` as a keyword; every other token is left alone. -/
def promote (t : Token) : Token :=
  if isUnion t then { t with kind := .keyword .union_, text := none } else t

/-- Adds a token behind others.  A word makes a keyword of the `union` in front of it. -/
def addToken (tokens : Array Token) (t : Token) : Array Token :=
  match tokens.back? with
  | some last => if t.kind.isWord then (tokens.pop.push (promote last)).push t else tokens.push t
  | none => tokens.push t

/-- A running machine and what it has found. -/
structure Scanner where
  machine : Machine := {}
  /-- The tokens found and not taken away. -/
  tokens : Array Token := #[]
  /-- All problems found. -/
  problems : Array Problem := #[]
  /-- The number of tokens ever found. -/
  count : Nat := 0
  deriving DecidableEq

namespace Scanner

/-- Keeps an item. -/
def add (s : Scanner) (i : Item) : Scanner :=
  { s with
    tokens := addToken s.tokens i.token
    problems := match i.problem? with
      | some p => s.problems.push p
      | none => s.problems
    count := s.count + 1 }

/-- Lets the machine act, and keeps the items found on the way. -/
def advance (act : Machine → List Item × Machine) : Scanner → Scanner
  | ⟨machine, tokens, problems, count⟩ =>
    let (items, machine) := act machine
    items.foldl add ⟨machine, tokens, problems, count⟩

/-- Reads one byte. -/
def step (s : Scanner) (c : UInt8) : Scanner := s.advance (·.step c)

/-- Ends the input. -/
def finish (s : Scanner) : Scanner := s.advance Machine.finish

/-- Reads all bytes of a text. -/
def run (s : Scanner) (text : Bytes) : Scanner := text.foldl step s

/-- Whether a problem has been found. -/
def hasProblems (s : Scanner) : Bool := !s.problems.isEmpty

end Scanner

/-- The tokens of a text and the problems among them. -/
structure Result where
  tokens : List Token
  problems : List Problem
  deriving DecidableEq

/-- Scans a whole text. -/
def scan (text : Bytes) : Result :=
  let s := (Scanner.run {} text).finish
  ⟨s.tokens.toList, s.problems.toList⟩

end RustScan.Scan
