import RustScan.Scan.Eager

/-!
# Scanning on demand

A `Stream` hands out one token at a time and reads no more of its input than it has to.  Tokens that
are complete wait in the scanner until they are asked for.  The word `union` waits longer than
others: what it is depends on the token that follows, so it is not handed out while it is the last
one, unless the input is at its end.
-/

set_option autoImplicit false

namespace RustScan.Scan

/-- A scanner in the middle of its input. -/
structure Stream where
  /-- The scanner, whose tokens are those that have not been handed out. -/
  scanner : Scanner := {}
  /-- The input that has not been read. -/
  rest : Bytes
  /-- Whether the end of the input has been dealt with. -/
  finished : Bool := false
  deriving DecidableEq

/-- Whether the first of the waiting tokens is settled: it is followed by another, or is not the
word `union`. -/
def Scanner.hasSettled (s : Scanner) : Bool :=
  match s.tokens[0]? with
  | none => false
  | some t => 1 < s.tokens.size || !isUnion t

namespace Stream

/-- The stream of a whole text. -/
def ofBytes (text : Bytes) : Stream := { rest := text }

/-- Whether a token can be handed out. -/
def isReady (s : Stream) : Bool :=
  if s.finished then 0 < s.scanner.tokens.size else s.scanner.hasSettled

/-- Reads on until a token is settled, and otherwise up to the end of the input. -/
def readOn : Scanner → Bytes → Stream
  | sc, [] => { scanner := sc.finish, rest := [], finished := true }
  | sc, c :: rest =>
    let sc' := sc.step c
    if sc'.hasSettled then { scanner := sc', rest } else readOn sc' rest

/-- Reads as far as the next token needs. -/
def prepare (s : Stream) : Stream :=
  if s.isReady || s.finished then s else readOn s.scanner s.rest

/-- Takes the first of the waiting tokens. -/
def take (s : Stream) : Option Token × Stream :=
  (s.scanner.tokens[0]?,
    { s with scanner := { s.scanner with tokens := s.scanner.tokens.extract 1 } })

/-- Hands out the next token, or nothing at the end. -/
def next (s : Stream) : Option Token × Stream := s.prepare.take

/-! ## Taking everything -/

/-- What is left to read, with the end of the input as one thing more. -/
def unread (s : Stream) : Nat := if s.finished then 0 else s.rest.length + 1

/-- Reading on leaves less to read. -/
theorem unread_readOn (sc : Scanner) (text : Bytes) :
    (readOn sc text).unread < text.length + 1 := by
  induction text generalizing sc with
  | nil => simp [readOn, unread]
  | cons c rest ih =>
    rw [readOn]
    split
    · simp [unread]
    · have := ih (sc.step c)
      simp only [List.length_cons]
      omega

/-- Preparing a stream that is not ready leaves less to read. -/
theorem prepare_eq_or_unread_lt (s : Stream) : s.prepare = s ∨ s.prepare.unread < s.unread := by
  unfold prepare
  split
  · exact Or.inl rfl
  · rename_i h
    have hf : s.finished = false := by simp_all
    have := unread_readOn s.scanner s.rest
    exact Or.inr (by simpa [unread, hf] using this)

/-- Handing out a token leaves less to read or fewer tokens waiting. -/
theorem next_decreases {s s' : Stream} {t : Token} (h : s.next = (some t, s')) :
    s'.unread < s.unread ∨
      s'.unread = s.unread ∧ s'.scanner.tokens.size < s.scanner.tokens.size := by
  have ht : s.prepare.scanner.tokens[0]? = some t := congrArg Prod.fst h
  have hs : s' = s.prepare.take.2 := (congrArg Prod.snd h).symm
  have hu : s'.unread = s.prepare.unread := by rw [hs]; rfl
  have hsize : s'.scanner.tokens.size < s.prepare.scanner.tokens.size := by
    have hpos : 0 < s.prepare.scanner.tokens.size := (Array.getElem?_eq_some_iff.1 ht).1
    rw [hs]
    simp only [take, Array.size_extract]
    omega
  rcases s.prepare_eq_or_unread_lt with he | hlt
  · rw [he] at hu hsize
    exact Or.inr ⟨hu, hsize⟩
  · exact Or.inl (hu ▸ hlt)

/-- Handing out a token makes the pair of what is left to read and what waits smaller. -/
theorem next_lt {s s' : Stream} {t : Token} (h : s.next = (some t, s')) :
    Prod.Lex (· < ·) (· < ·) (s'.unread, s'.scanner.tokens.size)
      (s.unread, s.scanner.tokens.size) := by
  rcases next_decreases h with hlt | ⟨he, hlt⟩
  · exact Prod.Lex.left _ _ hlt
  · rw [he]
    exact Prod.Lex.right _ hlt

/-- Hands out all tokens that are left. -/
def drain (s : Stream) : List Token × Stream :=
  match _h : s.next with
  | (none, s') => ([], s')
  | (some t, s') =>
    let (ts, s'') := drain s'
    (t :: ts, s'')
termination_by (s.unread, s.scanner.tokens.size)
decreasing_by exact next_lt _h

/-- Hands out all tokens that are left, and puts them behind those in `taken`. -/
def collect (s : Stream) (taken : Array Token) : Array Token × Stream :=
  match _h : s.next with
  | (none, s') => (taken, s')
  | (some t, s') => s'.collect (taken.push t)
termination_by (s.unread, s.scanner.tokens.size)
decreasing_by exact next_lt _h

end Stream
end RustScan.Scan
