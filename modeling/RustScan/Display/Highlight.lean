import RustScan.Display.Style
import RustScan.Token.Basic

/-!
# Highlighting

`highlight` copies a text and puts the style's sequence in front of every token that has one, and
the reset sequence where the token ends.  It walks through text and tokens together, in the order in
which the tokens are given, so tokens that lie behind the current offset are passed over, and a
token that starts inside a styled one moves the place where the styling ends.
-/

set_option autoImplicit false

namespace RustScan

/-- What starts at an offset: the sequences to write there, where the styling then ends if any is
on, and the tokens that lie further on. -/
structure Starts where
  codes : Bytes
  styledTo : Option Nat
  tokens : List Token

/-- Takes the tokens up to `offset` off the list.  Those that start right there and are not empty
are styled. -/
def Style.startsAt (style : Style) (offset : Nat) : Option Nat → List Token → Starts
  | styledTo, [] => ⟨[], styledTo, []⟩
  | styledTo, t :: ts =>
    if offset < t.offset.toNat then ⟨[], styledTo, t :: ts⟩
    else
      let code :=
        if t.offset.toNat = offset ∧ t.length ≠ 0 then style.code t.kind.category else []
      if code = [] then style.startsAt offset styledTo ts
      else
        let further := style.startsAt offset (some (offset + t.length.toNat)) ts
        { further with codes := code ++ further.codes }

/-- Highlights the rest of a text, which begins at `offset`.  `styledTo` is where the styling ends
that is on, if any is. -/
def Style.highlightFrom (style : Style) :
    (offset : Nat) → (styledTo : Option Nat) → List Token → Bytes → Bytes
  | _, none, _, [] => []
  | _, some _, _, [] => Ansi.reset
  | offset, styledTo, tokens, c :: rest =>
    let ends := styledTo = some offset
    let starts := style.startsAt offset (if ends then none else styledTo) tokens
    (if ends then Ansi.reset else []) ++ starts.codes
      ++ c :: style.highlightFrom (offset + 1) starts.styledTo starts.tokens rest

/-- The text with its tokens styled. -/
def Style.highlight (style : Style) (tokens : List Token) (text : Bytes) : Bytes :=
  style.highlightFrom 0 none tokens text

end RustScan
