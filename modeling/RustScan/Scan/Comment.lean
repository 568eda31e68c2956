import RustScan.Scan.State

/-!
# Comments

Line comments end in front of the line feed.  Block comments nest, and are complete when as many
have been closed as were opened.  What a comment documents is decided by its first bytes: `//!` and
`/*!` document the enclosing item, `///` and `/**` the following one, but a fourth slash or a third
star makes the comment plain again, and so is the empty `/**/`.
-/

set_option autoImplicit false

namespace RustScan.Scan

/-- Behind a slash outside of comments. -/
def Mode.reactSlash (lx : Lexeme) (c : UInt8) : Reaction :=
  if c = '/'.toUInt8 then .extend lx c (.lineComment .opened .plain)
  else if c = '*'.toUInt8 then .extend lx c (.blockComment .opened 1 .plain)
  else if c = '='.toUInt8 then .close ((lx.push c).token (.symbol .slashEq))
  else .cut (lx.token (.symbol .slash))

/-- What the byte `c` does to a line comment. -/
def LinePhase.react (phase : LinePhase) (kind : CommentKind) (lx : Lexeme) (c : UInt8) :
    Reaction :=
  if c = Bytes.lf then .cut (lx.token (.comment kind))
  else match phase with
    | opened =>
      if c = '!'.toUInt8 then .extend lx c (.lineComment body .innerDoc)
      else if c = '/'.toUInt8 then .extend lx c (.lineComment tripled .outerDoc)
      else .extend lx c (.lineComment body kind)
    | tripled =>
      if c = '/'.toUInt8 then .extend lx c (.lineComment body .plain)
      else .extend lx c (.lineComment body kind)
    | body => .extend lx c (.lineComment body kind)

/-- What the byte `c` does to a block comment. -/
def BlockPhase.react (phase : BlockPhase) (depth : Nat) (kind : CommentKind) (lx : Lexeme)
    (c : UInt8) : Reaction :=
  match phase with
  | opened =>
    if c = '!'.toUInt8 then .extend lx c (.blockComment body depth .innerDoc)
    else if c = '*'.toUInt8 then .extend lx c (.blockComment openedStar depth kind)
    else if c = '/'.toUInt8 then .extend lx c (.blockComment slash depth kind)
    else .extend lx c (.blockComment body depth kind)
  | openedStar =>
    if c = '/'.toUInt8 then .close ((lx.push c).token (.comment .plain))
    else if c = '*'.toUInt8 then .extend lx c (.blockComment star depth kind)
    else .extend lx c (.blockComment body depth .outerDoc)
  | body =>
    if c = '*'.toUInt8 then .extend lx c (.blockComment star depth kind)
    else if c = '/'.toUInt8 then .extend lx c (.blockComment slash depth kind)
    else .extend lx c (.blockComment body depth kind)
  | star =>
    if c = '/'.toUInt8 then
      if depth ≤ 1 then .close ((lx.push c).token (.comment kind))
      else .extend lx c (.blockComment body (depth - 1) kind)
    else if c = '*'.toUInt8 then .extend lx c (.blockComment star depth kind)
    else .extend lx c (.blockComment body depth kind)
  | slash =>
    if c = '*'.toUInt8 then .extend lx c (.blockComment body (depth + 1) kind)
    else if c = '/'.toUInt8 then .extend lx c (.blockComment slash depth kind)
    else .extend lx c (.blockComment body depth kind)

end RustScan.Scan
