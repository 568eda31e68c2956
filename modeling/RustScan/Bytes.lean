/-!
# Byte strings

Source text, file names, log messages and everything the program prints are byte strings: lists of
`UInt8`, with no encoding assumed.  This file holds the few operations on them that the rest of the
library is written with: fixed texts (`ascii`), numbers (`decimal`, `signedDecimal`), padding,
cutting at a separator (`split`, `splitFirst?`) and reading past a fixed lead (`after?`).
-/

set_option autoImplicit false

namespace RustScan

/-- A string of bytes. -/
abbrev Bytes := List UInt8

/-- The byte string of a fixed ASCII text. -/
def ascii (text : String) : Bytes := text.toList.map Char.toUInt8

namespace Bytes

/-- The line feed, which ends a line. -/
def lf : UInt8 := '\n'.toUInt8

/-- The carriage return. -/
def cr : UInt8 := '\r'.toUInt8

/-- The horizontal tab. -/
def tab : UInt8 := '\t'.toUInt8

/-- The blank. -/
def space : UInt8 := ' '.toUInt8

/-- The decimal digits of a number, without leading zeros. -/
def decimal (n : Nat) : Bytes := (Nat.toDigits 10 n).map Char.toUInt8

/-- An integer in decimal, with a minus sign in front of a negative one. -/
def signedDecimal (n : Int) : Bytes :=
  if n < 0 then '-'.toUInt8 :: decimal n.natAbs else decimal n.natAbs

/-- Fills `text` up to `width` bytes with copies of `fill` in front of it. -/
def padLeft (width : Nat) (fill : UInt8) (text : Bytes) : Bytes :=
  List.replicate (width - text.length) fill ++ text

/-- Fills `text` up to `width` bytes with copies of `fill` behind it. -/
def padRight (width : Nat) (fill : UInt8) (text : Bytes) : Bytes :=
  text ++ List.replicate (width - text.length) fill

/-- The pieces of a byte string between the occurrences of `sep`.  There is always one piece more
than there are occurrences, and pieces may be empty. -/
def split (sep : UInt8) : Bytes → List Bytes
  | [] => [[]]
  | c :: rest =>
    if c = sep then [] :: split sep rest
    else match split sep rest with
      | [] => [[c]]
      | piece :: pieces => (c :: piece) :: pieces

/-- What stands before and after the first occurrence of `sep`, if there is one. -/
def splitFirst? (sep : UInt8) : Bytes → Option (Bytes × Bytes)
  | [] => none
  | c :: rest =>
    if c = sep then some ([], rest)
    else (splitFirst? sep rest).map fun (before, behind) => (c :: before, behind)

/-- What follows `lead` in a byte string that begins with it. -/
def after? : (lead text : Bytes) → Option Bytes
  | [], text => some text
  | _ :: _, [] => none
  | l :: lead, c :: text => if l = c then after? lead text else none

end Bytes
end RustScan
