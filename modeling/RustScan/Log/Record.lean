import RustScan.Log.Level

/-!
# Log records and how they are written

A record is written as a line of text, which begins with the time of day, or as a line of JSON,
which holds the timestamp of the record.  In JSON only the message is escaped.
-/

set_option autoImplicit false

namespace RustScan.Log

/-- Something worth logging, before anything has decided whether it is. -/
structure Notice where
  level : Level
  /-- The part of the program that has something to say. -/
  component : Bytes
  message : Bytes
  deriving DecidableEq

/-- A notice with the time at which it was given, in milliseconds since the start of 1970. -/
structure Record extends Notice where
  timestamp : Int
  deriving DecidableEq

/-- How records are written. -/
inductive Format where
  | text | json
  deriving DecidableEq

/-! ## The time of day -/

/-- Two decimal digits at least. -/
def twoDigits (n : Nat) : Bytes := Bytes.padLeft 2 '0'.toUInt8 (Bytes.decimal n)

/-- The time of day as `HH:MM:SS.mmm`, from the milliseconds since the start of 1970.  Seconds are
counted toward zero, and the milliseconds have the sign of the time. -/
def timeOfDay (now : Int) : Bytes :=
  let seconds := ((now.tdiv 1000).emod 86400).toNat
  twoDigits (seconds / 3600) ++ ascii ":" ++ twoDigits (seconds / 60 % 60) ++ ascii ":"
    ++ twoDigits (seconds % 60) ++ ascii "."
    ++ Bytes.padLeft 3 '0'.toUInt8 (Bytes.signedDecimal (now.tmod 1000))

/-! ## Lines -/

/-- A byte of a message inside a JSON string.  Quotes, backslashes, line feeds, carriage returns
and tabs are escaped, and nothing else is. -/
def escapeByte (c : UInt8) : Bytes :=
  if c = '"'.toUInt8 then ascii "\\\""
  else if c = '\\'.toUInt8 then ascii "\\\\"
  else if c = Bytes.lf then ascii "\\n"
  else if c = Bytes.cr then ascii "\\r"
  else if c = Bytes.tab then ascii "\\t"
  else [c]

namespace Record

/-- The record as text, written at time `now`. -/
def text (r : Record) (now : Int) (colors : Bool) : Bytes :=
  timeOfDay now ++ ascii " " ++ (if colors then r.level.color else [])
    ++ Bytes.padRight 5 Bytes.space (ascii r.level.name) ++ (if colors then Ansi.reset else [])
    ++ ascii " [" ++ r.component ++ ascii "] " ++ r.message

/-- The record as a JSON object. -/
def json (r : Record) : Bytes :=
  ascii "\x7b\"ts\":" ++ Bytes.signedDecimal r.timestamp ++ ascii ",\"level\":\""
    ++ ascii r.level.name ++ ascii "\",\"module\":\"" ++ r.component ++ ascii "\",\"msg\":\""
    ++ r.message.flatMap escapeByte ++ ascii "\"\x7d"

/-- The record as a line of a log, written at time `now`. -/
def line (r : Record) (format : Format) (now : Int) (colors : Bool) : Bytes :=
  match format with
  | .text => r.text now colors ++ ascii "\n"
  | .json => r.json ++ ascii "\n"

end Record
end RustScan.Log
