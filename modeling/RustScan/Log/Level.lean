import RustScan.Display.Terminal

/-!
# Levels of log records

A level is a rank on a scale of integers; the higher, the more urgent.  Seven ranks have names, from
`Level.trace` to `Level.off`, which is above everything that is ever logged.
-/

set_option autoImplicit false

namespace RustScan.Log

/-- How urgent a record is. -/
structure Level where
  rank : Int
  deriving DecidableEq

namespace Level

def trace : Level := ⟨0⟩
def debug : Level := ⟨1⟩
def info : Level := ⟨2⟩
def warn : Level := ⟨3⟩
def error : Level := ⟨4⟩
def fatal : Level := ⟨5⟩
def off : Level := ⟨6⟩

/-- Levels are ordered by their rank. -/
instance : LE Level := ⟨fun a b => a.rank ≤ b.rank⟩

/-- Levels are ordered by their rank. -/
instance : LT Level := ⟨fun a b => a.rank < b.rank⟩

instance (a b : Level) : Decidable (a ≤ b) := inferInstanceAs (Decidable (a.rank ≤ b.rank))

instance (a b : Level) : Decidable (a < b) := inferInstanceAs (Decidable (a.rank < b.rank))

/-- The level of a rank given in 32 bits with a sign. -/
def ofInt (rank : Int) : Level := ⟨rank.bmod 4294967296⟩

/-- The name in a log. -/
def name (l : Level) : String :=
  match l.rank with
  | 0 => "TRACE"
  | 1 => "DEBUG"
  | 2 => "INFO"
  | 3 => "WARN"
  | 4 => "ERROR"
  | 5 => "FATAL"
  | 6 => "OFF"
  | _ => "???"

/-- The names that levels are chosen by, in small letters or in capitals. -/
def names : List (String × String × Level) :=
  [("trace", "TRACE", trace), ("debug", "DEBUG", debug), ("info", "INFO", info),
   ("warn", "WARN", warn), ("error", "ERROR", error), ("fatal", "FATAL", fatal),
   ("off", "OFF", off)]

/-- The level chosen by a text.  A text that is no name chooses `info`. -/
def ofName (text : Bytes) : Level :=
  match names.find? fun (small, capital, _) => text = ascii small || text = ascii capital with
  | some (_, _, level) => level
  | none => info

/-- The color that the name is shown in. -/
def color (l : Level) : Bytes :=
  match l.rank with
  | 0 => Ansi.brightBlack
  | 1 => Ansi.cyan
  | 2 => Ansi.green
  | 3 => Ansi.yellow
  | 4 => Ansi.red
  | 5 => Ansi.boldRed
  | _ => []

/-- The lower of two levels. -/
def lower (a b : Level) : Level := if b < a then b else a

end Level
end RustScan.Log
