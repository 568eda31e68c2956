import RustScan.Log.Level

/-!
# Filters

A filter decides which notices are logged: those at or above the level of their component, or at or
above the default level if the component has none of its own.

A filter is written as a list of directives with commas between them.  `lexer=debug` sets the level
of a component, `*=warn` the default, and a component alone lets everything from it through.
-/

set_option autoImplicit false

namespace RustScan.Log

/-- Which notices are logged. -/
structure Filter where
  /-- The level of the components that have none of their own. -/
  fallback : Level := .info
  /-- The components that have a level of their own, each of them once. -/
  components : List (Bytes × Level) := []
  deriving DecidableEq

/-- One entry of a written filter. -/
inductive Directive where
  | fallback (level : Level)
  | component (name : Bytes) (level : Level)
  deriving DecidableEq

/-- Reads one entry of a written filter; an empty entry says nothing. -/
def Directive.ofBytes? (entry : Bytes) : Option Directive :=
  match Bytes.splitFirst? '='.toUInt8 entry with
  | some (name, level) =>
    if name = ascii "*" then some (.fallback (.ofName level))
    else some (.component name (.ofName level))
  | none => if entry = [] then none else some (.component entry .trace)

namespace Filter

/-- Follows a directive.  The last one for a component holds. -/
def apply (f : Filter) : Directive → Filter
  | .fallback level => { f with fallback := level }
  | .component name level =>
    { f with components := (name, level) :: f.components.filter (·.1 ≠ name) }

/-- Forgets the levels of all components and follows the directives of a written filter.  The
default stays as it is unless a directive changes it. -/
def read (f : Filter) (text : Bytes) : Filter :=
  ((Bytes.split ','.toUInt8 text).filterMap Directive.ofBytes?).foldl apply
    { f with components := [] }

/-- The level from which on a component is logged. -/
def levelOf (f : Filter) (component : Bytes) : Level :=
  (f.components.lookup component).getD f.fallback

/-- Whether a notice of this level and component is logged. -/
def accepts (f : Filter) (level : Level) (component : Bytes) : Bool := f.levelOf component ≤ level

/-- The lowest level from which on some component is logged. -/
def lowest (f : Filter) : Level := f.components.foldl (fun l c => l.lower c.2) f.fallback

end Filter
end RustScan.Log
