import RustScan.Proofs.Position
import RustScan.Proofs.Reaction
import RustScan.Scan.Eager

/-!
# What a machine finds

A scanner keeps tokens and problems, and both are made from the items that its machine finds.  This
file separates the two: `Machine.run` and `Machine.items` are the machine on a whole text, and
`Scanner.found` is what a scanner makes of a list of items.

* `Scanner.finish_run` — a scanner that has read a text to its end has kept exactly the items that
  its machine finds there.  `scan_problems` is what this says of the problems of a text.
* `Machine.items_of_used`, `Machine.items_of_unused` — a machine in front of a byte, by the reaction
  of its state: a byte that is used is read, and one that is not is left to the state that follows.
  `Machine.items_nil_of_used` and `Machine.items_nil_of_unused` are the same at the end of the
  input, where a line feed is offered that the text does not have.
-/

set_option autoImplicit false

namespace RustScan.Scan

/-! ## A machine on a text -/

namespace Machine

/-- What a machine finds while it reads a text, and the machine behind the text. -/
def run : Machine → Bytes → List Item × Machine
  | m, [] => ([], m)
  | m, c :: rest => ((m.step c).1 ++ ((m.step c).2.run rest).1, ((m.step c).2.run rest).2)

/-- What a machine finds in a text and at the end of it. -/
def items (m : Machine) (text : Bytes) : List Item := (m.run text).1 ++ (m.run text).2.finish.1

theorem run_append (m : Machine) (a b : Bytes) :
    m.run (a ++ b) = ((m.run a).1 ++ ((m.run a).2.run b).1, ((m.run a).2.run b).2) := by
  induction a generalizing m with
  | nil => simp [run]
  | cons c rest ih => simp [run, ih]

theorem items_append (m : Machine) (a b : Bytes) :
    m.items (a ++ b) = (m.run a).1 ++ (m.run a).2.items b := by
  simp [items, run_append]

theorem items_cons (m : Machine) (c : UInt8) (rest : Bytes) :
    m.items (c :: rest) = (m.step c).1 ++ (m.step c).2.items rest := by
  simp [items, run]

/-- The cursor follows the text. -/
theorem run_cursor (m : Machine) (text : Bytes) :
    (m.run text).2.cursor = m.cursor.after text := by
  induction text generalizing m with
  | nil => rfl
  | cons c rest ih => exact ih (m.step c).2

end Machine

/-! ## A scanner and its machine -/

namespace Scanner

/-- The scanner with another machine, and with some items more. -/
def found (s : Scanner) (m : Machine) (items : List Item) : Scanner :=
  items.foldl add { s with machine := m }

/-- Keeping items does not depend on the machine. -/
theorem foldl_add_machine (s : Scanner) (m : Machine) (items : List Item) :
    { items.foldl add s with machine := m } = items.foldl add { s with machine := m } := by
  induction items generalizing s with
  | nil => rfl
  | cons i rest ih => exact ih (s.add i)

theorem found_found (s : Scanner) (m m' : Machine) (items more : List Item) :
    (s.found m items).found m' more = s.found m' (items ++ more) := by
  rw [found, found, found, foldl_add_machine, List.foldl_append]

@[simp] theorem found_machine (s : Scanner) (m : Machine) (items : List Item) :
    (s.found m items).machine = m := by
  rw [found, ← foldl_add_machine]

theorem found_tokens (s : Scanner) (m : Machine) (items : List Item) :
    (s.found m items).tokens = (items.map Item.token).foldl addToken s.tokens := by
  rw [found]
  induction items generalizing s with
  | nil => rfl
  | cons i rest ih => exact ih (s.add i)

theorem found_problems (s : Scanner) (m : Machine) (items : List Item) :
    (s.found m items).problems.toList = s.problems.toList ++ items.filterMap Item.problem? := by
  rw [found]
  induction items generalizing s with
  | nil => simp
  | cons i rest ih =>
    refine (ih (s.add i)).trans ?_
    cases h : i.problem? <;> simp [add, h]

theorem advance_eq (s : Scanner) (act : Machine → List Item × Machine) :
    s.advance act = s.found (act s.machine).2 (act s.machine).1 := rfl

/-- A scanner that reads a text keeps what its machine finds. -/
theorem run_eq (s : Scanner) (text : Bytes) :
    s.run text = s.found (s.machine.run text).2 (s.machine.run text).1 := by
  induction text generalizing s with
  | nil => rfl
  | cons c rest ih =>
    refine (ih (s.step c)).trans ?_
    rw [step, advance_eq, found_machine, found_found, Machine.run]

/-- **A scanner that reads a text to its end keeps the items of the text.** -/
theorem finish_run (s : Scanner) (text : Bytes) :
    (s.run text).finish = s.found (s.machine.run text).2.finish.2 (s.machine.items text) := by
  rw [finish, advance_eq, run_eq, found_machine, found_found, Machine.items]

end Scanner

theorem scan_problems (text : Bytes) :
    (scan text).problems = (({} : Machine).items text).filterMap Item.problem? := by
  rw [scan, Scanner.finish_run, Scanner.found_problems]
  rfl

/-! ## A machine in front of a byte -/

namespace Machine

variable {p : Position} {s : State} {c : UInt8}

/-- A byte that is used is read. -/
theorem items_of_used (h : (s.react p c).used = true) (rest : Bytes) :
    items ⟨p, s⟩ (c :: rest) =
      (s.react p c).items ++ items ⟨p.advance c, (s.react p c).state⟩ rest := by
  rw [items_cons, step, settle_of_used h]

/-- A byte that is not used is left to the state that follows. -/
theorem items_of_unused (h : (s.react p c).used = false) (rest : Bytes) :
    items ⟨p, s⟩ (c :: rest) =
      (s.react p c).items ++ items ⟨p, (s.react p c).state⟩ (c :: rest) := by
  rw [items_cons, items_cons, step, step, settle_of_unused h, List.append_assoc]

theorem items_nil (m : Machine) :
    m.items [] = (m.closeLine.1 ++ m.closeLine.2.unfinished).map (Item.clip m.cursor.offset) := rfl

/-- At the end of a closed line an open lexeme is reported as it is. -/
theorem items_nil_of_column_eq_zero (h : p.column = 0) :
    items ⟨p, s⟩ [] = s.unfinished.map (Item.clip p.offset) := by
  rw [items_nil, closeLine, if_pos h, List.nil_append]

/-- A line feed that is used at the end of the input. -/
theorem items_nil_of_used (hp : p.column ≠ 0) (h : (s.react p Bytes.lf).used = true) :
    items ⟨p, s⟩ [] =
      ((s.react p Bytes.lf).items ++ (s.react p Bytes.lf).state.unfinished).map
        (Item.clip p.offset) := by
  rw [items_nil, closeLine, if_neg hp, settle_of_used h]

/-- A line feed that is not used at the end of the input is left to the state that follows. -/
theorem items_nil_of_unused (hp : p.column ≠ 0) (h : (s.react p Bytes.lf).used = false) :
    items ⟨p, s⟩ [] =
      (s.react p Bytes.lf).items.map (Item.clip p.offset) ++
        items ⟨p, (s.react p Bytes.lf).state⟩ [] := by
  rw [items_nil, items_nil, closeLine, closeLine, if_neg hp, if_neg hp, settle_of_unused h]
  simp

/-! ## A machine between lexemes -/

theorem react_idle_of_isSpace (h : isSpace c = true) :
    State.idle.react p c = ⟨[], .idle, true⟩ := by
  rw [State.react, reactIdle, Opening.ofByte, if_pos h]

/-- Blanks are skipped. -/
theorem items_idle_of_isSpace (h : isSpace c = true) (rest : Bytes) :
    items ⟨p, .idle⟩ (c :: rest) = items ⟨p.advance c, .idle⟩ rest := by
  rw [items_of_used (by rw [react_idle_of_isSpace h]), react_idle_of_isSpace h, List.nil_append]

/-- Between lexemes there is nothing to report at the end. -/
theorem items_idle_nil (p : Position) : items ⟨p, .idle⟩ [] = [] := by
  by_cases hp : p.column = 0
  · rw [items_nil_of_column_eq_zero hp]
    rfl
  · have hlf : State.idle.react p Bytes.lf = ⟨[], .idle, true⟩ := react_idle_of_isSpace (by decide)
    rw [items_nil_of_used hp (by rw [hlf]), hlf]
    rfl

end Machine
end RustScan.Scan
