import Mathlib.Data.List.DropRight
import RustScan.Scan.State

/-!
# Positions behind a text

The scanner moves its cursor byte by byte.  This file says where it is after a whole text, and what
happens when a text is read from somewhere else than the start.

* `Position.after p text` — the place behind `text`, if `text` begins at `p`.  Its offset counts the
  bytes, its line the line feeds, and its column the bytes of the last line (`after_offset`,
  `after_line`, `after_start_column`).
* `Position.shift base p` — the place that is at `p` as seen from `base`.  Columns add up only on
  the first line, which is the one that `base` lies in.  Moving on commutes with it, by a byte
  (`shift_advance`) and along a line (`shift_right`).
-/

set_option autoImplicit false

namespace RustScan.Scan
namespace Position

/-! ## Reading a text -/

/-- The place behind a text that begins here. -/
def after (p : Position) (text : Bytes) : Position := text.foldl advance p

@[simp] theorem after_nil (p : Position) : p.after [] = p := rfl

@[simp] theorem after_cons (p : Position) (c : UInt8) (text : Bytes) :
    p.after (c :: text) = (p.advance c).after text := rfl

@[simp] theorem after_append (p : Position) (a b : Bytes) :
    p.after (a ++ b) = (p.after a).after b :=
  List.foldl_append

@[simp] theorem advance_offset (p : Position) (c : UInt8) :
    (p.advance c).offset = p.offset + 1 := by
  rw [advance]
  split <;> rfl

@[simp] theorem after_offset (p : Position) (text : Bytes) :
    (p.after text).offset = p.offset + text.length := by
  induction text generalizing p with
  | nil => rfl
  | cons c rest ih =>
    rw [after_cons, ih, advance_offset, List.length_cons]
    omega

theorem after_line (p : Position) (text : Bytes) :
    (p.after text).line = p.line + text.count Bytes.lf := by
  induction text generalizing p with
  | nil => rfl
  | cons c rest ih =>
    rw [after_cons, ih, List.count_cons, advance]
    by_cases h : c = Bytes.lf
    · simp only [h, if_true, beq_self_eq_true]
      omega
    · simp [h]

/-- A text of one line only moves the column. -/
theorem after_eq_right {text : Bytes} (p : Position) (h : Bytes.lf ∉ text) :
    p.after text = p.right text.length := by
  induction text generalizing p with
  | nil => rfl
  | cons c rest ih =>
    rw [List.mem_cons, not_or] at h
    obtain ⟨hc, hrest⟩ := h
    rw [after_cons, ih _ hrest, advance, if_neg (Ne.symm hc)]
    simp only [right, List.length_cons, mk.injEq, true_and]
    omega

/-- Behind a byte the column is zero only if the byte is a line feed. -/
theorem advance_column_eq_zero {p : Position} {c : UInt8} :
    (p.advance c).column = 0 ↔ c = Bytes.lf := by
  by_cases h : c = Bytes.lf
  · simp [advance, h]
  · simp [advance, h]

/-- Behind bytes without a line feed the line is open. -/
theorem after_column_ne_zero {p : Position} {text : Bytes} (hne : text ≠ [])
    (hlf : Bytes.lf ∉ text) : (p.after text).column ≠ 0 := by
  rcases List.eq_nil_or_concat text with rfl | ⟨front, c, rfl⟩
  · exact absurd rfl hne
  · rw [List.concat_eq_append, after_append, after_cons, after_nil, Ne, advance_column_eq_zero]
    rintro rfl
    exact hlf (by simp)

/-- From the start the column counts the bytes behind the last line feed. -/
theorem after_start_column (text : Bytes) :
    (({} : Position).after text).column = (text.rtakeWhile (· ≠ Bytes.lf)).length := by
  -- the column is decided by the end of the text, so the induction is from there
  induction text using List.reverseRecOn with
  | nil => rfl
  | append_singleton front c ih =>
    rw [after_append, List.rtakeWhile_concat]
    by_cases h : c = Bytes.lf
    · simp [advance, h]
    · simpa [advance, h] using ih

/-! ## Reading from somewhere else -/

/-- The place that is at `p` as seen from `base`. -/
def shift (base p : Position) : Position :=
  { line := base.line + p.line
    column := if p.line = 0 then base.column + p.column else p.column
    offset := base.offset + p.offset }

@[simp] theorem shift_offset (base p : Position) :
    (base.shift p).offset = base.offset + p.offset := rfl

@[simp] theorem shift_start (base : Position) : base.shift {} = base := rfl

theorem shift_advance (base p : Position) (c : UInt8) :
    base.shift (p.advance c) = (base.shift p).advance c := by
  by_cases h : c = Bytes.lf
  · simp [advance, shift, h, Nat.add_assoc]
  · by_cases hl : p.line = 0 <;> simp [advance, shift, h, hl, Nat.add_assoc]

theorem shift_right (base p : Position) (n : Nat) :
    base.shift (p.right n) = (base.shift p).right n := by
  by_cases hl : p.line = 0 <;> simp [right, shift, hl, Nat.add_assoc]

end Position
end RustScan.Scan
