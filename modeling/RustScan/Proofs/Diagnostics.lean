import Mathlib.Order.Interval.Finset.Nat
import RustScan.Display.Diagnostic
import RustScan.Proofs.Problems
import RustScan.Proofs.SourceLines

/-!
# Diagnostics point at their problems

A problem is shown with the line it starts in and carets below that line.  The number of blanks and
carets is cut to the length of the line, so that something is shown for any problem whatever.  This
file says that nothing is cut for the problems that scanning finds: the carets stand below just
those bytes of the malformed lexeme that are in the line.

* `Report` — what a diagnostic says and how it is laid out.  `Problem.render_eq_bytes` says that
  what is printed without colors is the report on the problem, and `Report.idxOf?_bar` that the bars
  of its rows stand below each other.
* `Problem.IsSolid p source` — what scanning knows about a problem: it covers something, begins with
  a byte that is no blank, and is where the index of the source says (`isSolid_of_mem_problems`).
* `Report.PointsAt r p source` — the report shows where the problem is.  A solid problem is enough
  for that (`Problem.IsSolid.pointsAt`).
* `Problem.render_points` — the main statement.
-/

set_option autoImplicit false

namespace RustScan

/-! ## Layout -/

theorem Bytes.length_padLeft {width : Nat} (fill : UInt8) {text : Bytes}
    (h : text.length ≤ width) : (padLeft width fill text).length = width := by
  rw [padLeft, List.length_append, List.length_replicate, Nat.sub_add_cancel h]

theorem Bytes.padLeft_nil (width : Nat) (fill : UInt8) :
    padLeft width fill [] = List.replicate width fill := by
  rw [padLeft, List.append_nil, List.length_nil, Nat.sub_zero]

theorem Bytes.idxOf?_append_cons {c : UInt8} {front : Bytes} (h : c ∉ front) (rest : Bytes) :
    (front ++ c :: rest).idxOf? c = some front.length := by
  induction front with
  | nil => simp [List.idxOf?_cons]
  | cons b front ih =>
    rw [List.mem_cons, not_or] at h
    rw [List.cons_append, List.idxOf?_cons, ih h.2, beq_false_of_ne (Ne.symm h.1)]
    rfl

namespace Scan

/-- What a diagnostic says. -/
structure Report where
  message : Bytes
  /-- The name of the source. -/
  name : Bytes
  /-- The number of the line, counted from one. -/
  line : Nat
  /-- The number of the column, counted from one. -/
  column : Nat
  /-- The text of the line. -/
  text : Bytes
  /-- What stands below the text in front of the carets. -/
  padding : Bytes
  carets : Nat

namespace Report

/-- The bar at the end of the gutter. -/
def bar : UInt8 := '|'.toUInt8

/-- The width of the gutter: that of the number of the line, but at least four. -/
def width (r : Report) : Nat := max 4 (Bytes.decimal r.line).length

/-- A row with something in the gutter and something behind the bar. -/
def row (r : Report) (label beside : Bytes) : Bytes :=
  Bytes.padLeft r.width Bytes.space label ++ ascii " |" ++ beside

/-- The rows with a gutter: an empty one, the line, what stands below it, and an empty one. -/
def rows (r : Report) : List Bytes :=
  [r.row [] [],
    r.row (Bytes.decimal r.line) (ascii " " ++ r.text),
    r.row [] (ascii " " ++ r.padding ++ List.replicate r.carets '^'.toUInt8),
    r.row [] []]

/-- The whole diagnostic. -/
def bytes (r : Report) : Bytes :=
  ascii "error: " ++ r.message ++ ascii "\n"
    ++ ascii "  --> " ++ r.name ++ ascii ":" ++ Bytes.decimal r.line ++ ascii ":"
    ++ Bytes.decimal r.column ++ ascii "\n"
    ++ r.rows.flatMap (· ++ ascii "\n")

/-- The bar is the first of its kind in a row, right behind the gutter and a blank. -/
theorem idxOf?_bar_row (r : Report) {label : Bytes} (beside : Bytes) (hbar : bar ∉ label)
    (hfits : label.length ≤ r.width) : (r.row label beside).idxOf? bar = some (r.width + 1) := by
  have hrow : r.row label beside =
      (Bytes.padLeft r.width Bytes.space label ++ [Bytes.space]) ++ bar :: beside := by
    rw [row, List.append_assoc, List.append_assoc]
    rfl
  have hspace : bar ≠ Bytes.space := by decide
  have hout : bar ∉ Bytes.padLeft r.width Bytes.space label ++ [Bytes.space] := by
    simp [Bytes.padLeft, hbar, hspace]
  rw [hrow, Bytes.idxOf?_append_cons hout, List.length_append, Bytes.length_padLeft _ hfits]
  rfl

/-- **The bars of all rows stand below each other.** -/
theorem idxOf?_bar (r : Report) : ∀ row ∈ r.rows, row.idxOf? bar = some (r.width + 1) := by
  have hempty : bar ∉ ([] : Bytes) := List.not_mem_nil
  have hnumber : bar ∉ Bytes.decimal r.line := by
    intro hmem
    exact absurd (Bytes.isDigit_of_mem_decimal hmem) (by decide)
  intro row hrow
  simp only [rows, List.mem_cons, List.not_mem_nil, or_false] at hrow
  rcases hrow with rfl | rfl | rfl | rfl
  · exact r.idxOf?_bar_row _ hempty (Nat.zero_le _)
  · exact r.idxOf?_bar_row _ hnumber (Nat.le_max_right _ _)
  · exact r.idxOf?_bar_row _ hempty (Nat.zero_le _)
  · exact r.idxOf?_bar_row _ hempty (Nat.zero_le _)

theorem lf_notMem_row {r : Report} {label beside : Bytes} (hlabel : Bytes.lf ∉ label)
    (hbeside : Bytes.lf ∉ beside) : Bytes.lf ∉ r.row label beside := by
  have hbar : Bytes.lf ∉ ascii " |" := by decide
  have hspace : Bytes.lf ≠ Bytes.space := by decide
  simp [row, Bytes.padLeft, hbar, hspace, hlabel, hbeside]

end Report

/-! ## Reports on problems -/

namespace Problem

/-- The report on a problem. -/
def report (p : Problem) (source : Source) : Report :=
  let text := source.line p.location.line.toNat
  { message := p.message
    name := source.name
    line := p.lineNumber
    column := p.columnNumber
    text
    padding := p.indent text
    carets := p.carets text }

/-- What is printed without colors is the report. -/
theorem render_eq_bytes (p : Problem) (source : Source) :
    p.render false source = (p.report source).bytes := by
  have herror : ascii "error: " = ascii "error" ++ ascii ": " := by decide
  have hbar : ascii " | " = ascii " |" ++ ascii " " := by decide
  have hwidth : (p.report source).width = p.width := rfl
  unfold render
  simp only [Report.bytes, Report.rows, Report.row, hwidth, herror, hbar, Bytes.padLeft_nil, paint,
    emptyRow, Bool.false_eq_true, if_false, List.flatMap_cons, List.flatMap_nil, List.append_assoc,
    List.append_nil, List.nil_append]
  rfl

theorem length_padding_le (p : Problem) (source : Source) :
    (p.report source).padding.length ≤ (source.line p.location.line.toNat).length := by
  have hpadding : (p.report source).padding = p.indent (source.line p.location.line.toNat) := rfl
  rw [hpadding, indent, List.length_map, List.length_take]
  exact Nat.min_le_right _ _

theorem mem_padding {p : Problem} {source : Source} {c : UInt8}
    (h : c ∈ (p.report source).padding) : c = Bytes.tab ∨ c = Bytes.space := by
  obtain ⟨b, -, rfl⟩ := List.mem_map.1 h
  split
  · exact Or.inl rfl
  · exact Or.inr rfl

theorem one_le_carets (p : Problem) (source : Source) : 1 ≤ (p.report source).carets :=
  Nat.le_max_left _ _

/-- No row of a report is broken. -/
theorem lf_notMem_rows (p : Problem) (source : Source) :
    ∀ row ∈ (p.report source).rows, Bytes.lf ∉ row := by
  have hempty : Bytes.lf ∉ ([] : Bytes) := List.not_mem_nil
  have hspace : Bytes.lf ∉ ascii " " := by decide
  have hnumber : Bytes.lf ∉ Bytes.decimal p.lineNumber := by
    intro hmem
    exact absurd (Bytes.isDigit_of_mem_decimal hmem) (by decide)
  have hpadding : Bytes.lf ∉ (p.report source).padding := by
    intro hmem
    exact absurd (mem_padding hmem) (by decide)
  have hcarets (n : Nat) : Bytes.lf ∉ List.replicate n '^'.toUInt8 := by
    intro hmem
    exact absurd (List.eq_of_mem_replicate hmem) (by decide)
  intro row hrow
  simp only [Report.rows, List.mem_cons, List.not_mem_nil, or_false] at hrow
  rcases hrow with rfl | rfl | rfl | rfl
  · exact Report.lf_notMem_row hempty hempty
  · refine Report.lf_notMem_row hnumber ?_
    exact List.not_mem_append hspace (source.lf_notMem_line _)
  · refine Report.lf_notMem_row hempty ?_
    exact List.not_mem_append (List.not_mem_append hspace hpadding) (hcarets _)
  · exact Report.lf_notMem_row hempty hempty

/-! ## Problems of a text -/

/-- What scanning knows about a problem of a source. -/
structure IsSolid (p : Problem) (source : Source) : Prop where
  /-- It is where the index of the source says. -/
  located : p.location = source.location p.location.offset.toNat
  opens : ∃ c, source.content[p.location.offset.toNat]? = some c ∧ c ∉ Bytes.blanks
  nonempty : 1 ≤ p.length.toNat

end Problem

theorem Item.token_of_problem? {i : Item} {p : Problem} (h : i.problem? = some p) :
    i.token = p.token := by
  obtain ⟨start, length, finding⟩ := i
  cases finding with
  | token kind text => exact absurd h (by simp [problem?])
  | fault f =>
    obtain rfl := Option.some_inj.1 h
    rfl

/-- **The problems that scanning finds are solid.** -/
theorem isSolid_of_mem_problems {source : Source} (hsize : source.content.length ≤ Source.maxSize)
    {p : Problem} (hp : p ∈ (scan source.content).problems) : p.IsSolid source := by
  rw [scan_problems] at hp
  obtain ⟨i, hi, hip⟩ := List.mem_filterMap.1 hp
  have hplace : p.token.place = i.place := by
    rw [← Item.token_of_problem? hip]
    exact Machine.token_place_of_mem_items hsize hi
  have hoffset : p.location.offset.toNat = i.start.offset := congrArg (·.1.offset) hplace
  have hlength : p.length.toNat = i.length := congrArg Prod.snd hplace
  have htiles := Machine.items_tiles {} source.content source.content rfl
  have hspan : i.span ∈ (({} : Machine).items source.content).map Item.span :=
    List.mem_map_of_mem hi
  refine ⟨?_, ?_, ?_⟩
  · rw [hoffset, Item.location_of_problem? hip, location_of_mem_items source hi]
  · rw [hoffset]
    exact htiles.opens _ hspan
  · rw [hlength]
    exact (htiles.bounds _ hspan).2.1

namespace Problem

/-- The offsets that a problem covers. -/
def offsets (p : Problem) : Finset Nat :=
  Finset.Ico p.location.offset.toNat (p.location.offset.toNat + p.length.toNat)

/-- Where the line that a problem starts in starts. -/
def lineStart (p : Problem) : Nat := p.location.offset.toNat - p.location.column.toNat

end Problem

/-- A report shows where a problem of a source is. -/
structure Report.PointsAt (r : Report) (p : Problem) (source : Source) : Prop where
  line : r.line = p.location.line.toNat + 1
  column : r.column = p.location.column.toNat + 1
  text : r.text = source.line p.location.line.toNat
  /-- The text stands in the source from the start of the line on. -/
  placed : p.location.column.toNat ≤ p.location.offset.toNat ∧
    r.text <+: source.content.drop p.lineStart
  /-- The problem begins inside the text. -/
  inside : p.location.column.toNat < r.text.length
  byte : r.text[p.location.column.toNat]? = source.content[p.location.offset.toNat]?
  length_padding : r.padding.length = p.location.column.toNat
  /-- There are tabs below tabs and blanks below everything else. -/
  padding : ∀ k < p.location.column.toNat,
    r.padding[k]? = some (if r.text[k]? = some Bytes.tab then Bytes.tab else Bytes.space)
  /-- There is a caret for every byte of the problem that stands in the text. -/
  carets : r.carets = (p.offsets ∩ Finset.Ico p.lineStart (p.lineStart + r.text.length)).card
  caret : 1 ≤ r.carets

namespace Problem

theorem toNat_add_one {x : UInt32} (h : x.toNat < Source.maxSize) :
    (x + 1).toNat = x.toNat + 1 := by
  have hlt : x.toNat + 1 < 2 ^ 32 := Nat.add_lt_of_lt_sub h
  rw [UInt32.toNat_add]
  exact Nat.mod_eq_of_lt hlt

theorem getElem?_indent {p : Problem} {text : Bytes} {k : Nat}
    (hk : k < p.location.column.toNat) (hlt : k < text.length) :
    (p.indent text)[k]? =
      some (if text[k]? = some Bytes.tab then Bytes.tab else Bytes.space) := by
  rw [indent, List.getElem?_map, List.getElem?_take_of_lt hk, List.getElem?_eq_getElem hlt]
  simp

/-- No caret is cut off or made up if the problem begins inside the text. -/
theorem carets_eq_card {p : Problem} {text : Bytes}
    (hle : p.location.column.toNat ≤ p.location.offset.toNat)
    (hlt : p.location.column.toNat < text.length) (hlen : 1 ≤ p.length.toNat) :
    p.carets text =
      (p.offsets ∩ Finset.Ico p.lineStart (p.lineStart + text.length)).card := by
  rw [offsets, lineStart, Finset.Ico_inter_Ico, Nat.card_Ico, carets]
  omega

/-- The line of a solid problem counts the line feeds in front of it. -/
theorem IsSolid.line_eq {p : Problem} {source : Source} (h : p.IsSolid source) :
    p.location.line.toNat = (source.content.take p.location.offset.toNat).count Bytes.lf := by
  have hfits : p.location.offset.toNat < UInt32.size := p.location.offset.toNat_lt
  have hline := congrArg (·.line.toNat) h.located
  exact hline.trans (source.toNat_location_line (source.count_take_lt_size hfits))

/-- The column of a solid problem counts the bytes from the start of its line on. -/
theorem IsSolid.column_eq {p : Problem} {source : Source} (h : p.IsSolid source) :
    LineIndex.lastStart (source.content.take p.location.offset.toNat) +
      p.location.column.toNat = p.location.offset.toNat := by
  have hcolumn := source.toNat_location_column p.location.offset.toNat_lt
  rwa [← h.located] at hcolumn

/-- **The report on a solid problem points at it.** -/
theorem IsSolid.pointsAt {p : Problem} {source : Source} (h : p.IsSolid source)
    (hsize : source.content.length ≤ Source.maxSize) : (p.report source).PointsAt p source := by
  obtain ⟨c, hget, hsolid⟩ := h.opens
  obtain ⟨before, row, behind, hisLine, hbefore⟩ :=
    Bytes.exists_isLine_take source.content p.location.offset.toNat
  have hn := (List.getElem?_eq_some_iff.1 hget).1
  have hcolumn := h.column_eq
  rw [← hbefore] at hcolumn
  have hstart : p.lineStart = before.length := by
    rw [lineStart]
    omega
  have htext : (p.report source).text =
      source.line ((source.content.take p.location.offset.toNat).count Bytes.lf) := by
    rw [← h.line_eq]
    rfl
  have hbyte : (p.report source).text[p.location.column.toNat]? = some c := by
    have hcr : c ≠ Bytes.cr := fun hc => hsolid (hc ▸ by decide)
    have hlf : c ≠ Bytes.lf := fun hc => hsolid (hc ▸ by decide)
    have hfound := source.getElem?_line_of_isLine hisLine (by omega) hget hcr hlf
    rwa [← Nat.eq_sub_of_add_eq' hcolumn, ← htext] at hfound
  have hinside := (List.getElem?_eq_some_iff.1 hbyte).1
  constructor
  case line =>
    have hcount : (source.content.take p.location.offset.toNat).count Bytes.lf ≤
        (source.content.take p.location.offset.toNat).length := List.count_le_length
    rw [← h.line_eq, List.length_take] at hcount
    exact toNat_add_one (by omega)
  case column => exact toNat_add_one (by omega)
  case text => rfl
  case placed =>
    refine ⟨by omega, ?_⟩
    rw [hstart, hisLine.drop_before, htext]
    exact (source.line_prefix hisLine).trans (List.prefix_append row behind)
  case inside => exact hinside
  case byte => rw [hbyte, hget]
  case length_padding =>
    have hpadding : (p.report source).padding = p.indent (p.report source).text := rfl
    rw [hpadding, indent, List.length_map, List.length_take]
    omega
  case padding =>
    intro k hk
    exact getElem?_indent hk (hk.trans hinside)
  case carets => exact carets_eq_card (by omega) hinside h.nonempty
  case caret => exact p.one_le_carets source

end Problem

/-- **Diagnostics point at their problems.**  Whatever a stream has been asked, the report on a
problem that it has found shows the problem, with its line and its column counted from one and with
carets below its bytes.  For any problem whatever, the report is printed in rows whose bars stand
below each other, there is no more padding than text, and there is at least one caret. -/
theorem Problem.render_points (source : Source)
    (hsize : source.content.length ≤ Source.maxSize) :
    (∀ calls, ∀ p ∈ ((Stream.ofBytes source.content).answers calls).2.scanner.problems,
      (p.report source).PointsAt p source) ∧
    ∀ p : Problem,
      p.render false source = (p.report source).bytes ∧
      (∀ row ∈ (p.report source).rows, Bytes.lf ∉ row ∧
        row.idxOf? Report.bar = some (max 4 (Bytes.decimal (p.report source).line).length + 1)) ∧
      (∀ c ∈ (p.report source).padding, c = Bytes.tab ∨ c = Bytes.space) ∧
      (p.report source).padding.length ≤ (source.line p.location.line.toNat).length ∧
      1 ≤ (p.report source).carets := by
  refine ⟨?_, ?_⟩
  · intro calls p hp
    have hprefix := Stream.problems_answers_prefix source.content calls
    have hmem := hprefix.subset (Array.mem_toList_iff.2 hp)
    exact (isSolid_of_mem_problems hsize hmem).pointsAt hsize
  · intro p
    refine ⟨p.render_eq_bytes source, ?_, ?_, p.length_padding_le source, p.one_le_carets source⟩
    · intro row hrow
      exact ⟨lf_notMem_rows p source row hrow, (p.report source).idxOf?_bar row hrow⟩
    · intro c hc
      exact mem_padding hc

/-- A string that nothing closes, behind a tab and over two lines. -/
theorem Problem.render_points_two_lines :
    let source := Source.ofBytes (ascii "m") (ascii "\t~ \"a\nb")
    let p : Problem := ⟨(Fault.openQuote .str).message, ⟨0, 3, 3⟩, 4⟩
    source.content.length ≤ Source.maxSize ∧
      p ∈ ((Stream.ofBytes source.content).answers [.rest]).2.scanner.problems ∧
      (p.report source).PointsAt p source ∧ (p.report source).carets = 2 ∧
      p.render false source = ascii "error: unterminated string literal\n  --> m:1:4\n" ++
        ascii "     |\n   1 | \t~ \"a\n     | \t  ^^\n     |\n" := by
  intro source p
  have hsize : source.content.length ≤ Source.maxSize := by decide
  have hp : p ∈ ((Stream.ofBytes source.content).answers [.rest]).2.scanner.problems := by
    have hproblems := Stream.drain_problems source.content
    have hmem : p ∈ (scan source.content).problems := by decide +kernel
    rw [← hproblems] at hmem
    exact Array.mem_toList_iff.1 hmem
  obtain ⟨hpoints, hprinted⟩ := render_points source hsize
  have hshown := hpoints [.rest] p hp
  refine ⟨hsize, hp, hshown, hshown.carets.trans (by decide), ?_⟩
  exact (hprinted p).1.trans (by decide +kernel)

end Scan
end RustScan
