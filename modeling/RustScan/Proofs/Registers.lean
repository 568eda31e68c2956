import RustScan.Proofs.Lines
import RustScan.Proofs.Tracking

/-!
# The registers of a scanner

A state says what is open and how far it has come.  Read as a set of registers, it is a code, the
bytes of the open lexeme and the place where it starts, and a handful of counters and flags that
only some lexemes use.  This file says which values the registers can have together.

* `State.registers` — the registers of a state.  Between lexemes all of them are cleared.
* `Registers.InOrder` — what holds of the registers: which of them a code leaves cleared, how far
  the counters can have come, and that none of them is too large for 32 bits.  The number of digits
  of a number is not kept in the state, which has a flag for it; the flag is up exactly if the
  number is not zero.
* `Stream.Reachable` — the streams that any sequence of requests and of single bytes leads to.
* `Stream.registers_inOrder` — the main statement.
-/

set_option autoImplicit false

namespace RustScan.Scan

/-! ## Registers -/

/-- The position is the same in 32 bits. -/
def Position.IsExact (p : Position) : Prop :=
  p.line.toUInt32.toNat = p.line ∧ p.column.toUInt32.toNat = p.column ∧
    p.offset.toUInt32.toNat = p.offset

/-- What a state amounts to.  The values given here are those of cleared registers. -/
structure Registers where
  /-- The code of the state. -/
  code : Nat := 0
  /-- The bytes of the open lexeme. -/
  buffer : Bytes := []
  /-- Where the open lexeme starts. -/
  start : Position := {}
  escape : Escape := .none
  /-- The digits read in an escape. -/
  escapeDigits : Nat := 0
  /-- The characters read in a literal, as far as they matter. -/
  characters : Nat := 0
  /-- The hashes that open a raw string. -/
  openHashes : Nat := 0
  /-- The hashes behind a quote in a raw string. -/
  closeHashes : Nat := 0
  /-- The number of block comments that are open. -/
  depth : Nat := 0
  comment : CommentKind := .plain
  /-- The digits behind a radix prefix or the sign of an exponent. -/
  digits : Nat := 0
  /-- Whether there is such a digit. -/
  hasDigit : Bool := false
  deriving DecidableEq

/-- The digits read in an escape. -/
def Escape.digits : Escape → Nat
  | hex digits => digits
  | unicode digits => digits
  | _ => 0

/-- The hashes behind a quote in a raw string. -/
def RawPhase.seen : RawPhase → Nat
  | closing seen => seen
  | _ => 0

/-- The registers that a mode uses, for a lexeme of these bytes. -/
def Mode.registers (text : Bytes) : Mode → Registers
  | raw _ hashes phase => { openHashes := hashes, closeHashes := phase.seen }
  | quoted _ escape filled =>
    { escape, escapeDigits := escape.digits, characters := if filled then 1 else 0 }
  | number n => { digits := n.digitCount text, hasDigit := n.hasDigit }
  | lineComment _ kind => { comment := kind }
  | blockComment _ depth kind => { depth, comment := kind }
  | _ => {}

/-- The registers of a state. -/
def State.registers : State → Registers
  | idle => {}
  | within mode lx =>
    { mode.registers lx.text with code := mode.code, buffer := lx.text, start := lx.start }

namespace Registers

/-- The codes of the opening, the body and the closing of a raw string. -/
def rawCodes : List Nat := [7, 8, 9]

/-- The code of the closing of a raw string. -/
def rawClosingCode : Nat := 9

/-- The codes of the four literals between quotes. -/
def quotedCodes : List Nat := [12, 13, 14, 15]

/-- The codes of the five parts of a block comment. -/
def blockCommentCodes : List Nat := [29, 30, 31, 32, 33]

/-- The counters among the registers. -/
def counters (r : Registers) : List Nat :=
  [r.escapeDigits, r.characters, r.openHashes, r.closeHashes, r.depth, r.digits]

/-- What holds of the registers of a scanner that is at `cursor` in a source. -/
structure InOrder (source : Source) (cursor : Position) (r : Registers) : Prop where
  /-- Between lexemes there are no bytes, and inside a lexeme there are some. -/
  initial_iff : r.code = 0 ↔ r.buffer = []
  /-- Between lexemes all registers are cleared. -/
  cleared : r.code = 0 → r = {}
  /-- The bytes are those between the start of the lexeme and the cursor. -/
  slice : r.code ≠ 0 → r.start.offset ≤ cursor.offset ∧ cursor.offset ≤ source.content.length ∧
    r.buffer = (source.content.drop r.start.offset).take (cursor.offset - r.start.offset)
  /-- The lexeme starts where the index of lines says. -/
  located : r.code ≠ 0 → r.start.location = source.location r.start.offset
  /-- Comments are open in block comments only.  There the depth is never zero, so taking one off
  leaves a natural number. -/
  depth_iff : 1 ≤ r.depth ↔ r.code ∈ blockCommentCodes
  openHashes : r.openHashes ≠ 0 → r.code ∈ rawCodes
  closeHashes : r.code = rawClosingCode → r.closeHashes < r.openHashes
  escape : r.escape ≠ .none → r.code ∈ quotedCodes
  /-- One digit at most of a hexadecimal escape that is open. -/
  hexDigits : ∀ n, r.escape = .hex n → r.escapeDigits ≤ 1
  /-- Six digits at most of an escape that names a character, and none in front of its brace. -/
  unicodeDigits : (∀ n, r.escape = .unicode n → r.escapeDigits ≤ 6) ∧
    (r.escape = .unicodeLead → r.escapeDigits = 0)
  /-- The flag says whether there are digits. -/
  hasDigit_iff : r.hasDigit = true ↔ r.digits ≠ 0
  /-- Neither the two positions nor the counters are too large for 32 bits. -/
  exact : cursor.IsExact ∧ r.start.IsExact ∧ ∀ n ∈ r.counters, n.toUInt32.toNat = n

end Registers

/-! ## Codes -/

theorem WordMode.code_bounds (w : WordMode) : 1 ≤ w.code ∧ w.code ≤ 6 := by
  cases w <;> decide

theorem RawPhase.code_bounds (phase : RawPhase) : 7 ≤ phase.code ∧ phase.code ≤ 9 := by
  cases phase <;> simp [code]

theorem NumberMode.code_bounds (n : NumberMode) : 16 ≤ n.code ∧ n.code ≤ 24 := by
  cases n with
  | radix r seen => cases r <;> simp [code]
  | _ => simp [code]

namespace Mode

theorem symbolCode_bounds (s : Symbol) : symbolCode s = 0 ∨ 34 ≤ symbolCode s := by
  cases s <;> decide

theorem code_quoted_bounds (q : Quote) (escape : Escape) (filled : Bool) :
    12 ≤ (quoted q escape filled).code ∧ (quoted q escape filled).code ≤ 15 := by
  cases q <;> simp [code]

theorem code_lineComment_bounds (phase : LinePhase) (kind : CommentKind) :
    26 ≤ (lineComment phase kind).code ∧ (lineComment phase kind).code ≤ 28 := by
  cases phase <;> simp [code]

theorem code_blockComment_bounds (phase : BlockPhase) (depth : Nat) (kind : CommentKind) :
    29 ≤ (blockComment phase depth kind).code ∧ (blockComment phase depth kind).code ≤ 33 := by
  cases phase <;> simp [code]

/-- **Some modes are known by their codes.**  A symbol that does not grow has no code of its own,
the closing of a raw string has one, and block comments have five. -/
theorem of_code (mode : Mode) :
    (mode.code = 0 → ∃ s, mode = symbol s) ∧
      (mode.code = 9 → ∃ bytes hashes seen, mode = raw bytes hashes (.closing seen)) ∧
      (29 ≤ mode.code → mode.code ≤ 33 →
        ∃ phase depth kind, mode = blockComment phase depth kind) := by
  cases mode with
  | word w =>
    have hcode : 1 ≤ (word w).code ∧ (word w).code ≤ 6 := w.code_bounds
    refine ⟨?_, ?_, ?_⟩ <;> omega
  | raw bytes hashes phase =>
    have hcode : 7 ≤ (raw bytes hashes phase).code ∧ (raw bytes hashes phase).code ≤ 9 :=
      phase.code_bounds
    refine ⟨by omega, fun hnine => ?_, by omega⟩
    cases phase with
    | closing seen => exact ⟨bytes, hashes, seen, rfl⟩
    | _ => simp [code, RawPhase.code] at hnine
  | quoted q escape filled =>
    have hcode := code_quoted_bounds q escape filled
    refine ⟨?_, ?_, ?_⟩ <;> omega
  | number n =>
    have hcode : 16 ≤ (number n).code ∧ (number n).code ≤ 24 := n.code_bounds
    refine ⟨?_, ?_, ?_⟩ <;> omega
  | lineComment phase kind =>
    have hcode := code_lineComment_bounds phase kind
    refine ⟨?_, ?_, ?_⟩ <;> omega
  | blockComment phase depth kind =>
    have hcode := code_blockComment_bounds phase depth kind
    exact ⟨by omega, by omega, fun _ _ => ⟨phase, depth, kind, rfl⟩⟩
  | symbol s =>
    have hcode : (symbol s).code = 0 ∨ 34 ≤ (symbol s).code := symbolCode_bounds s
    exact ⟨fun _ => ⟨s, rfl⟩, by omega, by omega⟩
  | _ => simp [code]

/-! ## Modes -/

variable {mode : Mode} {text : Bytes}

/-- No mode has the code of the state between lexemes. -/
theorem Tracks.code_ne_zero (h : mode.Tracks text) : mode.code ≠ 0 := by
  intro hzero
  obtain ⟨s, rfl⟩ := mode.of_code.1 hzero
  exact h hzero

theorem Tracks.depth_iff (h : mode.Tracks text) :
    1 ≤ (mode.registers text).depth ↔ mode.code ∈ Registers.blockCommentCodes := by
  have hmem : mode.code ∈ Registers.blockCommentCodes ↔ 29 ≤ mode.code ∧ mode.code ≤ 33 := by
    simp only [Registers.blockCommentCodes, List.mem_cons, List.not_mem_nil, or_false]
    omega
  rw [hmem]
  constructor
  · intro hdepth
    cases mode with
    | blockComment phase depth kind => exact code_blockComment_bounds phase depth kind
    | _ => simp [registers] at hdepth
  · rintro ⟨hge, hle⟩
    obtain ⟨phase, depth, kind, rfl⟩ := mode.of_code.2.2 hge hle
    exact h.2.1

theorem openHashes_mem (h : (mode.registers text).openHashes ≠ 0) :
    mode.code ∈ Registers.rawCodes := by
  cases mode with
  | raw bytes hashes phase => cases phase <;> simp [code, RawPhase.code, Registers.rawCodes]
  | _ => simp [registers] at h

theorem Tracks.closeHashes_lt (h : mode.Tracks text)
    (hcode : mode.code = Registers.rawClosingCode) :
    (mode.registers text).closeHashes < (mode.registers text).openHashes := by
  obtain ⟨bytes, hashes, seen, rfl⟩ := mode.of_code.2.1 hcode
  exact h.2.2

theorem escape_mem (h : (mode.registers text).escape ≠ .none) :
    mode.code ∈ Registers.quotedCodes := by
  cases mode with
  | quoted q escape filled => cases q <;> simp [code, Registers.quotedCodes]
  | _ => simp [registers] at h

/-- An escape that is open is that of a quoted literal, and its digits are counted. -/
theorem Tracks.escape (h : mode.Tracks text) :
    (mode.registers text).escape.Tracks ∧
      (mode.registers text).escapeDigits = (mode.registers text).escape.digits := by
  cases mode with
  | quoted q escape filled => exact ⟨h.2, rfl⟩
  | _ => exact ⟨trivial, rfl⟩

theorem Tracks.hasDigit_iff (h : mode.Tracks text) :
    (mode.registers text).hasDigit = true ↔ (mode.registers text).digits ≠ 0 := by
  cases mode with
  | number n =>
    rw [← Nat.pos_iff_ne_zero]
    cases n with
    | exponent seen => exact h
    | radix r seen => exact h.2
    | _ => simp [registers, NumberMode.hasDigit, NumberMode.digitCount]
  | _ => simp [registers]

/-- A number has no more digits than bytes. -/
theorem digitCount_le (n : NumberMode) (text : Bytes) : n.digitCount text ≤ text.length := by
  cases n with
  | exponent seen =>
    exact List.countP_le_length.trans (List.rtakeWhile_suffix _ _).length_le
  | radix r seen =>
    refine List.countP_le_length.trans ?_
    rw [List.length_drop]
    exact Nat.sub_le _ _
  | _ => exact Nat.zero_le _

/-- **The counters are no larger than the lexeme**, apart from those of single escapes and
characters, which are at most six. -/
theorem Tracks.counters_le (h : mode.Tracks text) :
    ∀ n ∈ (mode.registers text).counters, n ≤ max text.length 6 := by
  intro n hn
  cases mode with
  | raw bytes hashes phase =>
    obtain ⟨-, hhashes, hphase⟩ := h
    have hseen : phase.seen ≤ hashes := by
      cases phase with
      | closing seen => exact Nat.le_of_lt hphase
      | _ => exact Nat.zero_le _
    simp only [registers, Registers.counters, List.mem_cons, List.not_mem_nil, or_false] at hn
    omega
  | quoted q escape filled =>
    have hdigits : escape.digits ≤ 6 := by
      have hescape := h.2
      cases escape with
      | hex digits => exact Nat.le_trans hescape (by decide)
      | unicode digits => exact hescape
      | _ => exact Nat.zero_le _
    have hfilled : (if filled then 1 else 0) ≤ 1 := by split <;> decide
    simp only [registers, Registers.counters, List.mem_cons, List.not_mem_nil, or_false] at hn
    omega
  | number m =>
    have hcount := digitCount_le m text
    simp only [registers, Registers.counters, List.mem_cons, List.not_mem_nil, or_false] at hn
    omega
  | blockComment phase depth kind =>
    obtain ⟨-, -, hdepth⟩ := h
    simp only [registers, Registers.counters, List.mem_cons, List.not_mem_nil, or_false] at hn
    omega
  | _ =>
    simp only [registers, Registers.counters, List.mem_cons, List.not_mem_nil, or_false] at hn
    omega

end Mode

/-! ## States -/

/-- No part of a position counts further than there are bytes in front of it. -/
theorem Position.after_start_le (text : Bytes) :
    (({} : Position).after text).line ≤ text.length ∧
      (({} : Position).after text).column ≤ text.length ∧
      (({} : Position).after text).offset = text.length := by
  refine ⟨?_, ?_, ?_⟩
  · rw [after_line, Nat.zero_add]
    exact List.count_le_length
  · rw [after_start_column]
    exact (List.rtakeWhile_suffix _ _).length_le
  · rw [after_offset, Nat.zero_add]

theorem Position.after_start_isExact {text : Bytes} (h : text.length ≤ Source.maxSize) :
    (({} : Position).after text).IsExact := by
  obtain ⟨hline, hcolumn, hoffset⟩ := after_start_le text
  exact ⟨toNat_toUInt32_of_le (hline.trans h), toNat_toUInt32_of_le (hcolumn.trans h),
    toNat_toUInt32_of_le (hoffset ▸ h)⟩

/-- Cleared registers are in order anywhere. -/
theorem Registers.inOrder_cleared (source : Source) {cursor : Position} (h : cursor.IsExact) :
    ({} : Registers).InOrder source cursor where
  initial_iff := iff_of_true rfl rfl
  cleared _ := rfl
  slice hcode := absurd rfl hcode
  located hcode := absurd rfl hcode
  depth_iff := by decide
  openHashes hne := absurd rfl hne
  closeHashes hcode := absurd hcode (by decide)
  escape hne := absurd rfl hne
  hexDigits _ _ := Nat.zero_le 1
  unicodeDigits := ⟨fun _ _ => Nat.zero_le 6, fun _ => rfl⟩
  hasDigit_iff := by decide
  exact := ⟨h, ⟨rfl, rfl, rfl⟩, by decide⟩

/-- **The registers of a sound state are in order.** -/
theorem State.Sound.inOrder {source : Source} {read rest : Bytes} {s : State} (h : s.Sound read)
    (hcontent : source.content = read ++ rest) (hsize : source.content.length ≤ Source.maxSize) :
    s.registers.InOrder source (({} : Position).after read) := by
  have hread : read.length ≤ source.content.length := by
    rw [hcontent, List.length_append]
    exact Nat.le_add_right _ _
  have hcursor := Position.after_start_isExact (hread.trans hsize)
  obtain ⟨hbehind, htracks⟩ := h
  cases hbehind with
  | idle => exact Registers.inOrder_cleared source hcursor
  | @within mode lx before read_eq start fits =>
    replace htracks : mode.Tracks lx.text := htracks
    have hcode := htracks.code_ne_zero
    have hlen : read.length = before.length + lx.text.length := by
      rw [read_eq, List.length_append]
    have hoffset : lx.start.offset = before.length := by
      rw [start, Position.after_offset, Nat.zero_add]
    have hbefore : source.content.take before.length = before := by
      rw [hcontent, read_eq, List.append_assoc, List.take_left]
    exact {
      initial_iff := iff_of_false hcode fits.ne_nil
      cleared := fun hzero => absurd hzero hcode
      slice := by
        intro _
        show lx.start.offset ≤ (({} : Position).after read).offset ∧
          (({} : Position).after read).offset ≤ source.content.length ∧
          lx.text = (source.content.drop lx.start.offset).take
            ((({} : Position).after read).offset - lx.start.offset)
        rw [Position.after_offset, Nat.zero_add, hoffset, hlen, Nat.add_sub_cancel_left]
        refine ⟨Nat.le_add_right _ _, hlen ▸ hread, ?_⟩
        rw [hcontent, read_eq, List.append_assoc, List.drop_left, List.take_left]
      located := by
        intro _
        show lx.start.location = source.location lx.start.offset
        rw [hoffset, Source.location_eq_after source (by omega), hbefore, start]
      depth_iff := htracks.depth_iff
      openHashes := Mode.openHashes_mem
      closeHashes := htracks.closeHashes_lt
      escape := Mode.escape_mem
      hexDigits := by
        intro n hn
        obtain ⟨hescape, hdigits⟩ := htracks.escape
        replace hn : (mode.registers lx.text).escape = .hex n := hn
        rw [hn] at hescape hdigits
        exact hdigits.le.trans hescape
      unicodeDigits := by
        obtain ⟨hescape, hdigits⟩ := htracks.escape
        refine ⟨fun n hn => ?_, fun hn => ?_⟩
        · replace hn : (mode.registers lx.text).escape = .unicode n := hn
          rw [hn] at hescape hdigits
          exact hdigits.le.trans hescape
        · replace hn : (mode.registers lx.text).escape = .unicodeLead := hn
          rw [hn] at hdigits
          exact hdigits
      hasDigit_iff := htracks.hasDigit_iff
      exact := by
        refine ⟨hcursor, ?_, fun n hn => toNat_toUInt32_of_le ?_⟩
        · show lx.start.IsExact
          rw [start]
          exact Position.after_start_isExact (by omega)
        · have hle := htracks.counters_le n hn
          have hsix : 6 ≤ Source.maxSize := by decide
          omega }

/-! ## Streams -/

namespace Stream

/-- The machine of the stream has read the first part of the text, and the rest is to come. -/
def Sound (text : Bytes) (s : Stream) : Prop :=
  ∃ read, text = read ++ s.rest ∧ s.scanner.machine.Sound read

theorem sound_ofBytes (text : Bytes) : (ofBytes text).Sound text :=
  ⟨[], rfl, Machine.sound_start⟩

/-- A byte goes from the rest to what has been read, and the end of the input leaves the machine
between lexemes. -/
theorem kept_sound (text : Bytes) : Kept (Sound text) where
  byte {s c rest} hrest h := by
    obtain ⟨read, htext, hmachine⟩ := h
    refine ⟨read ++ [c], ?_, ?_⟩
    · rw [htext, hrest, List.append_assoc]
      rfl
    · show (s.scanner.step c).machine.Sound _
      rw [Scanner.step, Scanner.advance_eq, Scanner.found_machine]
      exact hmachine.step c
  finish {s} _ h := by
    obtain ⟨read, htext, hmachine⟩ := h
    refine ⟨read, htext, ?_⟩
    show s.scanner.finish.machine.Sound read
    rw [Scanner.finish, Scanner.advance_eq, Scanner.found_machine]
    exact ⟨hmachine.cursor, State.sound_idle read⟩
  take h := h

/-- The streams that requests and single bytes lead to from the beginning of a text. -/
inductive Reachable (text : Bytes) : Stream → Prop
  | start : Reachable text (ofBytes text)
  /-- A request, which reads as far as it has to. -/
  | answer {s : Stream} (call : Call) (h : Reachable text s) : Reachable text (s.answer call).2
  /-- A single byte. -/
  | step {s : Stream} {c : UInt8} {rest : Bytes} (hrest : s.rest = c :: rest)
      (h : Reachable text s) : Reachable text { s with scanner := s.scanner.step c, rest }

/-- **What is kept holds of all these streams**, if it holds at the beginning. -/
theorem Reachable.keeps {P : Stream → Prop} (hP : Kept P) {text : Bytes} (hstart : P (ofBytes text))
    {s : Stream} (h : Reachable text s) : P s := by
  induction h with
  | start => exact hstart
  | answer call _ ih => exact hP.answer ih call
  | step hrest _ ih => exact hP.byte hrest ih

theorem Reachable.sound {text : Bytes} {s : Stream} (h : Reachable text s) : s.Sound text :=
  h.keeps (kept_sound text) (sound_ofBytes text)

/-- **The registers are in order in every state that a stream gets into.** -/
theorem registers_inOrder (source : Source) (hsize : source.content.length ≤ Source.maxSize)
    (s : Stream) (h : Reachable source.content s) :
    s.scanner.machine.state.registers.InOrder source s.scanner.machine.cursor := by
  obtain ⟨read, hcontent, hcursor, hstate⟩ := h.sound
  rw [hcursor]
  exact hstate.inOrder hcontent hsize

/-- In `1../*` the number is handed out, and the two points are open at offset 1.  Two bytes later a
comment is. -/
theorem registers_inOrder_range :
    let source := Source.ofBytes [] (ascii "1../*")
    let s := ((ofBytes source.content).answer .next).2
    let s' : Stream :=
      { s with scanner := (s.scanner.step '/'.toUInt8).step '*'.toUInt8, rest := [] }
    (s.scanner.machine.state.registers =
        { code := 48, buffer := ascii "..", start := { column := 1, offset := 1 } } ∧
      s.scanner.machine.state.registers.InOrder source s.scanner.machine.cursor) ∧
    s'.scanner.machine.state.registers =
        { code := 29, buffer := ascii "/*", start := { column := 3, offset := 3 }, depth := 1 } ∧
      s'.scanner.machine.state.registers.InOrder source s'.scanner.machine.cursor := by
  intro source s s'
  have hsize : source.content.length ≤ Source.maxSize := by decide
  have hs : Reachable source.content s := .answer .next .start
  have hs' : Reachable source.content s' :=
    .step (by decide : (_ : Bytes) = ['*'.toUInt8])
      (.step (by decide : s.rest = '/'.toUInt8 :: ['*'.toUInt8]) hs)
  exact ⟨⟨by decide, registers_inOrder source hsize s hs⟩, by decide,
    registers_inOrder source hsize s' hs'⟩

end Stream
end RustScan.Scan
