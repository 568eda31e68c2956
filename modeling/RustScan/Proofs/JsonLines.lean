import RustScan.Proofs.ByteStrings
import RustScan.Proofs.Sinks

/-!
# Reading JSON lines back

A sink in JSON format writes a line for every record.  Only messages are escaped, so a record can be
had back from its line if its component holds no quote and no line feed; the message may hold
anything.

* `unescape?` — the text of a JSON string up to its closing quote.  `unescape?_escape` says that it
  undoes the escapes of a message, whatever follows the quote.
* `Record.ofJson?` — the record that is written on a line.
* `Record.IsPlain` — records that can be had back, and `Record.ofJson?_json` that they are.  A line
  holds no line feed (`Record.IsPlain.lf_notMem_json`).
* `Sink.ofJson?_split_received` — **the lines of a sink are the records it was given**, in order.
-/

set_option autoImplicit false

namespace RustScan.Log

/-! ## Escapes -/

/-- The byte that another one behind a backslash stands for. -/
def unescapeByte? (c : UInt8) : Option UInt8 :=
  if c = '"'.toUInt8 then some '"'.toUInt8
  else if c = '\\'.toUInt8 then some '\\'.toUInt8
  else if c = 'n'.toUInt8 then some Bytes.lf
  else if c = 'r'.toUInt8 then some Bytes.cr
  else if c = 't'.toUInt8 then some Bytes.tab
  else none

/-- Undoes the escapes up to the first quote that is not escaped.  The result is the text in front
of that quote, and what follows it. -/
def unescape? : Bytes → Option (Bytes × Bytes)
  | [] => none
  | c :: rest =>
    if c = '"'.toUInt8 then some ([], rest)
    else if c = '\\'.toUInt8 then
      match rest with
      | [] => none
      | d :: rest => do
        let b ← unescapeByte? d
        let (text, behind) ← unescape? rest
        some (b :: text, behind)
    else do
      let (text, behind) ← unescape? rest
      some (c :: text, behind)

theorem unescape?_quote (rest : Bytes) : unescape? ('"'.toUInt8 :: rest) = some ([], rest) := by
  cases rest <;> rw [unescape?, if_pos rfl]

theorem unescape?_cons {c : UInt8} (hquote : c ≠ '"'.toUInt8) (hbackslash : c ≠ '\\'.toUInt8)
    (rest : Bytes) :
    unescape? (c :: rest) =
      (unescape? rest).bind fun (text, behind) => some (c :: text, behind) := by
  cases rest with
  | nil => simp [unescape?, hquote, hbackslash]
  | cons d rest =>
    rw [unescape?, if_neg hquote, if_neg hbackslash]
    rfl

theorem unescape?_escapeByte (c : UInt8) (rest : Bytes) :
    unescape? (escapeByte c ++ rest) =
      (unescape? rest).bind fun (text, behind) => some (c :: text, behind) := by
  rw [escapeByte]
  split_ifs with hquote hbackslash hlf hcr htab
  · rw [hquote]
    rfl
  · rw [hbackslash]
    rfl
  · rw [hlf]
    rfl
  · rw [hcr]
    rfl
  · rw [htab]
    rfl
  · exact unescape?_cons hquote hbackslash rest

/-- **The escapes of a message are undone up to the quote that closes it.** -/
theorem unescape?_escape (message rest : Bytes) :
    unescape? (message.flatMap escapeByte ++ '"'.toUInt8 :: rest) = some (message, rest) := by
  induction message with
  | nil => exact unescape?_quote rest
  | cons c message ih =>
    rw [List.flatMap_cons, List.append_assoc, unescape?_escapeByte, ih]
    rfl

/-- An escaped byte is never a line feed. -/
theorem lf_notMem_escapeByte (c : UInt8) : Bytes.lf ∉ escapeByte c := by
  rw [escapeByte]
  split_ifs with hquote hbackslash hlf hcr htab
  · decide
  · decide
  · decide
  · decide
  · decide
  · rw [List.mem_singleton]
    exact Ne.symm hlf

/-! ## Levels -/

namespace Level

theorem eq_of_le {l : Level} (hlow : trace ≤ l) (hhigh : l ≤ off) :
    l ∈ [trace, debug, info, warn, error, fatal, off] := by
  obtain ⟨rank⟩ := l
  have hlow : 0 ≤ rank := hlow
  have hhigh : rank ≤ 6 := hhigh
  have hrank : rank = 0 ∨ rank = 1 ∨ rank = 2 ∨ rank = 3 ∨ rank = 4 ∨ rank = 5 ∨ rank = 6 := by
    omega
  rcases hrank with rfl | rfl | rfl | rfl | rfl | rfl | rfl <;> decide

/-- The name in a log chooses the level. -/
theorem ofName_name {l : Level} (hlow : trace ≤ l) (hhigh : l ≤ off) :
    ofName (ascii l.name) = l := by
  have hall : ∀ l ∈ [trace, debug, info, warn, error, fatal, off], ofName (ascii l.name) = l := by
    decide
  exact hall l (eq_of_le hlow hhigh)

/-- A name is made of letters, or of question marks. -/
theorem notMem_name (l : Level) : '"'.toUInt8 ∉ ascii l.name ∧ Bytes.lf ∉ ascii l.name := by
  rw [name]
  split <;> decide

end Level

/-! ## Lines -/

namespace Record

/-- The record that is written on a line. -/
def ofJson? (line : Bytes) : Option Record := do
  let line ← Bytes.after? (ascii "\x7b\"ts\":") line
  let (timestamp, line) ← Bytes.splitFirst? ','.toUInt8 line
  let line ← Bytes.after? (ascii "\"level\":\"") line
  let (level, line) ← Bytes.splitFirst? '"'.toUInt8 line
  let line ← Bytes.after? (ascii ",\"module\":\"") line
  let (component, line) ← Bytes.splitFirst? '"'.toUInt8 line
  let line ← Bytes.after? (ascii ",\"msg\":\"") line
  let (message, line) ← unescape? line
  if line = ascii "\x7d" then
    some { level := .ofName level, component, message,
           timestamp := Bytes.ofSignedDecimal timestamp }
  else none

/-- The record can be had back from its line: its level has a name, and its component holds no
quote and no line feed. -/
structure IsPlain (r : Record) : Prop where
  trace_le : Level.trace ≤ r.level
  le_off : r.level ≤ Level.off
  quote_notMem : '"'.toUInt8 ∉ r.component
  lf_notMem : Bytes.lf ∉ r.component

/-- A line, cut where `ofJson?` cuts it. -/
theorem json_eq (r : Record) :
    r.json = ascii "\x7b\"ts\":" ++ (Bytes.signedDecimal r.timestamp ++ ','.toUInt8 ::
      (ascii "\"level\":\"" ++ (ascii r.level.name ++ '"'.toUInt8 ::
      (ascii ",\"module\":\"" ++ (r.component ++ '"'.toUInt8 ::
      (ascii ",\"msg\":\"" ++ (r.message.flatMap escapeByte ++ '"'.toUInt8 ::
      ascii "\x7d"))))))) := by
  have hlevel : ascii ",\"level\":\"" = ','.toUInt8 :: ascii "\"level\":\"" := rfl
  have hmodule : ascii "\",\"module\":\"" = '"'.toUInt8 :: ascii ",\"module\":\"" := rfl
  have hmessage : ascii "\",\"msg\":\"" = '"'.toUInt8 :: ascii ",\"msg\":\"" := rfl
  have hend : ascii "\"\x7d" = '"'.toUInt8 :: ascii "\x7d" := rfl
  simp only [json, hlevel, hmodule, hmessage, hend, List.append_assoc, List.cons_append]

/-- **A record can be read back from its line.** -/
theorem IsPlain.ofJson?_json {r : Record} (h : r.IsPlain) : ofJson? r.json = some r := by
  have hafter : ∀ lead rest : Bytes, Bytes.after? lead (lead ++ rest) = some rest :=
    fun lead rest => Bytes.after?_eq_some_iff.2 rfl
  have htimestamp : ','.toUInt8 ∉ Bytes.signedDecimal r.timestamp :=
    Bytes.notMem_signedDecimal (by decide) (by decide)
  rw [ofJson?, json_eq]
  simp only [hafter, Bytes.splitFirst?_append_cons htimestamp,
    Bytes.splitFirst?_append_cons r.level.notMem_name.1,
    Bytes.splitFirst?_append_cons h.quote_notMem, unescape?_escape, Option.bind_eq_bind,
    Option.bind_some, if_true, Level.ofName_name h.trace_le h.le_off,
    Bytes.ofSignedDecimal_signedDecimal]

theorem IsPlain.lf_notMem_json {r : Record} (h : r.IsPlain) : Bytes.lf ∉ r.json := by
  have hmessage : Bytes.lf ∉ r.message.flatMap escapeByte := by
    intro hmem
    obtain ⟨c, -, hc⟩ := List.mem_flatMap.1 hmem
    exact lf_notMem_escapeByte c hc
  have htimestamp : Bytes.lf ∉ Bytes.signedDecimal r.timestamp :=
    Bytes.notMem_signedDecimal (by decide) (by decide)
  simp only [json_eq, List.mem_append, List.mem_cons, not_or]
  exact ⟨by decide, htimestamp, by decide, by decide, r.level.notMem_name.2, by decide, by decide,
    h.lf_notMem, by decide, by decide, hmessage, by decide, by decide⟩

/-- A line up to the quote that opens the message. -/
def lead (r : Record) : Bytes :=
  ascii "\x7b\"ts\":" ++ Bytes.signedDecimal r.timestamp ++ ascii ",\"level\":\""
    ++ ascii r.level.name ++ ascii "\",\"module\":\"" ++ r.component ++ ascii "\",\"msg\":\""

/-- The message is had back from what follows its opening quote. -/
theorem exists_body (r : Record) :
    ∃ body, r.json = r.lead ++ body ∧ unescape? body = some (r.message, ascii "\x7d") :=
  ⟨r.message.flatMap escapeByte ++ ascii "\"\x7d", List.append_assoc _ _ _, unescape?_escape _ _⟩

/-- No two records have the same line. -/
theorem IsPlain.eq_of_json_eq {r other : Record} (h : r.IsPlain) (hother : other.IsPlain)
    (heq : other.json = r.json) : other = r := by
  have hread : some other = some r := by
    rw [← hother.ofJson?_json, heq, h.ofJson?_json]
  exact Option.some.inj hread

end Record

/-! ## Sinks -/

/-- **JSON lines can be read back.**  What a sink is given in JSON format is a line for every record
and nothing else.  The lines are had back by cutting the text at the line feeds, each line stands
for its record alone, and the message is had back byte for byte by undoing its escapes. -/
theorem Sink.ofJson?_split_received {s : Sink} (hformat : s.format? = some .json) (o : Outputs)
    {writes : List (Int × Record)} (hplain : ∀ w ∈ writes, w.2.IsPlain) :
    let text := writes.flatMap fun w => w.2.json ++ [Bytes.lf]
    let lines := writes.map fun w => w.2.json
    (s.writeAll writes o).1.received (s.writeAll writes o).2 = s.received o ++ text ∧
      Bytes.split Bytes.lf text = lines ++ [[]] ∧
      lines.map Record.ofJson? = writes.map (fun w => some w.2) ∧
      ∀ w ∈ writes,
        (∀ other : Record, other.IsPlain → other.json = w.2.json → other = w.2) ∧
        ∃ body, w.2.json = w.2.lead ++ body ∧
          unescape? body = some (w.2.message, ascii "\x7d") := by
  intro text lines
  have hlines : ∀ line ∈ lines, Bytes.lf ∉ line := by
    intro line hline
    obtain ⟨w, hw, rfl⟩ := List.mem_map.1 hline
    exact (hplain w hw).lf_notMem_json
  refine ⟨received_writeAll hformat writes o, ?_, ?_, ?_⟩
  · rw [← Bytes.split_flatMap_concat hlines, List.flatMap_map]
  · rw [List.map_map]
    exact List.map_congr_left fun w hw => (hplain w hw).ofJson?_json
  · intro w hw
    exact ⟨fun other hother heq => (hplain w hw).eq_of_json_eq hother heq, w.2.exists_body⟩

/-- A file that is logged to in JSON format.  One message ends like a line does, and holds text that
looks like an escape; another holds a line feed, and urges the file to be written. -/
theorem Sink.ofJson?_split_received_file :
    let s : Sink := .file [ascii "l"] #[] .json
    let o : Outputs := { files := { workingDir := [], entries := [([ascii "l"], ascii "old\n")] } }
    let writes : List (Int × Record) :=
      [(5, ⟨⟨.trace, ascii "cli", ascii "a\"\x7d\\n\\"⟩, -7⟩),
       (6, ⟨⟨.off, ascii "lexer", ascii "\n\"msg\":\"\t"⟩, 9223372036854775807⟩)]
    let text := writes.flatMap fun w => w.2.json ++ [Bytes.lf]
    let lines := writes.map fun w => w.2.json
    s.format? = some .json ∧ (∀ w ∈ writes, w.2.IsPlain) ∧
      (s.writeAll writes o).1.received (s.writeAll writes o).2 = s.received o ++ text ∧
      Bytes.split Bytes.lf text = lines ++ [[]] ∧
      lines.map Record.ofJson? = writes.map (fun w => some w.2) ∧
      ∀ w ∈ writes,
        (∀ other : Record, other.IsPlain → other.json = w.2.json → other = w.2) ∧
        ∃ body, w.2.json = w.2.lead ++ body ∧
          unescape? body = some (w.2.message, ascii "\x7d") := by
  intro s o writes
  have hplain : ∀ w ∈ writes, w.2.IsPlain := by
    refine List.forall_mem_cons.2 ⟨?_, List.forall_mem_singleton.2 ?_⟩
    · exact ⟨by decide, by decide, by decide, by decide⟩
    · exact ⟨by decide, by decide, by decide, by decide⟩
  exact ⟨rfl, hplain, Sink.ofJson?_split_received rfl o hplain⟩

end RustScan.Log
