import RustScan.Proofs.Sinks
import RustScan.Proofs.Threshold

/-!
# What reaches a log file

A session writes to a file through a sink, which holds text back; and a session that is started anew
closes its sinks and may open the same file again.  Whatever is done to a session, a file gets the
records that are logged while it is open, each of them once and in order.

* `Operation`, `Session.operateAll` — everything that can be done to a session, in any order.
* `Operation.entriesAt fs p ops` — the records that are logged while there is a sink on the file
  `p`, each with the format of that sink.  This is said of the operations alone, without a session.
* `Ledger` — what a session knows of one file: its content, and what is held back for it.
  `Session.ledger_operate` says that **an operation acts on each file by itself**.
* `Ledger.total_run` — content and held back text together are the lines of all records.
  `Ledger.content_run` — the content is what they were together when something was last delivered.
* `Session.contentAt_operateAll` — **no record is lost, repeated or reordered**.
-/

set_option autoImplicit false

namespace RustScan.Log

/-! ## Operations -/

/-- Something that is done to a session. -/
inductive Operation where
  /-- A start with a configuration, or a change of the level or the filter. -/
  | set (setting : Setting)
  /-- A record, and the time at which it is written. -/
  | log (now : Int) (record : Record)
  | flush
  | clearSinks

namespace Session

/-- Does something. -/
def operate (s : Session) : Operation → Session
  | .set setting => s.set setting
  | .log now record => log { s with now } record
  | .flush => s.flush
  | .clearSinks => s.clearSinks

/-- Does several things, one after the other. -/
def operateAll (s : Session) (ops : List Operation) : Session := ops.foldl operate s

end Session

/-- A record as it stands in a log file. -/
structure Entry where
  record : Record
  /-- The time at which it was written. -/
  now : Int
  format : Format
  deriving DecidableEq

/-- The line of an entry.  There are no colors in a file. -/
def Entry.line (e : Entry) : Bytes := e.record.line e.format e.now false

namespace Operation

/-- Whether nothing is held back behind the operation. -/
def delivers : Operation → Bool
  | .set (.start _ _) => true
  | .set _ => false
  | .log _ record => Level.error ≤ record.level
  | .flush => true
  | .clearSinks => true

/-- Whether the operation takes the sinks out of use. -/
def closes : Operation → Bool
  | .set (.start _ _) => true
  | .clearSinks => true
  | _ => false

section

variable (fs : Files) (p : Path)

/-- The format of the sink on the file `p` behind an operation, from that of the sink in front of
it; `none` if there is no such sink. -/
def formatAfter (format : Option Format) : Operation → Option Format
  | .set (.start _ config) => if fs.target? config.file = some p then some config.format else none
  | .clearSinks => none
  | _ => format

/-- The format of the sink on the file `p` behind several operations, if there is one. -/
def formatAt (ops : List Operation) : Option Format := ops.foldl (formatAfter fs p) none

/-- What an operation logs to a sink of the given format, if there is a sink. -/
def entries (format : Option Format) : Operation → List Entry
  | .log now record => format.toList.map fun format => ⟨record, now, format⟩
  | _ => []

/-- What is logged to the file `p` by several operations, from a sink of the given format on. -/
def entriesFrom (format : Option Format) : List Operation → List Entry
  | [] => []
  | op :: ops => op.entries format ++ entriesFrom (op.formatAfter fs p format) ops

/-- The records that are logged while there is a sink on the file `p`, in order. -/
def entriesAt (ops : List Operation) : List Entry := entriesFrom fs p none ops

end

theorem delivers_of_closes {op : Operation} (h : op.closes = true) : op.delivers = true := by
  cases op with
  | set setting =>
    cases setting with
    | start terminal config => rfl
    | _ => cases h
  | clearSinks => rfl
  | _ => cases h

/-- What does not stand in the second half of a run stands in the first, with all in front of it. -/
theorem prefix_of_notMem {front rest front' rest' : List Operation} {op : Operation}
    (h : front ++ rest = front' ++ op :: rest') (hout : op ∉ rest) : front' ++ [op] <+: front := by
  rcases List.append_eq_append_iff.1 h with ⟨middle, -, hrest⟩ | ⟨middle, hfront, hrest⟩
  · exact absurd (hrest ▸ List.mem_append_right _ List.mem_cons_self) hout
  · cases middle with
    | nil =>
      have hrest : op :: rest' = rest := hrest
      exact absurd (hrest ▸ List.mem_cons_self) hout
    | cons other middle =>
      obtain ⟨rfl, -⟩ := List.cons.inj hrest
      exact ⟨middle, by rw [hfront, List.append_assoc, List.singleton_append]⟩

variable {fs : Files} {p : Path}

theorem entriesFrom_append (format : Option Format) (ops more : List Operation) :
    entriesFrom fs p format (ops ++ more) =
      entriesFrom fs p format ops ++
        entriesFrom fs p (ops.foldl (formatAfter fs p) format) more := by
  induction ops generalizing format with
  | nil => rfl
  | cons op ops ih =>
    rw [List.cons_append, entriesFrom, entriesFrom, ih, List.append_assoc]
    rfl

theorem formatAt_concat (ops : List Operation) (op : Operation) :
    formatAt fs p (ops ++ [op]) = op.formatAfter fs p (formatAt fs p ops) := by
  rw [formatAt, List.foldl_append]
  rfl

theorem entriesAt_concat (ops : List Operation) (op : Operation) :
    entriesAt fs p (ops ++ [op]) = entriesAt fs p ops ++ op.entries (formatAt fs p ops) := by
  rw [entriesAt, entriesFrom_append]
  exact congrArg _ (List.append_nil _)

theorem entriesAt_prefix (ops more : List Operation) :
    entriesAt fs p ops <+: entriesAt fs p (ops ++ more) := by
  rw [entriesAt, entriesAt, entriesFrom_append]
  exact List.prefix_append _ _

end Operation

/-! ## One file -/

/-- What a session knows of a file. -/
structure Ledger where
  content : Bytes
  /-- What is held back for the file, by each sink on it. -/
  buffers : List Buffer

namespace Ledger

/-- Everything that was written to the file, whether it is there or held back. -/
def total (l : Ledger) : Bytes := l.content ++ l.buffers.flatMap Buffer.text

/-- Nothing is held back any more. -/
def deliver (l : Ledger) : Ledger := ⟨l.total, l.buffers.map Buffer.emptied⟩

/-- A record is written. -/
def add (l : Ledger) (now : Int) (r : Record) : Ledger :=
  { l with buffers := l.buffers.map (·.add now r) }

/-- The effect of an operation on the file at `p`. -/
def operate (fs : Files) (p : Path) (l : Ledger) : Operation → Ledger
  | .set (.start _ config) =>
    ⟨l.total, if fs.target? config.file = some p then [⟨[], config.format⟩] else []⟩
  | .set _ => l
  | .log now r => if Level.error ≤ r.level then (l.add now r).deliver else l.add now r
  | .flush => l.deliver
  | .clearSinks => ⟨l.total, []⟩

theorem flatMap_text_emptied (buffers : List Buffer) :
    (buffers.map Buffer.emptied).flatMap Buffer.text = [] := by
  rw [List.flatMap_map]
  exact List.flatMap_eq_nil_iff.2 fun b _ => rfl

/-- Delivering changes nothing about what was written. -/
theorem total_deliver (l : Ledger) : l.deliver.total = l.total := by
  rw [total, deliver, flatMap_text_emptied, List.append_nil]

variable {fs : Files} {p : Path}

/-- **What is in the file behind an operation**: everything if the operation delivers, and what was
there otherwise. -/
theorem content_operate (l : Ledger) (op : Operation) :
    (l.operate fs p op).content =
      if op.delivers then (l.operate fs p op).total else l.content := by
  cases op with
  | set setting =>
    cases setting with
    | start terminal config =>
      rw [operate, Operation.delivers, if_pos rfl, total]
      split <;> exact (List.append_nil _).symm
    | level level => rfl
    | filter text => rfl
  | log now r =>
    rw [operate, Operation.delivers]
    by_cases hurgent : Level.error ≤ r.level
    · rw [if_pos hurgent, if_pos (decide_eq_true hurgent), total_deliver]
      rfl
    · rw [if_neg hurgent, if_neg (by simpa using hurgent)]
      rfl
  | flush => exact (total_deliver l).symm
  | clearSinks => exact (List.append_nil _).symm

/-- There is a sink on the file just if it has this format. -/
def HasFormat (l : Ledger) (format : Option Format) : Prop :=
  l.buffers.map Buffer.format = format.toList

theorem HasFormat.operate {l : Ledger} {format : Option Format} (h : l.HasFormat format)
    (op : Operation) : (l.operate fs p op).HasFormat (op.formatAfter fs p format) := by
  have hadd : ∀ now r, (l.add now r).HasFormat format := by
    intro now r
    rw [HasFormat, add, List.map_map]
    exact h
  have hdeliver : ∀ l' : Ledger, l'.HasFormat format → l'.deliver.HasFormat format := by
    intro l' h'
    rw [HasFormat, deliver, List.map_map]
    exact h'
  cases op with
  | set setting =>
    cases setting with
    | start terminal config =>
      rw [Ledger.operate, Operation.formatAfter, HasFormat]
      split <;> rfl
    | level level => exact h
    | filter text => exact h
  | log now r =>
    rw [Ledger.operate]
    split
    · exact hdeliver _ (hadd now r)
    · exact hadd now r
  | flush => exact hdeliver l h
  | clearSinks => rfl

/-- A record is written behind everything else, as there are no two sinks on the file. -/
theorem HasFormat.total_add {l : Ledger} {format : Option Format} (h : l.HasFormat format)
    (now : Int) (r : Record) :
    (l.add now r).total =
      l.total ++ ((Operation.log now r).entries format).flatMap Entry.line := by
  obtain ⟨content, buffers⟩ := l
  cases format with
  | none =>
    obtain rfl : buffers = [] := List.map_eq_nil_iff.1 h
    exact (List.append_nil _).symm
  | some format =>
    -- with a second buffer, the line would come in front of what that one holds back
    obtain ⟨b, rfl, rfl⟩ : ∃ b, buffers = [b] ∧ b.format = format := by
      simpa using List.map_eq_singleton_iff.1 h
    simp [total, add, Buffer.add, Operation.entries, Entry.line]

/-- **What was written behind an operation** is what was written before, and what the operation
logs. -/
theorem HasFormat.total_operate {l : Ledger} {format : Option Format} (h : l.HasFormat format)
    (op : Operation) :
    (l.operate fs p op).total = l.total ++ (op.entries format).flatMap Entry.line := by
  cases op with
  | set setting =>
    cases setting with
    | start terminal config =>
      rw [Ledger.operate, total]
      split <;> rfl
    | level level => exact (List.append_nil _).symm
    | filter text => exact (List.append_nil _).symm
  | log now r =>
    rw [Ledger.operate, ← h.total_add]
    split
    · exact total_deliver _
    · rfl
  | flush => exact (total_deliver l).trans (List.append_nil _).symm
  | clearSinks => rfl

/-! ## One file in a run -/

/-- The effect of several operations on the file at `p`, which has no sink in the beginning. -/
def run (fs : Files) (p : Path) (initial : Bytes) (ops : List Operation) : Ledger :=
  ops.foldl (operate fs p) ⟨initial, []⟩

theorem run_concat (initial : Bytes) (ops : List Operation) (op : Operation) :
    run fs p initial (ops ++ [op]) = (run fs p initial ops).operate fs p op := by
  rw [run, List.foldl_append]
  rfl

theorem hasFormat_run (initial : Bytes) (ops : List Operation) :
    (run fs p initial ops).HasFormat (Operation.formatAt fs p ops) := by
  induction ops using List.reverseRecOn with
  | nil => rfl
  | append_singleton ops op ih =>
    rw [run_concat, Operation.formatAt_concat]
    exact ih.operate op

/-- **Content and held back text together are the lines of all records.** -/
theorem total_run (initial : Bytes) (ops : List Operation) :
    (run fs p initial ops).total =
      initial ++ (Operation.entriesAt fs p ops).flatMap Entry.line := by
  induction ops using List.reverseRecOn with
  | nil => rfl
  | append_singleton ops op ih =>
    rw [run_concat, (hasFormat_run initial ops).total_operate, ih, Operation.entriesAt_concat,
      List.flatMap_append, List.append_assoc]

/-- **The content is what was written when something was last delivered.** -/
theorem content_run (fs : Files) (p : Path) (initial : Bytes) (ops : List Operation) :
    ∃ front rest, ops = front ++ rest ∧ (∀ op ∈ rest, op.delivers = false) ∧
      (run fs p initial ops).content = (run fs p initial front).total := by
  induction ops using List.reverseRecOn with
  | nil => exact ⟨[], [], rfl, nofun, (List.append_nil _).symm⟩
  | append_singleton ops op ih =>
    rw [run_concat, content_operate]
    cases hdelivers : op.delivers with
    | true =>
      refine ⟨ops ++ [op], [], (List.append_nil _).symm, nofun, ?_⟩
      rw [if_pos rfl, run_concat]
    | false =>
      obtain ⟨front, rest, rfl, hrest, hcontent⟩ := ih
      refine ⟨front, rest ++ [op], List.append_assoc _ _ _, ?_, hcontent⟩
      intro other hother
      rcases List.mem_append.1 hother with hother | hother
      · exact hrest other hother
      · rw [List.mem_singleton.1 hother]
        exact hdelivers

end Ledger

/-! ## One file in a session -/

namespace Session

/-- What the session knows of the file at `p`. -/
def ledger (s : Session) (p : Path) : Ledger :=
  ⟨s.outputs.files.contentAt p, s.sinks.flatMap (Sink.buffersAt p)⟩

theorem ledger_flush (s : Session) (p : Path) : s.flush.ledger p = (s.ledger p).deliver := by
  rw [ledger, flush, contentAt_visit (Sink.contentAt_flush p),
    buffersAt_visit (Sink.buffersAt_flush p)]
  rfl

theorem ledger_log (s : Session) (r : Record) (p : Path) :
    (s.log r).ledger p =
      if Level.error ≤ r.level then ((s.ledger p).add s.now r).deliver
      else (s.ledger p).add s.now r := by
  rw [ledger, log, contentAt_visit fun sink o => Sink.contentAt_write p sink s.now r o,
    buffersAt_visit fun sink o => Sink.buffersAt_write p sink s.now r o]
  split
  · rw [Ledger.deliver, Ledger.total, Ledger.add, List.flatMap_map, List.map_map]
    rfl
  · simp [Ledger.add, ledger]

theorem ledger_clearSinks (s : Session) (p : Path) :
    s.clearSinks.ledger p = ⟨(s.ledger p).total, []⟩ := by
  rw [ledger, clearSinks, foldl_close_eq_visit,
    contentAt_visit fun sink o => Sink.contentAt_close p sink o]
  rfl

theorem outputs_configure (s : Session) (terminal : Terminal) (config : Config) :
    ((s.configure config).openConsole terminal config).outputs = s.outputs := by
  rw [openConsole, configure]
  split <;> split <;> rfl

/-- The level, the filter and the console have nothing to do with files. -/
theorem ledger_configure (s : Session) (terminal : Terminal) (config : Config) (p : Path) :
    ((s.configure config).openConsole terminal config).ledger p = s.ledger p := by
  have hbuffers : ((s.configure config).openConsole terminal config).sinks.flatMap
      (Sink.buffersAt p) = s.sinks.flatMap (Sink.buffersAt p) := by
    rw [openConsole, configure]
    split <;> split <;> simp [addSink, Sink.stderr, Sink.buffersAt]
  rw [ledger, outputs_configure, hbuffers, ledger]

/-- The sink of a configuration is on the file that its name leads to. -/
theorem ledger_openFile (s : Session) (config : Config) (p : Path) :
    (s.openFile config).ledger p =
      ⟨(s.ledger p).content, (s.ledger p).buffers ++
        if s.outputs.files.target? config.file = some p then [⟨[], config.format⟩] else []⟩ := by
  rw [openFile]
  split
  · rename_i hfile
    have hnone : s.outputs.files.target? [] = none := rfl
    simp [hfile, hnone]
  · rw [Sink.openFile?, if_pos rfl, Files.target?]
    cases hopen : s.outputs.files.openAppend? config.file with
    | none => simp [ledger, writeErr, Outputs.writeErr]
    | some opened =>
      obtain ⟨path, files⟩ := opened
      obtain ⟨-, hcontent⟩ := Files.openAppend?_frame hopen
      simp [ledger, addSink, hcontent, Sink.buffersAt, Outputs.textOf]

/-! ## Many operations -/

theorem target?_clearSinks (s : Session) :
    s.clearSinks.outputs.files.target? = s.outputs.files.target? := by
  rw [clearSinks, foldl_close_eq_visit]
  exact view_visit (fun o => o.files.target?) (fun sink _ o => sink.target?_close o) s.outputs

theorem target?_openFile (s : Session) (config : Config) :
    (s.openFile config).outputs.files.target? = s.outputs.files.target? := by
  rw [openFile]
  split
  · rfl
  · rw [Sink.openFile?, if_pos rfl]
    cases hopen : s.outputs.files.openAppend? config.file with
    | none => rfl
    | some opened => exact (Files.openAppend?_frame hopen).1

/-- **A name leads to the same file whatever is done to a session.** -/
theorem target?_operate (s : Session) (op : Operation) :
    (s.operate op).outputs.files.target? = s.outputs.files.target? := by
  cases op with
  | set setting =>
    cases setting with
    | start terminal config =>
      rw [operate, set, start, target?_openFile, outputs_configure, target?_clearSinks]
    | level level => rfl
    | filter text => rfl
  | log now r =>
    exact view_visit (fun o => o.files.target?) (fun sink _ o => sink.target?_write now r o)
      s.outputs
  | flush =>
    exact view_visit (fun o => o.files.target?) (fun sink _ o => sink.target?_flush o) s.outputs
  | clearSinks => exact target?_clearSinks s

/-- **An operation acts on each file by itself.** -/
theorem ledger_operate {fs : Files} {s : Session} (h : s.outputs.files.target? = fs.target?)
    (op : Operation) (p : Path) : (s.operate op).ledger p = (s.ledger p).operate fs p op := by
  cases op with
  | set setting =>
    cases setting with
    | start terminal config =>
      rw [operate, set, start, ledger_openFile, ledger_configure, ledger_clearSinks,
        outputs_configure, target?_clearSinks, h]
      rfl
    | level level => rfl
    | filter text => rfl
  | log now r => exact ledger_log { s with now } r p
  | flush => exact ledger_flush s p
  | clearSinks => exact ledger_clearSinks s p

theorem ledger_operateAll {fs : Files} {s : Session} (h : s.outputs.files.target? = fs.target?)
    (ops : List Operation) (p : Path) :
    (s.operateAll ops).ledger p = ops.foldl (Ledger.operate fs p) (s.ledger p) := by
  induction ops generalizing s with
  | nil => rfl
  | cons op ops ih =>
    rw [List.foldl_cons, ← ledger_operate h]
    exact ih ((target?_operate s op).trans h)

/-- **No record is lost, repeated or reordered in a log file.**  Whatever was done to a session, a
file holds what it held in the beginning, and behind it the lines of the first of the records that
were logged to it.  These are at least the records up to the last operation that delivers, and all
of them if the sinks have just been closed. -/
theorem contentAt_operateAll (outputs : Outputs) (now : Int) (ops : List Operation) (p : Path) :
    let logged := Operation.entriesAt outputs.files p
    ∃ delivered, delivered <+: logged ops ∧
      (operateAll { outputs, now } ops).outputs.files.contentAt p =
        outputs.files.contentAt p ++ delivered.flatMap Entry.line ∧
      (∀ front op rest, ops = front ++ op :: rest → op.delivers = true →
        logged (front ++ [op]) <+: delivered) ∧
      ∀ front op, ops = front ++ [op] → op.closes = true → delivered = logged ops := by
  intro logged
  obtain ⟨front, rest, hops, hrest, hcontent⟩ :=
    Ledger.content_run outputs.files p (outputs.files.contentAt p) ops
  have hcontains : ∀ front' op rest', ops = front' ++ op :: rest' → op.delivers = true →
      logged (front' ++ [op]) <+: logged front := by
    intro front' op rest' hops' hdelivers
    -- nothing in `rest` delivers, so the operation stands in `front`
    have hout : op ∉ rest := by
      intro hmem
      exact Bool.false_ne_true ((hrest op hmem).symm.trans hdelivers)
    obtain ⟨behind, rfl⟩ := Operation.prefix_of_notMem (hops.symm.trans hops') hout
    exact Operation.entriesAt_prefix _ behind
  have hprefix : logged front <+: logged ops := by
    rw [hops]
    exact Operation.entriesAt_prefix front rest
  refine ⟨logged front, hprefix, ?_, hcontains, ?_⟩
  · have hledger : (operateAll { outputs, now } ops).ledger p =
        Ledger.run outputs.files p (outputs.files.contentAt p) ops := ledger_operateAll rfl ops p
    rw [Ledger.total_run] at hcontent
    exact (congrArg Ledger.content hledger).trans hcontent
  · rintro front' op rfl hcloses
    have hall := hcontains front' op [] rfl (Operation.delivers_of_closes hcloses)
    exact hprefix.eq_of_length_le hall.length_le

/-- A session that logs to a file in JSON format, and is then started anew on the same file under
another name.  The three records from before have reached the file, in the old format; the fourth is
held back until the sinks are cleared. -/
theorem contentAt_operateAll_reopened :
    let p : Path := [ascii "w", ascii "l"]
    let outputs : Outputs :=
      { files := { workingDir := [ascii "w"], entries := [(p, ascii "old\n")] } }
    let record (level : Level) (text : String) : Record := ⟨⟨level, ascii "cli", ascii text⟩, 0⟩
    let ops : List Operation :=
      [.set (.start {} { file := ascii "l", format := .json }), .log 1 (record .info "a"),
       .log 2 (record .error "b"), .log 3 (record .warn "c"),
       .set (.start {} { file := ascii "/w/./l" }), .log 4 (record .warn "d")]
    let earlier : List Entry :=
      [⟨record .info "a", 1, .json⟩, ⟨record .error "b", 2, .json⟩, ⟨record .warn "c", 3, .json⟩]
    let last : Entry := ⟨record .warn "d", 4, .text⟩
    Operation.entriesAt outputs.files p ops = earlier ++ [last] ∧
      (operateAll { outputs, now := 0 } ops).outputs.files.contentAt p =
        ascii "old\n" ++ earlier.flatMap Entry.line ∧
      (operateAll { outputs, now := 0 } (ops ++ [.clearSinks])).outputs.files.contentAt p =
        ascii "old\n" ++ (earlier ++ [last]).flatMap Entry.line := by
  intro p outputs record ops earlier last
  have hlogged : Operation.entriesAt outputs.files p ops = earlier ++ [last] := by decide
  have hlater : Operation.entriesAt outputs.files p (ops ++ [.clearSinks]) = earlier ++ [last] := by
    rw [Operation.entriesAt_concat, hlogged]
    rfl
  refine ⟨hlogged, by decide +kernel, ?_⟩
  obtain ⟨delivered, -, hcontent, -, hall⟩ :=
    contentAt_operateAll outputs 0 (ops ++ [.clearSinks]) p
  rw [hall ops .clearSinks rfl rfl, hlater] at hcontent
  exact hcontent

end Session
end RustScan.Log
