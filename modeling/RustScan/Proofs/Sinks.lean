import RustScan.Log.Session

/-!
# Files and sinks

What a change to a file leaves alone, and what happens to one file while sinks write.

* `Files.contentAt_append` — what is added to a file is behind what it held, and no other file
  changes.
* `Files.target? fs text` — the file that is opened under a name.  It depends on the directories
  alone, so writing to files does not change it (`Files.target?_write`).  Opening a file leaves all
  contents and names as they are (`Files.openAppend?_frame`).
* `Sink.received` — everything that a sink was given, whether it has reached its destination or is
  still held back.  These are the lines of the records (`Sink.received_writeAll`).
* `Sink.buffersAt p` — what a sink holds back for the file `p`.  If something is done to all sinks
  in turn, `Session.contentAt_visit` and `Session.buffersAt_visit` say what becomes of the file and
  of the buffers, provided that it is known for each sink.
-/

set_option autoImplicit false

namespace RustScan

namespace Files

/-! ## Contents -/

theorem lookup_cons_eq_ite (path other : Path) (content : Bytes) (entries : List (Path × Bytes)) :
    ((path, content) :: entries).lookup other =
      if other = path then some content else entries.lookup other := by
  rw [List.lookup_cons]
  by_cases h : other = path
  · rw [if_pos h, beq_iff_eq.2 h]
  · rw [if_neg h, beq_false_of_ne h]

theorem lookup_putEntry (path other : Path) (content : Bytes) (entries : List (Path × Bytes)) :
    (putEntry path content entries).lookup other =
      if other = path then some content else entries.lookup other := by
  induction entries with
  | nil => exact lookup_cons_eq_ite path other content []
  | cons entry entries ih =>
    obtain ⟨q, old⟩ := entry
    rw [putEntry]
    by_cases hq : q = path
    · subst hq
      rw [if_pos rfl, lookup_cons_eq_ite, lookup_cons_eq_ite]
      split <;> rfl
    · rw [if_neg hq, lookup_cons_eq_ite, lookup_cons_eq_ite, ih]
      by_cases h : other = q
      · rw [if_pos h, if_neg (h ▸ hq), if_pos h]
      · rw [if_neg h, if_neg h]

theorem contentAt_write (fs : Files) (path other : Path) (content : Bytes) :
    (fs.write path content).contentAt other =
      if other = path then content else fs.contentAt other := by
  rw [contentAt, write, lookup_putEntry]
  split <;> rfl

/-- What is added to a file is behind what it held. -/
theorem contentAt_append (fs : Files) (path other : Path) (more : Bytes) :
    (fs.append path more).contentAt other =
      fs.contentAt other ++ if path = other then more else [] := by
  rw [append, contentAt_write]
  by_cases h : path = other
  · simp [h]
  · simp [h, Ne.symm h]

/-! ## Names of files -/

/-- Where a node is, and whether it is a directory. -/
def Node.place : Node → Path × Bool
  | .directory path => (path, true)
  | .file path _ => (path, false)
  | .vacant path => (path, false)

theorem place_nodeAt (fs : Files) (path : Path) :
    (fs.nodeAt path).place = (path, fs.isDirectory path) := by
  rw [nodeAt]
  split
  · rename_i h
    rw [h]
    rfl
  · rename_i h
    rw [Bool.not_eq_true] at h
    rw [h]
    split <;> rfl

theorem Node.eq_directory_of_place {node : Node} {path : Path} (h : node.place = (path, true)) :
    node = .directory path := by
  cases node with
  | directory other => rw [(Prod.mk.inj h).1]
  | file other content => exact absurd (Prod.mk.inj h).2 Bool.false_ne_true
  | vacant other => exact absurd (Prod.mk.inj h).2 Bool.false_ne_true

/-- Only a directory can be left by a name. -/
theorem descend_of_place {fs : Files} {node : Node} {path : Path} (h : node.place = (path, false))
    (name : Bytes) : fs.descend node name = none := by
  cases node with
  | directory other => exact absurd (Prod.mk.inj h).2.symm Bool.false_ne_true
  | file other content => rfl
  | vacant other => rfl

/-- The place that a name leads to depends on the directories alone. -/
theorem place_descend {fs fs' : Files} (h : fs.isDirectory = fs'.isDirectory) {node node' : Node}
    (hplace : node.place = node'.place) (name : Bytes) :
    (fs.descend node name).map Node.place = (fs'.descend node' name).map Node.place := by
  rcases hnode : node.place with ⟨path, isDirectory⟩
  rw [hnode] at hplace
  -- a file and a vacant place end a path alike
  cases isDirectory with
  | false => rw [descend_of_place hnode, descend_of_place hplace.symm]
  | true =>
    rw [Node.eq_directory_of_place hnode, Node.eq_directory_of_place hplace.symm, descend, descend]
    split
    · rfl
    split
    · rfl
    split
    · rw [Option.map_some, Option.map_some, place_nodeAt, place_nodeAt, h]
    · rfl

theorem place_foldlM {fs fs' : Files} (h : fs.isDirectory = fs'.isDirectory) (names : List Bytes)
    {node node' : Node} (hplace : node.place = node'.place) :
    (names.foldlM fs.descend node).map Node.place =
      (names.foldlM fs'.descend node').map Node.place := by
  induction names generalizing node node' with
  | nil => exact congrArg some hplace
  | cons name names ih =>
    have hstep := place_descend h hplace name
    rw [List.foldlM_cons, List.foldlM_cons]
    cases hnext : fs.descend node name with
    | none =>
      rw [hnext] at hstep
      rw [Option.map_eq_none_iff.1 hstep.symm]
      rfl
    | some next =>
      rw [hnext] at hstep
      obtain ⟨next', hnext', heq⟩ := Option.map_eq_some_iff.1 hstep.symm
      rw [hnext']
      exact ih heq.symm

/-- Following a path ends at a place that depends on the directories alone. -/
theorem place_find? {fs fs' : Files} (hdir : fs.workingDir = fs'.workingDir)
    (h : fs.isDirectory = fs'.isDirectory) (text : Bytes) :
    (fs.find? text).map Node.place = (fs'.find? text).map Node.place := by
  have hroute : fs.route? text = fs'.route? text := by
    rw [route?, route?, hdir]
  rw [find?, find?, hroute]
  cases fs'.route? text with
  | none => rfl
  | some route => exact place_foldlM h route.2 rfl

/-- The file that is opened under a name, if one can be. -/
def target? (fs : Files) (text : Bytes) : Option Path := (fs.openAppend? text).map Prod.fst

theorem target?_eq_bind_place (fs : Files) (text : Bytes) :
    fs.target? text = ((fs.find? text).map Node.place).bind fun (path, isDirectory) =>
      if isDirectory then none else some path := by
  rw [target?, openAppend?]
  rcases fs.find? text with _ | (path | ⟨path, content⟩ | path) <;> rfl

/-- Writing to a file does not change what names stand for. -/
theorem target?_write (fs : Files) (path : Path) (content : Bytes) :
    (fs.write path content).target? = fs.target? := by
  funext text
  have hplace : ((fs.write path content).find? text).map Node.place =
      (fs.find? text).map Node.place := by
    apply place_find? <;> rfl
  rw [target?_eq_bind_place, target?_eq_bind_place, hplace]

theorem target?_append (fs : Files) (path : Path) (more : Bytes) :
    (fs.append path more).target? = fs.target? :=
  target?_write fs path _

/-! ## Opening -/

/-- The node is not said to be vacant where there is a file. -/
def Node.VacantIn (fs : Files) : Node → Prop
  | .vacant path => fs.contentAt path = []
  | _ => True

theorem vacantIn_descend {fs : Files} {node next : Node} {name : Bytes}
    (h : fs.descend node name = some next) : next.VacantIn fs := by
  cases node with
  | directory path =>
    rw [descend] at h
    split at h
    · cases h
      trivial
    split at h
    · cases h
      trivial
    split at h
    · obtain rfl := Option.some.inj h
      rw [nodeAt]
      split
      · trivial
      split
      · trivial
      · rename_i hlookup
        rw [Node.VacantIn, contentAt, hlookup]
        rfl
    · cases h
  | file path content => cases h
  | vacant path => cases h

theorem vacantIn_foldlM {fs : Files} {names : List Bytes} {node last : Node}
    (hnode : node.VacantIn fs) (h : names.foldlM fs.descend node = some last) :
    last.VacantIn fs := by
  induction names generalizing node with
  | nil =>
    obtain rfl := Option.some.inj h
    exact hnode
  | cons name names ih =>
    rw [List.foldlM_cons] at h
    obtain ⟨next, hnext, hrest⟩ := Option.bind_eq_some_iff.1 h
    exact ih (vacantIn_descend hnext) hrest

/-- There is nothing where a file is created. -/
theorem contentAt_of_find?_vacant {fs : Files} {text : Bytes} {path : Path}
    (h : fs.find? text = some (.vacant path)) : fs.contentAt path = [] := by
  obtain ⟨route, -, hfollow⟩ := Option.bind_eq_some_iff.1 h
  have horigin : (Node.directory route.1).VacantIn fs := trivial
  exact vacantIn_foldlM horigin hfollow

/-- **Opening a file changes no content**, and no name. -/
theorem openAppend?_frame {fs fs' : Files} {text : Bytes} {path : Path}
    (h : fs.openAppend? text = some (path, fs')) :
    fs'.target? = fs.target? ∧ fs'.contentAt = fs.contentAt := by
  rw [openAppend?] at h
  split at h
  · cases h
    exact ⟨rfl, rfl⟩
  · rename_i vacant hfind
    cases h
    refine ⟨target?_write fs path [], ?_⟩
    funext other
    rw [contentAt_write]
    split
    · rename_i hother
      rw [hother, contentAt_of_find?_vacant hfind]
    · rfl
  · cases h

end Files

namespace Log

/-! ## Everything a sink was given -/

theorem Outputs.textOf_push (pieces : Array Bytes) (text : Bytes) :
    textOf (pieces.push text) = textOf pieces ++ text := by
  simp [textOf]

namespace Sink

/-- What a sink was given so far, on its way or at its destination. -/
def received (s : Sink) (o : Outputs) : Bytes :=
  match s with
  | .console .stderr _ _ => Outputs.textOf o.stderr
  | .console .stream _ _ => Outputs.textOf o.stream
  | .file path pending _ => o.files.contentAt path ++ Outputs.textOf pending
  | _ => []

/-- The format that a sink writes in, if it writes text. -/
def format? : Sink → Option Format
  | .console _ _ format => some format
  | .file _ _ format => some format
  | _ => none

/-- Whether a sink writes in colors. -/
def colors : Sink → Bool
  | .console _ colors _ => colors
  | _ => false

/-- Writes several records, each with the time at which it is written. -/
def writeAll (s : Sink) (writes : List (Int × Record)) (o : Outputs) : Sink × Outputs :=
  writes.foldl (fun (s, o) (now, r) => s.write now r o) (s, o)

/-- A sink goes on in its format and its colors, and loses nothing. -/
theorem received_write {s : Sink} {format : Format} (h : s.format? = some format) (now : Int)
    (r : Record) (o : Outputs) :
    (s.write now r o).1.received (s.write now r o).2 =
        s.received o ++ r.line format now s.colors ∧
      (s.write now r o).1.format? = some format ∧ (s.write now r o).1.colors = s.colors := by
  cases s with
  | console channel colors format' =>
    obtain rfl := Option.some.inj h
    cases channel <;> exact ⟨Outputs.textOf_push _ _, rfl, rfl⟩
  | file path pending format' =>
    obtain rfl := Option.some.inj h
    rw [write]
    split
    · refine ⟨?_, rfl, rfl⟩
      simp only [flush, received, Files.contentAt_append, Outputs.textOf_push, colors]
      simp [Outputs.textOf]
    · refine ⟨?_, rfl, rfl⟩
      simp only [received, Outputs.textOf_push, colors, List.append_assoc]
  | memory => cases h
  | null => cases h

/-- **What a sink receives are the lines of the records**, one after the other. -/
theorem received_writeAll {s : Sink} {format : Format} (h : s.format? = some format)
    (writes : List (Int × Record)) (o : Outputs) :
    (s.writeAll writes o).1.received (s.writeAll writes o).2 =
      s.received o ++ writes.flatMap fun (now, r) => r.line format now s.colors := by
  induction writes generalizing s o with
  | nil => exact (List.append_nil _).symm
  | cons w writes ih =>
    obtain ⟨hreceived, hformat, hcolors⟩ := received_write h w.1 w.2 o
    have hrest := ih hformat (s.write w.1 w.2 o).2
    rw [hreceived, hcolors, List.append_assoc] at hrest
    exact hrest

end Sink

/-! ## One file among the sinks -/

/-- What is held back for a file, and the format in which more is written. -/
structure Buffer where
  text : Bytes
  format : Format
  deriving DecidableEq

namespace Buffer

/-- Nothing is held back any more. -/
def emptied (b : Buffer) : Buffer := { b with text := [] }

/-- With a record that is written at time `now`. -/
def add (b : Buffer) (now : Int) (r : Record) : Buffer :=
  { b with text := b.text ++ r.line b.format now false }

end Buffer

namespace Sink

/-- What a sink holds back for the file at `p`. -/
def buffersAt (p : Path) : Sink → List Buffer
  | .file path pending format => if path = p then [⟨Outputs.textOf pending, format⟩] else []
  | _ => []

section

variable (p : Path)

theorem contentAt_flush (s : Sink) (o : Outputs) :
    (s.flush o).2.files.contentAt p =
      o.files.contentAt p ++ (s.buffersAt p).flatMap Buffer.text := by
  cases s with
  | file path pending format =>
    rw [flush, Files.contentAt_append, buffersAt]
    split <;> simp
  | _ => exact (List.append_nil _).symm

theorem buffersAt_flush (s : Sink) (o : Outputs) :
    (s.flush o).1.buffersAt p = (s.buffersAt p).map Buffer.emptied := by
  cases s with
  | file path pending format =>
    rw [flush, buffersAt, buffersAt]
    split <;> rfl
  | _ => rfl

theorem contentAt_close (s : Sink) (o : Outputs) :
    (s.close o).files.contentAt p =
      o.files.contentAt p ++ (s.buffersAt p).flatMap Buffer.text := by
  cases s with
  | file path pending format => exact contentAt_flush p (.file path pending format) o
  | _ => exact (List.append_nil _).symm

/-- An urgent record is written and sent on at once. -/
theorem contentAt_write (s : Sink) (now : Int) (r : Record) (o : Outputs) :
    (s.write now r o).2.files.contentAt p =
      o.files.contentAt p ++ (s.buffersAt p).flatMap fun b =>
        if Level.error ≤ r.level then (b.add now r).text else [] := by
  cases s with
  | console channel colors format => cases channel <;> exact (List.append_nil _).symm
  | file path pending format =>
    rw [write]
    split
    · rw [contentAt_flush, buffersAt, buffersAt, Outputs.textOf_push]
      split <;> rfl
    · rw [buffersAt]
      split <;> simp
  | memory => exact (List.append_nil _).symm
  | null => exact (List.append_nil _).symm

theorem buffersAt_write (s : Sink) (now : Int) (r : Record) (o : Outputs) :
    (s.write now r o).1.buffersAt p = (s.buffersAt p).map fun b =>
      if Level.error ≤ r.level then (b.add now r).emptied else b.add now r := by
  cases s with
  | console channel colors format => cases channel <;> rfl
  | file path pending format =>
    rw [write]
    split
    · rw [buffersAt_flush, buffersAt, buffersAt]
      split <;> rfl
    · rw [buffersAt, buffersAt, Outputs.textOf_push]
      split <;> rfl
  | memory => rfl
  | null => rfl

end

/-! ## Names of files, while sinks write -/

theorem target?_flush (s : Sink) (o : Outputs) :
    (s.flush o).2.files.target? = o.files.target? := by
  cases s with
  | file path pending format => exact Files.target?_append _ _ _
  | _ => rfl

theorem target?_write (s : Sink) (now : Int) (r : Record) (o : Outputs) :
    (s.write now r o).2.files.target? = o.files.target? := by
  cases s with
  | console channel colors format => cases channel <;> rfl
  | file path pending format =>
    rw [write]
    split
    · exact target?_flush _ o
    · rfl
  | memory => rfl
  | null => rfl

theorem target?_close (s : Sink) (o : Outputs) :
    (s.close o).files.target? = o.files.target? := by
  cases s with
  | file path pending format => exact target?_flush _ o
  | _ => rfl

end Sink

/-! ## All sinks in turn -/

namespace Session

/-- What is left alone by every single sink is left alone by all of them. -/
theorem view_visit {α : Type} (view : Outputs → α) {act : Sink → Outputs → Sink × Outputs}
    {sinks : List Sink} (h : ∀ sink ∈ sinks, ∀ o, view (act sink o).2 = view o) (o : Outputs) :
    view (visit act sinks o).2 = view o := by
  induction sinks generalizing o with
  | nil => rfl
  | cons sink sinks ih =>
    have hrest := ih fun other hother => h other (List.mem_cons_of_mem _ hother)
    exact (hrest (act sink o).2).trans (h sink List.mem_cons_self o)

section

variable {p : Path} {act : Sink → Outputs → Sink × Outputs}

/-- If it is known what of each buffer is sent to a file, the file gets it buffer by buffer. -/
theorem contentAt_visit {send : Buffer → Bytes}
    (h : ∀ sink o, (act sink o).2.files.contentAt p =
      o.files.contentAt p ++ (sink.buffersAt p).flatMap send) (sinks : List Sink) (o : Outputs) :
    (visit act sinks o).2.files.contentAt p =
      o.files.contentAt p ++ (sinks.flatMap (Sink.buffersAt p)).flatMap send := by
  induction sinks generalizing o with
  | nil => exact (List.append_nil _).symm
  | cons sink sinks ih =>
    have hrest := ih (act sink o).2
    rw [h, List.append_assoc, ← List.flatMap_append, ← List.flatMap_cons] at hrest
    exact hrest

theorem buffersAt_visit {keep : Buffer → Buffer}
    (h : ∀ sink o, (act sink o).1.buffersAt p = (sink.buffersAt p).map keep)
    (sinks : List Sink) (o : Outputs) :
    (visit act sinks o).1.flatMap (Sink.buffersAt p) =
      (sinks.flatMap (Sink.buffersAt p)).map keep := by
  induction sinks generalizing o with
  | nil => rfl
  | cons sink sinks ih =>
    have hrest := ih (act sink o).2
    rw [List.flatMap_cons, List.map_append, ← h sink o, ← hrest]
    rfl

end

/-- Closing the sinks one by one is visiting them. -/
theorem foldl_close_eq_visit (sinks : List Sink) (o : Outputs) :
    sinks.foldl (fun o sink => sink.close o) o =
      (visit (fun sink o => (sink, sink.close o)) sinks o).2 := by
  induction sinks generalizing o with
  | nil => rfl
  | cons sink sinks ih => exact ih (sink.close o)

end Session
end Log
end RustScan
