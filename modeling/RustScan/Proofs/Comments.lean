import RustScan.Proofs.Leading

/-!
# Comments

How far a comment reaches and what it documents, said without the phases of the scanner.

* `blockLength? depth body` — where a block comment ends.  Openers and closers are counted as pairs
  of bytes, and `Machine.items_block` is the comparison: a phase that has seen a star or a slash
  stands for this byte in front of the rest (`BlockPhase.pending`).
* `blockKind`, `lineKind` — what the first bytes of a comment say about it.  In a block comment they
  are read by two phases that also count, so the first two bytes are gone through by hand
  (`Machine.items_block_opened`).
* `scan_comment` — the main statement, about both sorts of comments.
-/

set_option autoImplicit false

namespace RustScan.Scan

/-! ## Block comments -/

/-- The number of bytes up to the closer that leaves no comment open, when `depth` are open now.
Openers and closers are taken from the left, and no byte belongs to two of them. -/
def blockLength? : (depth : Nat) → Bytes → Option Nat
  | depth, c :: d :: rest =>
    if c = '/'.toUInt8 ∧ d = '*'.toUInt8 then (blockLength? (depth + 1) rest).map (· + 2)
    else if c = '*'.toUInt8 ∧ d = '/'.toUInt8 then
      if depth = 1 then some 2 else (blockLength? (depth - 1) rest).map (· + 2)
    else (blockLength? depth (d :: rest)).map (· + 1)
  | _, _ => none

/-- What a block comment documents. -/
def blockKind (text : Bytes) : CommentKind :=
  if text[2]? = some '!'.toUInt8 then .innerDoc
  else if text[2]? = some '*'.toUInt8 ∧ text[3]? ≠ some '*'.toUInt8 ∧
      text[3]? ≠ some '/'.toUInt8 then .outerDoc
  else .plain

theorem blockKind_cons (c : UInt8) (rest : Bytes) :
    blockKind (ascii "/*" ++ c :: rest) =
      if c = '!'.toUInt8 then .innerDoc
      else if c = '*'.toUInt8 ∧ rest.head? ≠ some '*'.toUInt8 ∧
          rest.head? ≠ some '/'.toUInt8 then .outerDoc
      else .plain := by
  have hthird : (ascii "/*" ++ c :: rest)[2]? = some c := rfl
  have hfourth : (ascii "/*" ++ c :: rest)[3]? = rest.head? := List.head?_eq_getElem?.symm
  simp only [blockKind, hthird, hfourth, Option.some_inj]

/-- The kind is decided by two bytes behind the opener. -/
theorem blockKind_take (rest : Bytes) {n : Nat} (hn : 2 ≤ n) :
    blockKind (ascii "/*" ++ rest.take n) = blockKind (ascii "/*" ++ rest) := by
  obtain ⟨n, rfl⟩ := Nat.exists_eq_add_of_le' hn
  match rest with
  | [] => rfl
  | [c] => rfl
  | c :: d :: rest => rfl

section Lengths

variable {depth : Nat} {c : UInt8} {rest : Bytes}

theorem blockLength?_skip (hslash : c ≠ '/'.toUInt8) (hstar : c ≠ '*'.toUInt8) :
    blockLength? depth (c :: rest) = (blockLength? depth rest).map (· + 1) := by
  cases rest with
  | nil => rfl
  | cons d rest => rw [blockLength?, if_neg (hslash ·.1), if_neg (hstar ·.1)]

theorem blockLength?_slash (h : c ≠ '*'.toUInt8) :
    blockLength? depth ('/'.toUInt8 :: c :: rest) =
      (blockLength? depth (c :: rest)).map (· + 1) := by
  rw [blockLength?, if_neg (h ·.2), if_neg (absurd ·.1 (by decide))]

theorem blockLength?_star (h : c ≠ '/'.toUInt8) :
    blockLength? depth ('*'.toUInt8 :: c :: rest) =
      (blockLength? depth (c :: rest)).map (· + 1) := by
  rw [blockLength?, if_neg (absurd ·.1 (by decide)), if_neg (h ·.2)]

theorem blockLength?_open :
    blockLength? depth ('/'.toUInt8 :: '*'.toUInt8 :: rest) =
      (blockLength? (depth + 1) rest).map (· + 2) := by
  rw [blockLength?, if_pos ⟨rfl, rfl⟩]

theorem blockLength?_close :
    blockLength? depth ('*'.toUInt8 :: '/'.toUInt8 :: rest) =
      if depth = 1 then some 2 else (blockLength? (depth - 1) rest).map (· + 2) := by
  rw [blockLength?, if_neg (absurd ·.1 (by decide)), if_pos ⟨rfl, rfl⟩]

/-- A comment is not complete without a closer. -/
theorem two_le_of_blockLength? {n : Nat} (h : blockLength? depth rest = some n) : 2 ≤ n := by
  fun_induction blockLength? depth rest generalizing n with
  | case1 depth c d rest _ ih =>
    obtain ⟨m, -, rfl⟩ := Option.map_eq_some_iff.1 h
    exact Nat.le_add_left 2 m
  | case2 => exact le_of_eq (Option.some.inj h)
  | case3 depth c d rest =>
    obtain ⟨m, -, rfl⟩ := Option.map_eq_some_iff.1 h
    exact Nat.le_add_left 2 m
  | case4 depth c d rest _ _ ih =>
    obtain ⟨m, hm, rfl⟩ := Option.map_eq_some_iff.1 h
    exact Nat.le_succ_of_le (ih hm)
  | case5 => exact absurd h nofun

end Lengths

/-- What is found in the rest of a block comment whose first bytes are `text`. -/
def blockItems (p : Position) (text : Bytes) (kind : CommentKind) (depth : Nat) (rest : Bytes) :
    List Item :=
  match blockLength? depth rest with
  | some n => (Lexeme.ofText p (text ++ rest.take n)).token (.comment kind) ::
      Machine.items ⟨p.after (text ++ rest.take n), .idle⟩ (rest.drop n)
  | none => [(Lexeme.ofText p (text ++ rest)).fault .openComment]

/-- Bytes that are counted on their own may as well have been read before. -/
theorem blockItems_append {p : Position} {text lead rest : Bytes} {kind : CommentKind}
    {depth depth' : Nat} (h : blockLength? depth (lead ++ rest) =
      (blockLength? depth' rest).map (· + lead.length)) :
    blockItems p text kind depth (lead ++ rest) = blockItems p (text ++ lead) kind depth' rest := by
  rw [blockItems, blockItems, h]
  cases blockLength? depth' rest with
  | none => simp
  | some n =>
    have htake : (lead ++ rest).take (n + lead.length) = lead ++ rest.take n := by
      rw [Nat.add_comm, List.take_length_add_append]
    have hdrop : (lead ++ rest).drop (n + lead.length) = rest.drop n := by
      rw [Nat.add_comm, List.drop_length_add_append]
    simp [htake, hdrop]

theorem blockItems_skip {p : Position} {text rest : Bytes} {kind : CommentKind} {depth : Nat}
    {c : UInt8} (hslash : c ≠ '/'.toUInt8) (hstar : c ≠ '*'.toUInt8) :
    blockItems p text kind depth (c :: rest) = blockItems p (text ++ [c]) kind depth rest :=
  @blockItems_append p text [c] _ _ _ _ (blockLength?_skip hslash hstar)

theorem blockItems_star {p : Position} {text rest : Bytes} {kind : CommentKind} {depth : Nat}
    {c : UInt8} (hslash : c ≠ '/'.toUInt8) :
    blockItems p text kind depth ('*'.toUInt8 :: c :: rest) =
      blockItems p (text ++ ['*'.toUInt8]) kind depth (c :: rest) :=
  @blockItems_append p text ['*'.toUInt8] _ _ _ _ (blockLength?_star hslash)

/-- The byte that may be the first of an opener or a closer. -/
def BlockPhase.pending : BlockPhase → Bytes
  | star => ['*'.toUInt8]
  | slash => ['/'.toUInt8]
  | opened | openedStar | body => []

/-- The phases behind the first bytes of a comment. -/
def BlockPhase.isInner : BlockPhase → Bool
  | opened | openedStar => false
  | body | star | slash => true

/-- What a byte does to the count of a block comment, and to the comment itself. -/
inductive BlockPhase.Counts (phase : BlockPhase) (depth : Nat) (kind : CommentKind) (lx : Lexeme)
    (c : UInt8) : Reaction → Prop
  /-- The last comment that is open is closed. -/
  | closes (last : depth = 1) (closer : phase.pending ++ [c] = ascii "*/") :
      Counts phase depth kind lx c (.close ((lx.push c).token (.comment kind)))
  /-- The bytes `lead` are counted, and a byte of a pair may be left. -/
  | goes (lead : Bytes) {next : BlockPhase} {depth' : Nat} (inner : next.isInner = true)
      (pos : 1 ≤ depth') (read : phase.pending ++ [c] = lead ++ next.pending)
      (count : ∀ rest, blockLength? depth (lead ++ (next.pending ++ rest)) =
        (blockLength? depth' (next.pending ++ rest)).map (· + lead.length)) :
      Counts phase depth kind lx c (.extend lx c (.blockComment next depth' kind))

theorem BlockPhase.counts {phase : BlockPhase} (hphase : phase.isInner = true) {depth : Nat}
    (hdepth : 1 ≤ depth) (kind : CommentKind) (lx : Lexeme) (c : UInt8) :
    phase.Counts depth kind lx c (phase.react depth kind lx c) := by
  cases phase with
  | opened => exact absurd hphase Bool.false_ne_true
  | openedStar => exact absurd hphase Bool.false_ne_true
  | body =>
    simp only [react]
    split_ifs with hstar hslash
    · subst hstar
      exact .goes [] rfl hdepth rfl fun rest => by simp
    · subst hslash
      exact .goes [] rfl hdepth rfl fun rest => by simp
    · exact .goes [c] rfl hdepth rfl fun rest => blockLength?_skip hslash hstar
  | star =>
    simp only [react]
    split_ifs with hslash hlast hstar
    · subst hslash
      exact .closes (Nat.le_antisymm hlast hdepth) rfl
    · subst hslash
      refine .goes (ascii "*/") rfl (by omega) rfl fun rest => ?_
      exact blockLength?_close.trans (if_neg (by omega))
    · subst hstar
      exact .goes (ascii "*") rfl hdepth rfl fun rest => blockLength?_star (by decide)
    · refine .goes ['*'.toUInt8, c] rfl hdepth rfl fun rest => ?_
      refine (blockLength?_star hslash).trans ?_
      rw [blockLength?_skip hslash hstar, Option.map_map]
      rfl
  | slash =>
    simp only [react]
    split_ifs with hstar hslash
    · subst hstar
      exact .goes (ascii "/*") rfl (Nat.le_add_left 1 depth) rfl fun rest =>
        blockLength?_open
    · subst hslash
      exact .goes (ascii "/") rfl hdepth rfl fun rest => blockLength?_slash (by decide)
    · refine .goes ['/'.toUInt8, c] rfl hdepth rfl fun rest => ?_
      refine (blockLength?_slash hstar).trans ?_
      rw [blockLength?_skip hslash hstar, Option.map_map]
      rfl

namespace Machine

/-- **A block comment ends where the count says**, whatever half of a pair has been seen. -/
theorem items_block {phase : BlockPhase} (hphase : phase.isInner = true) (p : Position)
    (text : Bytes) {depth : Nat} (hdepth : 1 ≤ depth) (kind : CommentKind) (rest : Bytes) :
    (inside p (text ++ phase.pending) (.blockComment phase depth kind)).items rest =
      blockItems p text kind depth (phase.pending ++ rest) := by
  induction rest generalizing phase text depth with
  | nil =>
    have hopen : blockLength? depth (phase.pending ++ []) = none := by cases phase <;> rfl
    rw [blockItems, hopen, List.append_nil]
    exact items_inside_nil_of_lineFault? p _ rfl rfl
  | cons c rest ih =>
    have hcounts : phase.Counts depth kind _ c ((Mode.blockComment phase depth kind).react
        (.ofText p (text ++ phase.pending)) c) := phase.counts hphase hdepth kind _ c
    generalize hreact : (Mode.blockComment phase depth kind).react
      (.ofText p (text ++ phase.pending)) c = r at hcounts
    cases hcounts with
    | closes last closer =>
      have hread : phase.pending ++ c :: rest = ascii "*/" ++ rest := by
        rw [← closer, List.append_assoc]
        rfl
      have hlength : blockLength? depth (ascii "*/" ++ rest) = some 2 :=
        blockLength?_close.trans (if_pos last)
      rw [items_cons, step_inside_close hreact, hread, blockItems, hlength, Lexeme.ofText_push,
        List.append_assoc, closer]
      rfl
    | @goes lead next depth' inner pos read count =>
      have hread : phase.pending ++ c :: rest = lead ++ (next.pending ++ rest) := by
        rw [← List.append_assoc, ← read, List.append_assoc]
        rfl
      rw [items_cons, step_inside_extend hreact, hread, blockItems_append (count rest),
        ← ih inner (text ++ lead) pos, List.append_assoc, List.append_assoc, ← read]
      rfl

theorem items_block_body (p : Position) (text : Bytes) (kind : CommentKind) (rest : Bytes) :
    (inside p text (.blockComment .body 1 kind)).items rest = blockItems p text kind 1 rest := by
  have h := @items_block .body rfl p text 1 (Nat.le_refl 1) kind rest
  rwa [BlockPhase.pending, List.append_nil] at h

/-- Behind `/**` the comment may be closed, be plain after all, or document what follows. -/
theorem items_block_openedStar (p : Position) (rest : Bytes) :
    (inside p (ascii "/**") (.blockComment .openedStar 1 .plain)).items rest =
      blockItems p (ascii "/*") (blockKind (ascii "/*" ++ '*'.toUInt8 :: rest)) 1
        ('*'.toUInt8 :: rest) := by
  rw [blockKind_cons, if_neg (by decide)]
  cases rest with
  | nil => exact items_inside_nil_of_lineFault? p _ rfl rfl
  | cons c rest =>
    rw [List.head?_cons]
    by_cases hslash : c = '/'.toUInt8
    · subst hslash
      rw [items_inside_close rfl, if_neg (by simp), blockItems, blockLength?_close]
      rfl
    · by_cases hstar : c = '*'.toUInt8
      · subst hstar
        rw [items_inside_extend rfl, if_neg (by simp), blockItems_star (by decide)]
        exact @items_block .star rfl p (ascii "/**") 1 (Nat.le_refl 1) .plain rest
      · have hreact : (Mode.blockComment .openedStar 1 .plain).react (.ofText p (ascii "/**")) c =
            .extend (.ofText p (ascii "/**")) c (.blockComment .body 1 .outerDoc) := by
          simp only [Mode.react, BlockPhase.react, if_neg hslash, if_neg hstar]
        rw [items_inside_extend hreact, items_block_body, if_pos (by simp [hslash, hstar]),
          blockItems_star hslash, blockItems_skip hslash hstar]
        rfl

/-- **The first bytes of a block comment** decide what it documents, and are counted like any. -/
theorem items_block_opened (p : Position) (rest : Bytes) :
    (inside p (ascii "/*") (.blockComment .opened 1 .plain)).items rest =
      blockItems p (ascii "/*") (blockKind (ascii "/*" ++ rest)) 1 rest := by
  cases rest with
  | nil => exact items_inside_nil_of_lineFault? p _ rfl rfl
  | cons c rest =>
    by_cases hbang : c = '!'.toUInt8
    · subst hbang
      rw [items_inside_extend rfl, items_block_body, blockKind_cons, if_pos rfl,
        blockItems_skip (by decide) (by decide)]
    · by_cases hstar : c = '*'.toUInt8
      · subst hstar
        rw [items_inside_extend rfl]
        exact items_block_openedStar p rest
      · rw [blockKind_cons, if_neg hbang, if_neg (hstar ·.1)]
        by_cases hslash : c = '/'.toUInt8
        · subst hslash
          rw [items_inside_extend rfl]
          exact @items_block .slash rfl p (ascii "/*") 1 (Nat.le_refl 1) .plain rest
        · have hreact : (Mode.blockComment .opened 1 .plain).react (.ofText p (ascii "/*")) c =
              .extend (.ofText p (ascii "/*")) c (.blockComment .body 1 .plain) := by
            simp only [Mode.react, BlockPhase.react, if_neg hbang, if_neg hslash, if_neg hstar]
          rw [items_inside_extend hreact, items_block_body, blockItems_skip hslash hstar]

end Machine

/-! ## Line comments -/

/-- What a line comment documents. -/
def lineKind (text : Bytes) : CommentKind :=
  if text[2]? = some '!'.toUInt8 then .innerDoc
  else if text[2]? = some '/'.toUInt8 ∧ text[3]? ≠ some '/'.toUInt8 then .outerDoc
  else .plain

theorem lineKind_cons (c : UInt8) (rest : Bytes) :
    lineKind (ascii "//" ++ c :: rest) =
      if c = '!'.toUInt8 then .innerDoc
      else if c = '/'.toUInt8 ∧ rest.head? ≠ some '/'.toUInt8 then .outerDoc
      else .plain := by
  have hthird : (ascii "//" ++ c :: rest)[2]? = some c := rfl
  have hfourth : (ascii "//" ++ c :: rest)[3]? = rest.head? := List.head?_eq_getElem?.symm
  simp only [lineKind, hthird, hfourth, Option.some_inj]

/-- What is found in the rest of a line comment whose first bytes are `text`. -/
def lineItems (p : Position) (text : Bytes) (kind : CommentKind) (rest : Bytes) : List Item :=
  (Lexeme.ofText p (text ++ rest.takeWhile (· ≠ Bytes.lf))).token (.comment kind) ::
    Machine.items ⟨p.after (text ++ rest.takeWhile (· ≠ Bytes.lf)), .idle⟩
      (rest.dropWhile (· ≠ Bytes.lf))

theorem lineItems_cons {p : Position} {text rest : Bytes} {kind : CommentKind} {c : UInt8}
    (hc : c ≠ Bytes.lf) :
    lineItems p text kind (c :: rest) = lineItems p (text ++ [c]) kind rest := by
  simp [lineItems, hc]

namespace Machine

variable {p : Position} {text : Bytes}

/-- In every phase the comment ends in front of a line feed. -/
theorem items_line_cut (hcolumn : (p.after text).column ≠ 0) (phase : LinePhase)
    (kind : CommentKind) {rest : Bytes} (h : rest.headD Bytes.lf = Bytes.lf) :
    (inside p text (.lineComment phase kind)).items rest = lineItems p text kind rest := by
  have hreact : (Mode.lineComment phase kind).react (.ofText p text) (rest.headD Bytes.lf) =
      .cut ((Lexeme.ofText p text).token (.comment kind)) := by
    rw [h]
    rfl
  rw [items_inside_cut hcolumn hreact (Lexeme.comment_covers _ kind), lineItems]
  cases rest with
  | nil => simp
  | cons c rest =>
    obtain rfl : c = Bytes.lf := h
    simp

/-- The text of a line comment runs up to the line feed. -/
theorem items_line_body (hcolumn : (p.after text).column ≠ 0) (kind : CommentKind)
    (rest : Bytes) :
    (inside p text (.lineComment .body kind)).items rest = lineItems p text kind rest := by
  refine @items_inside_span p text Unit (fun _ => .lineComment .body kind) (fun a _ => a) _
    (fun _ lx => lx.token (.comment kind)) (by decide) ?_ ?_ (fun _ lx => lx.comment_covers kind)
    hcolumn rest ()
  · intro _ lx c hc
    exact if_neg (of_decide_eq_true hc)
  · intro _ lx c hc
    exact if_pos (not_not.1 (of_decide_eq_false hc))

/-- A byte behind which the text of the comment begins. -/
theorem items_line_extend {phase : LinePhase} {kind kind' : CommentKind} {c : UInt8}
    (hc : c ≠ Bytes.lf) (hreact : (Mode.lineComment phase kind).react (.ofText p text) c =
      .extend (.ofText p text) c (.lineComment .body kind')) (rest : Bytes) :
    (inside p text (.lineComment phase kind)).items (c :: rest) =
      lineItems p text kind' (c :: rest) := by
  rw [items_inside_extend hreact, items_line_body (after_concat_column_ne_zero p text hc),
    lineItems_cons hc]

/-- A fourth slash makes the comment plain. -/
theorem items_line_tripled (hcolumn : (p.after text).column ≠ 0) (rest : Bytes) :
    (inside p text (.lineComment .tripled .outerDoc)).items rest =
      lineItems p text (if rest.head? = some '/'.toUInt8 then .plain else .outerDoc) rest := by
  cases rest with
  | nil => exact items_line_cut hcolumn .tripled .outerDoc rfl
  | cons c rest =>
    by_cases hslash : c = '/'.toUInt8
    · subst hslash
      rw [List.head?_cons, if_pos rfl]
      exact items_line_extend (by decide) rfl rest
    · rw [List.head?_cons, if_neg (by simpa using hslash)]
      by_cases hc : c = Bytes.lf
      · exact items_line_cut hcolumn .tripled .outerDoc hc
      · refine items_line_extend hc ?_ rest
        simp only [Mode.react, LinePhase.react, if_neg hc, if_neg hslash]

/-- **The first bytes of a line comment** decide what it documents. -/
theorem items_line_opened (p : Position) (rest : Bytes) :
    (inside p (ascii "//") (.lineComment .opened .plain)).items rest =
      lineItems p (ascii "//") (lineKind (ascii "//" ++ rest)) rest := by
  have hcolumn : (p.after (ascii "//")).column ≠ 0 :=
    after_concat_column_ne_zero p (ascii "/") (by decide)
  cases rest with
  | nil => exact items_line_cut hcolumn .opened .plain rfl
  | cons c rest =>
    rw [lineKind_cons]
    by_cases hbang : c = '!'.toUInt8
    · subst hbang
      exact items_line_extend (by decide) rfl rest
    · rw [if_neg hbang]
      by_cases hslash : c = '/'.toUInt8
      · subst hslash
        have hcolumn' : (p.after (ascii "///")).column ≠ 0 :=
          after_concat_column_ne_zero p (ascii "//") (by decide)
        have hkind : (if '/'.toUInt8 = '/'.toUInt8 ∧ rest.head? ≠ some '/'.toUInt8
            then CommentKind.outerDoc else .plain) =
              if rest.head? = some '/'.toUInt8 then .plain else .outerDoc := by
          simp only [true_and, ne_eq, ite_not]
        rw [items_inside_extend rfl, lineItems_cons (by decide), hkind]
        exact items_line_tripled hcolumn' rest
      · rw [if_neg (hslash ·.1)]
        by_cases hc : c = Bytes.lf
        · exact items_line_cut hcolumn .opened .plain hc
        · refine items_line_extend hc ?_ rest
          simp only [Mode.react, LinePhase.react, if_neg hc, if_neg hbang, if_neg hslash]

end Machine

/-! ## The first token -/

/-- **Where a comment ends, and what it documents.**  A block comment ends at the closer that leaves
none open, or is malformed up to the end of the input; a line comment ends with its line. -/
theorem scan_comment (body : Bytes) :
    (match blockLength? 1 body with
      | some n => Leads (ascii "/*" ++ body) (ascii "/*" ++ body.take n)
          (.comment (blockKind (ascii "/*" ++ body.take n))) (ascii "/*" ++ body.take n)
      | none => (scan (ascii "/*" ++ body)).tokens =
          [⟨0, 0, .error, some Fault.openComment.message, 0,
            (ascii "/*" ++ body).length.toUInt32⟩]) ∧
      Leads (ascii "//" ++ body) (ascii "//" ++ body.takeWhile (· ≠ Bytes.lf))
        (.comment (lineKind (ascii "//" ++ body)))
        (ascii "//" ++ body.takeWhile (· ≠ Bytes.lf)) := by
  constructor
  · have hitems : ({} : Machine).items (ascii "/*" ++ body) =
        blockItems {} (ascii "/*") (blockKind (ascii "/*" ++ body)) 1 body :=
      (Machine.items_of_run rfl).trans (Machine.items_block_opened {} body)
    rw [blockItems] at hitems
    cases hlength : blockLength? 1 body with
    | none =>
      rw [hlength] at hitems
      exact (leads_fault_whole hitems).only
    | some n =>
      rw [hlength, ← blockKind_take body (two_le_of_blockLength? hlength)] at hitems
      refine leads_token ?_ rfl nofun hitems
      rw [List.append_assoc, List.take_append_drop]
  · have hitems : ({} : Machine).items (ascii "//" ++ body) =
        lineItems {} (ascii "//") (lineKind (ascii "//" ++ body)) body :=
      (Machine.items_of_run rfl).trans (Machine.items_line_opened {} body)
    refine leads_token ?_ rfl nofun hitems
    rw [List.append_assoc, List.takeWhile_append_dropWhile]

end RustScan.Scan
