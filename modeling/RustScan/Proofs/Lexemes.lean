import RustScan.Proofs.Items

/-!
# One lexeme after another

A machine reads byte by byte, and an item comes out when the byte behind its lexeme has been seen,
sometimes two bytes behind it.  This file reads the same run lexeme by lexeme.

* `Begins p text found` — `text`, which stands at `p`, begins with a lexeme, and `found` is its item
  followed by what a machine *between* lexemes finds behind it.  The number in front of a range or a
  member is such a lexeme too: the machine has read the point by then, but goes on as if it had not
  (`Machine.range_begins`, `Machine.member_begins`).  The one exception is an exponent without a
  sign, where two items come out together and the second is no lexeme on its own.
* `Machine.items_within` — an open lexeme will be one that its text begins with, wherever the text
  ends.
* `Machine.items_induction` — to show something of all texts, show it of the empty one, and show
  that it is kept by a blank, by a lexeme, and by a number with an exponent that has no sign.
* `Machine.items_origin` — every item comes from a lexeme of the text, or is such a letter.
* `Machine.items_split` — a machine that begins in front of any item finds the same items from there
  on.
-/

set_option autoImplicit false

namespace RustScan.Scan

/-! ## The point behind a number -/

/-- The letters and the underscore are in no symbol but the underscore itself. -/
theorem Symbol.any_isWordStart_eq_false {s : Symbol} (hs : s ≠ .underscore) :
    (ascii s.spelling).any isWordStart = false := by
  cases s with
  | underscore => exact absurd rfl hs
  | _ => decide

/-- No symbol is a point with a name behind it. -/
theorem Symbol.extend?_dot_eq_none {c : UInt8} (h : isWordStart c = true) :
    Symbol.extend? .dot c = none := by
  cases ht : Symbol.extend? .dot c with
  | none => rfl
  | some t =>
    have hsp : ascii t.spelling = ascii "." ++ [c] := Symbol.spelling_of_extend? ht
    have hne : t ≠ .underscore := by
      rintro rfl
      exact absurd (show 1 = 2 from congrArg List.length hsp) (by decide)
    have hany := Symbol.any_isWordStart_eq_false hne
    exact absurd h (List.any_eq_false.1 hany c (by simp [hsp]))

/-- A number that hands over its last byte is reported by the others. -/
theorem Lexeme.front_literal_covers {lx : Lexeme} {front : Bytes} {c : UInt8}
    (h : lx.text = front ++ [c]) (l : Literal) :
    (lx.front.token (.literal l)).length = front.length ∧
      (lx.front.token (.literal l)).finding.Tells front := by
  have hfront : lx.front.text = front := by rw [front_text, h, List.dropLast_concat]
  have hcovers := lx.front.literal_covers l
  rw [← hfront]
  exact ⟨hcovers.length, hcovers.tells⟩

/-- On a single line the last byte is a lexeme that begins behind the others. -/
theorem Lexeme.last_eq {lx : Lexeme} {front : Bytes} {c : UInt8} (h : lx.text = front ++ [c])
    (hline : Bytes.lf ∉ lx.text) : lx.last = single (lx.start.after front) c := by
  have hlf : Bytes.lf ∉ front := by
    intro hmem
    rw [h] at hline
    exact hline (List.mem_append_left _ hmem)
  obtain ⟨start, bytes⟩ := lx
  obtain ⟨bytes⟩ := bytes
  replace h : bytes = front ++ [c] := h
  subst h
  simp [last, single, Position.after_eq_right _ hlf]

theorem Item.clip_eq_self {i : Item} {limit : Nat} (h : i.start.offset + i.length ≤ limit) :
    i.clip limit = i := by
  have hlen : min i.length (limit - i.start.offset) = i.length := by omega
  rw [clip, hlen]

/-- What reports a lexeme does not reach beyond it. -/
theorem Item.Covers.clip_eq_self {i : Item} {lx : Lexeme} (h : i.Covers lx) :
    i.clip (lx.start.offset + lx.text.length) = i := by
  refine Item.clip_eq_self ?_
  rw [h.start, h.length]

/-! ## The lexeme a text begins with -/

/-- The text at `p` begins with a lexeme, and these are its items. -/
inductive Begins (p : Position) : Bytes → List Item → Prop
  /-- The item of the lexeme, and what is found behind it. -/
  | lexeme {front : Bytes} {item : Item} (rest : Bytes) (ne_nil : front ≠ [])
      (start : item.start = p) (length : item.length = front.length)
      (tells : item.finding.Tells front) :
      Begins p (front ++ rest) (item :: Machine.items ⟨p.after front, .idle⟩ rest)
  /-- A number, the letter of its exponent, and what is found behind that. -/
  | exponent {front : Bytes} {item : Item} {e : UInt8} (rest : Bytes) (ne_nil : front ≠ [])
      (letter : NumberMode.isExponentLetter e = true) (start : item.start = p)
      (length : item.length = front.length) (tells : item.finding.Tells front) :
      Begins p (front ++ e :: rest)
        (item :: ⟨p.after front, 1, .fault .noExponentSign⟩ ::
          Machine.items ⟨(p.after front).advance e, .idle⟩ rest)

namespace Machine

/-- A lexeme that is complete in front of `rest`. -/
theorem begins_of_covers {lx : Lexeme} {item : Item} (ne_nil : lx.text ≠ [])
    (h : item.Covers lx) (rest : Bytes) :
    Begins lx.start (lx.text ++ rest)
      (item :: items ⟨lx.start.after lx.text, .idle⟩ rest) :=
  .lexeme rest ne_nil h.start h.length h.tells

/-- A lexeme that is complete at the end of the input.  An item that counts the line feed offered
there as well is clipped to what the text has. -/
theorem begins_of_clip {lx : Lexeme} {item : Item} (ne_nil : lx.text ≠ [])
    (start : item.start = lx.start) (length : lx.text.length ≤ item.length)
    (tells : item.finding.Tells lx.text) :
    Begins lx.start (lx.text ++ []) [item.clip (lx.start.after lx.text).offset] := by
  have hlen : (item.clip (lx.start.after lx.text).offset).length = lx.text.length := by
    simp only [Item.clip, start, Position.after_offset]
    omega
  have h := Begins.lexeme [] ne_nil
    (show (item.clip (lx.start.after lx.text).offset).start = lx.start from start) hlen tells
  rwa [items_idle_nil] at h

/-! ### Numbers that hand over their last byte -/

/-- The state between lexemes takes a point for the beginning of a symbol. -/
theorem items_idle_dot (p : Position) (rest : Bytes) :
    items ⟨p, .idle⟩ ('.'.toUInt8 :: rest) =
      items ⟨p.advance '.'.toUInt8, .within (.symbol .dot) (.single p '.'.toUInt8)⟩ rest :=
  items_of_used (s := .idle) rfl rest

/-- **In front of a range the point is read as if it had not been part of the number.** -/
theorem range_begins {lx : Lexeme} (fits : (Mode.number .point).Fits lx.text) (rest : Bytes) :
    Begins lx.start (lx.text ++ '.'.toUInt8 :: rest)
      (lx.front.token (.literal .decimal) ::
        items ⟨lx.start.after lx.text, .within (.symbol .dot) lx.last⟩ ('.'.toUInt8 :: rest)) := by
  obtain ⟨hlf, digits, hne, htext⟩ := fits
  obtain ⟨hlength, htells⟩ := Lexeme.front_literal_covers htext .decimal
  have h := Begins.lexeme ('.'.toUInt8 :: '.'.toUInt8 :: rest) hne lx.front_start hlength htells
  rw [items_idle_dot] at h
  rw [Lexeme.last_eq htext hlf, htext, Position.after_append]
  simpa using h

/-- **In front of a name the point is read as if it had not been part of the number.** -/
theorem member_begins {lx : Lexeme} (fits : (Mode.number .point).Fits lx.text) {c : UInt8}
    (hc : isWordStart c = true) (rest : Bytes) :
    Begins lx.start (lx.text ++ c :: rest)
      (lx.front.token (.literal .decimal) :: lx.last.token (.symbol .dot) ::
        items ⟨lx.start.after lx.text, .idle⟩ (c :: rest)) := by
  obtain ⟨hlf, digits, hne, htext⟩ := fits
  obtain ⟨hlength, htells⟩ := Lexeme.front_literal_covers htext .decimal
  have h := Begins.lexeme ('.'.toUInt8 :: c :: rest) hne lx.front_start hlength htells
  have hcut : ∀ q dot, State.react (.within (.symbol .dot) dot) q c =
      .cut (dot.token (.symbol .dot)) := by
    intro q dot
    simp only [State.react, Mode.react, reactSymbol, Symbol.extend?_dot_eq_none hc]
  rw [items_idle_dot, items_of_unused (by rw [hcut]; rfl), hcut] at h
  rw [Lexeme.last_eq htext hlf, htext, Position.after_append]
  simpa [Reaction.cut] using h

/-- The letter of an exponent without a sign is malformed. -/
theorem unsigned_begins {lx : Lexeme} {pointed : Bool}
    (fits : (Mode.number (.exponentLead pointed)).Fits lx.text) (form : Literal) (rest : Bytes) :
    Begins lx.start (lx.text ++ rest)
      (lx.front.token (.literal form) :: lx.last.fault .noExponentSign ::
        items ⟨lx.start.after lx.text, .idle⟩ rest) := by
  obtain ⟨hlf, digits, e, hne, he, htext⟩ := fits
  obtain ⟨hlength, htells⟩ := Lexeme.front_literal_covers htext form
  have h := Begins.exponent rest hne he lx.front_start hlength htells
  rw [Lexeme.last_eq htext hlf, htext, Position.after_append]
  simpa [Lexeme.fault, Lexeme.single] using h

/-- Neither of the two items reaches beyond the lexeme. -/
theorem unsigned_clip {lx : Lexeme} {pointed : Bool}
    (fits : (Mode.number (.exponentLead pointed)).Fits lx.text) (form : Literal) :
    (lx.front.token (.literal form)).clip (lx.start.offset + lx.text.length) =
        lx.front.token (.literal form) ∧
      (lx.last.fault .noExponentSign).clip (lx.start.offset + lx.text.length) =
        lx.last.fault .noExponentSign := by
  obtain ⟨hlf, digits, e, -, -, htext⟩ := fits
  refine ⟨Item.clip_eq_self ?_, Item.clip_eq_self ?_⟩
  · have hstart : (lx.front.token (.literal form)).start = lx.start := rfl
    rw [hstart, (Lexeme.front_literal_covers htext form).1, htext, List.length_append]
    omega
  · rw [Lexeme.last_eq htext hlf, htext]
    simp [Lexeme.fault, Lexeme.single, Nat.add_assoc]

/-! ### Open lexemes -/

/-- What the end of the input makes of an open lexeme.  If the mode leaves the line feed to another
one, that one is asked (`again`). -/
theorem items_within_nil {mode : Mode} {lx : Lexeme} (fits : mode.Fits lx.text)
    (again : ∀ next : Mode, next.Second → ¬ mode.Second → next.Fits lx.text →
      Begins lx.start (lx.text ++ []) (items ⟨lx.start.after lx.text, .within next lx⟩ [])) :
    Begins lx.start (lx.text ++ []) (items ⟨lx.start.after lx.text, .within mode lx⟩ []) := by
  by_cases hp : (lx.start.after lx.text).column = 0
  · rw [items_nil_of_column_eq_zero hp]
    exact begins_of_clip fits.ne_nil rfl (le_of_eq rfl) (.fault _)
  · have hr := mode.reacts lx Bytes.lf
    have hreact : State.react (.within mode lx) (lx.start.after lx.text) Bytes.lf =
      mode.react lx Bytes.lf := rfl
    generalize mode.react lx Bytes.lf = r at hr hreact
    cases hr with
    | extend =>
      rw [items_nil_of_used hp (by rw [hreact]; rfl), hreact]
      exact begins_of_clip fits.ne_nil rfl (by simp [Lexeme.fault, Lexeme.push, Lexeme.text])
        (.fault _)
    | close covers fault_of_lf =>
      rw [items_nil_of_used hp (by rw [hreact]; rfl), hreact]
      obtain ⟨f, hf⟩ := fault_of_lf rfl
      exact begins_of_clip fits.ne_nil (covers fits).start (by simp [(covers fits).length])
        (hf ▸ .fault f)
    | cut covers =>
      rw [items_nil_of_unused hp (by rw [hreact]; rfl), hreact]
      simp only [Reaction.cut, items_idle_nil, List.append_nil]
      simpa using begins_of_clip fits.ne_nil (covers fits).start
        (le_of_eq (covers fits).length.symm) (covers fits).tells
    | retry second first keeps =>
      rw [items_nil_of_unused hp (by rw [hreact]; rfl), hreact]
      exact again _ second first (keeps fits)
    | range _ hc => exact absurd hc (by decide)
    | member _ hc => exact absurd hc (by decide)
    | @unsigned pointed form hmode =>
      subst hmode
      rw [items_nil_of_unused hp (by rw [hreact]), hreact]
      obtain ⟨hfront, hlast⟩ := unsigned_clip fits form
      simpa [hfront, hlast] using unsigned_begins fits form []

/-- What a further byte makes of an open lexeme, if it is known what the bytes behind it make of
any. -/
theorem items_within_cons {mode : Mode} {lx : Lexeme} {c : UInt8} {rest : Bytes}
    (fits : mode.Fits lx.text)
    (behind : ∀ (next : Mode) (lx : Lexeme), next.Fits lx.text →
      Begins lx.start (lx.text ++ rest) (items ⟨lx.start.after lx.text, .within next lx⟩ rest))
    (again : ∀ next : Mode, next.Second → ¬ mode.Second → next.Fits lx.text →
      Begins lx.start (lx.text ++ c :: rest)
        (items ⟨lx.start.after lx.text, .within next lx⟩ (c :: rest))) :
    Begins lx.start (lx.text ++ c :: rest)
      (items ⟨lx.start.after lx.text, .within mode lx⟩ (c :: rest)) := by
  have hr := mode.reacts lx c
  have hreact : State.react (.within mode lx) (lx.start.after lx.text) c = mode.react lx c := rfl
  generalize mode.react lx c = r at hr hreact
  cases hr with
  | extend keeps =>
    rw [items_of_used (by rw [hreact]; rfl), hreact]
    simpa [Reaction.extend] using behind _ (lx.push c) (by simpa using keeps fits)
  | close covers =>
    rw [items_of_used (by rw [hreact]; rfl), hreact]
    simpa [Reaction.close] using begins_of_covers (by simp) (covers fits) rest
  | cut covers =>
    rw [items_of_unused (by rw [hreact]; rfl), hreact]
    exact begins_of_covers fits.ne_nil (covers fits) (c :: rest)
  | retry second first keeps =>
    rw [items_of_unused (by rw [hreact]; rfl), hreact]
    exact again _ second first (keeps fits)
  | range hmode hc =>
    subst hmode hc
    rw [items_of_unused (by rw [hreact]), hreact]
    exact range_begins fits rest
  | member hmode hc =>
    subst hmode
    rw [items_of_unused (by rw [hreact]), hreact]
    exact member_begins fits hc rest
  | @unsigned pointed form hmode =>
    subst hmode
    rw [items_of_unused (by rw [hreact]), hreact]
    exact unsigned_begins fits form (c :: rest)

/-- **An open lexeme will be one that its text begins with.** -/
theorem items_within {mode : Mode} {lx : Lexeme} (fits : mode.Fits lx.text) (rest : Bytes) :
    Begins lx.start (lx.text ++ rest) (items ⟨lx.start.after lx.text, .within mode lx⟩ rest) := by
  induction rest generalizing mode lx with
  | nil =>
    -- a mode that is asked second does not pass the question on
    refine items_within_nil fits fun next second _ keeps => ?_
    exact items_within_nil keeps fun _ _ first _ => absurd second first
  | cons c rest ih =>
    refine items_within_cons fits (fun _ _ h => ih h) fun next second _ keeps => ?_
    exact items_within_cons keeps (fun _ _ h => ih h) fun _ _ first _ => absurd second first

/-! ### The beginning of a lexeme -/

/-- What a byte between lexemes can begin. -/
inductive Opens (c : UInt8) : Opening → Prop
  | skip (blank : isSpace c = true) : Opens c .skip
  | lexeme {mode : Mode} (fits : mode.Fits [c]) : Opens c (.lexeme mode)
  | symbol {s : Symbol} (spelling : [c] = ascii s.spelling) : Opens c (.symbol s)
  | unexpected : Opens c .unexpected

theorem number_fits_singleton {n : NumberMode} {c : UInt8} (hn : n = .zero ∨ n = .digits)
    (hc : isDigit c = true) : (Mode.number n).Fits [c] := by
  have hlf : Bytes.lf ∉ [c] := by simpa using (ne_lf_of_class (by decide) hc).symm
  rcases hn with rfl | rfl
  · exact ⟨hlf, List.cons_ne_nil _ _⟩
  · exact ⟨hlf, List.cons_ne_nil _ _⟩

theorem opens_ofByte (c : UInt8) : Opens c (Opening.ofByte c) := by
  have hne : [c] ≠ [] := List.cons_ne_nil _ _
  rw [Opening.ofByte]
  refine iteInduction (fun h => .skip h) fun _ => ?_
  refine iteInduction (fun h => .lexeme (number_fits_singleton (Or.inl rfl) (h ▸ by decide)))
    fun _ => ?_
  refine iteInduction (fun h => .lexeme (number_fits_singleton (Or.inr rfl) h)) fun _ => ?_
  refine iteInduction (fun h => .lexeme (h ▸ rfl)) fun _ => ?_
  refine iteInduction (fun _ => .lexeme hne) fun _ => ?_
  refine iteInduction (fun _ => .lexeme hne) fun _ => ?_
  refine iteInduction (fun _ => .lexeme hne) fun _ => ?_
  refine iteInduction (fun _ => .lexeme hne) fun _ => ?_
  refine iteInduction (fun _ => .lexeme hne) fun _ => ?_
  refine iteInduction (fun h => .lexeme (h ▸ rfl)) fun _ => ?_
  cases hs : Symbol.ofByte? c with
  | some s =>
    have hspelling : [c] = ascii s.spelling := (Symbol.spelling_of_ofBytes? hs).symm
    exact iteInduction (fun _ => .symbol hspelling) fun _ => .lexeme hspelling
  | none => exact .unexpected

/-- A byte that is no blank begins a lexeme. -/
theorem items_idle_begins {c : UInt8} (h : isSpace c = false) (p : Position) (rest : Bytes) :
    Begins p (c :: rest) (items ⟨p, .idle⟩ (c :: rest)) := by
  have hreact : State.idle.react p c = reactIdle p c := rfl
  have ho := opens_ofByte c
  rw [items_of_used (by rw [hreact]; exact reactIdle_used p c), hreact, reactIdle]
  generalize Opening.ofByte c = o at ho
  cases ho with
  | skip blank => exact absurd (blank.symm.trans h) (by decide)
  | @lexeme mode fits => exact @items_within mode (.single p c) fits rest
  | symbol spelling =>
    exact @begins_of_covers (.single p c) _ (List.cons_ne_nil _ _) (Lexeme.symbol_covers spelling)
      rest
  | unexpected =>
    exact @begins_of_covers (.single p c) _ (List.cons_ne_nil _ _) (Lexeme.fault_covers _ _) rest

/-! ## Going through a text -/

/-- **Going through a text lexeme by lexeme.**  Each case comes with what a machine between lexemes
finds in the text. -/
theorem items_induction {motive : Position → Bytes → Prop} (nil : ∀ p, motive p [])
    (skip : ∀ p c rest, isSpace c = true → motive (p.advance c) rest → motive p (c :: rest))
    (lexeme : ∀ p c front rest item, isSpace c = false → item.start = p →
      item.length = front.length + 1 → item.finding.Tells (c :: front) →
      items ⟨p, .idle⟩ (c :: front ++ rest) =
        item :: items ⟨p.after (c :: front), .idle⟩ rest →
      motive (p.after (c :: front)) rest → motive p (c :: front ++ rest))
    (exponent : ∀ p c front e rest item, isSpace c = false → item.start = p →
      item.length = front.length + 1 → item.finding.Tells (c :: front) →
      NumberMode.isExponentLetter e = true →
      items ⟨p, .idle⟩ (c :: front ++ e :: rest) =
        item :: ⟨p.after (c :: front), 1, .fault .noExponentSign⟩ ::
          items ⟨(p.after (c :: front)).advance e, .idle⟩ rest →
      motive ((p.after (c :: front)).advance e) rest → motive p (c :: front ++ e :: rest))
    (p : Position) (text : Bytes) : motive p text := by
  induction hn : text.length using Nat.strongRecOn generalizing p text with
  | ind n ih =>
    cases text with
    | nil => exact nil p
    | cons c rest =>
      have hlen : rest.length < n := by rw [← hn, List.length_cons]; omega
      cases hc : isSpace c with
      | true => exact skip p c rest hc (ih _ hlen (p.advance c) rest rfl)
      | false =>
        have hb := items_idle_begins hc p rest
        generalize htext : c :: rest = text at hb
        generalize hfound : items ⟨p, .idle⟩ text = found at hb
        cases hb with
        | @lexeme front item behind ne_nil start length tells =>
          obtain ⟨b, front, rfl⟩ := List.exists_cons_of_ne_nil ne_nil
          rw [List.cons_append, List.cons.injEq] at htext
          obtain ⟨rfl, rfl⟩ := htext
          have hlt : behind.length < n := by
            rw [List.length_append] at hlen
            omega
          exact lexeme p c front behind item hc start length tells hfound (ih _ hlt _ behind rfl)
        | @exponent front item e behind ne_nil letter start length tells =>
          obtain ⟨b, front, rfl⟩ := List.exists_cons_of_ne_nil ne_nil
          rw [List.cons_append, List.cons.injEq] at htext
          obtain ⟨rfl, rfl⟩ := htext
          have hlt : behind.length < n := by
            rw [List.length_append, List.length_cons] at hlen
            omega
          exact exponent p c front e behind item hc start length tells letter hfound
            (ih _ hlt _ behind rfl)

/-- Where an item of a text comes from, and the items from there on. -/
inductive Origin (p : Position) (text : Bytes) (item : Item) (found : List Item) : Prop
  /-- A lexeme, which a machine that begins in front of it finds as well. -/
  | lexeme (before front rest : Bytes) (text_eq : text = before ++ (front ++ rest))
      (start : item.start = p.after before) (length : item.length = front.length)
      (tells : item.finding.Tells front) (again : found = items ⟨item.start, .idle⟩ (front ++ rest))
  /-- The letter of an exponent, which is malformed just because of the number in front of it. -/
  | exponent (before rest : Bytes) (e : UInt8) (text_eq : text = before ++ e :: rest)
      (item_eq : item = ⟨p.after before, 1, .fault .noExponentSign⟩)

/-- An item of a later part of a text is one of the text. -/
theorem Origin.prepend {p : Position} {text : Bytes} {item : Item} {found : List Item}
    (lead : Bytes) (h : Origin (p.after lead) text item found) :
    Origin p (lead ++ text) item found := by
  cases h with
  | lexeme before front rest text_eq start length tells again =>
    refine .lexeme (lead ++ before) front rest ?_ ?_ length tells again
    · rw [text_eq, List.append_assoc]
    · rw [start, Position.after_append]
  | exponent before rest e text_eq item_eq =>
    refine .exponent (lead ++ before) rest e ?_ ?_
    · rw [text_eq, List.append_assoc]
    · rw [item_eq, Position.after_append]

/-- **Every item has an origin.** -/
theorem items_origin (p : Position) (text : Bytes) (n : Nat) (item : Item)
    (h : (items ⟨p, .idle⟩ text)[n]? = some item) :
    Origin p text item ((items ⟨p, .idle⟩ text).drop n) := by
  induction p, text using items_induction generalizing n with
  | nil p => exact absurd h (by simp [items_idle_nil])
  | skip p c rest hc ih =>
    rw [items_idle_of_isSpace hc] at h ⊢
    exact (ih n h).prepend [c]
  | lexeme p c front rest first hc start length tells hfound ih =>
    cases n with
    | zero =>
      rw [hfound, List.getElem?_cons_zero, Option.some_inj] at h
      subst h
      exact .lexeme [] (c :: front) rest rfl start length tells (by rw [start]; rfl)
    | succ n =>
      rw [hfound, List.getElem?_cons_succ] at h
      rw [hfound, List.drop_succ_cons]
      exact (ih n h).prepend (c :: front)
  | exponent p c front e rest first hc start length tells letter hfound ih =>
    match n with
    | 0 =>
      rw [hfound, List.getElem?_cons_zero, Option.some_inj] at h
      subst h
      exact .lexeme [] (c :: front) (e :: rest) rfl start length tells (by rw [start]; rfl)
    | 1 =>
      rw [hfound, List.getElem?_cons_succ, List.getElem?_cons_zero, Option.some_inj] at h
      exact .exponent (c :: front) rest e rfl h.symm
    | n + 2 =>
      rw [hfound, List.getElem?_cons_succ, List.getElem?_cons_succ] at h
      rw [hfound, List.drop_succ_cons, List.drop_succ_cons]
      have horigin := (ih n h).prepend [e]
      exact horigin.prepend (c :: front)

/-- **Every item is found again where it starts.**  The text can be cut in front of any item, and a
machine that begins there finds this item and those behind it.  Only the letter of an exponent is
not found again, since it is malformed just because of the number in front of it. -/
theorem items_split (p : Position) (text : Bytes) (n : Nat) (item : Item)
    (h : (items ⟨p, .idle⟩ text)[n]? = some item) :
    ∃ before behind, text = before ++ behind ∧ item.start = p.after before ∧
      (item.finding ≠ .fault .noExponentSign →
        (items ⟨p, .idle⟩ text).drop n = items ⟨item.start, .idle⟩ behind) := by
  cases items_origin p text n item h with
  | lexeme before front rest text_eq start _ _ again =>
    exact ⟨before, front ++ rest, text_eq, start, fun _ => again⟩
  | exponent before rest e text_eq item_eq =>
    subst item_eq
    exact ⟨before, e :: rest, text_eq, rfl, fun hne => absurd rfl hne⟩

end Machine
end RustScan.Scan
