import RustScan.Proofs.Comments

/-!
# Operators and punctuation

Symbols are read by maximal munch: wherever one begins, the longest one that the text has there is
found, whatever stands in front of it.  A scanner reads them byte by byte, and this is enough since
the first bytes of a symbol are always a symbol themselves (`Symbol.exists_spelling_eq_take`).

* `Symbol.IsLongest text s` — the text begins with `s` and with no longer symbol.  A symbol that the
  next byte does not extend is the longest (`Symbol.isLongest_append`).
* `Machine.items_symbol`, `Machine.items_idle_symbol` — an open symbol grows to the longest one, and
  so does a byte between lexemes that begins a symbol, unless it begins a comment.
* `scan_marks` — the main statement, about every token of a text.  The points that a number hands
  over and the colons behind a label are no special case, since every token is the first one of the
  text from there on.
-/

set_option autoImplicit false

namespace RustScan

/-! ## The longest symbol -/

namespace Symbol

theorem ofBytes?_spelling (s : Symbol) : ofBytes? (ascii s.spelling) = some s := by
  cases s <;> decide

theorem eq_of_spelling_eq {s t : Symbol} (h : ascii s.spelling = ascii t.spelling) : s = t := by
  rw [← Option.some_inj, ← ofBytes?_spelling, h, ofBytes?_spelling]

/-- **The first bytes of a symbol are a symbol.** -/
theorem exists_spelling_eq_take (s : Symbol) {n : Nat} (hn : n < (ascii s.spelling).length) :
    ∃ t : Symbol, ascii t.spelling = (ascii s.spelling).take (n + 1) := by
  have hfound : ∀ n < (ascii s.spelling).length,
      (ofBytes? ((ascii s.spelling).take (n + 1))).isSome = true := by
    cases s <;> decide
  obtain ⟨t, ht⟩ := Option.isSome_iff_exists.1 (hfound n hn)
  exact ⟨t, spelling_of_ofBytes? ht⟩

/-- A symbol that goes on with a byte is extended by it. -/
theorem extend?_isSome {s u : Symbol} {c : UInt8} {more : Bytes}
    (h : ascii u.spelling = ascii s.spelling ++ c :: more) : (s.extend? c).isSome = true := by
  obtain ⟨t, ht⟩ := u.exists_spelling_eq_take (n := (ascii s.spelling).length) (by simp [h])
  have hspelling : ascii t.spelling = ascii s.spelling ++ [c] := by
    rw [ht, h, List.take_length_add_append]
    rfl
  rw [extend?, ← hspelling, ofBytes?_spelling]
  rfl

/-- The text begins with the symbol, and with no longer one. -/
structure IsLongest (text : Bytes) (s : Symbol) : Prop where
  start : ascii s.spelling <+: text
  longest : ∀ u : Symbol, ascii u.spelling <+: text →
    (ascii u.spelling).length ≤ (ascii s.spelling).length

/-- A symbol that the next byte does not extend is the longest. -/
theorem isLongest_append {s : Symbol} {rest : Bytes}
    (h : ∀ c, rest.head? = some c → s.extend? c = none) :
    IsLongest (ascii s.spelling ++ rest) s := by
  refine ⟨List.prefix_append _ _, fun u hu => Nat.le_of_not_lt fun hlt => ?_⟩
  obtain ⟨more, hmore⟩ :=
    List.prefix_of_prefix_length_le (List.prefix_append _ rest) hu hlt.le
  cases more with
  | nil =>
    rw [← hmore, List.append_nil] at hlt
    exact Nat.lt_irrefl _ hlt
  | cons c more =>
    rw [← hmore, List.prefix_append_right_inj] at hu
    obtain ⟨behind, rfl⟩ := hu
    have hsome := extend?_isSome hmore.symm
    rw [h c rfl] at hsome
    exact Bool.false_ne_true hsome

/-- Nothing extends a symbol that no other one begins with. -/
theorem extend?_eq_none_of_isFinal {s : Symbol} (hs : s.isFinal = true) (c : UInt8) :
    s.extend? c = none := by
  cases ht : s.extend? c with
  | none => rfl
  | some t =>
    have hspelling : ascii t.spelling = ascii s.spelling ++ [c] := spelling_of_extend? ht
    have hentry : (ascii t.spelling, t) ∈ table := by
      refine List.mem_map.2 ⟨t, ?_, rfl⟩
      cases t <;> decide
    have hfinal := List.all_eq_true.1 hs _ hentry
    rw [Bool.or_eq_true, decide_eq_true_eq, Bool.not_eq_true', hspelling] at hfinal
    obtain rfl | hbegins := hfinal
    · have hlength := congrArg List.length hspelling
      simp at hlength
    · have hself : (ascii s.spelling).isPrefixOf (ascii s.spelling ++ [c]) = true :=
        List.isPrefixOf_iff_prefix.2 (List.prefix_append _ _)
      rw [hself] at hbegins
      exact absurd hbegins.symm Bool.false_ne_true

/-- Only an equals sign makes a longer symbol of a slash. -/
theorem extend?_slash {c : UInt8} (hc : c ≠ '='.toUInt8) : slash.extend? c = none := by
  cases ht : slash.extend? c with
  | none => rfl
  | some t =>
    have hspelling : ascii t.spelling = ['/'.toUInt8, c] := spelling_of_extend? ht
    have hequals : (ascii t.spelling).head? = some '/'.toUInt8 → (ascii t.spelling).length = 2 →
        (ascii t.spelling)[1]? = some '='.toUInt8 := by
      cases t <;> decide
    rw [hspelling] at hequals
    exact absurd (Option.some.inj (hequals rfl rfl)) hc

end Symbol

namespace Scan

/-! ## Reading a symbol -/

/-- The text at `p` begins with its longest symbol, and these are its items. -/
inductive Munches (p : Position) : Bytes → List Item → Prop
  | symbol {s : Symbol} {rest : Bytes} (longest : Symbol.IsLongest (ascii s.spelling ++ rest) s) :
      Munches p (ascii s.spelling ++ rest)
        ((Lexeme.ofText p (ascii s.spelling)).token (.symbol s) ::
          Machine.items ⟨p.after (ascii s.spelling), .idle⟩ rest)

namespace Machine

/-- A symbol that the next byte does not extend is complete. -/
theorem items_symbol_cut (p : Position) {s : Symbol} {rest : Bytes}
    (h : s.extend? (rest.headD Bytes.lf) = none) :
    Munches p (ascii s.spelling ++ rest)
      ((inside p (ascii s.spelling) (.symbol s)).items rest) := by
  have hcolumn : (p.after (ascii s.spelling)).column ≠ 0 :=
    Position.after_column_ne_zero s.spelling_ne_nil s.lf_not_mem_spelling
  have hreact : (Mode.symbol s).react (.ofText p (ascii s.spelling)) (rest.headD Bytes.lf) =
      .cut ((Lexeme.ofText p (ascii s.spelling)).token (.symbol s)) := by
    simp only [Mode.react, reactSymbol, h]
  rw [items_inside_cut hcolumn hreact (Lexeme.symbol_covers rfl)]
  refine .symbol (Symbol.isLongest_append fun c hc => ?_)
  rwa [List.headD_eq_head?_getD, hc] at h

/-- **An open symbol grows to the longest one.** -/
theorem items_symbol (p : Position) (s : Symbol) (rest : Bytes) :
    Munches p (ascii s.spelling ++ rest)
      ((inside p (ascii s.spelling) (.symbol s)).items rest) := by
  induction rest generalizing s with
  | nil => exact items_symbol_cut p s.extend?_lf
  | cons c rest ih =>
    cases ht : s.extend? c with
    | none => exact items_symbol_cut p ht
    | some t =>
      have hspelling : ascii s.spelling ++ [c] = ascii t.spelling :=
        (Symbol.spelling_of_extend? ht).symm
      have htext : ascii s.spelling ++ c :: rest = ascii t.spelling ++ rest := by
        rw [← hspelling, List.append_assoc, List.singleton_append]
      rw [htext]
      by_cases hfinal : t.isFinal = true
      · have hreact : (Mode.symbol s).react (.ofText p (ascii s.spelling)) c =
            .close ((Lexeme.ofText p (ascii t.spelling)).token (.symbol t)) := by
          simp only [Mode.react, reactSymbol, ht, hfinal, if_true, Lexeme.ofText_push, hspelling]
        rw [items_inside_close hreact, hspelling]
        exact .symbol
          (Symbol.isLongest_append fun c _ => Symbol.extend?_eq_none_of_isFinal hfinal c)
      · have hreact : (Mode.symbol s).react (.ofText p (ascii s.spelling)) c =
            .extend (.ofText p (ascii s.spelling)) c (.symbol t) := by
          simp only [Mode.react, reactSymbol, ht, if_neg hfinal]
        rw [items_inside_extend hreact, hspelling]
        exact ih t

/-- What the byte of a symbol begins, if it is not the underscore. -/
theorem ofByte_symbol {s : Symbol} {c : UInt8} (hc : ascii s.spelling = [c])
    (hs : s ≠ .underscore) :
    Opening.ofByte c = if s = .slash then .lexeme .slash
      else if s.isFinal then .symbol s else .lexeme (.symbol s) := by
  have hopening : (ascii s.spelling).length = 1 →
      Opening.ofByte ((ascii s.spelling).headD 0) = if s = .slash then .lexeme .slash
        else if s.isFinal then .symbol s else .lexeme (.symbol s) := by
    cases s <;> revert hs <;> decide
  rw [hc] at hopening
  exact hopening rfl

/-- A slash that begins no comment is a symbol like any other. -/
theorem items_slash (p : Position) {rest : Bytes} (hline : rest.head? ≠ some '/'.toUInt8)
    (hblock : rest.head? ≠ some '*'.toUInt8) :
    (inside p (ascii "/") .slash).items rest =
      (inside p (ascii "/") (.symbol .slash)).items rest := by
  rw [Ne, ← headD_eq_iff (by decide)] at hline hblock
  refine items_inside_congr (after_concat_column_ne_zero p [] (by decide)) ?_
  generalize rest.headD Bytes.lf = c at hline hblock
  simp only [Mode.react, Mode.reactSlash, if_neg hline, if_neg hblock]
  by_cases hc : c = '='.toUInt8
  · subst hc
    rfl
  · rw [if_neg hc, reactSymbol, Symbol.extend?_slash hc]

end Machine

/-- The text begins with a comment. -/
def OpensComment (text : Bytes) : Prop := ascii "//" <+: text ∨ ascii "/*" <+: text

namespace Machine

/-- **A byte that begins a symbol leads to the longest one**, unless it begins a comment. -/
theorem items_idle_symbol {s : Symbol} {c : UInt8} (hc : ascii s.spelling = [c])
    (hs : s ≠ .underscore) {rest : Bytes} (hcomment : ¬ OpensComment (c :: rest)) (p : Position) :
    Munches p (c :: rest) (items ⟨p, .idle⟩ (c :: rest)) := by
  have hopening := ofByte_symbol hc hs
  have htext : c :: rest = ascii s.spelling ++ rest := by rw [hc, List.singleton_append]
  split_ifs at hopening with hslash hfinal
  · subst hslash
    obtain rfl : '/'.toUInt8 = c := (List.cons.inj hc).1
    have hline : rest.head? ≠ some '/'.toUInt8 := by
      intro h
      obtain ⟨more, rfl⟩ := List.head?_eq_some_iff.1 h
      exact hcomment (Or.inl ⟨more, rfl⟩)
    have hblock : rest.head? ≠ some '*'.toUInt8 := by
      intro h
      obtain ⟨more, rfl⟩ := List.head?_eq_some_iff.1 h
      exact hcomment (Or.inr ⟨more, rfl⟩)
    rw [items_idle_lexeme hopening]
    exact items_slash p hline hblock ▸ items_symbol p .slash rest
  · have hreact : State.idle.react p c =
        .close ((Lexeme.ofText p (ascii s.spelling)).token (.symbol s)) := by
      rw [State.react, reactIdle, hopening, hc]
      rfl
    rw [items_of_used (by rw [hreact]; rfl), hreact, htext]
    have hcursor : p.advance c = p.after (ascii s.spelling) := by rw [hc]; rfl
    rw [hcursor]
    exact .symbol (Symbol.isLongest_append fun c _ => Symbol.extend?_eq_none_of_isFinal hfinal c)
  · rw [items_idle_lexeme hopening, htext, ← hc]
    exact items_symbol p s rest

end Machine
end Scan

/-! ## Marks -/

/-- An operator or a punctuation mark, other than the underscore. -/
def Kind.isMark (k : Kind) : Bool := (k.isOperator || k.isPunctuation) && k ≠ .symbol .underscore

theorem Kind.isMark_iff {k : Kind} : k.isMark = true ↔ ∃ s, s ≠ .underscore ∧ k = .symbol s := by
  cases k <;> simp [isMark, isOperator, isPunctuation]

/-- The kind is a mark, and its spelling is the longest one of a mark that the text begins with. -/
structure Kind.IsLongestMark (text : Bytes) (kind : Kind) : Prop where
  mark : kind.isMark = true
  start : kind.spelling <+: text
  longest : ∀ k : Kind, k.isMark = true → k.spelling <+: text →
    k.spelling.length ≤ kind.spelling.length

theorem Symbol.IsLongest.mark {text : Bytes} {s : Symbol} (h : IsLongest text s)
    (hs : s ≠ .underscore) : Kind.IsLongestMark text (.symbol s) := by
  refine ⟨Kind.isMark_iff.2 ⟨s, hs, rfl⟩, h.start, fun k hk hstart => ?_⟩
  obtain ⟨u, -, rfl⟩ := Kind.isMark_iff.1 hk
  exact h.longest u hstart

namespace Scan

/-- The text begins with the first byte of a mark. -/
def BeginsMark (text : Bytes) : Prop :=
  ∃ k : Kind, k.isMark = true ∧ k.spelling.head? = text.head?

/-- The first byte of a mark is a mark. -/
theorem BeginsMark.exists_symbol {text : Bytes} (h : BeginsMark text) :
    ∃ (s : Symbol) (c : UInt8) (rest : Bytes), s ≠ .underscore ∧ ascii s.spelling = [c] ∧
      text = c :: rest := by
  obtain ⟨k, hk, hhead⟩ := h
  obtain ⟨u, hu, rfl⟩ := Kind.isMark_iff.1 hk
  obtain ⟨c, more, hspelling⟩ := List.exists_cons_of_ne_nil u.spelling_ne_nil
  obtain ⟨s, hs⟩ := u.exists_spelling_eq_take (n := 0) (by simp [hspelling])
  rw [hspelling] at hs
  rw [Kind.spelling, Kind.spelling?, Option.getD_some, hspelling, List.head?_cons, eq_comm] at hhead
  obtain ⟨rest, rfl⟩ := List.head?_eq_some_iff.1 hhead
  refine ⟨s, c, rest, ?_, hs, rfl⟩
  rintro rfl
  obtain rfl : '_'.toUInt8 = c := (List.cons.inj hs).1
  have hletter := Symbol.any_isWordStart_eq_false hu
  rw [hspelling] at hletter
  exact List.any_eq_false.1 hletter _ List.mem_cons_self (by decide)

theorem BeginsMark.not_isWordStart {text : Bytes} (h : BeginsMark text) :
    text.head?.any isWordStart = false := by
  obtain ⟨s, c, rest, hs, hspelling, rfl⟩ := h.exists_symbol
  have hletter := Symbol.any_isWordStart_eq_false hs
  rwa [hspelling, List.any_cons, List.any_nil, Bool.or_false] at hletter

theorem beginsMark_of_start {text : Bytes} {k : Kind} (hk : k.isMark = true)
    (h : k.spelling <+: text) : BeginsMark text := by
  obtain ⟨s, -, rfl⟩ := Kind.isMark_iff.1 hk
  obtain ⟨more, rfl⟩ := h
  exact ⟨_, hk, (List.head?_append_of_ne_nil _ s.spelling_ne_nil).symm⟩

/-- The text begins with a byte that no lexeme begins with. -/
def IsStray (text : Bytes) : Prop :=
  ∃ c ∈ text.head?, isSpace c = false ∧ isWordStart c = false ∧ isDigit c = false ∧
    c ≠ '\''.toUInt8 ∧ c ≠ '"'.toUInt8 ∧ ¬ BeginsMark text

theorem IsStray.not_isWordStart {text : Bytes} (h : IsStray text) :
    text.head?.any isWordStart = false := by
  obtain ⟨c, hc, -, hword, -⟩ := h
  rwa [Option.mem_def.1 hc, Option.any_some]

namespace Machine

/-- **Where a mark begins, the longest one is found**, unless it is a comment. -/
theorem head?_items_mark {text : Bytes} (h : BeginsMark text) (hcomment : ¬ OpensComment text)
    (p : Position) :
    ∃ s : Symbol, s ≠ .underscore ∧ s.IsLongest text ∧
      (items ⟨p, .idle⟩ text).head? =
        some ((Lexeme.ofText p (ascii s.spelling)).token (.symbol s)) := by
  obtain ⟨s, c, rest, hs, hspelling, rfl⟩ := h.exists_symbol
  have hmunches := items_idle_symbol hspelling hs hcomment p
  generalize hitems : items ⟨p, .idle⟩ (c :: rest) = found at hmunches
  generalize htext : c :: rest = text at hmunches
  cases hmunches with
  | @symbol u behind longest =>
    refine ⟨u, ?_, longest, rfl⟩
    rintro rfl
    have hc : c = '_'.toUInt8 := (List.cons.inj htext).1
    exact hs (Symbol.eq_of_spelling_eq (hspelling.trans (hc ▸ rfl)))

/-- A comment is no mark. -/
theorem head?_items_comment {text : Bytes} (h : OpensComment text) (p : Position) :
    ∃ i, (items ⟨p, .idle⟩ text).head? = some i ∧ i.token.kind.isMark = false := by
  rcases h with ⟨body, rfl⟩ | ⟨body, rfl⟩
  · have hitems : items ⟨p, .idle⟩ (ascii "//" ++ body) =
        lineItems p (ascii "//") (lineKind (ascii "//" ++ body)) body :=
      (items_of_run rfl).trans (items_line_opened p body)
    rw [hitems]
    exact ⟨_, rfl, rfl⟩
  · have hitems : items ⟨p, .idle⟩ (ascii "/*" ++ body) =
        blockItems p (ascii "/*") (blockKind (ascii "/*" ++ body)) 1 body :=
      (items_of_run rfl).trans (items_block_opened p body)
    rw [hitems, blockItems]
    cases blockLength? 1 body with
    | none => exact ⟨_, rfl, rfl⟩
    | some n => exact ⟨_, rfl, rfl⟩

theorem ofByte_stray {c : UInt8} {rest : Bytes} (h : IsStray (c :: rest)) :
    Opening.ofByte c = .unexpected := by
  obtain ⟨d, hd, hspace, hword, hdigit, htick, hquote, hmark⟩ := h
  obtain rfl : c = d := Option.some.inj hd
  have hne : ∀ b, isWordStart b = true ∨ isDigit b = true → c ≠ b := by
    rintro b (hb | hb) rfl
    · exact Bool.false_ne_true (hword.symm.trans hb)
    · exact Bool.false_ne_true (hdigit.symm.trans hb)
  have hnone : ∀ s : Symbol, ascii s.spelling ≠ [c] := by
    intro s hs
    have hstart : ascii s.spelling <+: c :: rest := hs ▸ List.prefix_append [c] rest
    refine hmark (beginsMark_of_start (Kind.isMark_iff.2 ⟨s, ?_, rfl⟩) hstart)
    rintro rfl
    exact hne '_'.toUInt8 (by decide) (List.cons.inj hs).1.symm
  have hslash : c ≠ '/'.toUInt8 := by
    rintro rfl
    exact hnone .slash rfl
  have hsymbol : Symbol.ofByte? c = none := by
    cases hs : Symbol.ofByte? c with
    | none => rfl
    | some s => exact absurd (Symbol.spelling_of_ofBytes? hs) (hnone s)
  rw [Opening.ofByte, hspace, hdigit, hword, if_neg (hne _ (by decide)), if_neg (hne _ (by decide)),
    if_neg (hne _ (by decide)), if_neg (hne _ (by decide)), if_neg hquote, if_neg htick,
    if_neg hslash, hsymbol]
  rfl

/-- **A byte that begins nothing is malformed on its own.** -/
theorem head?_items_stray {text : Bytes} (h : IsStray text) (p : Position) :
    ∃ c, (items ⟨p, .idle⟩ text).head? = some ((Lexeme.single p c).fault .unexpectedSymbol) := by
  cases text with
  | nil =>
    obtain ⟨c, hc, -⟩ := h
    exact absurd hc nofun
  | cons c rest =>
    have hreact : State.idle.react p c = .close ((Lexeme.single p c).fault .unexpectedSymbol) := by
      rw [State.react, reactIdle, ofByte_stray h]
    rw [items_of_used (by rw [hreact]; rfl), hreact]
    exact ⟨c, rfl⟩

end Machine

/-! ## Tokens -/

section Tokens

variable {text : Bytes} {n : Nat} {t : Token} {i : Item}
  (ht : (scan text).tokens[n]? = some t) (hi : (({} : Machine).items text)[n]? = some i)
include ht hi

/-- Whether a token is a mark is known when it is found. -/
theorem scan_token_of_isMark (h : t.kind.isMark = true ∨ i.token.kind.isMark = true) :
    t = i.token := by
  rcases scan_token_eq_or_union ht hi with htoken | ⟨hident, hunion⟩
  · exact htoken
  · rw [hident, hunion] at h
    exact absurd h (by decide)

theorem scan_isLongestMark (hmark : BeginsMark (text.drop i.start.offset))
    (hcomment : ¬ OpensComment (text.drop i.start.offset)) :
    t.kind.IsLongestMark (text.drop i.start.offset) := by
  obtain ⟨s, hs, hlongest, hhead⟩ := Machine.head?_items_mark hmark hcomment i.start
  rw [Machine.head?_items_drop_of_not_isWordStart hi hmark.not_isWordStart,
    Option.some_inj] at hhead
  have hkind : i.token.kind = .symbol s := by rw [hhead]; rfl
  have hfound : i.token.kind.isMark = true := Kind.isMark_iff.2 ⟨s, hs, hkind⟩
  rw [scan_token_of_isMark ht hi (Or.inr hfound), hkind]
  exact hlongest.mark hs

theorem slice_of_isMark (h : t.kind.isMark = true) : i.slice text = t.kind.spelling := by
  obtain ⟨s, -, hkind⟩ := Kind.isMark_iff.1 h
  exact eq_spelling_of_tells (scan_tells ht hi) (hkind ▸ s.spelling_ne_nil)

theorem beginsMark_of_isMark (h : t.kind.isMark = true) :
    BeginsMark (text.drop i.start.offset) :=
  beginsMark_of_start h (slice_of_isMark ht hi h ▸ List.take_prefix _ _)

theorem not_opensComment_of_isMark (h : t.kind.isMark = true) :
    ¬ OpensComment (text.drop i.start.offset) := by
  intro hcomment
  have hmark := beginsMark_of_isMark ht hi h
  obtain ⟨j, hhead, hnot⟩ := Machine.head?_items_comment hcomment i.start
  rw [Machine.head?_items_drop_of_not_isWordStart hi hmark.not_isWordStart,
    Option.some_inj] at hhead
  rw [scan_token_of_isMark ht hi (Or.inl h), hhead, hnot] at h
  exact Bool.false_ne_true h

theorem scan_stray (h : IsStray (text.drop i.start.offset)) :
    t.kind = .error ∧ t.text = some (ascii "unexpected symbol") ∧ i.length = 1 := by
  obtain ⟨c, hhead⟩ := Machine.head?_items_stray h i.start
  rw [Machine.head?_items_drop_of_not_isWordStart hi h.not_isWordStart, Option.some_inj] at hhead
  rcases scan_token_eq_or_union ht hi with htoken | ⟨hident, -⟩
  · rw [htoken, hhead]
    exact ⟨rfl, rfl, rfl⟩
  · rw [hhead] at hident
    exact absurd hident (by simp [Item.token, Lexeme.fault])

end Tokens

/-- **A token is a mark just where one begins, and then the longest.**  What stands in front of it
does not matter, and a byte that begins nothing at all is malformed on its own.  The bytes that a
token covers are those of the item in its place; up to the size that fits into 32 bits the token
itself says which they are. -/
theorem scan_marks (text : Bytes) (n : Nat) (t : Token) (ht : (scan text).tokens[n]? = some t) :
    ∃ i, (({} : Machine).items text)[n]? = some i ∧
      (text.length ≤ Source.maxSize → t.place = i.place) ∧
      (t.kind.isMark = true ↔ BeginsMark (text.drop i.start.offset) ∧
        ¬ OpensComment (text.drop i.start.offset)) ∧
      (t.kind.isMark = true → i.slice text = t.kind.spelling ∧
        t.kind.IsLongestMark (text.drop i.start.offset)) ∧
      (IsStray (text.drop i.start.offset) →
        t.kind = .error ∧ t.text = some (ascii "unexpected symbol") ∧ i.length = 1) := by
  obtain ⟨i, hi, -⟩ := scan_getElem? ht
  have hbegins (h : t.kind.isMark = true) := beginsMark_of_isMark ht hi h
  have hcomment (h : t.kind.isMark = true) := not_opensComment_of_isMark ht hi h
  refine ⟨i, hi, fun hsize => scan_place hsize ht hi, ⟨?_, ?_⟩, ?_, scan_stray ht hi⟩
  · intro h
    exact ⟨hbegins h, hcomment h⟩
  · rintro ⟨hmark, hnot⟩
    exact (scan_isLongestMark ht hi hmark hnot).mark
  · intro h
    exact ⟨slice_of_isMark ht hi h, scan_isLongestMark ht hi (hbegins h) (hcomment h)⟩

/-- The points that a number hands over, the colons behind a label, and a byte that begins
nothing. -/
theorem scan_marks_handed_over :
    (scan (ascii "1..=2'a::\\")).tokens[1]? = some ⟨0, 1, .symbol .dotDotEq, none, 1, 3⟩ ∧
      Kind.IsLongestMark (ascii "..=2'a::\\") (.symbol .dotDotEq) ∧
      (scan (ascii "1..=2'a::\\")).tokens[4]? = some ⟨0, 7, .symbol .pathSep, none, 7, 2⟩ ∧
      Kind.IsLongestMark (ascii "::\\") (.symbol .pathSep) ∧
      (scan (ascii "1..=2'a::\\")).tokens[5]? =
        some ⟨0, 9, .error, some (ascii "unexpected symbol"), 9, 1⟩ := by
  have hrange : (scan (ascii "1..=2'a::\\")).tokens[1]? =
      some ⟨0, 1, .symbol .dotDotEq, none, 1, 3⟩ := by decide
  have hpath : (scan (ascii "1..=2'a::\\")).tokens[4]? =
      some ⟨0, 7, .symbol .pathSep, none, 7, 2⟩ := by decide
  refine ⟨hrange, ?_, hpath, ?_, by decide⟩
  · obtain ⟨i, -, hplace, -, hlongest, -⟩ := scan_marks _ _ _ hrange
    have hstart : i.start.offset = 1 := congrArg (·.1.offset) (hplace (by decide)).symm
    have hmark := (hlongest rfl).2
    rwa [hstart] at hmark
  · obtain ⟨i, -, hplace, -, hlongest, -⟩ := scan_marks _ _ _ hpath
    have hstart : i.start.offset = 7 := congrArg (·.1.offset) (hplace (by decide)).symm
    have hmark := (hlongest rfl).2
    rwa [hstart] at hmark

end Scan
end RustScan
