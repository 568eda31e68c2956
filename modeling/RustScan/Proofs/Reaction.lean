import Mathlib.Tactic.SplitIfs
import RustScan.Proofs.Spelling
import RustScan.Scan.Machine

/-!
# What a byte does to an open lexeme

Ten families of modes react to a byte, each in its own way.  What the rest of the theory needs to
know about them is said once, by `Mode.Reacts`: the byte extends the lexeme, closes it, ends it in
front of itself, or is read again in another mode of the same lexeme; and a number may hand over its
last byte, a point or the letter of an exponent.  `Mode.reacts` is the case distinction over all
modes, and later proofs are case distinctions over `Mode.Reacts`.

* `Mode.Fits` — what the bytes of an open lexeme look like in each mode.  Every reaction keeps it.
* `Finding.Tells` — what a complete lexeme can be reported as, given its bytes.
* `Item.Covers` — an item reports a lexeme as a whole, and tells what its bytes are.
* `Mode.isOrdinary_react` — what modes other than those of words find.
* `settle_of_unused` — a byte that is not used may as well have been offered to the next state in
  the first place, since three offers always suffice.
-/

set_option autoImplicit false

namespace RustScan.Scan

/-! ## Lexemes and the items that report them -/

namespace Lexeme

@[simp] theorem push_start (lx : Lexeme) (c : UInt8) : (lx.push c).start = lx.start := rfl

@[simp] theorem push_text (lx : Lexeme) (c : UInt8) : (lx.push c).text = lx.text ++ [c] := by
  simp [push, text]

@[simp] theorem front_start (lx : Lexeme) : lx.front.start = lx.start := rfl

@[simp] theorem front_text (lx : Lexeme) : lx.front.text = lx.text.dropLast := by
  simp [front, text]

end Lexeme

/-- What can be found out about the bytes of a complete lexeme.  A kind with one spelling is found
only where the bytes are that spelling, and a token of any other kind has the bytes as its text. -/
inductive Finding.Tells (text : Bytes) : Finding → Prop
  | spelled {kind : Kind} (spelling : kind.spelling? = some text) : Tells text (.token kind none)
  | text {kind : Kind} (free : kind.spelling? = none) (sound : kind ≠ .error) :
      Tells text (.token kind (some text))
  | fault (f : Fault) : Tells text (.fault f)

/-- The item reports the lexeme as a whole. -/
structure Item.Covers (i : Item) (lx : Lexeme) : Prop where
  start : i.start = lx.start
  length : i.length = lx.text.length
  tells : i.finding.Tells lx.text

namespace Lexeme

theorem fault_covers (lx : Lexeme) (f : Fault) : (lx.fault f).Covers lx := ⟨rfl, rfl, .fault f⟩

/-- A token that has its own text. -/
theorem token_covers (lx : Lexeme) {kind : Kind} (free : kind.spelling? = none)
    (sound : kind ≠ .error) : (lx.token kind).Covers lx := by
  refine ⟨rfl, rfl, ?_⟩
  simp only [token, free, Option.isSome_none, Bool.false_eq_true, if_false]
  exact .text free sound

/-- A token whose kind has one spelling, which is that of the lexeme. -/
theorem spelled_covers (lx : Lexeme) {kind : Kind} (spelling : kind.spelling? = some lx.text) :
    (lx.token kind).Covers lx := by
  refine ⟨rfl, rfl, ?_⟩
  simp only [token, spelling, Option.isSome_some, if_true]
  exact .spelled spelling

theorem literal_covers (lx : Lexeme) (l : Literal) : (lx.token (.literal l)).Covers lx :=
  lx.token_covers rfl nofun

theorem comment_covers (lx : Lexeme) (kind : CommentKind) : (lx.token (.comment kind)).Covers lx :=
  lx.token_covers rfl nofun

theorem symbol_covers {lx : Lexeme} {s : Symbol} (h : lx.text = ascii s.spelling) :
    (lx.token (.symbol s)).Covers lx :=
  lx.spelled_covers (congrArg some h.symm)

theorem word_covers (lx : Lexeme) : lx.word.Covers lx := by
  rw [word]
  split
  · rename_i k hk
    exact lx.spelled_covers (congrArg some (Keyword.spelling_of_ofWord? hk))
  · exact lx.token_covers rfl nofun

theorem lifetime_covers (lx : Lexeme) (c : UInt8) : (lx.lifetime c).Covers lx := by
  rw [lifetime]
  split_ifs with hcolon hstatic
  · exact lx.token_covers rfl nofun
  · exact lx.spelled_covers (congrArg some (Kind.eq_of_ofReserved?_static hstatic).symm)
  · exact lx.token_covers rfl nofun

end Lexeme

/-! ## The bytes of an open lexeme -/

/-- What the bytes of an open number look like.  They are on one line, and a last byte that the
number may have to hand over is not the only one. -/
def NumberMode.Fits : NumberMode → Bytes → Prop
  | point, text => Bytes.lf ∉ text ∧ ∃ digits, digits ≠ [] ∧ text = digits ++ ['.'.toUInt8]
  | exponentLead _, text =>
    Bytes.lf ∉ text ∧ ∃ digits e, digits ≠ [] ∧ isExponentLetter e = true ∧ text = digits ++ [e]
  | _, text => Bytes.lf ∉ text ∧ text ≠ []

/-- What the bytes of an open lexeme look like.  Where they may be a complete symbol already, they
are its spelling. -/
def Mode.Fits : Mode → Bytes → Prop
  | number n, text => n.Fits text
  | symbol s, text => text = ascii s.spelling
  | slash, text => text = ascii Symbol.slash.spelling
  | word .underscore, text => text = ascii Symbol.underscore.spelling
  | _, text => text ≠ []

/-- The modes in which something is asked of the bytes beyond that there are some. -/
inductive Mode.Strict : Mode → Prop
  | number (n : NumberMode) : Strict (.number n)
  | symbol (s : Symbol) : Strict (.symbol s)
  | slash : Strict .slash
  | underscore : Strict (.word .underscore)

theorem NumberMode.Fits.oneLine {n : NumberMode} {text : Bytes} (h : n.Fits text) :
    Bytes.lf ∉ text := by
  cases n <;> exact h.1

theorem NumberMode.Fits.ne_nil {n : NumberMode} {text : Bytes} (h : n.Fits text) : text ≠ [] := by
  cases n with
  | point =>
    obtain ⟨-, digits, -, rfl⟩ := h
    simp
  | exponentLead pointed =>
    obtain ⟨-, digits, e, -, -, rfl⟩ := h
    simp
  | _ => exact h.2

/-- In the other modes any bytes will do. -/
theorem Mode.fits_iff_ne_nil {mode : Mode} (h : ¬ mode.Strict) {text : Bytes} :
    mode.Fits text ↔ text ≠ [] := by
  cases mode with
  | number n => exact absurd (.number n) h
  | symbol s => exact absurd (.symbol s) h
  | slash => exact absurd .slash h
  | word w =>
    cases w with
    | underscore => exact absurd .underscore h
    | _ => rfl
  | _ => rfl

theorem Mode.Fits.ne_nil {mode : Mode} {text : Bytes} (h : mode.Fits text) : text ≠ [] := by
  by_cases hs : mode.Strict
  · cases hs with
    | number n => exact NumberMode.Fits.ne_nil h
    | symbol s => exact h ▸ s.spelling_ne_nil
    | slash => exact h ▸ Symbol.spelling_ne_nil _
    | underscore => exact h ▸ Symbol.spelling_ne_nil _
  · exact (fits_iff_ne_nil hs).1 h

/-- The byte that goes on a number is no line feed, so the number stays on its line. -/
theorem NumberMode.Fits.append_oneLine {n : NumberMode} {text : Bytes} {c : UInt8}
    (h : n.Fits text) (hc : c ≠ Bytes.lf) : Bytes.lf ∉ text ++ [c] := by
  simp [h.oneLine, Ne.symm hc]

/-! ## Reactions, up to what the lexeme becomes -/

/-- The two modes in which a byte is read again. -/
inductive Mode.Second : Mode → Prop
  | digits : Second (.number .digits)
  | body (bytes : Bool) (hashes : Nat) : Second (.raw bytes hashes .body)

/-- What the byte `c` can do to a lexeme that is open in a given mode. -/
inductive Mode.Reacts (mode : Mode) (lx : Lexeme) (c : UInt8) : Reaction → Prop
  /-- The byte belongs to the lexeme. -/
  | extend {next : Mode} (fits : mode.Fits lx.text → next.Fits (lx.text ++ [c])) :
      Reacts mode lx c (.extend lx c next)
  /-- The byte completes the lexeme.  A line feed does so only in a malformed one. -/
  | close {item : Item} (covers : mode.Fits lx.text → item.Covers (lx.push c))
      (fault_of_lf : c = Bytes.lf → ∃ f, item.finding = .fault f) : Reacts mode lx c (.close item)
  /-- The lexeme is complete without the byte. -/
  | cut {item : Item} (covers : mode.Fits lx.text → item.Covers lx) : Reacts mode lx c (.cut item)
  /-- The byte is read again in another mode. -/
  | retry {next : Mode} (second : next.Second) (first : ¬ mode.Second)
      (fits : mode.Fits lx.text → next.Fits lx.text) : Reacts mode lx c (.retry lx next)
  /-- A second point follows the first: it may belong to a range, and the number has none. -/
  | range (hmode : mode = .number .point) (hc : c = '.'.toUInt8) :
      Reacts mode lx c
        ⟨[lx.front.token (.literal .decimal)], .within (.symbol .dot) lx.last, false⟩
  /-- A name follows the point: it is a member, and the point is a symbol. -/
  | member (hmode : mode = .number .point) (hc : isWordStart c = true) :
      Reacts mode lx c
        ⟨[lx.front.token (.literal .decimal), lx.last.token (.symbol .dot)], .idle, false⟩
  /-- No sign follows the letter of an exponent: the letter is malformed. -/
  | unsigned {pointed : Bool} {form : Literal} (hmode : mode = .number (.exponentLead pointed)) :
      Reacts mode lx c
        ⟨[lx.front.token (.literal form), lx.last.fault .noExponentSign], .idle, false⟩

section Families

variable (lx : Lexeme) (c : UInt8)

/-- The lexeme goes on in a mode that takes any bytes. -/
theorem Mode.Reacts.extend_of {mode next : Mode} (h : ¬ next.Strict) :
    mode.Reacts lx c (.extend lx c next) :=
  .extend fun _ => (fits_iff_ne_nil h).2 (by simp)

/-- The lexeme is malformed as soon as the byte belongs to it. -/
theorem Mode.Reacts.close_fault {mode : Mode} (f : Fault) :
    mode.Reacts lx c (.close ((lx.push c).fault f)) :=
  .close (fun _ => (lx.push c).fault_covers f) fun _ => ⟨f, rfl⟩

/-- The byte completes a token, and is no line feed. -/
theorem Mode.Reacts.close_token {mode : Mode} {kind : Kind} (hc : c ≠ Bytes.lf)
    (covers : mode.Fits lx.text → ((lx.push c).token kind).Covers (lx.push c)) :
    mode.Reacts lx c (.close ((lx.push c).token kind)) :=
  .close covers fun h => absurd h hc

theorem Mode.Reacts.cut_fault {mode : Mode} (f : Fault) :
    mode.Reacts lx c (.cut (lx.fault f)) :=
  .cut fun _ => lx.fault_covers f

theorem Mode.Reacts.cut_literal {mode : Mode} (l : Literal) :
    mode.Reacts lx c (.cut (lx.token (.literal l))) :=
  .cut fun _ => lx.literal_covers l

theorem Mode.Reacts.cut_comment {mode : Mode} (kind : CommentKind) :
    mode.Reacts lx c (.cut (lx.token (.comment kind))) :=
  .cut fun _ => lx.comment_covers kind

theorem WordMode.reactPlain_reacts (mode : Mode) : mode.Reacts lx c (reactPlain lx c) := by
  rw [reactPlain]
  split_ifs
  · exact .extend_of lx c nofun
  · exact .cut fun _ => lx.word_covers

theorem WordMode.reactRaw_reacts (mode : Mode) (bytes : Bool) :
    mode.Reacts lx c (reactRaw bytes lx c) := by
  rw [reactRaw]
  split_ifs
  · exact .extend_of lx c nofun
  · exact .extend_of lx c nofun
  · exact reactPlain_reacts lx c mode

theorem WordMode.reacts (w : WordMode) : (Mode.word w).Reacts lx c (w.react lx c) := by
  cases w with
  | plain => exact reactPlain_reacts lx c _
  | underscore =>
    simp only [react]
    split_ifs
    · exact .extend_of lx c nofun
    · exact .cut fun h => Lexeme.symbol_covers h
  | rawLead => exact reactRaw_reacts lx c _ false
  | byteLead =>
    simp only [react]
    split_ifs
    · exact .extend_of lx c nofun
    · exact .extend_of lx c nofun
    · exact .extend_of lx c nofun
    · exact reactPlain_reacts lx c _
  | rawByteLead => exact reactRaw_reacts lx c _ true
  | rawIdent =>
    simp only [react]
    split_ifs
    · exact .extend_of lx c nofun
    · exact .cut fun _ => lx.token_covers rfl nofun

theorem RawPhase.reacts (bytes : Bool) (hashes : Nat) (phase : RawPhase) :
    (Mode.raw bytes hashes phase).Reacts lx c (phase.react bytes hashes lx c) := by
  cases phase with
  | hashes =>
    simp only [react, reactHashes]
    split_ifs
    · exact .extend_of lx c nofun
    · exact .extend_of lx c nofun
    · exact .extend_of lx c nofun
    · exact .cut_fault lx c _
  | body =>
    simp only [react, reactBody]
    split_ifs with _ hquote
    · exact .close_fault lx c _
    · exact .close_token lx c (hquote ▸ by decide) fun _ => (lx.push c).literal_covers _
    · exact .extend_of lx c nofun
    · exact .extend_of lx c nofun
  | closing seen =>
    simp only [react, reactClosing]
    split_ifs with hhash
    · exact .close_token lx c (hhash ▸ by decide) fun _ => (lx.push c).literal_covers _
    · exact .extend_of lx c nofun
    · exact .extend_of lx c nofun
    · exact .retry (.body bytes hashes) nofun id

theorem Mode.reactLifetime_reacts (mode : Mode) : mode.Reacts lx c (reactLifetime lx c) := by
  rw [reactLifetime]
  split_ifs
  · exact .extend_of lx c nofun
  · exact .cut fun _ => lx.lifetime_covers c

theorem Mode.reactTick_reacts (named : Bool) :
    (Mode.tick named).Reacts lx c (reactTick named lx c) := by
  rw [reactTick]
  split_ifs with _ hquote
  · exact .close_token lx c (hquote ▸ by decide) fun _ => (lx.push c).literal_covers _
  · exact reactLifetime_reacts lx c _
  · exact .extend_of lx c nofun
  · exact .close_fault lx c _
  · exact .extend_of lx c nofun
  · exact .extend_of lx c nofun

theorem Quote.reacts (q : Quote) (escape : Escape) (filled : Bool) :
    (Mode.quoted q escape filled).Reacts lx c (q.react escape filled lx c) := by
  -- a literal goes on or is closed, well formed or not; it never ends in front of a byte
  cases escape with
  | none =>
    simp only [react, reactPlain]
    split_ifs with _ hcloser
    · exact .close_fault lx c _
    · exact .close_fault lx c _
    · refine .close_token lx c ?_ fun _ => (lx.push c).literal_covers _
      subst hcloser
      cases q <;> decide
    · exact .close_fault lx c _
    · exact .extend_of lx c nofun
    · exact .extend_of lx c nofun
  | slash =>
    simp only [react, reactSlash]
    split_ifs
    · exact .extend_of lx c nofun
    · exact .extend_of lx c nofun
    · exact .close_fault lx c _
    · exact .extend_of lx c nofun
    · exact .close_fault lx c _
    · exact .extend_of lx c nofun
    · exact .close_fault lx c _
  | hex digits =>
    simp only [react, reactHex]
    split_ifs
    · exact .close_fault lx c _
    · exact .close_fault lx c _
    · exact .extend_of lx c nofun
    · exact .extend_of lx c nofun
  | unicodeLead =>
    simp only [react, reactUnicodeLead]
    split_ifs
    · exact .extend_of lx c nofun
    · exact .close_fault lx c _
  | unicode digits =>
    simp only [react, reactUnicode]
    split_ifs
    · exact .close_fault lx c _
    · exact .extend_of lx c nofun
    · exact .close_fault lx c _
    · exact .extend_of lx c nofun
    · exact .close_fault lx c _

theorem Mode.reactSlash_reacts : Mode.slash.Reacts lx c (reactSlash lx c) := by
  rw [reactSlash]
  split_ifs with _ _ heq
  · exact .extend_of lx c nofun
  · exact .extend_of lx c nofun
  · subst heq
    refine .close_token lx _ (by decide) fun (h : lx.text = _) => Lexeme.symbol_covers ?_
    rw [Lexeme.push_text, h]
    rfl
  · exact .cut fun h => Lexeme.symbol_covers h

theorem LinePhase.reacts (phase : LinePhase) (kind : CommentKind) :
    (Mode.lineComment phase kind).Reacts lx c (phase.react kind lx c) := by
  cases phase with
  | opened =>
    simp only [react]
    split_ifs
    · exact .cut_comment lx c _
    · exact .extend_of lx c nofun
    · exact .extend_of lx c nofun
    · exact .extend_of lx c nofun
  | tripled =>
    simp only [react]
    split_ifs
    · exact .cut_comment lx c _
    · exact .extend_of lx c nofun
    · exact .extend_of lx c nofun
  | body =>
    simp only [react]
    split_ifs
    · exact .cut_comment lx c _
    · exact .extend_of lx c nofun

theorem BlockPhase.reacts (phase : BlockPhase) (depth : Nat) (kind : CommentKind) :
    (Mode.blockComment phase depth kind).Reacts lx c (phase.react depth kind lx c) := by
  cases phase with
  | opened =>
    simp only [react]
    split_ifs <;> exact .extend_of lx c nofun
  | openedStar =>
    simp only [react]
    split_ifs with hslash
    · exact .close_token lx c (hslash ▸ by decide) fun _ => (lx.push c).comment_covers _
    · exact .extend_of lx c nofun
    · exact .extend_of lx c nofun
  | body =>
    simp only [react]
    split_ifs <;> exact .extend_of lx c nofun
  | star =>
    simp only [react]
    split_ifs with hslash
    · exact .close_token lx c (hslash ▸ by decide) fun _ => (lx.push c).comment_covers _
    · exact .extend_of lx c nofun
    · exact .extend_of lx c nofun
    · exact .extend_of lx c nofun
  | slash =>
    simp only [react]
    split_ifs <;> exact .extend_of lx c nofun

theorem reactSymbol_reacts (s : Symbol) : (Mode.symbol s).Reacts lx c (reactSymbol s lx c) := by
  rw [reactSymbol]
  split
  · rename_i t ht
    have hspelling : ascii t.spelling = ascii s.spelling ++ [c] := Symbol.spelling_of_extend? ht
    have hlonger : lx.text = ascii s.spelling → (lx.push c).text = ascii t.spelling := by
      intro h
      rw [Lexeme.push_text, h, hspelling]
    split_ifs
    · refine .close_token lx c ?_ fun h => Lexeme.symbol_covers (hlonger h)
      rintro rfl
      exact t.lf_not_mem_spelling (by simp [hspelling])
    · exact .extend fun h => (lx.push_text c).symm.trans (hlonger h)
  · exact .cut fun h => Lexeme.symbol_covers h

/-! Numbers are the family whose bytes are kept track of. -/

/-- A byte of a class that the line feed is not in. -/
theorem ne_lf_of_class {p : UInt8 → Bool} (hp : p Bytes.lf = false) {c : UInt8} (h : p c = true) :
    c ≠ Bytes.lf := by
  rintro rfl
  rw [hp] at h
  exact Bool.false_ne_true h

theorem Radix.ofLetter?_ne_lf {r : Radix} {c : UInt8} (h : ofLetter? c = some r) :
    c ≠ Bytes.lf := by
  rintro rfl
  exact absurd h (by cases r <;> decide)

namespace NumberMode

/-- The number goes on, and its new byte stays with it. -/
theorem reacts_extend {n next : NumberMode} (hp : next ≠ point)
    (he : ∀ pointed, next ≠ exponentLead pointed) (hc : c ≠ Bytes.lf) :
    (Mode.number n).Reacts lx c (.extend lx c (.number next)) := by
  refine .extend fun (h : n.Fits lx.text) => ?_
  cases next with
  | point => exact absurd rfl hp
  | exponentLead pointed => exact absurd rfl (he pointed)
  | _ => exact ⟨h.append_oneLine hc, by simp⟩

/-- The number goes on with a point. -/
theorem reacts_extend_point {n : NumberMode} (hc : c = '.'.toUInt8) :
    (Mode.number n).Reacts lx c (.extend lx c (.number point)) := by
  subst hc
  exact .extend fun (h : n.Fits lx.text) =>
    ⟨h.append_oneLine (by decide), lx.text, h.ne_nil, rfl⟩

/-- The number goes on with the letter of an exponent. -/
theorem reacts_extend_exponentLead {n : NumberMode} (pointed : Bool)
    (hc : isExponentLetter c = true) :
    (Mode.number n).Reacts lx c (.extend lx c (.number (exponentLead pointed))) :=
  .extend fun (h : n.Fits lx.text) =>
    ⟨h.append_oneLine (ne_lf_of_class (by decide) hc), lx.text, c, h.ne_nil, hc, rfl⟩

theorem reacts (n : NumberMode) : (Mode.number n).Reacts lx c (n.react lx c) := by
  cases n with
  | zero =>
    simp only [react]
    split
    · rename_i r hr
      exact reacts_extend lx c nofun nofun (Radix.ofLetter?_ne_lf hr)
    · exact .retry .digits nofun id
  | digits =>
    simp only [react, reactDigits]
    split_ifs with hdigit hpoint hexp
    · exact reacts_extend lx c nofun nofun (ne_lf_of_class (by decide) hdigit)
    · exact reacts_extend_point lx c hpoint
    · exact reacts_extend_exponentLead lx c false hexp
    · exact .cut_literal lx c _
  | point =>
    simp only [react, reactPoint]
    split_ifs with hdigit hpoint hword
    · exact reacts_extend lx c nofun nofun (ne_lf_of_class (by decide) hdigit)
    · exact .range rfl hpoint
    · exact .member rfl hword
    · exact .cut_literal lx c _
  | fraction =>
    simp only [react, reactFraction]
    split_ifs with hdigit hexp
    · exact reacts_extend lx c nofun nofun (ne_lf_of_class (by decide) hdigit)
    · exact reacts_extend_exponentLead lx c true hexp
    · exact .cut_literal lx c _
  | exponentLead pointed =>
    simp only [react, reactExponentLead]
    split_ifs with hsign
    · refine reacts_extend lx c nofun nofun ?_
      rcases hsign with rfl | rfl <;> decide
    · exact .unsigned rfl
    · exact .unsigned rfl
  | exponent seen =>
    simp only [react, reactExponent]
    split_ifs with hdigit hgap
    · exact reacts_extend lx c nofun nofun (ne_lf_of_class (by decide) hdigit)
    · exact reacts_extend lx c nofun nofun (hgap ▸ by decide)
    · exact .cut_literal lx c _
    · exact .cut_fault lx c _
  | radix r seen =>
    simp only [react, reactRadix]
    split_ifs with hdigit hgap
    · exact reacts_extend lx c nofun nofun (ne_lf_of_class (by cases r <;> decide) hdigit)
    · exact reacts_extend lx c nofun nofun (hgap ▸ by decide)
    · exact .cut_literal lx c _
    · exact .cut_fault lx c _

end NumberMode

/-- **Every open lexeme reacts in one of the ways of `Mode.Reacts`.** -/
theorem Mode.reacts (mode : Mode) : mode.Reacts lx c (mode.react lx c) := by
  cases mode with
  | word w => exact w.reacts lx c
  | raw bytes hashes phase => exact phase.reacts lx c bytes hashes
  | tick named => exact reactTick_reacts lx c named
  | lifetime => exact reactLifetime_reacts lx c _
  | quoted q escape filled => exact q.reacts lx c escape filled
  | number n => exact n.reacts lx c
  | slash => exact reactSlash_reacts lx c
  | lineComment phase kind => exact phase.reacts lx c kind
  | blockComment phase depth kind => exact phase.reacts lx c depth kind
  | symbol s => exact reactSymbol_reacts lx c s

end Families

/-! ## What is found -/

/-- The faults of lexemes that the input ends in. -/
def Fault.isEnd : Fault → Bool
  | openQuote _ | openRaw _ | openComment | openLexeme => true
  | _ => false

/-- What any lexeme but a word can be found to be, while there is a byte behind it. -/
def Finding.isOrdinary : Finding → Bool
  | .token kind _ => !kind.isWord
  | .fault f => !f.isEnd

/-- Nothing but that is found. -/
def Reaction.isOrdinary (r : Reaction) : Bool := r.items.all fun i => i.finding.isOrdinary

section Findings

variable (lx : Lexeme) (c : UInt8)

theorem RawPhase.isOrdinary_react (bytes : Bool) (hashes : Nat) (phase : RawPhase) :
    (phase.react bytes hashes lx c).isOrdinary = true := by
  rcases phase with _ | _ | seen
  · simp only [react, reactHashes]
    split_ifs <;> rfl
  · simp only [react, reactBody]
    split_ifs <;> rfl
  · simp only [react, reactClosing]
    split_ifs <;> rfl

theorem Mode.isOrdinary_reactLifetime : (reactLifetime lx c).isOrdinary = true := by
  rw [reactLifetime, Lexeme.lifetime]
  split_ifs <;> rfl

theorem Mode.isOrdinary_reactTick (named : Bool) :
    (reactTick named lx c).isOrdinary = true := by
  rw [reactTick]
  split_ifs
  · rfl
  · exact isOrdinary_reactLifetime lx c
  all_goals rfl

theorem Quote.isOrdinary_react (q : Quote) (escape : Escape) (filled : Bool) :
    (q.react escape filled lx c).isOrdinary = true := by
  rcases escape with _ | _ | digits | _ | digits
  · simp only [react, reactPlain]
    split_ifs <;> rfl
  · simp only [react, reactSlash]
    split_ifs <;> rfl
  · simp only [react, reactHex]
    split_ifs <;> rfl
  · simp only [react, reactUnicodeLead]
    split_ifs <;> rfl
  · simp only [react, reactUnicode]
    split_ifs <;> rfl

theorem NumberMode.isOrdinary_react (n : NumberMode) : (n.react lx c).isOrdinary = true := by
  rcases n with _ | _ | _ | _ | pointed | seen | ⟨r, seen⟩
  · simp only [react]
    split <;> rfl
  · simp only [react, reactDigits]
    split_ifs <;> rfl
  · simp only [react, reactPoint]
    split_ifs <;> rfl
  · simp only [react, reactFraction]
    split_ifs <;> rfl
  · simp only [react, reactExponentLead]
    split_ifs <;> rfl
  · simp only [react, reactExponent]
    split_ifs <;> rfl
  · simp only [react, reactRadix]
    split_ifs <;> rfl

theorem Mode.isOrdinary_reactSlash : (reactSlash lx c).isOrdinary = true := by
  rw [reactSlash]
  split_ifs <;> rfl

theorem LinePhase.isOrdinary_react (phase : LinePhase) (kind : CommentKind) :
    (phase.react kind lx c).isOrdinary = true := by
  rcases phase with _ | _ | _ <;> simp only [react] <;> split_ifs <;> rfl

theorem BlockPhase.isOrdinary_react (phase : BlockPhase) (depth : Nat) (kind : CommentKind) :
    (phase.react depth kind lx c).isOrdinary = true := by
  rcases phase with _ | _ | _ | _ | _ <;> simp only [react] <;> split_ifs <;> rfl

theorem isOrdinary_reactSymbol (s : Symbol) : (reactSymbol s lx c).isOrdinary = true := by
  rw [reactSymbol]
  split
  · split_ifs <;> rfl
  · rfl

theorem isOrdinary_reactIdle (p : Position) : (reactIdle p c).isOrdinary = true := by
  rw [reactIdle]
  split <;> rfl

/-- **Nothing but a word ends as one**, and no byte brings about what only the end of the input
can. -/
theorem Mode.isOrdinary_react {mode : Mode} (h : ∀ w, mode ≠ .word w) :
    (mode.react lx c).isOrdinary = true := by
  cases mode with
  | word w => exact absurd rfl (h w)
  | raw bytes hashes phase => exact phase.isOrdinary_react lx c bytes hashes
  | tick named => exact isOrdinary_reactTick lx c named
  | lifetime => exact isOrdinary_reactLifetime lx c
  | quoted q escape filled => exact q.isOrdinary_react lx c escape filled
  | number n => exact n.isOrdinary_react lx c
  | slash => exact isOrdinary_reactSlash lx c
  | lineComment phase kind => exact phase.isOrdinary_react lx c kind
  | blockComment phase depth kind => exact phase.isOrdinary_react lx c depth kind
  | symbol s => exact isOrdinary_reactSymbol lx c s

end Findings

/-! ## Offering a byte again -/

section Offers

variable {p : Position} {c : UInt8}

/-- The state uses the byte `c` at one of the next `n` offers. -/
def State.Uses (p : Position) (c : UInt8) : Nat → State → Prop
  | 0, _ => False
  | n + 1, s => (s.react p c).used = true ∨ State.Uses p c n (s.react p c).state

/-- Between lexemes every byte is used at once. -/
theorem reactIdle_used (p : Position) (c : UInt8) : (reactIdle p c).used = true := by
  rw [reactIdle]
  split <;> rfl

theorem State.uses_idle (n : Nat) : State.idle.Uses p c (n + 1) := Or.inl (reactIdle_used p c)

/-- Offers beyond the one that uses the byte change nothing. -/
theorem settle_add_of_uses {n : Nat} {s : State} (h : s.Uses p c n) (k : Nat) :
    settle p c (n + k) s = settle p c n s := by
  induction n generalizing s with
  | zero => exact absurd h id
  | succ n ih =>
    rw [Nat.add_right_comm, settle, settle]
    by_cases hu : (s.react p c).used = true
    · simp only [hu, if_true]
    · simp only [hu]
      rw [ih (h.resolve_left hu)]

/-- The modes in which a byte is read again use it, or end the lexeme. -/
theorem Mode.Second.uses {mode : Mode} (h : mode.Second) (lx : Lexeme) :
    (State.within mode lx).Uses p c 2 := by
  cases h with
  | digits =>
    simp only [State.Uses, State.react, Mode.react, NumberMode.react, NumberMode.reactDigits]
    split_ifs
    · exact Or.inl rfl
    · exact Or.inl rfl
    · exact Or.inl rfl
    · exact Or.inr (State.uses_idle 0)
  | body bytes hashes =>
    left
    simp only [State.react, Mode.react, RawPhase.react, RawPhase.reactBody]
    split_ifs <;> rfl

/-- A byte that is not used at once is used by the second offer after that. -/
theorem State.uses_of_unused {s : State} (h : (s.react p c).used = false) :
    (s.react p c).state.Uses p c 2 := by
  cases s with
  | idle => simp [react, reactIdle_used] at h
  | within mode lx =>
    have hr := mode.reacts lx c
    rw [State.react] at h ⊢
    generalize mode.react lx c = r at h hr ⊢
    cases hr with
    | extend => simp [Reaction.extend] at h
    | close => simp [Reaction.close] at h
    | cut => exact State.uses_idle 1
    | retry second => exact second.uses lx
    | range _ hc =>
      subst hc
      -- two points make a longer symbol, which uses the second
      exact Or.inl rfl
    | member => exact State.uses_idle 1
    | unsigned => exact State.uses_idle 1

theorem settle_of_used {s : State} (h : (s.react p c).used = true) :
    settle p c maxOffers s = ((s.react p c).items, (s.react p c).state) := by
  rw [maxOffers, settle, if_pos h]

/-- **A byte that is not used is as good as first offered to the state that follows.** -/
theorem settle_of_unused {s : State} (h : (s.react p c).used = false) :
    settle p c maxOffers s =
      ((s.react p c).items ++ (settle p c maxOffers (s.react p c).state).1,
        (settle p c maxOffers (s.react p c).state).2) := by
  have hmore : settle p c maxOffers (s.react p c).state = settle p c 2 (s.react p c).state :=
    settle_add_of_uses (State.uses_of_unused h) 1
  rw [hmore, maxOffers, settle, if_neg (by simp [h])]

end Offers
end RustScan.Scan
