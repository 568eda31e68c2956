import RustScan.Proofs.Lexemes

/-!
# What the modes keep track of

A mode is more than a name: it carries the depth of a comment, the hashes of a raw string, the
digits of an escape, and it tells by which bytes its lexeme was opened.  This file shows that all of
this is right in every state that a machine gets into.

* `Mode.Tracks` — what a mode says about the bytes of its lexeme.  `Mode.react_tracks` is the case
  distinction over all modes: every reaction keeps it.
* `State.Behind read s` — the state stands behind the bytes `read`: an open lexeme is their last
  part, and starts where the cursor was in front of it.  This one is read off `Mode.Reacts`, and the
  hand-over of a point is the only case in which a lexeme does not simply grow.
* `State.Sound` — both together.  A reaction preserves it, and so do a step (`settle_sound`) and a
  whole text (`Machine.run_sound`).
-/

set_option autoImplicit false

namespace RustScan.Scan

/-! ## Bytes that are counted -/

/-- The bytes that a quoted literal opens with. -/
def Quote.opener : Quote → String
  | char => "'"
  | byte => "b'"
  | str => "\""
  | byteStr => "b\""

/-- The bytes in front of the hashes and the quote of a raw string. -/
def RawPhase.lead (bytes : Bool) : String := if bytes then "br" else "r"

/-- The sign of an exponent. -/
def NumberMode.isSign (c : UInt8) : Bool := c == '+'.toUInt8 || c == '-'.toUInt8

/-- The number of digits that count behind a radix prefix or the sign of an exponent. -/
def NumberMode.digitCount : NumberMode → Bytes → Nat
  | exponent _, text => (text.rtakeWhile fun c => !isSign c).countP isDigit
  | radix r _, text => (text.drop 2).countP r.isDigit
  | _, _ => 0

/-- Whether one of these digits has been seen. -/
def NumberMode.hasDigit : NumberMode → Bool
  | exponent seen => seen
  | radix _ seen => seen
  | _ => false

/-! ## What a mode says -/

/-- The digits of an escape: none is complete as long as it is open. -/
def Escape.Tracks : Escape → Prop
  | hex digits => digits ≤ 1
  | unicode digits => digits ≤ 6
  | _ => True

/-- Fewer hashes have been seen behind a quote than close the string. -/
def RawPhase.Tracks (hashes : Nat) : RawPhase → Prop
  | closing seen => seen < hashes
  | _ => True

/-- A number knows whether it has a digit where it needs one. -/
def NumberMode.Tracks : NumberMode → Bytes → Prop
  | zero, text => text.length = 1
  | exponent seen, text => seen = true ↔ 0 < (exponent seen).digitCount text
  | radix r seen, text => 2 ≤ text.length ∧ (seen = true ↔ 0 < (radix r seen).digitCount text)
  | _, _ => True

/-- What a mode says about the bytes of its lexeme. -/
def Mode.Tracks : Mode → Bytes → Prop
  | word .rawLead, text => text = ascii "r"
  | word .byteLead, text => text = ascii "b"
  | word .rawByteLead, text => text = ascii "br"
  | raw bytes hashes phase, text =>
    ascii (RawPhase.lead bytes) <+: text ∧ hashes ≤ text.length ∧ phase.Tracks hashes
  | tick _, text => ascii "'" <+: text
  | quoted q escape _, text => ascii q.opener <+: text ∧ escape.Tracks
  | number n, text => n.Tracks text
  | slash, text => text = ascii "/"
  | blockComment _ depth _, text => ascii "/*" <+: text ∧ 1 ≤ depth ∧ depth ≤ text.length
  | symbol s, _ => symbolCode s ≠ 0
  | _, _ => True

/-- What the state says about the bytes of the open lexeme. -/
def State.Tracks : State → Prop
  | idle => True
  | within mode lx => mode.Tracks lx.text

/-! ## Every reaction keeps track -/

section Families

variable {lx : Lexeme} {c : UInt8}

/-- The lexeme goes on with the byte. -/
theorem Reaction.extend_tracks {next : Mode} (h : next.Tracks (lx.text ++ [c])) :
    (Reaction.extend lx c next).state.Tracks := by
  show next.Tracks (lx.push c).text
  rwa [Lexeme.push_text]

/-- What a lexeme opened with, it still opens with when it is longer. -/
theorem prefix_concat {lead text : Bytes} (h : lead <+: text) : lead <+: text ++ [c] :=
  h.trans (List.prefix_append _ _)

theorem le_length_concat {n : Nat} {text : Bytes} (h : n ≤ text.length) :
    n ≤ (text ++ [c]).length := by
  rw [List.length_append]
  omega

theorem WordMode.reactPlain_tracks (lx : Lexeme) (c : UInt8) : (reactPlain lx c).state.Tracks := by
  rw [reactPlain]
  split_ifs <;> exact trivial

theorem WordMode.reactRaw_tracks (bytes : Bool) (h : lx.text = ascii (RawPhase.lead bytes)) :
    (reactRaw bytes lx c).state.Tracks := by
  have hlead : ascii (RawPhase.lead bytes) <+: lx.text ++ [c] := prefix_concat (h ▸ List.prefix_rfl)
  rw [reactRaw]
  split_ifs
  · exact Reaction.extend_tracks ⟨hlead, Nat.zero_le _, trivial⟩
  · exact Reaction.extend_tracks ⟨hlead, by simp, trivial⟩
  · exact reactPlain_tracks lx c

theorem WordMode.react_tracks {w : WordMode} (h : (Mode.word w).Tracks lx.text) :
    (w.react lx c).state.Tracks := by
  cases w with
  | plain => exact reactPlain_tracks lx c
  | underscore =>
    simp only [react]
    split_ifs <;> exact trivial
  | rawLead => exact reactRaw_tracks false h
  | byteLead =>
    replace h : lx.text = ascii "b" := h
    simp only [react]
    split_ifs with hquote hstring hraw
    · exact Reaction.extend_tracks ⟨by rw [h, hquote]; exact List.prefix_rfl, trivial⟩
    · exact Reaction.extend_tracks ⟨by rw [h, hstring]; exact List.prefix_rfl, trivial⟩
    · refine Reaction.extend_tracks ?_
      show lx.text ++ [c] = ascii "br"
      rw [h, hraw]
      rfl
    · exact reactPlain_tracks lx c
  | rawByteLead => exact reactRaw_tracks true h
  | rawIdent =>
    simp only [react]
    split_ifs <;> exact trivial

theorem RawPhase.react_tracks {bytes : Bool} {hashes : Nat} {phase : RawPhase}
    (h : (Mode.raw bytes hashes phase).Tracks lx.text) :
    (phase.react bytes hashes lx c).state.Tracks := by
  obtain ⟨hlead, hhashes, hphase⟩ := h
  have hlead' : ascii (lead bytes) <+: lx.text ++ [c] := prefix_concat hlead
  have hhashes' : hashes ≤ (lx.text ++ [c]).length := le_length_concat hhashes
  cases phase with
  | hashes =>
    simp only [react, reactHashes]
    split_ifs
    · refine Reaction.extend_tracks ⟨hlead', ?_, trivial⟩
      rw [List.length_append]
      exact Nat.add_le_add_right hhashes 1
    · exact Reaction.extend_tracks ⟨hlead', hhashes', trivial⟩
    · exact trivial
    · exact trivial
  | body =>
    simp only [react, reactBody]
    split_ifs with _ _ hzero
    · exact trivial
    · exact trivial
    · exact Reaction.extend_tracks ⟨hlead', hhashes', Nat.pos_of_ne_zero hzero⟩
    · exact Reaction.extend_tracks ⟨hlead', hhashes', trivial⟩
  | closing seen =>
    replace hphase : seen < hashes := hphase
    simp only [react, reactClosing]
    split_ifs with _ hfull
    · exact trivial
    · refine Reaction.extend_tracks ⟨hlead', hhashes', ?_⟩
      show seen + 1 < hashes
      omega
    · exact Reaction.extend_tracks ⟨hlead', hhashes', Nat.zero_lt_of_lt hphase⟩
    · exact ⟨hlead, hhashes, trivial⟩

theorem Mode.reactLifetime_tracks (lx : Lexeme) (c : UInt8) :
    (reactLifetime lx c).state.Tracks := by
  rw [reactLifetime]
  split_ifs <;> exact trivial

theorem Mode.reactTick_tracks {named : Bool} (h : (Mode.tick named).Tracks lx.text) :
    (reactTick named lx c).state.Tracks := by
  have hlead : ascii "'" <+: lx.text ++ [c] := prefix_concat h
  rw [reactTick]
  split_ifs
  · exact trivial
  · exact reactLifetime_tracks lx c
  · exact Reaction.extend_tracks ⟨hlead, trivial⟩
  · exact trivial
  · exact Reaction.extend_tracks hlead
  · exact Reaction.extend_tracks ⟨hlead, trivial⟩

theorem Quote.react_tracks {q : Quote} {escape : Escape} {filled : Bool}
    (h : (Mode.quoted q escape filled).Tracks lx.text) :
    (q.react escape filled lx c).state.Tracks := by
  obtain ⟨hopener, hescape⟩ := h
  -- the literal is closed, or goes on with an escape that has no digit or one more
  have goes : ∀ {escape : Escape} {filled : Bool}, escape.Tracks →
      (Reaction.extend lx c (.quoted q escape filled)).state.Tracks := fun htracks =>
    Reaction.extend_tracks ⟨prefix_concat hopener, htracks⟩
  cases escape with
  | none =>
    simp only [react, reactPlain]
    split_ifs
    · exact trivial
    · exact trivial
    · exact trivial
    · exact trivial
    · exact goes trivial
    · exact goes trivial
  | slash =>
    simp only [react, reactSlash]
    split_ifs
    · exact goes trivial
    · exact goes trivial
    · exact trivial
    · exact goes (Nat.zero_le 1)
    · exact trivial
    · exact goes trivial
    · exact trivial
  | hex digits =>
    simp only [react, reactHex]
    split_ifs with _ _ htwo
    · exact trivial
    · exact trivial
    · exact goes trivial
    · refine goes ?_
      have hone : digits ≤ 1 := hescape
      show digits + 1 ≤ 1
      omega
  | unicodeLead =>
    simp only [react, reactUnicodeLead]
    split_ifs
    · exact goes (Nat.zero_le 6)
    · exact trivial
  | unicode digits =>
    simp only [react, reactUnicode]
    split_ifs with _ _ _ hmany
    · exact trivial
    · exact goes trivial
    · exact trivial
    · exact goes (Nat.le_of_not_lt hmany)
    · exact trivial

theorem Mode.reactSlash_tracks (h : Mode.slash.Tracks lx.text) :
    (reactSlash lx c).state.Tracks := by
  replace h : lx.text = ascii "/" := h
  rw [reactSlash]
  split_ifs with _ hstar
  · exact trivial
  · exact Reaction.extend_tracks ⟨by rw [h, hstar]; exact List.prefix_rfl, Nat.le_refl 1, by simp⟩
  · exact trivial
  · exact trivial

theorem LinePhase.react_tracks (phase : LinePhase) (kind : CommentKind) :
    (phase.react kind lx c).state.Tracks := by
  cases phase <;> simp only [react] <;> split_ifs <;> exact trivial

theorem BlockPhase.react_tracks {phase : BlockPhase} {depth : Nat} {kind : CommentKind}
    (h : (Mode.blockComment phase depth kind).Tracks lx.text) :
    (phase.react depth kind lx c).state.Tracks := by
  obtain ⟨hlead, hpos, hdepth⟩ := h
  -- the depth changes by one at most, and is not lowered to zero
  have goes : ∀ {phase : BlockPhase} {d : Nat} {kind : CommentKind}, 1 ≤ d → d ≤ depth + 1 →
      (Reaction.extend lx c (.blockComment phase d kind)).state.Tracks := by
    intro phase d kind hd hle
    refine Reaction.extend_tracks ⟨prefix_concat hlead, hd, ?_⟩
    rw [List.length_append, List.length_singleton]
    omega
  cases phase with
  | opened =>
    simp only [react]
    split_ifs <;> exact goes hpos (Nat.le_succ depth)
  | openedStar =>
    simp only [react]
    split_ifs
    · exact trivial
    · exact goes hpos (Nat.le_succ depth)
    · exact goes hpos (Nat.le_succ depth)
  | body =>
    simp only [react]
    split_ifs <;> exact goes hpos (Nat.le_succ depth)
  | star =>
    simp only [react]
    split_ifs with _ hlast
    · exact trivial
    · exact goes (by omega) (by omega)
    · exact goes hpos (Nat.le_succ depth)
    · exact goes hpos (Nat.le_succ depth)
  | slash =>
    simp only [react]
    split_ifs
    · exact goes (Nat.succ_pos depth) (Nat.le_refl _)
    · exact goes hpos (Nat.le_succ depth)
    · exact goes hpos (Nat.le_succ depth)

/-- A symbol of more than one byte that can still grow is a state of its own. -/
theorem Symbol.symbolCode_ne_zero {s : Symbol} (hlen : 2 ≤ (ascii s.spelling).length)
    (hfinal : s.isFinal = false) : Mode.symbolCode s ≠ 0 := by
  cases s <;> revert hlen hfinal <;> decide

theorem reactSymbol_tracks (s : Symbol) : (reactSymbol s lx c).state.Tracks := by
  rw [reactSymbol]
  split
  · rename_i t ht
    split_ifs with hfinal
    · exact trivial
    · refine Reaction.extend_tracks (Symbol.symbolCode_ne_zero ?_ (by simpa using hfinal))
      have hpos := List.length_pos_iff.2 s.spelling_ne_nil
      rw [Symbol.spelling_of_extend? ht, List.length_append, List.length_singleton]
      omega
  · exact trivial

/-! Numbers count only what stands behind a prefix or a sign. -/

namespace NumberMode

/-- The sign begins the count. -/
theorem digitCount_sign {seen : Bool} (text : Bytes) (h : isSign c = true) :
    (exponent seen).digitCount (text ++ [c]) = 0 := by
  rw [digitCount, List.rtakeWhile_concat_neg _ _ _ (by simp [h]), List.countP_nil]

/-- A byte that is no sign is counted if it is a digit. -/
theorem digitCount_exponent (seen seen' : Bool) (text : Bytes) (h : isSign c = false) :
    (exponent seen).digitCount (text ++ [c]) =
      (exponent seen').digitCount text + if isDigit c then 1 else 0 := by
  rw [digitCount, List.rtakeWhile_concat_pos _ _ _ (by simp [h]), List.countP_append,
    List.countP_singleton, digitCount]

/-- Behind the prefix every digit of the number system is counted. -/
theorem digitCount_radix (r : Radix) (seen seen' : Bool) {text : Bytes} (h : 2 ≤ text.length) :
    (radix r seen).digitCount (text ++ [c]) =
      (radix r seen').digitCount text + if r.isDigit c then 1 else 0 := by
  rw [digitCount, List.drop_append_of_le_length h, List.countP_append, List.countP_singleton,
    digitCount]

theorem isSign_of_isDigit (h : isDigit c = true) : isSign c = false := by
  cases hs : isSign c with
  | false => rfl
  | true =>
    rw [isSign, Bool.or_eq_true, beq_iff_eq, beq_iff_eq] at hs
    rcases hs with rfl | rfl <;> exact absurd h (by decide)

theorem reactExponent_tracks {seen : Bool} (h : (exponent seen).Tracks lx.text) :
    (reactExponent seen lx c).state.Tracks := by
  rw [reactExponent]
  split_ifs with hdigit hgap
  · refine Reaction.extend_tracks ?_
    show true = true ↔ 0 < (exponent true).digitCount (lx.text ++ [c])
    rw [digitCount_exponent _ seen _ (isSign_of_isDigit hdigit), if_pos hdigit]
    simp
  · refine Reaction.extend_tracks ?_
    show seen = true ↔ 0 < (exponent seen).digitCount (lx.text ++ [c])
    rw [digitCount_exponent _ seen _ (hgap ▸ by decide), if_neg hdigit]
    exact h
  · exact trivial
  · exact trivial

theorem reactRadix_tracks {r : Radix} {seen : Bool} (h : (radix r seen).Tracks lx.text) :
    (reactRadix r seen lx c).state.Tracks := by
  obtain ⟨hlen, hseen⟩ := h
  rw [reactRadix]
  split_ifs with hdigit hgap
  · refine Reaction.extend_tracks ⟨le_length_concat hlen, ?_⟩
    rw [digitCount_radix r _ seen hlen, if_pos hdigit]
    simp
  · refine Reaction.extend_tracks ⟨le_length_concat hlen, ?_⟩
    rw [digitCount_radix r _ seen hlen, if_neg hdigit]
    exact hseen
  · exact trivial
  · exact trivial

theorem react_tracks {n : NumberMode} (h : (Mode.number n).Tracks lx.text) :
    (n.react lx c).state.Tracks := by
  cases n with
  | zero =>
    have hone : lx.text.length = 1 := h
    simp only [react]
    split
    · refine Reaction.extend_tracks ⟨?_, ?_⟩
      · rw [List.length_append, hone]
        exact Nat.le_refl 2
      · rw [digitCount, List.drop_of_length_le (by simp [hone]), List.countP_nil]
        simp
    · exact trivial
  | digits =>
    simp only [react, reactDigits]
    split_ifs <;> exact trivial
  | point =>
    simp only [react, reactPoint]
    split_ifs
    · exact trivial
    · show Mode.symbolCode .dot ≠ 0
      decide
    · exact trivial
    · exact trivial
  | fraction =>
    simp only [react, reactFraction]
    split_ifs <;> exact trivial
  | exponentLead pointed =>
    simp only [react, reactExponentLead]
    split_ifs with hsign
    · refine Reaction.extend_tracks ?_
      show false = true ↔ 0 < (exponent false).digitCount (lx.text ++ [c])
      rw [digitCount_sign _ (by simpa [isSign] using hsign)]
      simp
    · exact trivial
    · exact trivial
  | exponent seen => exact reactExponent_tracks h
  | radix r seen => exact reactRadix_tracks h

end NumberMode

/-- **Every reaction keeps track.** -/
theorem Mode.react_tracks {mode : Mode} (h : mode.Tracks lx.text) :
    (mode.react lx c).state.Tracks := by
  cases mode with
  | word w => exact WordMode.react_tracks h
  | raw bytes hashes phase => exact RawPhase.react_tracks h
  | tick named => exact reactTick_tracks h
  | lifetime => exact reactLifetime_tracks lx c
  | quoted q escape filled => exact Quote.react_tracks h
  | number n => exact NumberMode.react_tracks h
  | slash => exact reactSlash_tracks h
  | lineComment phase kind => exact phase.react_tracks kind
  | blockComment phase depth kind => exact BlockPhase.react_tracks h
  | symbol s => exact reactSymbol_tracks s

end Families

/-! ## The byte that opens a lexeme -/

/-- What a byte begins keeps track of that byte. -/
def Opening.Tracks (c : UInt8) : Opening → Prop
  | lexeme mode => mode.Tracks [c]
  | _ => True

/-- The slash and the underscore are symbols that have modes of their own. -/
theorem Symbol.symbolCode_ne_zero_of_byte {s : Symbol} {c : UInt8} (hc : [c] = ascii s.spelling)
    (hslash : c ≠ '/'.toUInt8) (hunderscore : c ≠ '_'.toUInt8) (hfinal : s.isFinal = false) :
    Mode.symbolCode s ≠ 0 := by
  have hs : s ≠ .slash := by
    rintro rfl
    exact hslash (List.singleton_inj.1 hc)
  have hu : s ≠ .underscore := by
    rintro rfl
    exact hunderscore (List.singleton_inj.1 hc)
  cases s <;> revert hs hu hfinal <;> decide

theorem Opening.ofByte_tracks (c : UInt8) : (ofByte c).Tracks c := by
  rw [ofByte]
  refine iteInduction (fun _ => trivial) fun _ => ?_
  refine iteInduction (fun _ => (rfl : [c].length = 1)) fun _ => ?_
  refine iteInduction (fun _ => trivial) fun _ => ?_
  refine iteInduction (fun _ => trivial) fun hunderscore => ?_
  refine iteInduction (fun hc => (hc ▸ rfl : [c] = ascii "r")) fun _ => ?_
  refine iteInduction (fun hc => (hc ▸ rfl : [c] = ascii "b")) fun _ => ?_
  refine iteInduction (fun _ => trivial) fun _ => ?_
  refine iteInduction (fun hc => ⟨hc ▸ List.prefix_rfl, trivial⟩) fun _ => ?_
  refine iteInduction (fun hc => (hc ▸ List.prefix_rfl : ascii "'" <+: [c])) fun _ => ?_
  refine iteInduction (fun hc => (hc ▸ rfl : [c] = ascii "/")) fun hslash => ?_
  cases hs : Symbol.ofByte? c with
  | some s =>
    have hspelling : [c] = ascii s.spelling := (Symbol.spelling_of_ofBytes? hs).symm
    refine iteInduction (fun _ => trivial) fun hfinal => ?_
    exact Symbol.symbolCode_ne_zero_of_byte hspelling hslash hunderscore (by simpa using hfinal)
  | none => exact trivial

theorem reactIdle_tracks (p : Position) (c : UInt8) : (reactIdle p c).state.Tracks := by
  have h := Opening.ofByte_tracks c
  rw [reactIdle]
  generalize Opening.ofByte c = o at h
  cases o with
  | lexeme mode => exact h
  | _ => exact trivial

theorem State.react_tracks {s : State} (h : s.Tracks) (p : Position) (c : UInt8) :
    (s.react p c).state.Tracks := by
  cases s with
  | idle => exact reactIdle_tracks p c
  | within mode lx => exact Mode.react_tracks h

/-! ## Where a state stands -/

/-- The state stands behind the bytes `read`. -/
inductive State.Behind (read : Bytes) : State → Prop
  /-- Between lexemes there is nothing to know. -/
  | idle : Behind read .idle
  /-- The open lexeme is the last part of the bytes, and starts behind the others. -/
  | within {mode : Mode} {lx : Lexeme} (before : Bytes) (read_eq : read = before ++ lx.text)
      (start : lx.start = ({} : Position).after before) (fits : mode.Fits lx.text) :
      Behind read (.within mode lx)

/-- An open lexeme ends where the bytes end. -/
theorem State.Behind.end_eq {read : Bytes} {mode : Mode} {lx : Lexeme}
    (h : (State.within mode lx).Behind read) :
    lx.start.offset + lx.text.length = read.length := by
  cases h with
  | within before read_eq start fits =>
    rw [start, Position.after_offset, Nat.zero_add, read_eq, List.length_append]

theorem State.Behind.text_ne_nil {read : Bytes} {mode : Mode} {lx : Lexeme}
    (h : (State.within mode lx).Behind read) : lx.text ≠ [] := by
  cases h with
  | within before read_eq start fits => exact fits.ne_nil

/-- The bytes behind which the state stands that follows a reaction. -/
def Reaction.consumed (r : Reaction) (read : Bytes) (c : UInt8) : Bytes :=
  if r.used then read ++ [c] else read

theorem reactIdle_behind (read : Bytes) (c : UInt8) :
    (reactIdle (({} : Position).after read) c).state.Behind (read ++ [c]) := by
  have ho := Machine.opens_ofByte c
  rw [reactIdle]
  generalize Opening.ofByte c = o at ho
  cases ho with
  | skip => exact .idle
  | lexeme fits => exact .within read rfl rfl fits
  | symbol => exact .idle
  | unexpected => exact .idle

/-- **A reaction leaves the state behind the bytes that are dealt with.** -/
theorem State.react_behind {read : Bytes} {s : State} (h : s.Behind read) (c : UInt8) :
    (s.react (({} : Position).after read) c).state.Behind
      ((s.react (({} : Position).after read) c).consumed read c) := by
  cases h with
  | idle =>
    have hused : (State.idle.react (({} : Position).after read) c).used = true :=
      reactIdle_used _ c
    rw [Reaction.consumed, if_pos hused]
    exact reactIdle_behind read c
  | @within mode lx before read_eq start fits =>
    have hr := mode.reacts lx c
    rw [State.react]
    generalize mode.react lx c = r at hr
    cases hr with
    | extend keeps =>
      refine .within before ?_ start (by simpa using keeps fits)
      show read ++ [c] = before ++ (lx.push c).text
      rw [Lexeme.push_text, read_eq, List.append_assoc]
    | close => exact .idle
    | cut => exact .idle
    | retry second first keeps => exact .within before read_eq start (keeps fits)
    | range hmode hc =>
      -- the point is a lexeme of its own now, and starts behind the digits
      subst hmode
      obtain ⟨hlf, digits, hne, htext⟩ := fits
      rw [Lexeme.last_eq htext hlf]
      refine .within (before ++ digits) ?_ ?_ rfl
      · show read = before ++ digits ++ ['.'.toUInt8]
        rw [read_eq, htext, List.append_assoc]
      · show lx.start.after digits = _
        rw [start, Position.after_append]
    | member => exact .idle
    | unsigned => exact .idle

/-! ## Steps and texts -/

/-- The state stands behind the bytes `read`, and what it says about them is right. -/
structure State.Sound (read : Bytes) (s : State) : Prop where
  behind : s.Behind read
  tracks : s.Tracks

theorem State.sound_idle (read : Bytes) : State.idle.Sound read := ⟨.idle, trivial⟩

theorem State.react_sound {read : Bytes} {s : State} (h : s.Sound read) (c : UInt8) :
    (s.react (({} : Position).after read) c).state.Sound
      ((s.react (({} : Position).after read) c).consumed read c) :=
  ⟨State.react_behind h.behind c, State.react_tracks h.tracks _ c⟩

/-- Three offers always suffice. -/
theorem State.uses_maxOffers (p : Position) (c : UInt8) (s : State) : s.Uses p c maxOffers := by
  cases h : (s.react p c).used with
  | true => exact Or.inl h
  | false => exact Or.inr (State.uses_of_unused h)

theorem settle_sound_of_uses {read : Bytes} {c : UInt8} {n : Nat} {s : State} (h : s.Sound read)
    (huses : s.Uses (({} : Position).after read) c n) :
    (settle (({} : Position).after read) c n s).2.Sound (read ++ [c]) := by
  induction n generalizing s with
  | zero => exact absurd huses id
  | succ n ih =>
    have hreact := State.react_sound h c
    rw [Reaction.consumed] at hreact
    rw [settle]
    by_cases hused : (s.react (({} : Position).after read) c).used = true
    · rw [if_pos hused] at hreact ⊢
      exact hreact
    · rw [if_neg hused] at hreact ⊢
      exact ih hreact (huses.resolve_left hused)

/-- **Reading a byte keeps a state sound.** -/
theorem settle_sound {read : Bytes} {s : State} (h : s.Sound read) (c : UInt8) :
    (settle (({} : Position).after read) c maxOffers s).2.Sound (read ++ [c]) :=
  settle_sound_of_uses h (State.uses_maxOffers _ c s)

namespace Machine

/-- The machine has read these bytes from the start, and its state is sound. -/
structure Sound (read : Bytes) (m : Machine) : Prop where
  cursor : m.cursor = ({} : Position).after read
  state : m.state.Sound read

theorem sound_start : Sound [] {} := ⟨rfl, State.sound_idle []⟩

theorem Sound.step {read : Bytes} {m : Machine} (h : m.Sound read) (c : UInt8) :
    (m.step c).2.Sound (read ++ [c]) := by
  obtain ⟨cursor, state⟩ := m
  obtain ⟨rfl, hstate⟩ := h
  refine ⟨?_, settle_sound hstate c⟩
  rw [Position.after_append]
  rfl

theorem Sound.run {read : Bytes} {m : Machine} (h : m.Sound read) (text : Bytes) :
    (m.run text).2.Sound (read ++ text) := by
  induction text generalizing read m with
  | nil => rwa [List.append_nil]
  | cons c rest ih =>
    have hrest := ih (h.step c)
    rwa [List.append_assoc] at hrest

/-- **A machine that has read a text is sound.** -/
theorem run_sound (text : Bytes) : (({} : Machine).run text).2.Sound text := sound_start.run text

end Machine
end RustScan.Scan
