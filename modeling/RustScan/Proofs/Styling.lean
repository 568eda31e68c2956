import RustScan.Proofs.Highlighting

/-!
# Highlighting any tokens

`Style.highlight` takes whatever tokens it is given: they may overlap, be out of order, be empty or
lie behind the text.  Which of them are styled then depends on the walk, but some things do not: the
text comes out whole, and no styling is left on.

* `Piece` — what the walk writes at a time: a byte of the text, the sequence of a token, or the
  reset sequence.  `Style.pieces` is the output in pieces, and `Style.flatMap_write_piecesFrom`
  puts them together.
* `Style.Paints` — what the walk can do next, by whether a style is on and where it ends.  The walk
  keeps to it (`Style.paints_piecesFrom`), and everything else is read off it, by induction on the
  pieces.
* `Style.Frames` — how the sequences stand around the bytes.
* `highlight_pieces` — the main statement.
-/

set_option autoImplicit false

namespace RustScan

/-- What highlighting writes at a time. -/
inductive Piece where
  /-- A byte of the text. -/
  | byte (c : UInt8)
  /-- The sequence that a token is styled with. -/
  | code (t : Token)
  | reset
  deriving DecidableEq

/-- The byte of the text, unless the piece is inserted. -/
def Piece.byte? : Piece → Option UInt8
  | byte c => some c
  | code _ | reset => none

namespace Style

/-! ## The output in pieces -/

/-- The bytes of a piece. -/
def write (style : Style) : Piece → Bytes
  | .byte c => [c]
  | .code t => style.code t.kind.category
  | .reset => Ansi.reset

/-- Whether a token is styled at an offset: it starts there, and has bytes and a sequence. -/
def isStyled (style : Style) (offset : Nat) (t : Token) : Bool :=
  t.offset.toNat = offset && t.length ≠ 0 && style.code t.kind.category ≠ []

/-- The tokens that are styled at an offset, among those in front of the first that lies further
on. -/
def styledAt (style : Style) (offset : Nat) (tokens : List Token) : List Token :=
  (tokens.takeWhile (·.offset.toNat ≤ offset)).filter (style.isStyled offset)

/-- Where the styling ends behind the sequence of a token at `offset`. -/
def styledBy (offset : Nat) (_ : Option Nat) (t : Token) : Option Nat :=
  some (offset + t.length.toNat)

/-- What is written for the rest of a text. -/
def piecesFrom (style : Style) :
    (offset : Nat) → (styledTo : Option Nat) → List Token → Bytes → List Piece
  | _, none, _, [] => []
  | _, some _, _, [] => [.reset]
  | offset, styledTo, tokens, c :: rest =>
    let ends := styledTo = some offset
    let styled := style.styledAt offset tokens
    (if ends then [.reset] else []) ++ styled.map .code
      ++ .byte c :: style.piecesFrom (offset + 1)
        (styled.foldl (styledBy offset) (if ends then none else styledTo))
        (tokens.dropWhile (·.offset.toNat ≤ offset)) rest

/-- What is written for a text. -/
def pieces (style : Style) (tokens : List Token) (text : Bytes) : List Piece :=
  style.piecesFrom 0 none tokens text

variable {style : Style}

theorem isStyled_iff {offset : Nat} {t : Token} :
    style.isStyled offset t = true ↔
      t.offset.toNat = offset ∧ t.length ≠ 0 ∧ style.code t.kind.category ≠ [] := by
  simp [isStyled, and_assoc]

theorem styledAt_cons {offset : Nat} {t : Token} (h : t.offset.toNat ≤ offset) (ts : List Token) :
    style.styledAt offset (t :: ts) =
      if style.isStyled offset t then t :: style.styledAt offset ts
      else style.styledAt offset ts := by
  rw [styledAt, List.takeWhile_cons_of_pos (by simpa using h), List.filter_cons]
  rfl

theorem styledAt_of_ahead {offset : Nat} {t : Token} (h : ¬ t.offset.toNat ≤ offset)
    (ts : List Token) : style.styledAt offset (t :: ts) = [] := by
  rw [styledAt, List.takeWhile_cons_of_neg (by simpa using h)]
  rfl

/-- A token that has come up is styled, or passed over. -/
theorem startsAt_passed {offset : Nat} {t : Token} (h : t.offset.toNat ≤ offset)
    (styledTo : Option Nat) (ts : List Token) :
    style.startsAt offset styledTo (t :: ts) =
      if style.isStyled offset t then
        let further := style.startsAt offset (styledBy offset styledTo t) ts
        { further with codes := style.code t.kind.category ++ further.codes }
      else style.startsAt offset styledTo ts := by
  rw [startsAt, if_neg (Nat.not_lt.2 h)]
  by_cases hstart : t.offset.toNat = offset ∧ t.length ≠ 0
  · simp only [if_pos hstart]
    by_cases hcode : style.code t.kind.category = []
    · rw [if_pos hcode, if_neg fun hs => (isStyled_iff.1 hs).2.2 hcode]
    · rw [if_neg hcode, if_pos (isStyled_iff.2 ⟨hstart.1, hstart.2, hcode⟩)]
      rfl
  · have hnot : ¬ style.isStyled offset t = true := fun hs =>
      hstart ⟨(isStyled_iff.1 hs).1, (isStyled_iff.1 hs).2.1⟩
    simp only [if_neg hstart, if_neg hnot, if_true]

/-- The tokens that start at an offset, all at once. -/
theorem startsAt_eq (offset : Nat) (styledTo : Option Nat) (tokens : List Token) :
    style.startsAt offset styledTo tokens =
      ⟨((style.styledAt offset tokens).map .code).flatMap style.write,
        (style.styledAt offset tokens).foldl (styledBy offset) styledTo,
        tokens.dropWhile (·.offset.toNat ≤ offset)⟩ := by
  induction tokens generalizing styledTo with
  | nil => rfl
  | cons t ts ih =>
    by_cases hpassed : t.offset.toNat ≤ offset
    · rw [startsAt_passed hpassed, ih, ih, styledAt_cons hpassed,
        List.dropWhile_cons_of_pos (by simpa using hpassed)]
      split_ifs <;> rfl
    · rw [startsAt, if_pos (Nat.lt_of_not_le hpassed), styledAt_of_ahead hpassed,
        List.dropWhile_cons_of_neg (by simpa using hpassed)]
      rfl

/-- **The output is made of the pieces.** -/
theorem flatMap_write_piecesFrom (offset : Nat) (styledTo : Option Nat) (tokens : List Token)
    (text : Bytes) :
    (style.piecesFrom offset styledTo tokens text).flatMap style.write =
      style.highlightFrom offset styledTo tokens text := by
  induction text generalizing offset styledTo tokens with
  | nil => cases styledTo <;> rfl
  | cons c rest ih =>
    simp only [piecesFrom, highlightFrom, startsAt_eq, List.flatMap_append, List.flatMap_cons, ih]
    split_ifs <;> rfl

/-! ## What the walk can do -/

/-- The rest of a text at `offset` is written in these pieces, if the styling that is on ends at
`styledTo`. -/
inductive Paints (style : Style) (tokens : List Token) :
    (offset : Nat) → (styledTo : Option Nat) → Bytes → List Piece → Prop
  | done {offset : Nat} : Paints style tokens offset none [] []
  /-- At the end of the text the styling that is on is ended. -/
  | close {offset last : Nat} : Paints style tokens offset (some last) [] [.reset]
  /-- Styling ends where it should. -/
  | reset {offset : Nat} {text : Bytes} {pieces : List Piece}
      (behind : Paints style tokens offset none text pieces) :
      Paints style tokens offset (some offset) text (.reset :: pieces)
  /-- A token is styled where it starts, whatever styling is on. -/
  | code {offset : Nat} {styledTo : Option Nat} {text : Bytes} {pieces : List Piece} {t : Token}
      (mem : t ∈ tokens) (styled : style.isStyled offset t = true)
      (behind : Paints style tokens offset (some (offset + t.length.toNat)) text pieces) :
      Paints style tokens offset styledTo text (.code t :: pieces)
  /-- A byte is copied in front of the end of the styling. -/
  | byte {offset : Nat} {styledTo : Option Nat} {text : Bytes} {pieces : List Piece} {c : UInt8}
      (inside : ∀ last ∈ styledTo, offset < last)
      (behind : Paints style tokens (offset + 1) styledTo text pieces) :
      Paints style tokens offset styledTo (c :: text) (.byte c :: pieces)

section Walk

variable {tokens : List Token} {offset : Nat} {text : Bytes} {pieces : List Piece}

/-- The sequences of tokens are written one behind the other, and the last one decides where the
styling ends. -/
theorem Paints.codes {styled : List Token} (hmem : ∀ t ∈ styled, t ∈ tokens)
    (hstyled : ∀ t ∈ styled, style.isStyled offset t = true) {styledTo : Option Nat}
    (h : style.Paints tokens offset (styled.foldl (styledBy offset) styledTo) text pieces) :
    style.Paints tokens offset styledTo text (styled.map .code ++ pieces) := by
  induction styled generalizing styledTo with
  | nil => exact h
  | cons t ts ih =>
    obtain ⟨ht, hts⟩ := List.forall_mem_cons.1 hmem
    obtain ⟨hstyle, hstyles⟩ := List.forall_mem_cons.1 hstyled
    exact .code ht hstyle (ih hts hstyles h)

theorem length_pos_of_isStyled {t : Token} (h : style.isStyled offset t = true) :
    0 < t.length.toNat := by
  refine Nat.pos_of_ne_zero fun hzero => ?_
  exact (isStyled_iff.1 h).2.1 (UInt32.toNat_inj.1 hzero)

/-- Styling ends behind the offset where it begins. -/
theorem lt_of_mem_foldl_styledBy {styled : List Token}
    (hstyled : ∀ t ∈ styled, style.isStyled offset t = true) {styledTo : Option Nat}
    (h : ∀ last ∈ styledTo, offset < last) :
    ∀ last ∈ styled.foldl (styledBy offset) styledTo, offset < last := by
  induction styled generalizing styledTo with
  | nil => exact h
  | cons t ts ih =>
    obtain ⟨hstyle, hstyles⟩ := List.forall_mem_cons.1 hstyled
    refine ih hstyles ?_
    intro last hlast
    obtain rfl := Option.some.inj hlast
    exact Nat.lt_add_of_pos_right (length_pos_of_isStyled hstyle)

/-- **The walk keeps to what it can do.**  Styling that is on never ends in front of the offset, so
that its end is not missed. -/
theorem paints_piecesFrom {styledTo : Option Nat} {left : List Token}
    (hleft : ∀ t ∈ left, t ∈ tokens) (h : ∀ last ∈ styledTo, offset ≤ last) :
    style.Paints tokens offset styledTo text (style.piecesFrom offset styledTo left text) := by
  induction text generalizing offset styledTo left with
  | nil =>
    cases styledTo with
    | none => exact .done
    | some last => exact .close
  | cons c rest ih =>
    have hmem : ∀ t ∈ style.styledAt offset left, t ∈ tokens := fun t ht =>
      hleft t ((List.takeWhile_sublist _).subset (List.mem_of_mem_filter ht))
    have hstyled : ∀ t ∈ style.styledAt offset left,
        style.isStyled offset t = true := fun t ht => (List.mem_filter.1 ht).2
    have hfurther : ∀ t ∈ left.dropWhile (·.offset.toNat ≤ offset), t ∈ tokens := fun t ht =>
      hleft t ((List.dropWhile_sublist _).subset ht)
    -- what is written once the styling that ends here is off
    have hwalk : ∀ on : Option Nat, (∀ last ∈ on, offset < last) →
        style.Paints tokens offset on (c :: rest)
          ((style.styledAt offset left).map .code ++
            .byte c :: style.piecesFrom (offset + 1)
              ((style.styledAt offset left).foldl (styledBy offset) on)
              (left.dropWhile (·.offset.toNat ≤ offset)) rest) := by
      intro on hon
      have hinside := lt_of_mem_foldl_styledBy hstyled hon
      exact .codes hmem hstyled (.byte hinside (ih hfurther hinside))
    rw [piecesFrom]
    by_cases hends : styledTo = some offset
    · subst hends
      simp only [if_true]
      exact .reset (hwalk none nofun)
    · simp only [if_neg hends]
      refine hwalk styledTo fun last hlast => ?_
      refine Nat.lt_of_le_of_ne (h last hlast) ?_
      rintro rfl
      exact hends hlast

end Walk

/-! ## How the sequences stand -/

/-- How sequences are inserted into a text. -/
structure Frames (style : Style) (tokens : List Token) (text : Bytes) (pieces : List Piece) :
    Prop where
  /-- The bytes of the text are there, each once and in order. -/
  bytes : pieces.filterMap Piece.byte? = text
  /-- The sequence of a token is not empty, and stands where the token starts. -/
  code : ∀ front t behind, pieces = front ++ .code t :: behind →
    t ∈ tokens ∧ t.length ≠ 0 ∧ style.code t.kind.category ≠ [] ∧
      t.offset.toNat = (front.filterMap Piece.byte?).length
  /-- Only styling that is on is ended. -/
  reset : ∀ front behind, pieces = front ++ .reset :: behind →
    ∃ before t since, front = before ++ .code t :: since ∧ .reset ∉ since
  /-- The last styling is ended with its token, or with the text if that is earlier. -/
  last : (∃ t, .code t ∈ pieces) → ∃ (front : List Piece) (t : Token) (covered rest : Bytes),
    pieces = front ++ .code t :: (covered.map .byte ++ .reset :: rest.map .byte) ∧
      covered.length ≤ t.length.toNat ∧ (covered.length < t.length.toNat → rest = [])

namespace Paints

variable {tokens : List Token} {offset : Nat} {text : Bytes} {pieces : List Piece}

theorem bytes {styledTo : Option Nat} (h : style.Paints tokens offset styledTo text pieces) :
    pieces.filterMap Piece.byte? = text := by
  induction h with
  | done => rfl
  | close => rfl
  | reset _ ih => exact ih
  | code _ _ _ ih => exact ih
  | byte _ _ ih => exact congrArg _ ih

/-- A token is styled behind all bytes in front of it. -/
theorem isStyled_of_code {styledTo : Option Nat}
    (h : style.Paints tokens offset styledTo text pieces) (front : List Piece) {t : Token}
    {behind : List Piece} (hpieces : pieces = front ++ .code t :: behind) :
    t ∈ tokens ∧ style.isStyled (offset + (front.filterMap Piece.byte?).length) t = true := by
  induction h generalizing front with
  | done => exact absurd hpieces.symm (by simp)
  | close =>
    obtain ⟨-, hcode⟩ | ⟨more, -, hmore⟩ := List.cons_eq_append_iff.1 hpieces
    · exact absurd hcode (by simp)
    · exact absurd hmore.symm (by simp)
  | reset _ ih =>
    obtain ⟨-, hcode⟩ | ⟨more, rfl, hmore⟩ := List.cons_eq_append_iff.1 hpieces
    · exact absurd hcode (by simp)
    · exact ih more hmore
  | code mem styled _ ih =>
    obtain ⟨rfl, hcode⟩ | ⟨more, rfl, hmore⟩ := List.cons_eq_append_iff.1 hpieces
    · obtain rfl := Piece.code.inj (List.cons.inj hcode).1
      exact ⟨mem, styled⟩
    · exact ih more hmore
  | @byte _ _ _ _ c _ _ ih =>
    obtain ⟨-, hcode⟩ | ⟨more, rfl, hmore⟩ := List.cons_eq_append_iff.1 hpieces
    · exact absurd hcode (by simp)
    · have hlength : ((.byte c :: more).filterMap Piece.byte?).length =
          (more.filterMap Piece.byte?).length + 1 := rfl
      rw [hlength, Nat.add_comm _ 1, ← Nat.add_assoc]
      exact ih more hmore

/-- In front of a reset sequence there is the sequence of a token, unless styling was on before. -/
theorem exists_code_of_reset {styledTo : Option Nat}
    (h : style.Paints tokens offset styledTo text pieces) {front behind : List Piece}
    (hpieces : pieces = front ++ .reset :: behind) :
    (∃ before t since, front = before ++ .code t :: since ∧ .reset ∉ since) ∨
      styledTo ≠ none ∧ .reset ∉ front := by
  induction h generalizing front with
  | done => exact absurd hpieces.symm (by simp)
  | close =>
    obtain ⟨rfl, -⟩ | ⟨more, -, hmore⟩ := List.cons_eq_append_iff.1 hpieces
    · exact Or.inr ⟨nofun, List.not_mem_nil⟩
    · exact absurd hmore.symm (by simp)
  | reset _ ih =>
    obtain ⟨rfl, -⟩ | ⟨more, rfl, hmore⟩ := List.cons_eq_append_iff.1 hpieces
    · exact Or.inr ⟨nofun, List.not_mem_nil⟩
    · obtain ⟨before, t, since, rfl, hsince⟩ | ⟨hnone, -⟩ := ih hmore
      · exact Or.inl ⟨.reset :: before, t, since, rfl, hsince⟩
      · exact absurd rfl hnone
  | @code _ _ _ _ u _ _ _ ih =>
    obtain ⟨-, hreset⟩ | ⟨more, rfl, hmore⟩ := List.cons_eq_append_iff.1 hpieces
    · exact absurd hreset (by simp)
    · obtain ⟨before, t, since, rfl, hsince⟩ | ⟨-, hsince⟩ := ih hmore
      · exact Or.inl ⟨.code u :: before, t, since, rfl, hsince⟩
      · exact Or.inl ⟨[], u, more, rfl, hsince⟩
  | @byte _ _ _ _ c _ _ ih =>
    obtain ⟨-, hreset⟩ | ⟨more, rfl, hmore⟩ := List.cons_eq_append_iff.1 hpieces
    · exact absurd hreset (by simp)
    · obtain ⟨before, t, since, rfl, hsince⟩ | ⟨hon, hsince⟩ := ih hmore
      · exact Or.inl ⟨.byte c :: before, t, since, rfl, hsince⟩
      · exact Or.inr ⟨hon, by simpa using hsince⟩

/-- Where no token is styled any more and no styling is on, the text is copied. -/
theorem eq_map_byte (h : style.Paints tokens offset none text pieces)
    (hcode : ∀ t, .code t ∉ pieces) : pieces = text.map .byte := by
  generalize hnone : (none : Option Nat) = styledTo at h
  induction h with
  | done => rfl
  | close => exact absurd hnone nofun
  | reset => exact absurd hnone nofun
  | code => exact absurd List.mem_cons_self (hcode _)
  | byte _ _ ih =>
    exact congrArg _ (ih (fun t ht => hcode t (List.mem_cons_of_mem _ ht)) hnone)

/-- Where no token is styled any more, the styling that is on ends where it should, or with the
text. -/
theorem eq_reset {last : Nat} (h : style.Paints tokens offset (some last) text pieces)
    (hcode : ∀ t, .code t ∉ pieces) :
    pieces = (text.take (last - offset)).map .byte ++
      .reset :: (text.drop (last - offset)).map .byte := by
  generalize hsome : some last = styledTo at h
  induction h with
  | done => exact absurd hsome nofun
  | close => simp
  | reset behind =>
    obtain rfl := Option.some.inj hsome
    have hrest := behind.eq_map_byte fun t ht => hcode t (List.mem_cons_of_mem _ ht)
    rw [hrest, Nat.sub_self]
    rfl
  | code => exact absurd List.mem_cons_self (hcode _)
  | @byte offset _ _ _ _ inside _ ih =>
    have hlt : offset < last := inside last hsome.symm
    obtain ⟨n, hn⟩ : ∃ n, last - offset = n + 1 := ⟨last - (offset + 1), by omega⟩
    have hn' : last - (offset + 1) = n := by omega
    rw [ih (fun t ht => hcode t (List.mem_cons_of_mem _ ht)) hsome, hn, hn']
    rfl

/-- **The last styling is ended.** -/
theorem exists_last {styledTo : Option Nat} (h : style.Paints tokens offset styledTo text pieces)
    (hcode : ∃ t, .code t ∈ pieces) :
    ∃ (front : List Piece) (t : Token) (covered rest : Bytes),
      pieces = front ++ .code t :: (covered.map .byte ++ .reset :: rest.map .byte) ∧
        covered.length ≤ t.length.toNat ∧ (covered.length < t.length.toNat → rest = []) := by
  induction h with
  | done => exact absurd hcode (by simp)
  | close => exact absurd hcode (by simp)
  | reset _ ih =>
    obtain ⟨front, t, covered, rest, rfl, hcovered⟩ := ih (by simpa using hcode)
    exact ⟨.reset :: front, t, covered, rest, rfl, hcovered⟩
  | @code offset _ text pieces u _ _ behind ih =>
    by_cases hmore : ∃ t, .code t ∈ pieces
    · obtain ⟨front, t, covered, rest, rfl, hcovered⟩ := ih hmore
      exact ⟨.code u :: front, t, covered, rest, rfl, hcovered⟩
    · have hrest := behind.eq_reset (not_exists.1 hmore)
      rw [Nat.add_sub_cancel_left] at hrest
      refine ⟨[], u, text.take u.length.toNat, text.drop u.length.toNat, by rw [hrest]; rfl,
        List.length_take_le _ _, fun hlt => ?_⟩
      rw [List.length_take] at hlt
      exact List.drop_eq_nil_of_le (by omega)
  | @byte _ _ _ _ c _ _ ih =>
    obtain ⟨front, t, covered, rest, rfl, hcovered⟩ := ih (by simpa using hcode)
    exact ⟨.byte c :: front, t, covered, rest, rfl, hcovered⟩

theorem frames (h : style.Paints tokens 0 none text pieces) :
    style.Frames tokens text pieces := by
  refine ⟨h.bytes, ?_, ?_, h.exists_last⟩
  · intro front t behind hpieces
    obtain ⟨hmem, hstyled⟩ := h.isStyled_of_code front hpieces
    obtain ⟨hstart, hlength, hcode⟩ := isStyled_iff.1 hstyled
    exact ⟨hmem, hlength, hcode, hstart.trans (Nat.zero_add _)⟩
  · intro front behind hpieces
    exact (h.exists_code_of_reset hpieces).resolve_right fun hon => hon.1 rfl

end Paints

/-- Without a style nothing is inserted. -/
theorem Frames.flatMap_write_plain {tokens : List Token} {text : Bytes} {pieces : List Piece}
    (h : plain.Frames tokens text pieces) : pieces.flatMap plain.write = text := by
  have hreset : .reset ∉ pieces := by
    intro hmem
    obtain ⟨front, behind, hpieces⟩ := List.append_of_mem hmem
    obtain ⟨before, t, since, rfl, -⟩ := h.reset _ _ hpieces
    rw [List.append_assoc] at hpieces
    exact (h.code _ _ _ hpieces).2.2.1 (code_plain _)
  have hwrite : ∀ piece ∈ pieces, plain.write piece = piece.byte?.toList := by
    rintro (c | t | _) hmem
    · rfl
    · exact code_plain _
    · exact absurd hmem hreset
  rw [← h.bytes, List.filterMap_eq_flatMap_toList]
  exact List.flatMap_congr hwrite

end Style

/-- **Highlighting any tokens leaves the text whole and no styling on.**  Whatever the tokens are,
the output is made of the bytes of the text, each once and in order, of the sequences of tokens
where they start, and of reset sequences, each of which ends styling that is on; the last one stands
where the last styled token ends, or at the end of the text.  Without a style the output is the
text. -/
theorem highlight_pieces (style : Style) (tokens : List Token) (text : Bytes) :
    style.highlight tokens text = (style.pieces tokens text).flatMap style.write ∧
      style.Frames tokens text (style.pieces tokens text) ∧
      Style.plain.highlight tokens text = text := by
  have hframes (style : Style) : style.Frames tokens text (style.pieces tokens text) :=
    (Style.paints_piecesFrom (fun _ h => h) fun _ _ => Nat.zero_le _).frames
  have hwrite (style : Style) :
      style.highlight tokens text = (style.pieces tokens text).flatMap style.write :=
    (Style.flatMap_write_piecesFrom 0 none tokens text).symm
  refine ⟨hwrite style, hframes style, ?_⟩
  rw [hwrite, (hframes .plain).flatMap_write_plain]

-- a token inside another, one that lies behind, and one that reaches beyond the text
example : Style.ansi.pieces
    [⟨0, 0, .keyword .if_, none, 0, 3⟩, ⟨0, 1, .ident, none, 1, 1⟩, ⟨0, 0, .lifetime, none, 0, 2⟩,
      ⟨0, 3, .label, none, 3, 9⟩] (ascii "abcd") =
    [.code ⟨0, 0, .keyword .if_, none, 0, 3⟩, .byte 0x61, .code ⟨0, 1, .ident, none, 1, 1⟩,
      .byte 0x62, .reset, .byte 0x63, .code ⟨0, 3, .label, none, 3, 9⟩, .byte 0x64, .reset] := by
  decide

end RustScan
