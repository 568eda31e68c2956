import RustScan.Display.Highlight
import RustScan.Proofs.Coverage

/-!
# Highlighting the tokens of a text

`Style.highlight` walks through a text byte by byte and keeps in mind where the styling ends.  On
the tokens that scanning finds this comes to the same as taking the text apart at the tokens:

* `Style.assemble` — the gaps between tokens as they are, and every token between the sequence of
  its category and the reset sequence, if its category has one.  `Style.highlightFrom_tiles` says
  that this is what highlighting puts out, for tokens that tile the text.
* `Ansi.strip` — a text without its sequences.
* `Style.undo_assemble` — whatever undoes the styling of single tokens, undoes it in the whole text.
  Nothing has to be undone without a style, and `Ansi.strip` undoes that of terminals.
-/

set_option autoImplicit false

namespace RustScan

/-! ## Sequences -/

namespace Ansi

/-- The byte that sequences begin with. -/
def esc : UInt8 := '\x1b'.toUInt8

/-- Leaves out what is between an escape byte and the next `m`, both included.  `inside` tells
whether there has been an escape byte and no `m` since. -/
def stripFrom : (inside : Bool) → Bytes → Bytes
  | _, [] => []
  | true, c :: rest => stripFrom (c ≠ 'm'.toUInt8) rest
  | false, c :: rest => if c = esc then stripFrom true rest else c :: stripFrom false rest

/-- The text without its sequences. -/
def strip (text : Bytes) : Bytes := stripFrom false text

theorem strip_append {front : Bytes} (h : esc ∉ front) (rest : Bytes) :
    strip (front ++ rest) = front ++ strip rest := by
  induction front with
  | nil => rfl
  | cons c front ih =>
    obtain ⟨hc, hfront⟩ := not_or.1 (mt List.mem_cons.2 h)
    rw [List.cons_append, strip, stripFrom, if_neg (Ne.symm hc)]
    exact congrArg (c :: ·) (ih hfront)

theorem stripFrom_inside {front : Bytes} (h : 'm'.toUInt8 ∉ front) (rest : Bytes) :
    stripFrom true (front ++ 'm'.toUInt8 :: rest) = strip rest := by
  induction front with
  | nil => rfl
  | cons c front ih =>
    obtain ⟨hc, hfront⟩ := not_or.1 (mt List.mem_cons.2 h)
    rw [List.cons_append, stripFrom, decide_eq_true (Ne.symm hc)]
    exact ih hfront

/-- Nothing is left of the sequences, whatever stands behind them. -/
def IsErased (codes : Bytes) : Prop := ∀ rest, strip (codes ++ rest) = strip rest

theorem isErased_nil : IsErased [] := fun _ => rfl

theorem IsErased.append {a b : Bytes} (ha : IsErased a) (hb : IsErased b) : IsErased (a ++ b) := by
  intro rest
  rw [List.append_assoc, ha, hb]

theorem isErased_rendition {code : String} (h : 'm'.toUInt8 ∉ ascii code) :
    IsErased (rendition code) := by
  intro rest
  have hfront : 'm'.toUInt8 ∉ '['.toUInt8 :: ascii code := by
    rw [List.mem_cons, not_or]
    exact ⟨by decide, h⟩
  have hshape : rendition code ++ rest =
      esc :: ('['.toUInt8 :: ascii code ++ 'm'.toUInt8 :: rest) := by
    simp [rendition, ascii, esc]
  rw [hshape, strip, stripFrom, if_pos rfl]
  exact stripFrom_inside hfront rest

theorem isErased_reset : IsErased reset := isErased_rendition (by decide)

end Ansi

namespace Style

/-- Stripping undoes the palette for terminals. -/
theorem isErased_code_ansi (category : Category) : Ansi.IsErased (ansi.code category) := by
  have rendition {code : String} (h : 'm'.toUInt8 ∉ ascii code) := Ansi.isErased_rendition h
  cases category with
  | comment | charLiteral => exact .append (rendition (by decide)) (rendition (by decide))
  | operator | punctuation => exact Ansi.isErased_nil
  | _ => exact rendition (by decide)

theorem code_plain (category : Category) : plain.code category = [] := by
  cases category <;> rfl

end Style

/-! ## A text taken apart at its tokens -/

/-- Where a token begins and how many bytes it covers. -/
def Token.span (t : Token) : Nat × Nat := (t.offset.toNat, t.length.toNat)

namespace Style

/-- The bytes of a token between the sequence of its category and the reset sequence, or as they are
if the category has no sequence. -/
def wrap (style : Style) (t : Token) (slice : Bytes) : Bytes :=
  if style.code t.kind.category = [] then slice
  else style.code t.kind.category ++ slice ++ Ansi.reset

/-- The text from offset `n` on: the gap in front of each token, the token in its style, and the gap
behind the last. -/
def assemble (style : Style) (text : Bytes) : Nat → List Token → Bytes
  | n, [] => text.drop n
  | n, t :: ts =>
    (text.drop n).take (t.offset.toNat - n) ++ style.wrap t (t.slice text)
      ++ style.assemble text (t.offset.toNat + t.length.toNat) ts

variable {style : Style} {text : Bytes} {n : Nat}

/-- A byte in front of all tokens is part of a gap. -/
theorem assemble_skip {c : UInt8} {tokens : List Token} (here : text[n]? = some c)
    (ahead : ∀ t ∈ tokens, n + 1 ≤ t.offset.toNat) :
    style.assemble text n tokens = c :: style.assemble text (n + 1) tokens := by
  obtain ⟨hlt, hget⟩ := List.getElem?_eq_some_iff.1 here
  have hdrop : text.drop n = c :: text.drop (n + 1) := by
    rw [List.drop_eq_getElem_cons hlt, hget]
  cases tokens with
  | nil => exact hdrop
  | cons t ts =>
    have hle := ahead t List.mem_cons_self
    obtain ⟨k, hk⟩ : ∃ k, t.offset.toNat - n = k + 1 := ⟨t.offset.toNat - (n + 1), by omega⟩
    have hk' : t.offset.toNat - (n + 1) = k := by omega
    rw [assemble, assemble, hdrop, hk, hk', List.take_succ_cons]
    rfl

/-- There is no gap in front of a token that begins at the offset. -/
theorem assemble_span {t : Token} {ts : List Token} (start : t.offset.toNat = n) :
    style.assemble text n (t :: ts) =
      style.wrap t (t.slice text) ++ style.assemble text (n + t.length.toNat) ts := by
  rw [assemble, start, Nat.sub_self, List.take_zero, List.nil_append]

/-! ## Walking through the text -/

/-- Where no token starts, nothing is written. -/
theorem startsAt_of_ahead {tokens : List Token} (ahead : ∀ t ∈ tokens, n < t.offset.toNat)
    (styledTo : Option Nat) : style.startsAt n styledTo tokens = ⟨[], styledTo, tokens⟩ := by
  cases tokens with
  | nil => rfl
  | cons t ts =>
    rw [startsAt, if_pos (ahead t List.mem_cons_self)]

/-- Where one token starts, its sequence is written and the styling lasts up to its end. -/
theorem startsAt_cons {t : Token} {ts : List Token} (start : t.offset.toNat = n)
    (pos : t.length ≠ 0) (ahead : ∀ u ∈ ts, n < u.offset.toNat) :
    style.startsAt n none (t :: ts) =
      ⟨style.code t.kind.category,
        if style.code t.kind.category = [] then none else some (n + t.length.toNat), ts⟩ := by
  rw [startsAt, if_neg (by omega)]
  simp only [start, pos, ne_eq, not_false_eq_true, and_self, if_true]
  by_cases hcode : style.code t.kind.category = []
  · rw [if_pos hcode, if_pos hcode, startsAt_of_ahead ahead, hcode]
  · rw [if_neg hcode, if_neg hcode, startsAt_of_ahead ahead, List.append_nil]

/-- Styling that ends here is reset before anything else is written. -/
theorem highlightFrom_end (tokens : List Token) (rest : Bytes) :
    style.highlightFrom n (some n) tokens rest =
      Ansi.reset ++ style.highlightFrom n none tokens rest := by
  cases rest with
  | nil => rfl
  | cons c rest => simp [highlightFrom]

/-- Bytes in front of all tokens and of the end of the styling are copied. -/
theorem highlightFrom_copy {styledTo : Option Nat} {tokens : List Token} (front rest : Bytes)
    (ahead : ∀ t ∈ tokens, n + front.length ≤ t.offset.toNat)
    (styled : ∀ m, styledTo = some m → n + front.length ≤ m) :
    style.highlightFrom n styledTo tokens (front ++ rest) =
      front ++ style.highlightFrom (n + front.length) styledTo tokens rest := by
  induction front generalizing n with
  | nil => rfl
  | cons c front ih =>
    have hlength : n + (c :: front).length = n + 1 + front.length := by
      rw [List.length_cons]
      omega
    rw [hlength] at ahead styled ⊢
    have hends : styledTo ≠ some n := by
      intro h
      have := styled n h
      omega
    have hstarts : style.startsAt n styledTo tokens = ⟨[], styledTo, tokens⟩ := by
      refine startsAt_of_ahead ?_ styledTo
      intro t ht
      have := ahead t ht
      omega
    rw [List.cons_append, highlightFrom]
    simp only [hends, if_false, hstarts, List.nil_append]
    rw [ih ahead styled, List.cons_append]

/-- A token is written in its style, and what is behind it as if nothing had been in front. -/
theorem highlightFrom_token {t : Token} {ts : List Token} {c : UInt8} {more rest : Bytes}
    (start : t.offset.toNat = n) (length : t.length.toNat = more.length + 1)
    (ahead : ∀ u ∈ ts, n + (more.length + 1) ≤ u.offset.toNat) :
    style.highlightFrom n none (t :: ts) (c :: more ++ rest) =
      style.wrap t (c :: more) ++ style.highlightFrom (n + (more.length + 1)) none ts rest := by
  have hpos : t.length ≠ 0 := by
    intro h
    rw [h] at length
    exact absurd length (by simp)
  have hbehind : ∀ u ∈ ts, n < u.offset.toNat := by
    intro u hu
    have := ahead u hu
    omega
  have hend : n + (more.length + 1) = n + 1 + more.length := by omega
  rw [hend] at ahead ⊢
  rw [List.cons_append, highlightFrom]
  simp only [reduceCtorEq, if_false, startsAt_cons start hpos hbehind, List.nil_append]
  by_cases hcode : style.code t.kind.category = []
  · have hstyled : ∀ m, none = some m → n + 1 + more.length ≤ m := nofun
    rw [if_pos hcode, wrap, if_pos hcode, hcode, highlightFrom_copy more rest ahead hstyled]
    rfl
  · -- the styling lasts to the end of the token, where the reset sequence is written
    have hstyled : ∀ m, some (n + t.length.toNat) = some m → n + 1 + more.length ≤ m := by
      rintro m h
      cases h
      omega
    rw [if_neg hcode, wrap, if_neg hcode, highlightFrom_copy more rest ahead hstyled,
      show n + t.length.toNat = n + 1 + more.length by omega, highlightFrom_end]
    simp

/-- The rest of a text at a token is the token and what is behind it. -/
theorem drop_eq_slice_append {t : Token} (start : t.offset.toNat = n) :
    text.drop n = t.slice text ++ text.drop (n + t.length.toNat) := by
  rw [Token.slice, start, ← List.drop_drop, List.take_append_drop]

/-- Tokens that tile the text from an offset on do not begin in front of it. -/
theorem offset_ge_of_tiles {tokens : List Token} (h : Scan.Tiles text n (tokens.map Token.span)) :
    ∀ t ∈ tokens, n ≤ t.offset.toNat := by
  intro t ht
  exact (h.bounds _ (List.mem_map_of_mem ht)).1

/-- **Tokens that tile a text are highlighted one by one.** -/
theorem highlightFrom_tiles {spans : List (Nat × Nat)} (h : Scan.Tiles text n spans)
    {tokens : List Token} (htokens : tokens.map Token.span = spans) :
    style.highlightFrom n none tokens (text.drop n) = style.assemble text n tokens := by
  induction h generalizing tokens with
  | @done n hlen =>
    obtain rfl := List.map_eq_nil_iff.1 htokens
    rw [List.drop_eq_nil_of_le hlen, assemble, List.drop_eq_nil_of_le hlen]
    rfl
  | @skip n c spans here blank behind ih =>
    subst htokens
    have hahead := offset_ge_of_tiles behind
    obtain ⟨hlt, hget⟩ := List.getElem?_eq_some_iff.1 here
    rw [assemble_skip here hahead, ← ih rfl, List.drop_eq_getElem_cons hlt, hget]
    exact highlightFrom_copy [c] _ hahead nofun
  | @span n length c spans here solid pos le behind ih =>
    obtain ⟨t, ts, rfl, hspan, hts⟩ := List.map_eq_cons_iff.1 htokens
    obtain ⟨start, hlength⟩ := Prod.mk.inj hspan
    subst hts
    have hahead := offset_ge_of_tiles behind
    have hsize : (t.slice text).length = length := by
      rw [Token.slice, start, hlength, List.length_take, List.length_drop]
      omega
    rw [assemble_span start, drop_eq_slice_append start, hlength, ← ih rfl]
    cases hslice : t.slice text with
    | nil =>
      rw [hslice] at hsize
      exact absurd hsize (Nat.ne_of_lt pos)
    | cons b more =>
      rw [hslice, List.length_cons] at hsize
      subst hsize
      exact highlightFrom_token start hlength hahead

/-! ## Undoing the styles -/

/-- What undoes the styling of a token, and leaves the bytes of the text alone, gives the text
back. -/
theorem undo_assemble (undo : Bytes → Bytes) (nil : undo [] = [])
    (gap : ∀ {front}, front ⊆ text → ∀ rest, undo (front ++ rest) = front ++ undo rest)
    (token : ∀ {t slice}, slice ⊆ text → ∀ rest,
      undo (style.wrap t slice ++ rest) = slice ++ undo rest)
    {spans : List (Nat × Nat)} (h : Scan.Tiles text n spans) {tokens : List Token}
    (htokens : tokens.map Token.span = spans) :
    undo (style.assemble text n tokens) = text.drop n := by
  induction h generalizing tokens with
  | @done n hlen =>
    obtain rfl := List.map_eq_nil_iff.1 htokens
    rw [assemble, List.drop_eq_nil_of_le hlen, nil]
  | @skip n c spans here blank behind ih =>
    subst htokens
    have hahead := offset_ge_of_tiles behind
    obtain ⟨hlt, hget⟩ := List.getElem?_eq_some_iff.1 here
    have hc : [c] ⊆ text := by
      simpa using List.mem_of_getElem? here
    rw [assemble_skip here hahead, List.drop_eq_getElem_cons hlt, hget, ← ih rfl]
    exact gap hc _
  | @span n length c spans here solid pos le behind ih =>
    obtain ⟨t, ts, rfl, hspan, hts⟩ := List.map_eq_cons_iff.1 htokens
    obtain ⟨start, hlength⟩ := Prod.mk.inj hspan
    have hslice : t.slice text ⊆ text :=
      List.Subset.trans (List.take_subset _ _) (List.drop_subset _ _)
    rw [assemble_span start, drop_eq_slice_append start, hlength, token hslice, ih hts]

end Style

namespace Scan

/-- The spans of the tokens tile the text. -/
theorem scan_tiles {text : Bytes} (hsize : text.length ≤ Source.maxSize) :
    Tiles text 0 ((scan text).tokens.map Token.span) := by
  have h := congrArg (List.map fun (p : Position × Nat) => (p.1.offset, p.2)) (scan_places hsize)
  rw [List.map_map, List.map_map] at h
  exact h ▸ Machine.items_tiles {} text text rfl

/-- **Highlighting the tokens of a text.**  The gaps are copied, and the tokens are wrapped one by
one.  Without a style that is the text itself, and in the palette for terminals it is the text once
the sequences are stripped off, if the text has no escape bytes of its own. -/
theorem highlight_drain (text : Bytes) (hsize : text.length ≤ Source.maxSize) (style : Style) :
    let tokens := (Stream.ofBytes text).drain.1
    style.highlight tokens text = style.assemble text 0 tokens ∧
      Style.plain.highlight tokens text = text ∧
      (Ansi.esc ∉ text → Ansi.strip (Style.ansi.highlight tokens text) = text) := by
  intro tokens
  have htiles : Tiles text 0 (tokens.map Token.span) := by
    rw [show tokens = (scan text).tokens from Stream.drain_ofBytes text]
    exact scan_tiles hsize
  have hpieces (style : Style) : style.highlight tokens text = style.assemble text 0 tokens :=
    Style.highlightFrom_tiles htiles rfl
  refine ⟨hpieces style, ?_, fun hesc => ?_⟩
  · rw [hpieces]
    refine Style.undo_assemble id rfl (fun _ _ => rfl) ?_ htiles rfl
    intro t slice _ rest
    rw [Style.wrap, if_pos (Style.code_plain _)]
    rfl
  · rw [hpieces]
    have hcopy {front : Bytes} (hfront : front ⊆ text) (rest : Bytes) :
        Ansi.strip (front ++ rest) = front ++ Ansi.strip rest :=
      Ansi.strip_append (fun h => hesc (hfront h)) rest
    refine Style.undo_assemble Ansi.strip rfl hcopy ?_ htiles rfl
    intro t slice hslice rest
    rw [Style.wrap]
    split
    · exact hcopy hslice rest
    · rw [List.append_assoc, List.append_assoc, Style.isErased_code_ansi, hcopy hslice,
        Ansi.isErased_reset]

/-- A number, a malformed exponent and a number, with nothing between them. -/
theorem highlight_drain_adjacent :
    (ascii "1.5e10").length ≤ Source.maxSize ∧ Ansi.esc ∉ ascii "1.5e10" ∧
      Style.ansi.assemble (ascii "1.5e10") 0 (Stream.ofBytes (ascii "1.5e10")).drain.1 =
        Style.ansi.highlight (Stream.ofBytes (ascii "1.5e10")).drain.1 (ascii "1.5e10") ∧
      Ansi.strip (Style.ansi.highlight (Stream.ofBytes (ascii "1.5e10")).drain.1
        (ascii "1.5e10")) = ascii "1.5e10" := by
  have hsize : (ascii "1.5e10").length ≤ Source.maxSize := by decide
  have hesc : Ansi.esc ∉ ascii "1.5e10" := by decide
  have h := highlight_drain _ hsize .ansi
  exact ⟨hsize, hesc, h.1.symm, h.2.2 hesc⟩

example : Style.ansi.assemble (ascii "1.5e10") 0 (scan (ascii "1.5e10")).tokens =
    ascii "\x1b[34m1.5\x1b[0m\x1b[41me\x1b[0m\x1b[34m10\x1b[0m" := by
  decide

end Scan
end RustScan
