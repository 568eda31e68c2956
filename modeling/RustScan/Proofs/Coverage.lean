import RustScan.Proofs.Lexemes
import RustScan.Proofs.Stream
import RustScan.Source.Basic

/-!
# Tokens cover the text

Nothing of a text is lost between its tokens.  The tokens stand in the order of the text and do not
overlap, each covers at least one byte and begins with one that is no blank, and what no token
covers are blanks.  This holds of every text whose size fits into 32 bits, well formed or not.

* `Tiles text n spans` — from offset `n` on, the text consists of blanks and of the given spans.
  `Machine.items_tiles` finds the spans of the items in this relation, and the lemmas behind it read
  off what the relation says about single spans and single bytes.
* `Token.place`, `Item.place` — the position and the length, without a limit.  `scan_places` says
  that the 32 bits of a token are enough for them.
* `Covers text tokens` — all of it in terms of tokens.
-/

set_option autoImplicit false

namespace RustScan

theorem toNat_toUInt32_of_le {n : Nat} (h : n ≤ Source.maxSize) : n.toUInt32.toNat = n :=
  UInt32.toNat_ofNat_of_lt' (Nat.lt_of_le_pred (by decide) h)

/-- Blank, tab, line feed, carriage return, vertical tab and form feed. -/
def Bytes.blanks : Bytes := [0x20, 0x09, 0x0a, 0x0d, 0x0b, 0x0c]

theorem isSpace_iff {c : UInt8} : isSpace c = true ↔ c ∈ Bytes.blanks := by
  simp [isSpace, Bytes.blanks, or_assoc]

/-- The part of a text that a token covers. -/
def Token.slice (t : Token) (text : Bytes) : Bytes :=
  (text.drop t.offset.toNat).take t.length.toNat

/-- The position and the length of a token, as natural numbers. -/
def Token.place (t : Token) : Scan.Position × Nat :=
  (⟨t.line.toNat, t.column.toNat, t.offset.toNat⟩, t.length.toNat)

namespace Scan

/-! ## Spans -/

/-- From offset `n` on, the text consists of blanks and of the spans, given by offset and length,
each of which begins with something else than a blank. -/
inductive Tiles (text : Bytes) : Nat → List (Nat × Nat) → Prop
  | done {n : Nat} (h : text.length ≤ n) : Tiles text n []
  | skip {n : Nat} {c : UInt8} {spans : List (Nat × Nat)} (here : text[n]? = some c)
      (blank : c ∈ Bytes.blanks) (behind : Tiles text (n + 1) spans) : Tiles text n spans
  | span {n length : Nat} {c : UInt8} {spans : List (Nat × Nat)} (here : text[n]? = some c)
      (solid : c ∉ Bytes.blanks) (pos : 0 < length) (le : n + length ≤ text.length)
      (behind : Tiles text (n + length) spans) : Tiles text n ((n, length) :: spans)

namespace Tiles

variable {text : Bytes} {n : Nat} {spans : List (Nat × Nat)}

/-- No span lies in front of the offset, none is empty, and none reaches beyond the text. -/
theorem bounds (h : Tiles text n spans) :
    ∀ s ∈ spans, n ≤ s.1 ∧ 1 ≤ s.2 ∧ s.1 + s.2 ≤ text.length := by
  induction h with
  | done =>
    intro s hs
    exact absurd hs List.not_mem_nil
  | skip _ _ _ ih =>
    intro s hs
    have := ih s hs
    omega
  | @span n length _ spans _ _ pos le _ ih =>
    intro s hs
    rcases List.mem_cons.1 hs with rfl | hs
    · exact ⟨Nat.le_refl n, pos, le⟩
    · have := ih s hs
      omega

theorem ordered (h : Tiles text n spans) : spans.Pairwise fun s u => s.1 + s.2 ≤ u.1 := by
  induction h with
  | done => exact List.Pairwise.nil
  | skip _ _ _ ih => exact ih
  | span _ _ _ _ behind ih =>
    refine List.pairwise_cons.2 ⟨?_, ih⟩
    intro u hu
    exact (behind.bounds u hu).1

/-- Only the last span can reach the end of the text. -/
theorem end_lt_of_mem_dropLast (h : Tiles text n spans) {s : Nat × Nat}
    (hs : s ∈ spans.dropLast) : s.1 + s.2 < text.length := by
  rcases List.eq_nil_or_concat spans with rfl | ⟨front, last, rfl⟩
  · exact absurd hs List.not_mem_nil
  · rw [List.concat_eq_append] at h hs
    rw [List.dropLast_concat] at hs
    have hle := (List.pairwise_append.1 h.ordered).2.2 s hs last (List.mem_singleton_self _)
    have hlast := h.bounds last (by simp)
    omega

theorem opens (h : Tiles text n spans) :
    ∀ s ∈ spans, ∃ c, text[s.1]? = some c ∧ c ∉ Bytes.blanks := by
  induction h with
  | done =>
    intro s hs
    exact absurd hs List.not_mem_nil
  | skip _ _ _ ih => exact ih
  | @span n length c spans here solid _ _ _ ih =>
    intro s hs
    rcases List.mem_cons.1 hs with rfl | hs
    · exact ⟨c, here, solid⟩
    · exact ih s hs

/-- A byte that no span covers is a blank. -/
theorem blank_of_uncovered (h : Tiles text n spans) {k : Nat} {c : UInt8} (hk : n ≤ k)
    (hc : text[k]? = some c) (hout : ∀ s ∈ spans, ¬ (s.1 ≤ k ∧ k < s.1 + s.2)) :
    c ∈ Bytes.blanks := by
  induction h with
  | done hlen =>
    rw [List.getElem?_eq_none (by omega)] at hc
    exact absurd hc (by simp)
  | @skip n b spans here blank _ ih =>
    rcases Nat.eq_or_lt_of_le hk with rfl | hlt
    · rw [here, Option.some_inj] at hc
      exact hc ▸ blank
    · exact ih hlt hout
  | @span n length b spans _ _ _ _ _ ih =>
    -- the byte is not in the first span, so it is behind it
    have hfirst := hout (n, length) List.mem_cons_self
    have hbehind : n + length ≤ k := by omega
    exact ih hbehind fun s hs => hout s (List.mem_cons_of_mem _ hs)

/-- The text is put together again from the spans and the blanks between them. -/
theorem rebuilt (h : Tiles text n spans) :
    ∃ lead gaps, gaps.length = spans.length ∧ (∀ c ∈ lead ++ gaps.flatten, c ∈ Bytes.blanks) ∧
      text.drop n = lead ++
        (List.zipWith (fun s gap => (text.drop s.1).take s.2 ++ gap) spans gaps).flatten := by
  induction h with
  | done hlen => exact ⟨[], [], rfl, by simp, by simpa using hlen⟩
  | @skip n c spans here blank _ ih =>
    obtain ⟨lead, gaps, hlen, hblank, htext⟩ := ih
    refine ⟨c :: lead, gaps, hlen, ?_, ?_⟩
    · intro b hb
      rcases List.mem_cons.1 hb with rfl | hb
      · exact blank
      · exact hblank b hb
    · obtain ⟨hlt, hget⟩ := List.getElem?_eq_some_iff.1 here
      rw [List.drop_eq_getElem_cons hlt, hget, htext, List.cons_append]
  | @span n length c spans _ _ _ _ _ ih =>
    obtain ⟨lead, gaps, hlen, hblank, htext⟩ := ih
    refine ⟨[], lead :: gaps, by simp [hlen], by simpa using hblank, ?_⟩
    rw [List.zipWith_cons_cons, List.flatten_cons, List.nil_append, List.append_assoc, ← htext,
      ← List.drop_drop, List.take_append_drop]

end Tiles

/-! ## The spans of the items -/

/-- The offset and the length of an item. -/
def Item.span (i : Item) : Nat × Nat := (i.start.offset, i.length)

/-- What a text reads behind the first part of what it reads at an offset. -/
theorem drop_add_of_drop_eq {text rest : Bytes} {n : Nat} (front : Bytes)
    (h : text.drop n = front ++ rest) : text.drop (n + front.length) = rest := by
  rw [← List.drop_drop, h, List.drop_left]

theorem getElem?_of_drop_eq {text rest : Bytes} {c : UInt8} {n : Nat}
    (h : text.drop n = c :: rest) : text[n]? = some c := by
  have h0 : (text.drop n)[0]? = some c := by rw [h]; rfl
  rwa [List.getElem?_drop, Nat.add_zero] at h0

/-- A lexeme at offset `n` is a span there. -/
theorem Tiles.of_drop_eq {text front rest : Bytes} {c : UInt8} {n : Nat} {spans : List (Nat × Nat)}
    (h : text.drop n = c :: front ++ rest) (hc : isSpace c = false)
    (behind : Tiles text (n + (front.length + 1)) spans) :
    Tiles text n ((n, front.length + 1) :: spans) := by
  refine .span (getElem?_of_drop_eq h) ?_ (Nat.succ_pos _) ?_ behind
  · rw [← isSpace_iff, hc]
    exact Bool.false_ne_true
  · have hlen := congrArg List.length h
    rw [List.length_drop, List.length_append, List.length_cons] at hlen
    omega

theorem NumberMode.isExponentLetter_not_isSpace {e : UInt8} (h : isExponentLetter e = true) :
    isSpace e = false := by
  rw [isExponentLetter, Bool.or_eq_true, beq_iff_eq, beq_iff_eq] at h
  rcases h with rfl | rfl <;> decide

/-- **The items of a text tile it.** -/
theorem Machine.items_tiles (p : Position) (rest text : Bytes) (h : text.drop p.offset = rest) :
    Tiles text p.offset ((items ⟨p, .idle⟩ rest).map Item.span) := by
  induction p, rest using items_induction with
  | nil p =>
    rw [items_idle_nil]
    exact .done (List.drop_eq_nil_iff.1 h)
  | skip p c rest hc ih =>
    rw [items_idle_of_isSpace hc]
    have hrest := ih (by rw [Position.advance_offset]; exact drop_add_of_drop_eq [c] h)
    rw [Position.advance_offset] at hrest
    exact .skip (getElem?_of_drop_eq h) (isSpace_iff.1 hc) hrest
  | lexeme p c front rest item hc start length _ hfound ih =>
    have hrest := ih (by rw [Position.after_offset]; exact drop_add_of_drop_eq _ h)
    rw [Position.after_offset] at hrest
    rw [hfound, List.map_cons, Item.span, start, length]
    exact .of_drop_eq h hc hrest
  | exponent p c front e rest item hc start length _ letter hfound ih =>
    have hletter := drop_add_of_drop_eq (c :: front) h
    have hrest := ih (by
      rw [Position.advance_offset, Position.after_offset]
      exact drop_add_of_drop_eq [e] hletter)
    rw [Position.advance_offset, Position.after_offset] at hrest
    rw [hfound, List.map_cons, List.map_cons, Item.span, Item.span, start, length]
    refine .of_drop_eq h hc ?_
    rw [Position.after_offset]
    exact @Tiles.of_drop_eq _ [] _ _ _ _ hletter
      (NumberMode.isExponentLetter_not_isSpace letter) hrest

/-! ## Positions in 32 bits -/

/-- The position and the length of an item. -/
def Item.place (i : Item) : Position × Nat := (i.start, i.length)

/-- A token says where its item is, if that fits into 32 bits. -/
theorem Item.token_place {i : Item} (hline : i.start.line ≤ Source.maxSize)
    (hcolumn : i.start.column ≤ Source.maxSize) (hoffset : i.start.offset ≤ Source.maxSize)
    (hlength : i.length ≤ Source.maxSize) : i.token.place = i.place := by
  obtain ⟨⟨line, column, offset⟩, length, finding⟩ := i
  have hposition : (Position.mk line.toUInt32.toNat column.toUInt32.toNat offset.toUInt32.toNat,
      length.toUInt32.toNat) = (Position.mk line column offset, length) := by
    rw [toNat_toUInt32_of_le hline, toNat_toUInt32_of_le hcolumn, toNat_toUInt32_of_le hoffset,
      toNat_toUInt32_of_le hlength]
  cases finding <;> exact hposition

/-- The position of an item is that of a first part of the text. -/
theorem Machine.start_of_mem_items {text : Bytes} {i : Item} (h : i ∈ ({} : Machine).items text) :
    ∃ before behind, text = before ++ behind ∧ i.start = ({} : Position).after before := by
  obtain ⟨n, hn⟩ := List.mem_iff_getElem?.1 h
  obtain ⟨before, behind, htext, hstart, -⟩ := items_split {} text n i hn
  exact ⟨before, behind, htext, hstart⟩

theorem Machine.line_le_of_mem_items {text : Bytes} {i : Item} (h : i ∈ ({} : Machine).items text) :
    i.start.line ≤ text.length := by
  obtain ⟨before, behind, rfl, hstart⟩ := start_of_mem_items h
  have hlines : before.count Bytes.lf ≤ before.length := List.count_le_length
  rw [hstart, Position.after_line, List.length_append]
  simp only [Nat.zero_add]
  omega

/-- In a text that is not too large no position is too large. -/
theorem Machine.token_place_of_mem_items {text : Bytes} (hsize : text.length ≤ Source.maxSize)
    {i : Item} (h : i ∈ ({} : Machine).items text) : i.token.place = i.place := by
  obtain ⟨before, behind, htext, hstart⟩ := start_of_mem_items h
  have hbefore : before.length ≤ text.length := by
    rw [htext, List.length_append]
    omega
  have hspan := (items_tiles {} text text rfl).bounds i.span (List.mem_map_of_mem h)
  refine Item.token_place ?_ ?_ ?_ ?_
  · exact (line_le_of_mem_items h).trans hsize
  · have hlast : (before.rtakeWhile (· ≠ Bytes.lf)).length ≤ before.length :=
      (List.rtakeWhile_suffix _ _).length_le
    rw [hstart, Position.after_start_column]
    omega
  · have hoffset : i.span.1 = i.start.offset := rfl
    omega
  · have hlength : i.span.2 = i.length := rfl
    omega

theorem promote_place (t : Token) : (promote t).place = t.place := by
  rw [promote]
  split <;> rfl

/-- Rewriting a `union` does not move it. -/
theorem map_place_reclassify (ts : List Token) :
    (reclassify ts).map Token.place = ts.map Token.place := by
  induction ts with
  | nil => rfl
  | cons t rest ih =>
    cases rest with
    | nil => rfl
    | cons u rest =>
      rw [reclassify_cons_cons, List.map_cons, ih, List.map_cons]
      split
      · rw [promote_place]
        rfl
      · rfl

/-- **Tokens say exactly where their items are.** -/
theorem scan_places {text : Bytes} (hsize : text.length ≤ Source.maxSize) :
    (scan text).tokens.map Token.place = (({} : Machine).items text).map Item.place := by
  rw [scan_tokens, map_place_reclassify, List.map_map]
  exact List.map_congr_left fun i hi => Machine.token_place_of_mem_items hsize hi

/-! ## Tokens -/

/-- The tokens cover the text up to blanks. -/
structure Covers (text : Bytes) (tokens : List Token) : Prop where
  /-- Positions and lengths are those that the machine counts without a limit. -/
  places : tokens.map Token.place = (({} : Machine).items text).map Item.place
  nonempty : ∀ t ∈ tokens, 1 ≤ t.length.toNat
  bounded : ∀ t ∈ tokens, t.offset.toNat + t.length.toNat ≤ text.length
  /-- Every token begins behind those in front of it. -/
  ordered : tokens.Pairwise fun t u => t.offset.toNat + t.length.toNat ≤ u.offset.toNat
  opens : ∀ t ∈ tokens, ∃ c, text[t.offset.toNat]? = some c ∧ c ∉ Bytes.blanks
  /-- What no token covers is blank. -/
  blank : ∀ k c, text[k]? = some c →
    (∀ t ∈ tokens, ¬ (t.offset.toNat ≤ k ∧ k < t.offset.toNat + t.length.toNat)) →
      c ∈ Bytes.blanks
  /-- The text is a gap of blanks, and then every token with the gap behind it. -/
  rebuilt : ∃ lead gaps, gaps.length = tokens.length ∧
    (∀ c ∈ lead ++ gaps.flatten, c ∈ Bytes.blanks) ∧
      text = lead ++ (List.zipWith (fun t gap => t.slice text ++ gap) tokens gaps).flatten

/-- **The tokens of a text cover it.** -/
theorem drain_covers (text : Bytes) (hsize : text.length ≤ Source.maxSize) :
    Covers text (Stream.ofBytes text).drain.1 := by
  rw [Stream.drain_ofBytes]
  have hplaces := scan_places hsize
  have hspans : (({} : Machine).items text).map Item.span =
      (scan text).tokens.map fun t => (t.offset.toNat, t.length.toNat) := by
    have h := congrArg (List.map fun (p : Position × Nat) => (p.1.offset, p.2)) hplaces
    rw [List.map_map, List.map_map] at h
    exact h.symm
  have htiles := Machine.items_tiles {} text text rfl
  rw [hspans] at htiles
  refine ⟨hplaces, ?_, ?_, ?_, ?_, ?_, ?_⟩
  · intro t ht
    exact (htiles.bounds _ (List.mem_map_of_mem ht)).2.1
  · intro t ht
    exact (htiles.bounds _ (List.mem_map_of_mem ht)).2.2
  · exact List.pairwise_map.1 htiles.ordered
  · intro t ht
    exact htiles.opens _ (List.mem_map_of_mem ht)
  · intro k c hc hout
    refine htiles.blank_of_uncovered (Nat.zero_le k) hc ?_
    intro s hs
    obtain ⟨t, ht, rfl⟩ := List.mem_map.1 hs
    exact hout t ht
  · obtain ⟨lead, gaps, hlen, hblank, htext⟩ := htiles.rebuilt
    refine ⟨lead, gaps, by simpa using hlen, hblank, ?_⟩
    rw [List.zipWith_map_left] at htext
    exact htext

/-- A range, an exponent without a sign and a quote that nothing closes. -/
theorem drain_covers_malformed :
    (ascii "1..2 1e'").length ≤ Source.maxSize ∧
      Covers (ascii "1..2 1e'") (Stream.ofBytes (ascii "1..2 1e'")).drain.1 :=
  ⟨by decide, drain_covers _ (by decide)⟩

end Scan
end RustScan
