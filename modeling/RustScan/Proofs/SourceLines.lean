import Mathlib.Data.Set.Operations
import Mathlib.Order.Interval.Set.Defs
import RustScan.Proofs.ByteStrings
import RustScan.Proofs.Lines

/-!
# Lines and places of a source

A source looks up places and lines in an index of the offsets at which its lines start.  This file
says what it finds without the index: by counting line feeds, and by cutting the text at them.

* `LineIndex.IsStart text n start` — the line that offset `n` lies in starts at `start`.  There is
  one such start for every offset (`isStart_lastStart`, `IsStart.unique`).
* `Source.location_linear` — **the place of an offset** counts the line feeds in front of it and the
  bytes since the last of them.  So places stand in the order of their offsets, row by row.
* `Bytes.IsLine text i before row behind` — line `i` of a text, with what stands on either side of
  it.  The index holds its start (`IsLine.start?`), and it is one of the pieces between the line
  feeds (`IsLine.getElem?_split`).
* `Source.line_split` — **the text of a line** is that piece without the carriage return of its line
  end, and every other byte is found there at its column.
-/

set_option autoImplicit false

namespace RustScan

/-! ## Where the line of an offset starts -/

namespace LineIndex

/-- The line that offset `n` lies in starts at `start`: behind a line feed, or at the start of the
text, and with no line feed from there up to the offset.  The offset may lie behind the end. -/
structure IsStart (text : Bytes) (n start : Nat) : Prop where
  le : start ≤ n
  front : ∀ k, start = k + 1 → text[k]? = some Bytes.lf
  clear : ∀ k, start ≤ k → k < n → text[k]? ≠ some Bytes.lf

theorem lastStart_concat (text : Bytes) (c : UInt8) :
    lastStart (text ++ [c]) = if c = Bytes.lf then text.length + 1 else lastStart text := by
  rw [lastStart, lastStart, List.rtakeWhile_concat, List.length_append]
  by_cases hc : c = Bytes.lf
  · simp [hc]
  · simp [hc]

theorem isStart_length (text : Bytes) : IsStart text text.length (lastStart text) := by
  induction text using List.reverseRecOn with
  | nil => exact ⟨Nat.le_refl 0, nofun, nofun⟩
  | append_singleton text c ih =>
    obtain ⟨hle, hfront, hclear⟩ := ih
    rw [lastStart_concat, List.length_append, List.length_singleton]
    split
    · rename_i hc
      refine ⟨Nat.le_refl _, ?_, ?_⟩
      · intro k hk
        obtain rfl : text.length = k := Nat.succ.inj hk
        rw [List.getElem?_concat_length, hc]
      · intro k hk hlt
        omega
    · rename_i hc
      refine ⟨Nat.le_succ_of_le hle, ?_, ?_⟩
      · intro k hk
        rw [List.getElem?_append_left (by omega)]
        exact hfront k hk
      · intro k hk hlt
        rcases Nat.lt_succ_iff_lt_or_eq.1 hlt with hlt | rfl
        · rw [List.getElem?_append_left hlt]
          exact hclear k hk hlt
        · rw [List.getElem?_concat_length]
          exact fun h => hc (Option.some_inj.1 h)

/-- The line of an offset starts where the last line of what is in front of it does. -/
theorem isStart_lastStart (text : Bytes) (n : Nat) :
    IsStart text n (lastStart (text.take n)) := by
  obtain ⟨hle, hfront, hclear⟩ := isStart_length (text.take n)
  have hlen : (text.take n).length = min n text.length := List.length_take
  refine ⟨by omega, ?_, ?_⟩
  · intro k hk
    have hget := hfront k hk
    rwa [List.getElem?_take_of_lt (by omega)] at hget
  · intro k hk hlt
    by_cases hin : k < (text.take n).length
    · have hget := hclear k hk hin
      rwa [List.getElem?_take_of_lt hlt] at hget
    · -- behind the end there are no line feeds
      rw [List.getElem?_eq_none (by omega)]
      exact nofun

theorem IsStart.not_lt {text : Bytes} {n a b : Nat} (ha : IsStart text n a)
    (hb : IsStart text n b) : ¬ a < b := by
  intro hlt
  obtain ⟨k, rfl⟩ : ∃ k, b = k + 1 := ⟨b - 1, by omega⟩
  have hle := hb.le
  exact ha.clear k (by omega) (by omega) (hb.front k rfl)

theorem IsStart.unique {text : Bytes} {n a b : Nat} (ha : IsStart text n a)
    (hb : IsStart text n b) : a = b :=
  Nat.le_antisymm (Nat.not_lt.1 (hb.not_lt ha)) (Nat.not_lt.1 (ha.not_lt hb))

/-- A line feed between two offsets is counted for the second only. -/
theorem count_take_lt {text : Bytes} {m k n : Nat} (hm : m ≤ k) (hn : k < n)
    (hget : text[k]? = some Bytes.lf) :
    (text.take m).count Bytes.lf < (text.take n).count Bytes.lf := by
  have hstep : text.take (k + 1) = text.take k ++ [Bytes.lf] := by
    rw [List.take_add_one, hget]
    rfl
  have hbefore := (List.take_sublist_take_left (l := text) hm).count_le Bytes.lf
  have hbehind := (List.take_sublist_take_left (l := text) hn).count_le Bytes.lf
  rw [hstep, List.count_append, List.count_singleton_self] at hbehind
  omega

/-- An offset further on that has no more line feeds in front of it lies in the same line. -/
theorem IsStart.of_count_eq {text : Bytes} {m n start : Nat} (h : IsStart text m start)
    (hlt : m < n) (hcount : (text.take m).count Bytes.lf = (text.take n).count Bytes.lf) :
    IsStart text n start := by
  refine ⟨h.le.trans hlt.le, h.front, ?_⟩
  intro k hk hkn hget
  by_cases hkm : k < m
  · exact h.clear k hk hkm hget
  · have hmore := count_take_lt (Nat.not_lt.1 hkm) hkn hget
    omega

end LineIndex

/-! ## Places -/

theorem Location.IsBefore.ne {a b : Location} (h : a.IsBefore b) :
    (a.line, a.column) ≠ (b.line, b.column) := by
  intro heq
  obtain ⟨hline, hcolumn⟩ := Prod.mk.inj heq
  rcases h with h | ⟨-, h⟩
  · rw [hline] at h
    exact UInt32.lt_irrefl _ h
  · rw [hcolumn] at h
    exact UInt32.lt_irrefl _ h

namespace Source

variable (s : Source)

/-- The line in a place is not cut down if there are few enough lines. -/
theorem toNat_location_line {n : Nat}
    (h : (s.content.take n).count Bytes.lf < UInt32.size) :
    (s.location n).line.toNat = (s.content.take n).count Bytes.lf := by
  rw [location_eq]
  exact toNat_toUInt32_of_le (Nat.le_sub_one_of_lt h)

theorem count_take_lt_size {n : Nat} (h : n < UInt32.size) :
    (s.content.take n).count Bytes.lf < UInt32.size := by
  have hcount : (s.content.take n).count Bytes.lf ≤ (s.content.take n).length :=
    List.count_le_length
  rw [List.length_take] at hcount
  omega

/-- The column counts the bytes since the start of the line. -/
theorem toNat_location_column {n : Nat} (h : n < UInt32.size) :
    LineIndex.lastStart (s.content.take n) + (s.location n).column.toNat = n := by
  have hle := (LineIndex.isStart_lastStart s.content n).le
  have hcolumn : (s.location n).column.toNat = n - LineIndex.lastStart (s.content.take n) := by
    rw [location_eq]
    exact toNat_toUInt32_of_le (Nat.le_sub_one_of_lt (by omega))
  omega

theorem location_isBefore {m n : Nat} (hlt : m < n) (h : n < UInt32.size) :
    (s.location m).IsBefore (s.location n) := by
  have hlineM := s.toNat_location_line (s.count_take_lt_size (hlt.trans h))
  have hlineN := s.toNat_location_line (s.count_take_lt_size h)
  have hle := (List.take_sublist_take_left (l := s.content) hlt.le).count_le Bytes.lf
  rcases Nat.lt_or_eq_of_le hle with hmore | hsame
  · exact Or.inl (UInt32.lt_iff_toNat_lt.2 (by omega))
  · -- no line feed in between: both columns count from the same start
    have hstart := (LineIndex.isStart_lastStart s.content m).of_count_eq hlt hsame
    have hstarts := hstart.unique (LineIndex.isStart_lastStart s.content n)
    have hcolumnM := s.toNat_location_column (hlt.trans h)
    have hcolumnN := s.toNat_location_column h
    exact Or.inr ⟨UInt32.toNat_inj.1 (by omega), UInt32.lt_iff_toNat_lt.2 (by omega)⟩

/-- **The place of an offset, by counting.**  The line counts the line feeds in front of the offset,
and the column the bytes since the last of them; the offset may lie behind the end of the text.  The
places stand in the order of the offsets, so no two of them have the same line and column. -/
theorem location_linear (s : Source) :
    (∀ n < UInt32.size,
      (s.location n).line.toNat = (s.content.take n).count Bytes.lf ∧
      (∃ start, LineIndex.IsStart s.content n start ∧
        start + (s.location n).column.toNat = n) ∧
      (s.location n).offset.toNat = n) ∧
    (∀ m n, m < n → n < UInt32.size → (s.location m).IsBefore (s.location n)) ∧
    Set.InjOn (fun n => ((s.location n).line, (s.location n).column)) (Set.Iio UInt32.size) := by
  refine ⟨?_, ?_, ?_⟩
  · intro n h
    refine ⟨s.toNat_location_line (s.count_take_lt_size h), ?_, ?_⟩
    · exact ⟨_, LineIndex.isStart_lastStart s.content n, s.toNat_location_column h⟩
    · rw [location_eq]
      exact toNat_toUInt32_of_le (Nat.le_sub_one_of_lt h)
  · intro m n hlt h
    exact s.location_isBefore hlt h
  · intro m hm n hn heq
    rcases Nat.lt_trichotomy m n with hlt | rfl | hlt
    · exact absurd heq (s.location_isBefore hlt hn).ne
    · rfl
    · exact absurd heq.symm (s.location_isBefore hlt hm).ne

/-- An offset behind the end, in the last line, and the line feed that ends an empty line. -/
theorem location_linear_behind_end :
    let s := Source.ofBytes [] (ascii "a\n\nb")
    2 < 9 ∧ 9 < UInt32.size ∧ (s.location 9).line.toNat = 2 ∧
      (∃ start, LineIndex.IsStart s.content 9 start ∧ start + (s.location 9).column.toNat = 9) ∧
      (s.location 2).IsBefore (s.location 9) := by
  intro s
  have hsize : 9 < UInt32.size := by decide
  obtain ⟨hplace, hbefore, -⟩ := location_linear s
  obtain ⟨hline, hcolumn, -⟩ := hplace 9 hsize
  exact ⟨by decide, hsize, hline.trans (by decide), hcolumn, hbefore 2 9 (by decide) hsize⟩

end Source

/-! ## Lines of a text -/

namespace Bytes

/-- Line `i` of a text, with what stands in front of it and behind it.  It reaches from a line feed,
or the start of the text, to the next line feed, or the end. -/
structure IsLine (text : Bytes) (i : Nat) (before row behind : Bytes) : Prop where
  text_eq : text = before ++ row ++ behind
  number : before.count lf = i
  opens : before = [] ∨ ∃ front, before = front ++ [lf]
  inside : lf ∉ row
  ends : behind = [] ∨ ∃ rest, behind = lf :: rest

/-- The first line of a text. -/
theorem exists_firstLine (text : Bytes) :
    ∃ row behind, text = row ++ behind ∧ lf ∉ row ∧
      (behind = [] ∨ ∃ rest, behind = lf :: rest) := by
  by_cases hmem : lf ∈ text
  · obtain ⟨row, rest, htext, hrow⟩ := List.eq_append_cons_of_mem hmem
    exact ⟨row, lf :: rest, htext, hrow, Or.inr ⟨rest, rfl⟩⟩
  · exact ⟨text, [], (List.append_nil text).symm, hmem, Or.inl rfl⟩

namespace IsLine

variable {text before row behind : Bytes} {i : Nat}

theorem take_before (h : IsLine text i before row behind) : text.take before.length = before := by
  rw [h.text_eq, List.append_assoc, List.take_left]

theorem drop_before (h : IsLine text i before row behind) :
    text.drop before.length = row ++ behind := by
  rw [h.text_eq, List.append_assoc, List.drop_left]

/-- A line is followed by a line feed unless it is the last. -/
theorem lt_count_iff (h : IsLine text i before row behind) :
    i < text.count lf ↔ behind ≠ [] := by
  have hcount := congrArg (List.count lf) h.text_eq
  rw [List.count_append, List.count_append, h.number, List.count_eq_zero.2 h.inside] at hcount
  rcases h.ends with rfl | ⟨rest, rfl⟩
  · simp [hcount]
  · rw [List.count_cons_self] at hcount
    exact iff_of_true (by omega) (List.cons_ne_nil _ _)

/-- The next line begins behind the line feed that ends this one. -/
theorem exists_next {rest : Bytes} (h : IsLine text i before row (lf :: rest)) :
    ∃ next behind, IsLine text (i + 1) (before ++ row ++ [lf]) next behind := by
  obtain ⟨next, behind, hrest, hnext, hends⟩ := exists_firstLine rest
  refine ⟨next, behind, ?_, ?_, Or.inr ⟨_, rfl⟩, hnext, hends⟩
  · rw [h.text_eq, hrest]
    simp
  · simp [h.number, List.count_eq_zero.2 h.inside]

end IsLine

/-- There is one line more than there are line feeds. -/
theorem exists_isLine {text : Bytes} {i : Nat} (h : i ≤ text.count lf) :
    ∃ before row behind, IsLine text i before row behind := by
  induction i with
  | zero =>
    obtain ⟨row, behind, htext, hrow, hends⟩ := exists_firstLine text
    exact ⟨[], row, behind, htext, rfl, Or.inl rfl, hrow, hends⟩
  | succ i ih =>
    obtain ⟨before, row, behind, hline⟩ := ih (Nat.le_of_succ_le h)
    rcases hline.ends with rfl | ⟨rest, rfl⟩
    · exact absurd rfl (hline.lt_count_iff.1 h)
    · exact ⟨_, hline.exists_next⟩

namespace IsLine

variable {text before row behind : Bytes} {i : Nat}

/-- The index holds the start of the line. -/
theorem start? (h : IsLine text i before row behind) :
    (LineIndex.ofBytes text).start? i = some before.length := by
  have hstart := LineIndex.start?_lineOf text before.length
  rw [LineIndex.lineOf_eq, h.take_before, h.number] at hstart
  rw [hstart]
  rcases h.opens with rfl | ⟨front, rfl⟩
  · rfl
  · rw [LineIndex.lastStart_concat, if_pos rfl, List.length_append]
    rfl

/-- Behind the line feed that ends a line the next one starts. -/
theorem start?_succ {rest : Bytes} (h : IsLine text i before row (lf :: rest)) :
    (LineIndex.ofBytes text).start? (i + 1) = some (before.length + row.length + 1) := by
  obtain ⟨next, behind, hnext⟩ := h.exists_next
  rw [hnext.start?]
  simp [Nat.add_assoc]

/-- A line is a piece of the text between its line feeds. -/
theorem getElem?_split (h : IsLine text i before row behind) :
    (split lf text)[i]? = some row := by
  have hfirst : (split lf (row ++ behind))[0]? = some row := by
    rcases h.ends with rfl | ⟨rest, rfl⟩
    · rw [List.append_nil, split_of_notMem h.inside]
      rfl
    · rw [split_append_cons, split_of_notMem h.inside]
      rfl
  rw [h.text_eq, List.append_assoc]
  rcases h.opens with hnil | ⟨front, hfront⟩
  · have hi : i = 0 := by rw [← h.number, hnil, List.count_nil]
    rw [hnil, List.nil_append, hi]
    exact hfirst
  · have hi : i = (split lf front).length := by
      rw [length_split, ← h.number, hfront, List.count_append, List.count_singleton_self]
    rw [hfront, List.append_assoc, List.singleton_append, split_append_cons,
      List.getElem?_append_right hi.ge, hi, Nat.sub_self]
    exact hfirst

/-- An offset does not lie behind the line feed that ends its line. -/
theorem le_length {n : Nat} {rest : Bytes}
    (h : IsLine text ((text.take n).count lf) before row (lf :: rest)) :
    n ≤ before.length + row.length := by
  by_contra hgt
  have hlf : text[before.length + row.length]? = some lf := by
    rw [h.text_eq, ← List.length_append, List.getElem?_append_right (Nat.le_refl _), Nat.sub_self]
    rfl
  have hmore := LineIndex.count_take_lt (Nat.le_add_right before.length row.length)
    (Nat.not_le.1 hgt) hlf
  rw [h.take_before, h.number] at hmore
  exact Nat.lt_irrefl _ hmore

/-- A byte other than a line feed is part of the line that its offset lies in. -/
theorem getElem?_row {n : Nat} {c : UInt8}
    (h : IsLine text ((text.take n).count lf) before row behind) (hle : before.length ≤ n)
    (hget : text[n]? = some c) (hc : c ≠ lf) : row[n - before.length]? = some c := by
  have hbyte : (row ++ behind)[n - before.length]? = some c := by
    rw [← h.drop_before, List.getElem?_drop, Nat.add_sub_cancel' hle]
    exact hget
  rcases h.ends with rfl | ⟨rest, rfl⟩
  · rwa [List.append_nil] at hbyte
  · have hend := h.le_length
    rcases Nat.lt_or_ge (n - before.length) row.length with hlt | hge
    · rwa [List.getElem?_append_left hlt] at hbyte
    · -- the byte would be the line feed itself
      have hoffset : n - before.length = row.length := by omega
      rw [hoffset, List.getElem?_append_right (Nat.le_refl _), Nat.sub_self] at hbyte
      exact absurd (Option.some_inj.1 hbyte).symm hc

end IsLine

/-- The line of an offset. -/
theorem exists_isLine_take (text : Bytes) (n : Nat) :
    ∃ before row behind, IsLine text ((text.take n).count lf) before row behind ∧
      before.length = LineIndex.lastStart (text.take n) := by
  obtain ⟨before, row, behind, h⟩ := exists_isLine ((List.take_sublist n text).count_le lf)
  refine ⟨before, row, behind, h, ?_⟩
  have hstart := h.start?
  rw [← LineIndex.lineOf_eq, LineIndex.start?_lineOf] at hstart
  exact (Option.some_inj.1 hstart).symm

end Bytes

/-! ## Texts of lines -/

theorem LineIndex.start?_eq_none {text : Bytes} {i : Nat} (h : text.count Bytes.lf < i) :
    (ofBytes text).start? i = none := by
  rw [start?, ofBytes, List.getElem?_toArray, List.getElem?_eq_none]
  rw [List.length_cons, length_startsBehind]
  exact h

namespace Source

variable (s : Source)

/-- The text of a line is the line without the carriage return of its line end. -/
theorem line_of_isLine {i : Nat} {before row behind : Bytes}
    (h : Bytes.IsLine s.content i before row behind) :
    s.line i = if i < s.content.count Bytes.lf ∧ row.getLast? = some Bytes.cr then row.dropLast
      else row := by
  have hlast := h.lt_count_iff
  rw [Source.line, s.lines_eq, h.start?]
  rcases h.ends with rfl | ⟨rest, rfl⟩
  · have hge : s.content.count Bytes.lf ≤ i := by simpa using hlast
    rw [LineIndex.start?_eq_none (Nat.lt_succ_of_le hge), if_neg (fun hc => hlast.1 hc.1 rfl)]
    exact h.drop_before.trans (List.append_nil row)
  · have hlt := hlast.2 (List.cons_ne_nil _ _)
    have htake : before.length + row.length + 1 - 1 - before.length = row.length := by omega
    rw [h.start?_succ]
    simp only [h.drop_before, htake, List.take_left, withoutCr, hlt, true_and]

/-- Nothing but a carriage return is missing in the text of a line. -/
theorem line_prefix {i : Nat} {before row behind : Bytes}
    (h : Bytes.IsLine s.content i before row behind) : s.line i <+: row := by
  rw [s.line_of_isLine h]
  split
  · exact List.dropLast_prefix row
  · exact List.prefix_refl row

theorem line_eq_nil {i : Nat} (h : s.content.count Bytes.lf < i) : s.line i = [] := by
  rw [line, s.lines_eq, LineIndex.start?_eq_none h]

theorem lf_notMem_line (i : Nat) : Bytes.lf ∉ s.line i := by
  rcases Nat.lt_or_ge (s.content.count Bytes.lf) i with hlt | hle
  · rw [s.line_eq_nil hlt]
    exact List.not_mem_nil
  · obtain ⟨before, row, behind, h⟩ := Bytes.exists_isLine hle
    exact fun hmem => h.inside ((s.line_prefix h).subset hmem)

/-- A byte that is no part of a line end is found in the text of its line. -/
theorem getElem?_line_of_isLine {n : Nat} {c : UInt8} {before row behind : Bytes}
    (h : Bytes.IsLine s.content ((s.content.take n).count Bytes.lf) before row behind)
    (hle : before.length ≤ n) (hget : s.content[n]? = some c) (hcr : c ≠ Bytes.cr)
    (hlf : c ≠ Bytes.lf) :
    (s.line ((s.content.take n).count Bytes.lf))[n - before.length]? = some c := by
  have hbyte := h.getElem?_row hle hget hlf
  rw [s.line_of_isLine h]
  split
  · rename_i hcut
    obtain ⟨-, hlast⟩ := hcut
    obtain ⟨front, rfl⟩ := List.getLast?_eq_some_iff.1 hlast
    rw [List.dropLast_concat]
    rcases Nat.lt_or_ge (n - before.length) front.length with hlt | hge
    · rwa [List.getElem?_append_left hlt] at hbyte
    · -- only the carriage return stands so far behind
      rw [List.getElem?_append_right hge] at hbyte
      have hmem := List.mem_of_getElem? hbyte
      exact absurd (List.mem_singleton.1 hmem) hcr
  · exact hbyte

/-- **The text of a line is a piece of the source** between line feeds, without a carriage return
that it ends in if a line feed follows.  There is nothing in a line behind the last.  A byte that is
neither a carriage return nor a line feed stands in its line at its column.  Places are kept in 32
bits, so the column of an offset beyond them is cut down. -/
theorem line_split (s : Source) (hlines : s.content.count Bytes.lf < UInt32.size - 1) :
    (∀ i ≤ s.content.count Bytes.lf, ∃ piece, (Bytes.split Bytes.lf s.content)[i]? = some piece ∧
      s.line i = if piece.getLast? = some Bytes.cr ∧ i < s.content.count Bytes.lf
        then piece.dropLast else piece) ∧
    (∀ i, s.content.count Bytes.lf < i → s.line i = []) ∧
    (∀ n c, s.content[n]? = some c → c ≠ Bytes.cr → c ≠ Bytes.lf →
      (n < UInt32.size →
        (s.line (s.location n).line.toNat)[(s.location n).column.toNat]? = some c) ∧
      ∃ k ≤ n, (s.location n).column = k.toUInt32 ∧
        (s.line (s.location n).line.toNat)[k]? = some c) := by
  refine ⟨?_, ?_, ?_⟩
  · intro i hi
    obtain ⟨before, row, behind, h⟩ := Bytes.exists_isLine hi
    refine ⟨row, h.getElem?_split, ?_⟩
    rw [s.line_of_isLine h]
    simp only [and_comm]
  · intro i hi
    exact s.line_eq_nil hi
  · intro n c hget hcr hlf
    obtain ⟨before, row, behind, h, hbefore⟩ := Bytes.exists_isLine_take s.content n
    have hle : before.length ≤ n := hbefore ▸ (LineIndex.isStart_lastStart s.content n).le
    have hcount := (List.take_sublist n s.content).count_le Bytes.lf
    have hbyte := s.getElem?_line_of_isLine h hle hget hcr hlf
    rw [s.toNat_location_line (by omega)]
    refine ⟨?_, n - before.length, Nat.sub_le _ _, ?_, hbyte⟩
    · intro hn
      have hcolumn := s.toNat_location_column hn
      rw [← hbefore] at hcolumn
      rwa [← Nat.eq_sub_of_add_eq' hcolumn] at hbyte
    · rw [location_eq, hbefore]

/-- Two lines that end in a carriage return, one of them the last, and an empty line. -/
theorem line_split_line_ends :
    let s := Source.ofBytes [] (ascii "a\r\n\n\tb\r")
    s.content.count Bytes.lf < UInt32.size - 1 ∧ s.line 0 = ascii "a" ∧
      s.line 2 = ascii "\tb\r" ∧ s.line 3 = [] ∧ s.content[5]? = some 'b'.toUInt8 ∧
      (s.line (s.location 5).line.toNat)[(s.location 5).column.toNat]? = some 'b'.toUInt8 := by
  intro s
  have hlines : s.content.count Bytes.lf < UInt32.size - 1 := by decide
  have hbyte : s.content[5]? = some 'b'.toUInt8 := by decide
  obtain ⟨hline, hnone, hfound⟩ := line_split s hlines
  obtain ⟨first, hfirst, hline0⟩ := hline 0 (by decide)
  obtain ⟨last, hlast, hline2⟩ := hline 2 (by decide)
  obtain rfl : first = ascii "a\r" := Option.some_inj.1 (hfirst.symm.trans (by decide))
  obtain rfl : last = ascii "\tb\r" := Option.some_inj.1 (hlast.symm.trans (by decide))
  refine ⟨hlines, hline0.trans (by decide), hline2.trans (by decide), hnone 3 (by decide), hbyte,
    ?_⟩
  exact (hfound 5 _ hbyte (by decide) (by decide)).1 (by decide)

end Source
end RustScan
