import RustScan.Proofs.Translation
import RustScan.Source.Basic

/-!
# The cursor and the index of lines

There are two ways to the line and the column of an offset.  The machine counts them while it reads,
and a source looks them up by bisection in the index of its lines.  This file shows that they agree.

* `LineIndex.firstAbove_eq` — bisection finds the boundary between what is below and what is above.
* `LineIndex.lineOf_eq`, `LineIndex.start?_lineOf` — the line of an offset counts the line feeds in
  front of it, and starts behind the last of them.  Both hold behind the end of the text as well.
* `Source.location_eq_after` — so the index leads to the place where the cursor is.
* `Scan.Position.isBefore_after` — reading on moves the cursor forward, row by row.
* `Scan.scan_located` — the main statement, about tokens and problems.
-/

set_option autoImplicit false

namespace RustScan
namespace LineIndex

/-! ## Bisection -/

/-- **Bisection finds the boundary.**  What stands in front of `k` is not above `x`, and what stands
from there on is. -/
theorem firstAbove_eq {xs : Array Nat} {x k lo hi : Nat} (hlo : lo ≤ k) (hhi : k ≤ hi)
    (below : ∀ i < k, xs.getD i 0 ≤ x) (above : ∀ i, k ≤ i → i < hi → x < xs.getD i 0) :
    firstAbove xs x lo hi = k := by
  fun_induction firstAbove xs x lo hi with
  | case1 lo hi hlt hmid ih =>
    have hk : (lo + hi) / 2 < k := by
      by_contra hge
      have := above ((lo + hi) / 2) (by omega) (by omega)
      omega
    exact ih hk hhi above
  | case2 lo hi hlt hmid ih =>
    have hk : k ≤ (lo + hi) / 2 := by
      by_contra hge
      exact hmid (below _ (by omega))
    exact ih hlo hk fun i hi' hlt' => above i hi' (by omega)
  | case3 lo hi hlt => omega

/-- A sequence of two parts, the first not above `x` and the second above it. -/
theorem firstAbove_append {front back : List Nat} {x : Nat} (hfront : ∀ s ∈ front, s ≤ x)
    (hback : ∀ s ∈ back, x < s) :
    firstAbove (front ++ back).toArray x 0 (front ++ back).length = front.length := by
  have hlen : (front ++ back).length = front.length + back.length := List.length_append
  have hget : ∀ i, (front ++ back).toArray.getD i 0 = ((front ++ back)[i]?).getD 0 := by
    intro i
    rw [Array.getD_eq_getD_getElem?, List.getElem?_toArray]
  refine firstAbove_eq (Nat.zero_le _) (by omega) (fun i hi => ?_) (fun i hi hlt => ?_)
  · rw [hget, List.getElem?_append_left hi, List.getElem?_eq_getElem hi]
    exact hfront _ (List.getElem_mem hi)
  · have hlt' : i - front.length < back.length := by omega
    rw [hget, List.getElem?_append_right hi, List.getElem?_eq_getElem hlt']
    exact hback _ (List.getElem_mem hlt')

/-! ## The starts of the lines -/

theorem startsBehind_append (n : Nat) (a b : Bytes) :
    startsBehind n (a ++ b) = startsBehind n a ++ startsBehind (n + a.length) b := by
  induction a generalizing n with
  | nil => rfl
  | cons c a ih =>
    have hlen : n + (c :: a).length = n + 1 + a.length := by
      rw [List.length_cons]
      omega
    simp only [List.cons_append, startsBehind, ih, hlen]
    split <;> rfl

theorem length_startsBehind (n : Nat) (text : Bytes) :
    (startsBehind n text).length = text.count Bytes.lf := by
  induction text generalizing n with
  | nil => rfl
  | cons c rest ih =>
    rw [startsBehind, List.count_cons]
    by_cases hc : c = Bytes.lf
    · simp [hc, ih]
    · simp [hc, ih]

/-- A line that begins behind a line feed of a text begins inside the text or at its end. -/
theorem bounds_of_mem_startsBehind {n s : Nat} {text : Bytes} (h : s ∈ startsBehind n text) :
    n < s ∧ s ≤ n + text.length := by
  induction text generalizing n with
  | nil => exact absurd h List.not_mem_nil
  | cons c rest ih =>
    rw [List.length_cons]
    rw [startsBehind] at h
    split at h
    · rcases List.mem_cons.1 h with rfl | h
      · omega
      · have := ih h
        omega
    · have := ih h
      omega

/-- Where the last line of a text starts. -/
def lastStart (text : Bytes) : Nat := text.length - (text.rtakeWhile (· ≠ Bytes.lf)).length

/-- The last line starts where the last of all lines does. -/
theorem getLast?_starts (text : Bytes) :
    (0 :: startsBehind 0 text).getLast? = some (lastStart text) := by
  -- only the last byte decides whether a line is added, so the induction is from the end
  induction text using List.reverseRecOn with
  | nil => rfl
  | append_singleton front c ih =>
    rw [startsBehind_append, Nat.zero_add, ← List.cons_append, lastStart, List.rtakeWhile_concat,
      List.length_append]
    by_cases hc : c = Bytes.lf
    · rw [startsBehind, if_pos hc, startsBehind, List.getLast?_append]
      simp [hc]
    · rw [startsBehind, if_neg hc, startsBehind, List.append_nil, ih, lastStart]
      simp [hc]

/-- The lines that start up to an offset, and those that start behind it. -/
theorem starts_ofBytes (text : Bytes) (n : Nat) :
    (ofBytes text).starts =
      ((0 :: startsBehind 0 (text.take n)) ++
        startsBehind (text.take n).length (text.drop n)).toArray := by
  have h := startsBehind_append 0 (text.take n) (text.drop n)
  rw [List.take_append_drop, Nat.zero_add] at h
  rw [ofBytes, h, List.cons_append]

/-- **The line of an offset counts the line feeds in front of it.** -/
theorem lineOf_eq (text : Bytes) (n : Nat) :
    (ofBytes text).lineOf n = (text.take n).count Bytes.lf := by
  have hfront : ∀ s ∈ 0 :: startsBehind 0 (text.take n), s ≤ n := by
    intro s hs
    rcases List.mem_cons.1 hs with rfl | hs
    · exact Nat.zero_le n
    · have hbounds := bounds_of_mem_startsBehind hs
      rw [List.length_take] at hbounds
      omega
  have hback : ∀ s ∈ startsBehind (text.take n).length (text.drop n), n < s := by
    intro s hs
    -- behind the end of the text nothing is left that could start
    have hbounds := bounds_of_mem_startsBehind hs
    rw [List.length_take, List.length_drop] at hbounds
    omega
  rw [lineOf, size, starts_ofBytes text n, List.size_toArray, firstAbove_append hfront hback,
    List.length_cons, length_startsBehind, Nat.add_sub_cancel]

/-- The line of an offset starts behind the last line feed in front of it. -/
theorem start?_lineOf (text : Bytes) (n : Nat) :
    (ofBytes text).start? ((ofBytes text).lineOf n) = some (lastStart (text.take n)) := by
  have hlast := getLast?_starts (text.take n)
  rw [List.getLast?_eq_getElem?, List.length_cons, Nat.add_sub_cancel, length_startsBehind] at hlast
  have hlt : (text.take n).count Bytes.lf < (0 :: startsBehind 0 (text.take n)).length := by
    rw [List.length_cons, length_startsBehind]
    exact Nat.lt_succ_self _
  rw [lineOf_eq, start?, starts_ofBytes text n, List.getElem?_toArray,
    List.getElem?_append_left hlt, hlast]

end LineIndex

/-! ## Locations -/

namespace Location

/-- Rows from top to bottom, and columns from left to right. -/
def IsBefore (a b : Location) : Prop :=
  a.line < b.line ∨ a.line = b.line ∧ a.column < b.column

end Location

namespace Source

/-- **What the index says about an offset**, which may lie behind the end. -/
theorem location_eq (s : Source) (n : Nat) :
    s.location n =
      { line := ((s.content.take n).count Bytes.lf).toUInt32
        column := (n - LineIndex.lastStart (s.content.take n)).toUInt32
        offset := n.toUInt32 } := by
  rw [location, s.lines_eq, LineIndex.start?_lineOf, LineIndex.lineOf_eq]
  rfl

/-- **The index leads to where the cursor is.** -/
theorem location_eq_after (s : Source) {n : Nat} (h : n ≤ s.content.length) :
    s.location n = (({} : Scan.Position).after (s.content.take n)).location := by
  have hlen : (s.content.take n).length = n := by
    rw [List.length_take]
    omega
  have hrow : ((s.content.take n).rtakeWhile (· ≠ Bytes.lf)).length ≤ n := by
    have hsuffix := (List.rtakeWhile_suffix (fun b => b ≠ Bytes.lf) (s.content.take n)).length_le
    omega
  have hcolumn : n - LineIndex.lastStart (s.content.take n) =
      ((s.content.take n).rtakeWhile (· ≠ Bytes.lf)).length := by
    rw [LineIndex.lastStart, hlen]
    omega
  rw [location_eq, hcolumn, Scan.Position.location, Scan.Position.after_line,
    Scan.Position.after_start_column, Scan.Position.after_offset, hlen, Nat.zero_add, Nat.zero_add]

end Source

namespace Scan

namespace Position

/-- Rows from top to bottom, and columns from left to right. -/
def IsBefore (p q : Position) : Prop := p.line < q.line ∨ p.line = q.line ∧ p.column < q.column

/-- **Reading moves the cursor forward.** -/
theorem isBefore_after (p : Position) {text : Bytes} (hne : text ≠ []) :
    p.IsBefore (p.after text) := by
  by_cases hlf : Bytes.lf ∈ text
  · left
    have hcount := List.count_pos_iff.2 hlf
    rw [after_line]
    omega
  · right
    have hlen := List.length_pos_iff.2 hne
    rw [after_eq_right p hlf]
    exact ⟨rfl, Nat.lt_add_of_pos_right hlen⟩

end Position

/-! ## What is found, and where -/

/-- An item starts where the index of the source says. -/
theorem location_of_mem_items (s : Source) {i : Item}
    (h : i ∈ ({} : Machine).items s.content) : i.start.location = s.location i.start.offset := by
  obtain ⟨before, behind, htext, hstart⟩ := Machine.start_of_mem_items h
  have hoffset : i.start.offset = before.length := by
    rw [hstart, Position.after_offset, Nat.zero_add]
  have hle : before.length ≤ s.content.length := by
    rw [htext, List.length_append]
    omega
  rw [hoffset, Source.location_eq_after s hle, htext, List.take_left, hstart]

/-- A problem is where its item starts. -/
theorem Item.location_of_problem? {i : Item} {e : Problem} (h : i.problem? = some e) :
    e.location = i.start.location := by
  obtain ⟨start, length, finding⟩ := i
  cases finding with
  | token kind text => exact absurd h (by simp [problem?])
  | fault f =>
    obtain rfl := Option.some_inj.1 h
    rfl

/-- Items are found row by row. -/
theorem items_pairwise_isBefore (text : Bytes) :
    (({} : Machine).items text).Pairwise fun i j => i.start.IsBefore j.start := by
  have htiles := Machine.items_tiles {} text text rfl
  refine (List.pairwise_map.1 htiles.ordered).imp_of_mem ?_
  intro i j hi hj hij
  obtain ⟨a, a', ha, hia⟩ := Machine.start_of_mem_items hi
  obtain ⟨b, b', hb, hjb⟩ := Machine.start_of_mem_items hj
  have hlt : a.length < b.length := by
    have hpos := (htiles.bounds i.span (List.mem_map_of_mem hi)).2.1
    simp only [Item.span, hia, hjb, Position.after_offset, Nat.zero_add] at hij hpos
    omega
  -- the text in front of `j` is that in front of `i` and something more
  obtain ⟨between, rfl⟩ : a <+: b :=
    List.prefix_of_prefix_length_le ⟨a', ha.symm⟩ ⟨b', hb.symm⟩ hlt.le
  rw [hia, hjb, Position.after_append]
  refine Position.isBefore_after _ ?_
  rintro rfl
  simp at hlt

/-- The order of positions is that of the locations in tokens. -/
theorem isBefore_location {t u : Token} (h : t.place.1.IsBefore u.place.1) :
    t.location.IsBefore u.location := by
  rcases h with hline | ⟨hline, hcolumn⟩
  · exact Or.inl (UInt32.lt_iff_toNat_lt.2 hline)
  · exact Or.inr ⟨UInt32.toNat_inj.1 hline, UInt32.lt_iff_toNat_lt.2 hcolumn⟩

/-- **Tokens and problems are where the index of the source says**, and tokens stand in the order of
rows and columns. -/
theorem scan_located (s : Source) (hsize : s.content.length ≤ Source.maxSize) :
    (∀ t ∈ (scan s.content).tokens, t.location = s.location t.offset.toNat) ∧
      (∀ e ∈ (scan s.content).problems, e.location = s.location e.location.offset.toNat) ∧
      (scan s.content).tokens.Pairwise fun t u => t.location.IsBefore u.location := by
  have hplaces := scan_places hsize
  refine ⟨?_, ?_, ?_⟩
  · intro t ht
    obtain ⟨i, hi, hit⟩ := List.mem_map.1 (hplaces ▸ List.mem_map_of_mem ht)
    have hoffset : t.offset.toNat = i.start.offset := congrArg (·.1.offset) hit.symm
    rw [Token.location_eq_of_place hit.symm, hoffset, location_of_mem_items s hi]
  · intro e he
    rw [scan_problems] at he
    obtain ⟨i, hi, hie⟩ := List.mem_filterMap.1 he
    have hspan := (Machine.items_tiles {} s.content s.content rfl).bounds i.span
      (List.mem_map_of_mem hi)
    have hoffset : i.start.location.offset.toNat = i.start.offset := by
      refine toNat_toUInt32_of_le ?_
      simp only [Item.span] at hspan
      omega
    rw [Item.location_of_problem? hie, hoffset, location_of_mem_items s hi]
  · have hitems := items_pairwise_isBefore s.content
    have hpairs : (({} : Machine).items s.content).map Item.place |>.Pairwise
        fun p q => p.1.IsBefore q.1 := List.pairwise_map.2 hitems
    rw [← hplaces] at hpairs
    exact (List.pairwise_map.1 hpairs).imp isBefore_location

/-- A string over two lines, a number behind it, and the letter that is malformed there. -/
theorem scan_located_two_lines :
    (ascii "\"a\nb\" 1e").length ≤ Source.maxSize ∧
      ⟨1, 3, .literal .decimal, some (ascii "1"), 6, 1⟩ ∈ (scan (ascii "\"a\nb\" 1e")).tokens ∧
      ⟨Fault.noExponentSign.message, ⟨1, 4, 7⟩, 1⟩ ∈ (scan (ascii "\"a\nb\" 1e")).problems ∧
      (Source.ofBytes [] (ascii "\"a\nb\" 1e")).location 6 = ⟨1, 3, 6⟩ ∧
      (Source.ofBytes [] (ascii "\"a\nb\" 1e")).location 7 = ⟨1, 4, 7⟩ := by
  have hsize : (ascii "\"a\nb\" 1e").length ≤ Source.maxSize := by decide
  have ht : ⟨1, 3, .literal .decimal, some (ascii "1"), 6, 1⟩ ∈
      (scan (ascii "\"a\nb\" 1e")).tokens := by decide
  have he : ⟨Fault.noExponentSign.message, ⟨1, 4, 7⟩, 1⟩ ∈
      (scan (ascii "\"a\nb\" 1e")).problems := by decide +kernel
  have h := scan_located (Source.ofBytes [] (ascii "\"a\nb\" 1e")) hsize
  exact ⟨hsize, ht, he, (h.1 _ ht).symm, (h.2.1 _ he).symm⟩

end Scan
end RustScan
