import RustScan.Proofs.Translation

/-!
# Cutting a text

Scanning a text and scanning its parts give the same tokens, if the text is cut in the right places.

* `scan_drop` — **in front of a token.**  What is scanned from there on are just this token and
  those behind it, whatever stands in front, malformed lexemes included.  The letter of an exponent
  without a sign is the one token that this does not hold of: where it begins a text it is a word.
* `scan_append` — **between lexemes.**  Where a scanner is idle, the rest of the text can be scanned
  on its own.  The tokens of the two parts are put together with `join`, since a `union` at the end
  of the first part is a keyword if the second begins with a word; nothing else crosses the cut.

Both are about items first (`Machine.items_split` and `Machine.items_append_of_idle`), and what is
left to do is to move the second part to where it stands, and to turn its items into tokens.
-/

set_option autoImplicit false

namespace RustScan

/-- Where a text ends: behind how many line feeds, how many bytes behind the last of them, and
behind how many bytes. -/
def Bytes.extent (text : Bytes) : Location :=
  { line := (text.count Bytes.lf).toUInt32
    column := (text.rtakeWhile (· ≠ Bytes.lf)).length.toUInt32
    offset := text.length.toUInt32 }

namespace Scan

theorem Position.location_after_start (text : Bytes) :
    (({} : Position).after text).location = Bytes.extent text := by
  rw [location, after_line, after_start_column, after_offset, Nat.zero_add, Nat.zero_add]
  rfl

/-! ## In front of a token -/

/-- The letter of an exponent without a sign says so. -/
theorem token_of_noExponentSign {i : Item} (h : i.finding = .fault .noExponentSign) :
    i.token.kind = .error ∧
      i.token.text = some (ascii "expected + or - at start of exponent") := by
  rw [Item.token, h]
  exact ⟨rfl, rfl⟩

/-- **Scanning can begin at any token.**  The tokens found in the rest of the text are this token
and those behind it, as seen from where it is. -/
theorem scan_drop (text : Bytes) (hsize : text.length ≤ Source.maxSize) (n : Nat) (t : Token)
    (ht : (scan text).tokens[n]? = some t)
    (hsign : ¬ (t.kind = .error ∧ t.text = some (ascii "expected + or - at start of exponent"))) :
    (scan (text.drop t.offset.toNat)).tokens =
      ((scan text).tokens.drop n).map (Token.relativeTo t.location) := by
  obtain ⟨i, hi, hti⟩ := scan_getElem? ht
  have hplace : t.place = i.place := by
    rw [← Machine.token_place_of_mem_items hsize (List.mem_of_getElem? hi)]
    rcases hti with rfl | rfl
    · rfl
    · exact promote_place i.token
  have hne : i.finding ≠ .fault .noExponentSign := by
    intro hfault
    have htoken := token_of_noExponentSign hfault
    have hself : promote i.token = i.token := promote_eq_self (by simp [isUnion, htoken.1])
    rw [hself, or_self] at hti
    exact hsign (hti ▸ htoken)
  obtain ⟨before, behind, htext, hstart, hdrop⟩ := Machine.items_split {} text n i hi
  have hbehind : text.drop t.offset.toNat = behind := by
    have hoffset : t.offset.toNat = i.start.offset := congrArg (fun p => p.1.offset) hplace
    rw [hoffset, hstart, Position.after_offset, Nat.zero_add, htext, List.drop_left]
  have hlen : behind.length ≤ Source.maxSize := by
    rw [htext, List.length_append] at hsize
    omega
  have hrest : (scan text).tokens.drop n =
      (scan behind).tokens.map (Token.shift t.location) := by
    rw [scan_tokens, reclassify_drop, ← List.map_drop, hdrop hne, tokens_shift _ hlen,
      Token.location_eq_of_place hplace]
  have hback : Token.relativeTo t.location ∘ Token.shift t.location = id :=
    funext (Token.relativeTo_shift t.location)
  rw [hbehind, hrest, List.map_map, hback, List.map_id]

/-- The dots of a range are what they are without the number in front of them. -/
theorem scan_drop_range :
    (scan (ascii "1..2")).tokens[1]? = some ⟨0, 1, .symbol .dotDot, none, 1, 2⟩ ∧
      (scan ((ascii "1..2").drop 1)).tokens =
        ((scan (ascii "1..2")).tokens.drop 1).map (Token.relativeTo ⟨0, 1, 1⟩) := by
  have ht : (scan (ascii "1..2")).tokens[1]? = some ⟨0, 1, .symbol .dotDot, none, 1, 2⟩ := by
    decide
  have h := scan_drop (ascii "1..2") (by decide) 1 _ ht (by decide)
  exact ⟨ht, h⟩

/-- The letter of an exponent is a name where no number stands in front of it. -/
example : (scan (ascii "1e")).tokens.map Token.kind = [.literal .decimal, .error] ∧
    (scan (ascii "e")).tokens.map Token.kind = [.ident] := by
  decide

/-! ## Between lexemes -/

/-- What is found in front of a place where the machine is idle is not changed by what follows, and
neither is what follows changed by it. -/
theorem Machine.items_append_of_idle {a : Bytes} (h : (({} : Machine).run a).2.state = .idle)
    (b : Bytes) :
    ({} : Machine).items (a ++ b) =
      ({} : Machine).items a ++ items ⟨({} : Position).after a, .idle⟩ b := by
  have hmachine : (({} : Machine).run a).2 = ⟨({} : Position).after a, .idle⟩ := by
    have hcursor := run_cursor {} a
    generalize (({} : Machine).run a).2 = m at h hcursor
    obtain ⟨cursor, state⟩ := m
    rw [← hcursor, ← h]
  have hfront := items_append {} a []
  rw [List.append_nil, hmachine, items_idle_nil, List.append_nil] at hfront
  rw [items_append, hmachine, hfront]

/-- **A text can be scanned in two parts.**  If a scanner that has read the first part is between
lexemes, the two parts can be scanned apart from each other. -/
theorem scan_append (a b : Bytes) (hsize : a.length + b.length ≤ Source.maxSize)
    (hidle : (Scanner.run {} a).machine.state = .idle) :
    (scan (a ++ b)).tokens =
        join (scan a).tokens ((scan b).tokens.map (Token.shift (Bytes.extent a))) ∧
      (scan (a ++ b)).problems =
        (scan a).problems ++ (scan b).problems.map (Problem.shift (Bytes.extent a)) := by
  have hmachine : (({} : Machine).run a).2.state = .idle := by
    rwa [Scanner.run_eq, Scanner.found_machine] at hidle
  have hb : b.length ≤ Source.maxSize := by omega
  have hitems := Machine.items_append_of_idle hmachine b
  constructor
  · rw [scan_tokens, hitems, List.map_append, reclassify_append, ← scan_tokens, tokens_shift _ hb,
      Position.location_after_start]
  · rw [scan_problems, hitems, List.filterMap_append, ← scan_problems, problems_shift _ hb,
      Position.location_after_start]

/-- A `union` at the end of the first part, and a problem in the second. -/
theorem scan_append_union :
    (Scanner.run {} (ascii "\nunion ")).machine.state = .idle ∧
      (scan (ascii "\nunion x 1e")).tokens =
        join (scan (ascii "\nunion ")).tokens
          ((scan (ascii "x 1e")).tokens.map (Token.shift ⟨1, 6, 7⟩)) ∧
      (scan (ascii "\nunion x 1e")).problems =
        (scan (ascii "\nunion ")).problems ++
          (scan (ascii "x 1e")).problems.map (Problem.shift ⟨1, 6, 7⟩) :=
  ⟨by decide, scan_append (ascii "\nunion ") (ascii "x 1e") (by decide) (by decide)⟩

end Scan
end RustScan
