import RustScan.Proofs.Coverage

/-!
# Tokens say what they cover

A token either carries the bytes it covers as its text, or its kind has one spelling and the bytes
are this spelling.  Nothing is normalised on the way, and the line feed that is offered at the end
of an unfinished line gets into no text.

* `Machine.tells_of_mem_items` — an item tells the truth about its part of the text
  (`Finding.Tells`).  For single lexemes this is part of `Mode.Reacts`, and `Machine.items_origin`
  leads from every item back to its lexeme.
* `Token.Tells` — the same of a token.  A malformed lexeme has a message instead of its text.  The
  word `union` loses its text when it is promoted, but its new kind is spelled alike
  (`promote_tells`).
* `scan_text` — the main statement, about the slice of the text that a token covers.
-/

set_option autoImplicit false

namespace RustScan

/-- The token tells what the bytes are, or what is wrong with them. -/
def Token.Tells (t : Token) (bytes : Bytes) : Prop :=
  Scan.Finding.Tells bytes (.token t.kind t.text) ∨
    ∃ f : Scan.Fault, t.kind = .error ∧ t.text = some f.message

namespace Scan

/-! ## Items -/

/-- The part of a text that an item covers. -/
def Item.slice (i : Item) (text : Bytes) : Bytes := (text.drop i.start.offset).take i.length

theorem Item.slice_eq {i : Item} {before front rest : Bytes}
    (start : i.start = ({} : Position).after before) (length : i.length = front.length) :
    i.slice (before ++ (front ++ rest)) = front := by
  rw [slice, start, length, Position.after_offset, Nat.zero_add, List.drop_left, List.take_left]

/-- **What is found in a text is what the text reads there.** -/
theorem Machine.tells_of_mem_items {text : Bytes} {i : Item} (h : i ∈ ({} : Machine).items text) :
    i.finding.Tells (i.slice text) := by
  obtain ⟨n, hn⟩ := List.mem_iff_getElem?.1 h
  cases items_origin {} text n i hn with
  | lexeme before front rest text_eq start length tells _ =>
    rwa [text_eq, Item.slice_eq start length]
  | exponent before rest e _ item_eq =>
    rw [item_eq]
    exact .fault _

/-! ## Tokens -/

theorem Item.token_tells {i : Item} {bytes : Bytes} (h : i.finding.Tells bytes) :
    i.token.Tells bytes := by
  obtain ⟨start, length, finding⟩ := i
  cases finding with
  | token kind text => exact Or.inl h
  | fault f => exact Or.inr ⟨f, rfl, rfl⟩

/-- The keyword `union` is spelled like the identifier that it is made of. -/
theorem promote_tells {t : Token} {bytes : Bytes} (h : t.Tells bytes) :
    (promote t).Tells bytes := by
  rw [promote]
  split
  · rename_i hunion
    simp only [isUnion, Bool.and_eq_true, decide_eq_true_eq] at hunion
    obtain ⟨hkind, htext⟩ := hunion
    rcases h with htells | ⟨f, herror, -⟩
    · rw [hkind, htext] at htells
      cases htells
      exact Or.inl (.spelled rfl)
    · rw [hkind] at herror
      exact absurd herror (by decide)
  · exact h

/-- A token tells the truth about the item in its place. -/
theorem scan_tells {text : Bytes} {n : Nat} {t : Token} {i : Item}
    (ht : (scan text).tokens[n]? = some t) (hi : (({} : Machine).items text)[n]? = some i) :
    t.Tells (i.slice text) := by
  have htells := Item.token_tells (Machine.tells_of_mem_items (List.mem_of_getElem? hi))
  obtain ⟨j, hj, htj⟩ := scan_getElem? ht
  obtain rfl : i = j := Option.some_inj.1 (hi.symm.trans hj)
  rcases htj with rfl | rfl
  · exact htells
  · exact promote_tells htells

/-- In a text that is not too large, a token stands where its item stands. -/
theorem scan_place {text : Bytes} (hsize : text.length ≤ Source.maxSize) {n : Nat} {t : Token}
    {i : Item} (ht : (scan text).tokens[n]? = some t)
    (hi : (({} : Machine).items text)[n]? = some i) : t.place = i.place := by
  have h := congrArg (·[n]?) (scan_places hsize)
  simpa [ht, hi] using h

/-- In a text that is not too large, a token covers what its item covers. -/
theorem scan_slice {text : Bytes} (hsize : text.length ≤ Source.maxSize) {n : Nat} {t : Token}
    {i : Item} (ht : (scan text).tokens[n]? = some t)
    (hi : (({} : Machine).items text)[n]? = some i) : t.slice text = i.slice text := by
  have hplace := scan_place hsize ht hi
  have hoffset : t.offset.toNat = i.start.offset := congrArg (·.1.offset) hplace
  have hlength : t.length.toNat = i.length := congrArg (·.2) hplace
  rw [Token.slice, Item.slice, hoffset, hlength]

/-! ## Texts and spellings -/

theorem Quote.lf_not_mem_name (q : Quote) : Bytes.lf ∉ ascii q.name := by
  cases q <;> decide

/-- Messages are of one line. -/
theorem Fault.lf_not_mem_message (f : Fault) : Bytes.lf ∉ f.message := by
  cases f with
  | nonAscii q => exact List.not_mem_append (by decide +kernel) q.lf_not_mem_name
  | emptyQuote q => exact List.not_mem_append (by decide +kernel) q.lf_not_mem_name
  | tooManyCharacters q => exact List.not_mem_append (by decide +kernel) q.lf_not_mem_name
  | noRadixDigit r =>
    refine List.not_mem_append ?_ (by decide +kernel)
    cases r <;> decide
  | openQuote q => exact List.not_mem_append (by decide +kernel) q.lf_not_mem_name
  | openRaw bytes => cases bytes <;> decide +kernel
  | _ => decide +kernel

theorem textOrSpelling_of_tells {t : Token} {bytes : Bytes} (h : t.Tells bytes)
    (hne : t.kind ≠ .error) :
    t.textOrSpelling = bytes ∧ (t.text = none ↔ t.kind.spelling ≠ []) := by
  rcases h with htells | ⟨f, herror, -⟩
  · rw [Token.textOrSpelling, Ne, Kind.spelling_eq_nil_iff]
    generalize t.kind = kind, t.text = text at htells
    cases htells with
    | spelled spelling => simp [Kind.spelling, spelling]
    | text free sound => simp [free]
  · exact absurd herror hne

/-- A kind that has a spelling covers nothing else. -/
theorem eq_spelling_of_tells {t : Token} {bytes : Bytes} (h : t.Tells bytes)
    (hspelling : t.kind.spelling ≠ []) : bytes = t.kind.spelling := by
  have hkind : t.kind ≠ .error := by
    intro herror
    rw [herror] at hspelling
    exact hspelling rfl
  obtain ⟨htext, hnone⟩ := textOrSpelling_of_tells h hkind
  rw [← htext, Token.textOrSpelling, hnone.2 hspelling, Option.getD_none]

/-- No text has a line feed that the bytes have not. -/
theorem count_lf_of_tells {t : Token} {bytes s : Bytes} (h : t.Tells bytes)
    (hs : t.text = some s) : s.count Bytes.lf ≤ bytes.count Bytes.lf := by
  rcases h with htells | ⟨f, -, htext⟩
  · rw [hs] at htells
    cases htells
    exact Nat.le_refl _
  · obtain rfl : s = f.message := Option.some_inj.1 (hs.symm.trans htext)
    rw [List.count_eq_zero_of_not_mem f.lf_not_mem_message]
    exact Nat.zero_le _

/-- **The text of a token is what the source reads there.**  It is left out just where the kind has
one spelling, and then the source reads this spelling.  No text, the message of a malformed lexeme
included, has a line feed beyond those of the source it covers. -/
theorem scan_text (text : Bytes) (hsize : text.length ≤ Source.maxSize) (t : Token)
    (ht : t ∈ (scan text).tokens) :
    (t.kind ≠ .error →
        t.textOrSpelling = t.slice text ∧ (t.text = none ↔ t.kind.spelling ≠ [])) ∧
      ∀ s, t.text = some s → s.count Bytes.lf ≤ (t.slice text).count Bytes.lf := by
  obtain ⟨n, hn⟩ := List.mem_iff_getElem?.1 ht
  obtain ⟨i, hi, -⟩ := scan_getElem? hn
  have htells := scan_tells hn hi
  rw [← scan_slice hsize hn hi] at htells
  exact ⟨textOrSpelling_of_tells htells, fun s hs => count_lf_of_tells htells hs⟩

/-- A comment that the input ends in, and a `union` whose text is dropped. -/
theorem scan_text_unclosed_line :
    (ascii "union x // y").length ≤ Source.maxSize ∧
      ⟨0, 8, .comment .plain, some (ascii "// y"), 8, 4⟩ ∈ (scan (ascii "union x // y")).tokens ∧
      ⟨0, 0, .keyword .union_, none, 0, 5⟩ ∈ (scan (ascii "union x // y")).tokens ∧
      (ascii "// y").count Bytes.lf ≤ ((ascii "union x // y").drop 8).count Bytes.lf ∧
      Kind.spelling (.keyword .union_) = (ascii "union x // y").take 5 := by
  have hsize : (ascii "union x // y").length ≤ Source.maxSize := by decide
  have hcomment : ⟨0, 8, .comment .plain, some (ascii "// y"), 8, 4⟩ ∈
      (scan (ascii "union x // y")).tokens := by decide
  have hunion : ⟨0, 0, .keyword .union_, none, 0, 5⟩ ∈ (scan (ascii "union x // y")).tokens := by
    decide
  refine ⟨hsize, hcomment, hunion, ?_, ?_⟩
  · exact (scan_text _ hsize _ hcomment).2 _ rfl
  · exact ((scan_text _ hsize _ hunion).1 (by decide)).1

end Scan
end RustScan
