import RustScan.Proofs.Fidelity

/-!
# Words, and the word `union`

A word runs as far as there are bytes for it, whatever it turns out to be (`Machine.items_plain`,
`Machine.items_idle_plain`).  So a lexeme that reads `union` is an identifier when it is found, and
`Machine.finding_of_slice_union` says so of every item.

What becomes of it is decided by the next token alone.  `scan_union` is the main statement: the
keyword `union` stands just where the text reads `union` in front of a word, and no other token is
changed once it has been added.
-/

set_option autoImplicit false

namespace RustScan

theorem Kind.isWord_iff {k : Kind} :
    k.isWord = true ↔ k = ident ∨ k = rawIdent ∨ k.isKeyword = true := by
  cases k <;> simp [isWord, isKeyword]

namespace Scan

/-! ## Reading a word -/

/-- A lexeme with given bytes. -/
def Lexeme.ofText (p : Position) (text : Bytes) : Lexeme := ⟨p, text.toArray⟩

namespace Lexeme

@[simp] theorem ofText_text (p : Position) (text : Bytes) : (ofText p text).text = text := rfl

@[simp] theorem ofText_push (p : Position) (text : Bytes) (c : UInt8) :
    (ofText p text).push c = ofText p (text ++ [c]) := by
  simp [ofText, push]

end Lexeme

theorem isWordByte_ne_lf {c : UInt8} (h : isWordByte c = true) : c ≠ Bytes.lf :=
  ne_lf_of_class (by decide) h

namespace Machine

/-- The reaction of a word to a byte. -/
theorem react_plain (p : Position) (lx : Lexeme) (c : UInt8) :
    State.react (.within (.word .plain) lx) p c =
      if isWordByte c then .extend lx c (.word .plain) else .cut lx.word := rfl

/-- **A word takes all bytes it can.** -/
theorem items_plain {text : Bytes} (hne : text ≠ []) (hword : ∀ b ∈ text, isWordByte b = true)
    (p : Position) (rest : Bytes) :
    items ⟨p.after text, .within (.word .plain) (.ofText p text)⟩ rest =
      (Lexeme.ofText p (text ++ rest.takeWhile isWordByte)).word ::
        items ⟨p.after (text ++ rest.takeWhile isWordByte), .idle⟩ (rest.dropWhile isWordByte) := by
  induction rest generalizing text with
  | nil =>
    have hcolumn : (p.after text).column ≠ 0 :=
      Position.after_column_ne_zero hne fun hmem => isWordByte_ne_lf (hword _ hmem) rfl
    have hreact := react_plain (p.after text) (.ofText p text) Bytes.lf
    rw [if_neg (by decide)] at hreact
    have hclip : (Lexeme.ofText p text).word.clip (p.offset + text.length) =
        (Lexeme.ofText p text).word := (Lexeme.ofText p text).word_covers.clip_eq_self
    rw [items_nil_of_unused hcolumn (by rw [hreact]; rfl), hreact]
    simp [Reaction.cut, items_idle_nil, hclip]
  | cons c rest ih =>
    have hreact := react_plain (p.after text) (.ofText p text) c
    by_cases hc : isWordByte c = true
    · rw [if_pos hc] at hreact
      rw [items_of_used (by rw [hreact]; rfl), hreact]
      have hlonger : ∀ b ∈ text ++ [c], isWordByte b = true := by
        intro b hb
        rcases List.mem_append.1 hb with hb | hb
        · exact hword b hb
        · rw [List.mem_singleton.1 hb]
          exact hc
      simpa [Reaction.extend, hc] using ih (by simp) hlonger
    · rw [if_neg hc] at hreact
      rw [items_of_unused (by rw [hreact]; rfl), hreact]
      simp [Reaction.cut, hc]

/-- The word that a letter begins. -/
theorem items_idle_plain {c : UInt8} (h : Opening.ofByte c = .lexeme (.word .plain))
    (hc : isWordByte c = true) (p : Position) (rest : Bytes) :
    items ⟨p, .idle⟩ (c :: rest) =
      (Lexeme.ofText p (c :: rest.takeWhile isWordByte)).word ::
        items ⟨p.after (c :: rest.takeWhile isWordByte), .idle⟩ (rest.dropWhile isWordByte) := by
  have hreact : State.idle.react p c = ⟨[], .within (.word .plain) (.ofText p [c]), true⟩ := by
    rw [State.react, reactIdle, h]
    rfl
  rw [items_of_used (by rw [hreact]), hreact]
  exact items_plain (List.cons_ne_nil c []) (by simpa using hc) p rest

/-! ## The word `union` -/

/-- **What reads `union` is found as an identifier.** -/
theorem finding_of_slice_union {text : Bytes} {n : Nat} {i : Item}
    (hi : (({} : Machine).items text)[n]? = some i) (hs : i.slice text = ascii "union") :
    i.finding = .token .ident (some (ascii "union")) := by
  cases items_origin {} text n i hi with
  | lexeme before front rest text_eq start length _ again =>
    have hfront : front = ascii "union" := by rw [← hs, text_eq, Item.slice_eq start length]
    subst hfront
    have hfirst : (items ⟨i.start, .idle⟩ (ascii "union" ++ rest)).head? = some i := by
      rw [← again, List.head?_drop, hi]
    have hu : ascii "union" = 'u'.toUInt8 :: ascii "nion" := by decide
    have hletters : (ascii "nion").all isWordByte = true := by decide
    have hrun : (ascii "nion" ++ rest).takeWhile isWordByte =
        ascii "nion" ++ rest.takeWhile isWordByte :=
      List.takeWhile_append_of_pos (List.all_eq_true.1 hletters)
    rw [hu, List.cons_append, items_idle_plain (by decide) (by decide), List.head?_cons,
      Option.some_inj, hrun, ← List.cons_append, ← hu] at hfirst
    -- the item has just five bytes, so no byte of a word follows
    have hstop : rest.takeWhile isWordByte = [] := by
      have hlength := (Lexeme.word_covers _).length.symm.trans (congrArg Item.length hfirst)
      rw [length, Lexeme.ofText_text, List.length_append] at hlength
      exact List.eq_nil_of_length_eq_zero (by omega)
    rw [← hfirst, hstop, List.append_nil, Lexeme.word, Lexeme.ofText_text,
      show Keyword.ofWord? (ascii "union") = none by decide]
    rfl
  | exponent before rest e text_eq item_eq =>
    have hlength : (i.slice text).length ≤ 1 := by
      rw [Item.slice, item_eq]
      exact List.length_take_le _ _
    rw [hs] at hlength
    exact absurd hlength (by decide)

end Machine

/-- Behind token `n` stands an identifier, raw or not, or a keyword. -/
def BeforeWord (tokens : List Token) (n : Nat) : Prop :=
  ∃ u, tokens[n + 1]? = some u ∧
    (u.kind = .ident ∨ u.kind = .rawIdent ∨ u.kind.isKeyword = true)

theorem beforeWord_iff {tokens : List Token} {n : Nat} :
    BeforeWord tokens n ↔ hasWordAt tokens (n + 1) = true := by
  rw [BeforeWord, hasWordAt]
  cases tokens[n + 1]? with
  | none => simp
  | some u => simp [Kind.isWord_iff]

/-- Only `union` is spelled like the keyword. -/
theorem eq_union_of_tells {t : Token} {bytes : Bytes} (h : t.Tells bytes)
    (hkind : t.kind = .keyword .union_) : bytes = ascii "union" := by
  rw [eq_spelling_of_tells h (by rw [hkind]; decide), hkind]
  rfl

theorem token_of_finding_union {i : Item} (h : i.finding = .token .ident (some (ascii "union"))) :
    i.token.kind = .ident ∧ i.token.text = some (ascii "union") := by
  rw [Item.token, h]
  exact ⟨rfl, rfl⟩

/-- A token that reads `union` is the keyword just in front of a word, and else the identifier. -/
theorem scan_union_of_slice {text : Bytes} {n : Nat} {t : Token} {i : Item}
    (ht : (scan text).tokens[n]? = some t) (hi : (({} : Machine).items text)[n]? = some i)
    (hs : i.slice text = ascii "union") :
    (BeforeWord (scan text).tokens n → t.kind = .keyword .union_) ∧
      (¬ BeforeWord (scan text).tokens n → t.kind = .ident ∧ t.text = some (ascii "union")) := by
  have hunion := token_of_finding_union (Machine.finding_of_slice_union hi hs)
  rw [scan_tokens_getElem?, hi, Option.map_some, Option.some_inj] at ht
  rw [beforeWord_iff]
  constructor
  · intro hword
    rw [if_pos hword, promote, if_pos (by simp [isUnion, hunion])] at ht
    rw [← ht]
  · intro hword
    rw [if_neg hword] at ht
    exact ht ▸ hunion

/-- The tokens of a scanner that has kept some of the items of a text. -/
theorem foldl_add_tokens (items : List Item) :
    (items.foldl Scanner.add {}).tokens.toList = reclassify (items.map Item.token) := by
  have h := Scanner.found_tokens {} {} items
  rw [Scanner.found] at h
  rw [h, toList_foldl_addToken]
  exact nil_join _

/-- **The word `union` is a keyword just in front of a word.**  Elsewhere it is an identifier with
its text.  The bytes that a token covers are those of the item in its place; up to the size that
fits into 32 bits the token itself says which they are.  When the scanner has kept `k` items, its
tokens are those of the whole text already, but for a `union` at the end, which may still become a
keyword. -/
theorem scan_union (text : Bytes) :
    (∀ n t, (scan text).tokens[n]? = some t →
      ∃ i, (({} : Machine).items text)[n]? = some i ∧
        (text.length ≤ Source.maxSize → t.slice text = i.slice text) ∧
        (t.kind = .keyword .union_ ↔
          i.slice text = ascii "union" ∧ BeforeWord (scan text).tokens n) ∧
        (i.slice text = ascii "union" → ¬ BeforeWord (scan text).tokens n →
          t.kind = .ident ∧ t.text = some (ascii "union"))) ∧
      ∀ k j u, (((({} : Machine).items text).take k).foldl Scanner.add {}).tokens[j]? = some u →
        (scan text).tokens[j]? = some u ∨
          isUnion u = true ∧ j + 1 = k ∧ (scan text).tokens[j]? = some (promote u) := by
  constructor
  · intro n t ht
    obtain ⟨i, hi, -⟩ := scan_getElem? ht
    refine ⟨i, hi, fun hsize => scan_slice hsize ht hi, ⟨fun hkind => ?_, ?_⟩, ?_⟩
    · have hs := eq_union_of_tells (scan_tells ht hi) hkind
      refine ⟨hs, ?_⟩
      by_contra hword
      rw [((scan_union_of_slice ht hi hs).2 hword).1] at hkind
      exact absurd hkind (by decide)
    · rintro ⟨hs, hword⟩
      exact (scan_union_of_slice ht hi hs).1 hword
    · intro hs hword
      exact (scan_union_of_slice ht hi hs).2 hword
  · intro k j u hu
    rw [← Array.getElem?_toList, foldl_add_tokens, List.map_take] at hu
    rw [scan_tokens]
    exact getElem?_reclassify_of_take hu

/-- A chain of the word in front of a raw identifier, and the word at the end.  The first one is an
identifier as long as nothing else has been kept. -/
theorem scan_union_chain :
    (scan (ascii "union union r#x union")).tokens[0]? =
        some (promote ⟨0, 0, .ident, some (ascii "union"), 0, 5⟩) ∧
      BeforeWord (scan (ascii "union union r#x union")).tokens 1 ∧
      ¬ BeforeWord (scan (ascii "union union r#x union")).tokens 3 := by
  obtain ⟨hrule, hkept⟩ := scan_union (ascii "union union r#x union")
  refine ⟨?_, ?_, fun hword => ?_⟩
  · have hfirst := hkept 1 0 ⟨0, 0, .ident, some (ascii "union"), 0, 5⟩ (by decide)
    rcases hfirst with hsame | ⟨-, -, hchanged⟩
    · exact absurd hsame (by decide)
    · exact hchanged
  · obtain ⟨i, -, -, hkeyword, -⟩ := hrule 1 ⟨0, 6, .keyword .union_, none, 6, 5⟩ (by decide)
    exact (hkeyword.1 rfl).2
  · obtain ⟨i, -, hslice, hkeyword, -⟩ :=
      hrule 3 ⟨0, 16, .ident, some (ascii "union"), 16, 5⟩ (by decide)
    have hs : i.slice (ascii "union union r#x union") = ascii "union" :=
      (hslice (by decide)).symm.trans (by decide)
    exact absurd (hkeyword.2 ⟨hs, hword⟩) (by decide)

end Scan
end RustScan
