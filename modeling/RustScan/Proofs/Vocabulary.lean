import RustScan.Proofs.Lifetimes
import RustScan.Proofs.Numbers

/-!
# Identifiers and keywords

A word runs as far as there are bytes for it, and is then looked up: it is the keyword that it
spells, or the underscore, or an identifier.  Only the short words `r`, `b` and `br` are none in
front of a quote or a hash, where they open a literal (`OpensLiteral`).

* `Machine.items_idle_word` — the word that a text begins with.  A scanner reads it in five modes,
  and unless a literal is opened, each reacts to the next byte like that of an ordinary word.
* `Mode.ends_react` — where words are found: a reaction that finds one has all its bytes, and the
  next byte could not go on with it.  `Machine.word_of_mem_items` follows this through a run, so
  that it holds of every word of a text.
* `item_of_slice` — conversely, what a text reads as a word is found as one.
* `scan_words` — the main statement.
-/

set_option autoImplicit false

namespace RustScan

theorem Keyword.ofWord?_spelling {k : Keyword} (hk : k ≠ .union_) :
    ofWord? (ascii k.spelling) = some k := by
  cases k <;> revert hk <;> decide

namespace Scan

/-! ## The word a text begins with -/

/-- The word opens a literal, together with the byte behind it. -/
def OpensLiteral (word : Bytes) (next : Option UInt8) : Prop :=
  word = ascii "r" ∧ (next = some '"'.toUInt8 ∨ next = some '#'.toUInt8) ∨
  word = ascii "b" ∧ (next = some '\''.toUInt8 ∨ next = some '"'.toUInt8) ∨
  word = ascii "br" ∧ (next = some '"'.toUInt8 ∨ next = some '#'.toUInt8)

instance (word : Bytes) (next : Option UInt8) : Decidable (OpensLiteral word next) :=
  inferInstanceAs (Decidable (_ ∧ (_ ∨ _) ∨ _ ∧ (_ ∨ _) ∨ _ ∧ (_ ∨ _)))

/-- What a word is found as. -/
def wordKind (word : Bytes) : Kind :=
  if word = ascii "_" then .symbol .underscore
  else match Keyword.ofWord? word with
    | some k => .keyword k
    | none => .ident

theorem Lexeme.word_ofText (p : Position) {word : Bytes} (h : word ≠ ascii "_") :
    (ofText p word).word = (ofText p word).token (wordKind word) := by
  rw [Lexeme.word, ofText_text, wordKind, if_neg h]
  rcases Keyword.ofWord? word with _ | k <;> rfl

theorem isWordByte_of_isWordStart {c : UInt8} (h : isWordStart c = true) : isWordByte c = true := by
  rw [isWordByte, h, Bool.true_or]

theorem isSpace_eq_false_of_isWordStart {c : UInt8} (h : isWordStart c = true) :
    isSpace c = false := by
  refine Bool.eq_false_iff.2 fun hspace => ?_
  have hmem := isSpace_iff.1 hspace
  simp only [Bytes.blanks, List.mem_cons, List.not_mem_nil, or_false] at hmem
  rcases hmem with rfl | rfl | rfl | rfl | rfl | rfl <;> exact absurd h (by decide)

/-- A word in front of a byte that it does not take. -/
theorem span_of_stop {word rest : Bytes} (hword : ∀ b ∈ word, isWordByte b = true)
    (hstop : rest.head?.any isWordByte = false) :
    (word ++ rest).takeWhile isWordByte = word ∧ (word ++ rest).dropWhile isWordByte = rest := by
  have hrest : rest.takeWhile isWordByte = [] ∧ rest.dropWhile isWordByte = rest := by
    obtain _ | ⟨c, rest⟩ := rest
    · exact ⟨rfl, rfl⟩
    · have hc : ¬ isWordByte c = true := Bool.eq_false_iff.1 hstop
      exact ⟨List.takeWhile_cons_of_neg hc, List.dropWhile_cons_of_neg hc⟩
  rw [List.takeWhile_append_of_pos hword, List.dropWhile_append_of_pos hword, hrest.1, hrest.2,
    List.append_nil]
  exact ⟨rfl, rfl⟩

/-- The byte behind a short word opens no literal. -/
theorem headD_ne_of_not_opensLiteral {word rest : Bytes} {c : UInt8}
    (h : ¬ OpensLiteral ((word ++ rest).takeWhile isWordByte)
      ((word ++ rest).dropWhile isWordByte).head?)
    (hword : ∀ b ∈ word, isWordByte b = true) (hc : isWordByte c = false) (hlf : c ≠ Bytes.lf)
    (hopens : OpensLiteral word (some c)) : rest.headD Bytes.lf ≠ c := by
  rw [Ne, Machine.headD_eq_iff hlf]
  intro hhead
  have hstop : rest.head?.any isWordByte = false := by rw [hhead, Option.any_some, hc]
  obtain ⟨htake, hdrop⟩ := span_of_stop hword hstop
  rw [htake, hdrop, hhead] at h
  exact h hopens

/-- What is found in a text that begins with a word. -/
def wordItems (p : Position) (text : Bytes) : List Item :=
  (Lexeme.ofText p (text.takeWhile isWordByte)).token (wordKind (text.takeWhile isWordByte)) ::
    Machine.items ⟨p.after (text.takeWhile isWordByte), .idle⟩ (text.dropWhile isWordByte)

namespace Machine

/-- **A mode that reacts to the next byte like an ordinary word reads one.** -/
theorem items_word {mode : WordMode} {word rest : Bytes} (hne : word ≠ [])
    (hword : ∀ b ∈ word, isWordByte b = true)
    (hlonger : (word ++ rest).takeWhile isWordByte ≠ ascii "_")
    (hreact : ∀ lx, mode.react lx (rest.headD Bytes.lf) =
      WordMode.reactPlain lx (rest.headD Bytes.lf)) (p : Position) :
    (inside p word (.word mode)).items rest = wordItems p (word ++ rest) := by
  have hcolumn : (p.after word).column ≠ 0 :=
    Position.after_column_ne_zero hne fun hmem => isWordByte_ne_lf (hword _ hmem) rfl
  have hplain : (Mode.word mode).react (.ofText p word) (rest.headD Bytes.lf) =
      (Mode.word .plain).react (.ofText p word) (rest.headD Bytes.lf) := hreact _
  rw [items_inside_congr hcolumn hplain, wordItems, ← Lexeme.word_ofText p hlonger,
    List.takeWhile_append_of_pos hword, List.dropWhile_append_of_pos hword]
  exact items_plain hne hword p rest

/-- Behind `r` or `br` only a quote or a hash opens a literal. -/
theorem items_raw {mode : WordMode} {bytes : Bool}
    (hmode : ∀ lx c, mode.react lx c = WordMode.reactRaw bytes lx c) {word rest : Bytes}
    (hne : word ≠ []) (hbytes : word.all isWordByte = true)
    (hlonger : (word ++ rest).takeWhile isWordByte ≠ ascii "_")
    (h : ¬ OpensLiteral ((word ++ rest).takeWhile isWordByte)
      ((word ++ rest).dropWhile isWordByte).head?)
    (hquote : OpensLiteral word (some '"'.toUInt8)) (hhash : OpensLiteral word (some '#'.toUInt8))
    (p : Position) : (inside p word (.word mode)).items rest = wordItems p (word ++ rest) := by
  have hword : ∀ b ∈ word, isWordByte b = true := List.all_eq_true.1 hbytes
  refine items_word hne hword hlonger (fun lx => ?_) p
  rw [hmode, WordMode.reactRaw,
    if_neg (headD_ne_of_not_opensLiteral h hword rfl (by decide) hquote),
    if_neg (headD_ne_of_not_opensLiteral h hword rfl (by decide) hhash)]

section Leads

variable {rest : Bytes} (p : Position)

theorem items_rawLead (hlonger : (ascii "r" ++ rest).takeWhile isWordByte ≠ ascii "_")
    (h : ¬ OpensLiteral ((ascii "r" ++ rest).takeWhile isWordByte)
      ((ascii "r" ++ rest).dropWhile isWordByte).head?) :
    items ⟨p, .idle⟩ (ascii "r" ++ rest) = wordItems p (ascii "r" ++ rest) := by
  refine (items_idle_lexeme rfl p rest).trans ?_
  exact items_raw (fun _ _ => rfl) (by decide) rfl hlonger h (by decide) (by decide) p

theorem items_byteLead (hlonger : (ascii "b" ++ rest).takeWhile isWordByte ≠ ascii "_")
    (h : ¬ OpensLiteral ((ascii "b" ++ rest).takeWhile isWordByte)
      ((ascii "b" ++ rest).dropWhile isWordByte).head?) :
    items ⟨p, .idle⟩ (ascii "b" ++ rest) = wordItems p (ascii "b" ++ rest) := by
  refine (items_idle_lexeme rfl p rest).trans ?_
  by_cases hraw : rest.head? = some 'r'.toUInt8
  · obtain ⟨more, rfl⟩ := List.head?_eq_some_iff.1 hraw
    have htext : ascii "b" ++ 'r'.toUInt8 :: more = ascii "br" ++ more := rfl
    rw [htext] at h hlonger ⊢
    rw [items_inside_extend rfl]
    exact items_raw (fun _ _ => rfl) (by decide) rfl hlonger h (by decide) (by decide) p
  · have hword : ∀ b ∈ ascii "b", isWordByte b = true := List.all_eq_true.1 rfl
    have hopens {c : UInt8} := @headD_ne_of_not_opensLiteral _ _ c h hword
    rw [← headD_eq_iff (by decide)] at hraw
    refine items_word (by decide) hword hlonger (fun lx => ?_) p
    rw [WordMode.react, if_neg (hopens rfl (by decide) (by decide)),
      if_neg (hopens rfl (by decide) (by decide)), if_neg hraw]

/-- A single underscore is a symbol. -/
theorem items_underscore (rest : Bytes) :
    items ⟨p, .idle⟩ (ascii "_" ++ rest) = wordItems p (ascii "_" ++ rest) := by
  have hword : ∀ b ∈ ascii "_", isWordByte b = true := List.all_eq_true.1 rfl
  have hnext := @apply_headD isWordByte (by decide) rest
  refine (items_idle_lexeme rfl p rest).trans ?_
  cases hstop : rest.head?.any isWordByte with
  | true =>
    rw [hstop] at hnext
    have hlonger : (ascii "_" ++ rest).takeWhile isWordByte ≠ ascii "_" := by
      obtain ⟨c, hc, hcword⟩ := (Option.any_eq_true _ _).1 hstop
      obtain ⟨more, rfl⟩ := List.head?_eq_some_iff.1 hc
      rw [List.takeWhile_append_of_pos hword, List.takeWhile_cons_of_pos hcword]
      simp
    refine items_word (by decide) hword hlonger (fun lx => ?_) p
    simp only [WordMode.react, WordMode.reactPlain, if_pos hnext]
  | false =>
    rw [hstop] at hnext
    obtain ⟨htake, hdrop⟩ := span_of_stop hword hstop
    rw [wordItems, htake, hdrop]
    exact items_inside_cut (after_concat_column_ne_zero p [] (by decide))
      (if_neg (Bool.eq_false_iff.1 hnext)) (Lexeme.symbol_covers rfl)

end Leads

/-- **The word that a text begins with is found as a whole**, wherever it stands, unless it opens a
literal. -/
theorem items_idle_word {text : Bytes} (hstart : text.head?.any isWordStart = true)
    (h : ¬ OpensLiteral (text.takeWhile isWordByte) (text.dropWhile isWordByte).head?)
    (p : Position) : items ⟨p, .idle⟩ text = wordItems p text := by
  obtain _ | ⟨c, rest⟩ := text
  · exact absurd hstart Bool.false_ne_true
  replace hstart : isWordStart c = true := hstart
  have hc := isWordByte_of_isWordStart hstart
  by_cases hunderscore : c = '_'.toUInt8
  · subst hunderscore
    exact items_underscore p rest
  have hlonger : (c :: rest).takeWhile isWordByte ≠ ascii "_" := by
    rw [List.takeWhile_cons_of_pos hc]
    exact fun heq => hunderscore (List.cons.inj heq).1
  by_cases hraw : c = 'r'.toUInt8
  · subst hraw
    exact items_rawLead p hlonger h
  by_cases hbyte : c = 'b'.toUInt8
  · subst hbyte
    exact items_byteLead p hlonger h
  have hdigit := isDigit_eq_false_of_isWordStart hstart
  have hzero : c ≠ '0'.toUInt8 := by
    rintro rfl
    exact absurd hdigit (by decide)
  have hopening : Opening.ofByte c = .lexeme (.word .plain) := by
    rw [Opening.ofByte, isSpace_eq_false_of_isWordStart hstart, hdigit, hstart, if_neg hunderscore,
      if_neg hraw, if_neg hbyte, if_neg hzero]
    rfl
  rw [wordItems, ← Lexeme.word_ofText p hlonger, items_idle_plain hopening hc,
    List.takeWhile_cons_of_pos hc, List.dropWhile_cons_of_pos hc]

end Machine

/-! ## Where words are found -/

theorem Reaction.not_isWord_of_mem {r : Reaction} (h : r.isOrdinary = true) {i : Item}
    (hi : i ∈ r.items) : ¬ i.token.kind.isWord = true := by
  have hordinary := List.all_eq_true.1 h i hi
  obtain ⟨start, length, finding⟩ := i
  cases finding with
  | token kind text =>
    show ¬ kind.isWord = true
    simpa [Finding.isOrdinary] using hordinary
  | fault f => exact Bool.false_ne_true

/-- A word with all its bytes, which the next byte does not belong to. -/
structure Lexeme.EndsAs (lx : Lexeme) (c : UInt8) (i : Item) : Prop where
  stop : isWordByte c = false
  item : i = lx.word ∨ i = lx.token .rawIdent

section Words

variable {lx : Lexeme} {c : UInt8} {i : Item}

theorem WordMode.ends_reactPlain (hi : i ∈ (reactPlain lx c).items) : lx.EndsAs c i := by
  rw [reactPlain] at hi
  split_ifs at hi with hc
  · exact absurd hi List.not_mem_nil
  · exact ⟨Bool.eq_false_iff.2 hc, Or.inl (List.mem_singleton.1 hi)⟩

theorem WordMode.ends_reactRaw {bytes : Bool} (hi : i ∈ (reactRaw bytes lx c).items) :
    lx.EndsAs c i := by
  rw [reactRaw] at hi
  split_ifs at hi
  · exact absurd hi List.not_mem_nil
  · exact absurd hi List.not_mem_nil
  · exact ends_reactPlain hi

theorem WordMode.ends_react {w : WordMode} (hi : i ∈ (w.react lx c).items)
    (hword : i.token.kind.isWord = true) : lx.EndsAs c i := by
  cases w with
  | plain => exact ends_reactPlain hi
  | underscore =>
    simp only [react] at hi
    split_ifs at hi
    · exact absurd hi List.not_mem_nil
    · obtain rfl := List.mem_singleton.1 hi
      exact absurd hword Bool.false_ne_true
  | rawLead => exact ends_reactRaw hi
  | byteLead =>
    simp only [react] at hi
    split_ifs at hi
    · exact absurd hi List.not_mem_nil
    · exact absurd hi List.not_mem_nil
    · exact absurd hi List.not_mem_nil
    · exact ends_reactPlain hi
  | rawByteLead => exact ends_reactRaw hi
  | rawIdent =>
    simp only [react] at hi
    split_ifs at hi with hc
    · exact absurd hi List.not_mem_nil
    · exact ⟨Bool.eq_false_iff.2 hc, Or.inr (List.mem_singleton.1 hi)⟩

/-- **A word is found where its bytes end.** -/
theorem Mode.ends_react {mode : Mode} (hi : i ∈ (mode.react lx c).items)
    (hword : i.token.kind.isWord = true) : lx.EndsAs c i := by
  by_cases hmode : ∃ w, mode = .word w
  · obtain ⟨w, rfl⟩ := hmode
    exact WordMode.ends_react hi hword
  · have hordinary := isOrdinary_react lx c (not_exists.1 hmode)
    exact absurd hword (Reaction.not_isWord_of_mem hordinary hi)

theorem Lexeme.EndsAs.covers (h : lx.EndsAs c i) : i.Covers lx := by
  obtain ⟨-, rfl | rfl⟩ := h
  · exact lx.word_covers
  · exact lx.token_covers rfl nofun

/-- An identifier is no keyword. -/
theorem Lexeme.EndsAs.ident (h : lx.EndsAs c i) (hkind : i.token.kind = .ident) :
    ∃ word, i.token.text = some word ∧ Keyword.ofWord? word = none := by
  obtain ⟨-, rfl | rfl⟩ := h
  · rw [Lexeme.word] at hkind ⊢
    cases hkeyword : Keyword.ofWord? lx.text with
    | none => exact ⟨lx.text, rfl, hkeyword⟩
    | some k =>
      rw [hkeyword] at hkind
      cases hkind
  · cases hkind

end Words

theorem not_isWord_of_mem_unfinished {s : State} {i : Item} (h : i ∈ s.unfinished) :
    ¬ i.token.kind.isWord = true := by
  obtain _ | ⟨mode, lx⟩ := s
  · exact absurd h List.not_mem_nil
  · obtain rfl := List.mem_singleton.1 h
    exact Bool.false_ne_true

/-! ## Words of a text -/

/-- A word that ends at an offset, and that is no keyword if it is an identifier. -/
structure Item.WordTo (limit : Nat) (i : Item) : Prop where
  end_eq : i.start.offset + i.length = limit
  ident : i.token.kind = .ident → ∃ word, i.token.text = some word ∧ Keyword.ofWord? word = none

/-- What a reaction finds as a word ends where the bytes end that have been read. -/
theorem State.word_of_mem {read : Bytes} {s : State} (h : s.Behind read) {c : UInt8} {i : Item}
    (hi : i ∈ (s.react (({} : Position).after read) c).items)
    (hword : i.token.kind.isWord = true) : isWordByte c = false ∧ i.WordTo read.length := by
  obtain _ | ⟨before, read_eq, start, fits⟩ := h
  · exact absurd hword (Reaction.not_isWord_of_mem (isOrdinary_reactIdle c _) hi)
  · have hends := Mode.ends_react hi hword
    refine ⟨hends.stop, ?_, hends.ident⟩
    rw [hends.covers.start, hends.covers.length]
    exact (State.Behind.within before read_eq start fits).end_eq

/-- **A word that a byte ends is found in front of it.** -/
theorem settle_word_of_mem {read : Bytes} {s : State} (h : s.Behind read) {c : UInt8} {n : Nat}
    {i : Item} (hi : i ∈ (settle (({} : Position).after read) c n s).1)
    (hword : i.token.kind.isWord = true) : isWordByte c = false ∧ i.WordTo read.length := by
  induction n generalizing s with
  | zero => exact absurd hi List.not_mem_nil
  | succ n ih =>
    have hstate := State.react_behind h c
    rw [Reaction.consumed] at hstate
    rw [settle] at hi
    by_cases hused : (s.react (({} : Position).after read) c).used = true
    · rw [if_pos hused] at hi
      exact State.word_of_mem h hi hword
    · rw [if_neg hused] at hi hstate
      rcases List.mem_append.1 hi with hi | hi
      · exact State.word_of_mem h hi hword
      · exact ih hstate hi

namespace Machine

/-- The same along a run. -/
theorem word_of_mem_run {read : Bytes} {m : Machine} (h : m.Sound read) {text : Bytes} {i : Item}
    (hi : i ∈ (m.run text).1) (hword : i.token.kind.isWord = true) :
    ∃ front behind, text = front ++ behind ∧ behind.head?.any isWordByte = false ∧
      i.WordTo (read ++ front).length := by
  induction text generalizing read m with
  | nil => exact absurd hi List.not_mem_nil
  | cons c rest ih =>
    rw [run] at hi
    rcases List.mem_append.1 hi with hi | hi
    · have hfound : i ∈ (settle (({} : Position).after read) c maxOffers m.state).1 := by
        rw [← h.cursor]
        exact hi
      obtain ⟨hc, hto⟩ := settle_word_of_mem h.state.behind hfound hword
      exact ⟨[], c :: rest, rfl, hc, by rwa [List.append_nil]⟩
    · obtain ⟨front, behind, rfl, hbehind, hto⟩ := ih (h.step c) hi
      exact ⟨c :: front, behind, rfl, hbehind, by simpa using hto⟩

/-- **Every word of a text ends in front of a byte that does not belong to it.** -/
theorem word_of_mem_items {text : Bytes} {i : Item} (hi : i ∈ ({} : Machine).items text)
    (hword : i.token.kind.isWord = true) :
    ∃ front behind, text = front ++ behind ∧ behind.head?.any isWordByte = false ∧
      i.WordTo front.length := by
  rcases List.mem_append.1 hi with hi | hi
  · exact word_of_mem_run sound_start hi hword
  · have hsound := run_sound text
    obtain ⟨j, hj, rfl⟩ := List.mem_map.1 hi
    replace hword : j.token.kind.isWord = true := hword
    rcases List.mem_append.1 hj with hj | hj
    · replace hj : j ∈ (({} : Machine).run text).2.closeLine.1 := hj
      rw [closeLine, hsound.cursor] at hj
      split_ifs at hj
      · exact absurd hj List.not_mem_nil
      · have hto := (settle_word_of_mem hsound.state.behind hj hword).2
        have hclip : j.clip (({} : Position).after text).offset = j := by
          rw [Position.after_offset, Nat.zero_add, Item.clip_eq_self (le_of_eq hto.end_eq)]
        rw [hsound.cursor, hclip]
        exact ⟨text, [], (List.append_nil text).symm, rfl, hto⟩
    · exact absurd hword (not_isWord_of_mem_unfinished hj)

end Machine

/-! ## Tokens -/

/-- What the word at the start of a text is. -/
structure WordRule (text word : Bytes) : Prop where
  underscore : word = ascii "_" → LeadsAs text word (.symbol .underscore)
  keyword : ∀ k : Keyword, k ≠ .union_ → word = (Kind.keyword k).spelling →
    LeadsAs text word (.keyword k)
  /-- The word `union` is a keyword just in front of another word. -/
  union : word = ascii "union" → BeforeWord (scan text).tokens 0 →
    LeadsAs text word (.keyword .union_)
  union_ident : word = ascii "union" → ¬ BeforeWord (scan text).tokens 0 → LeadsAs text word .ident
  ident : word ≠ ascii "_" → (∀ k : Keyword, word ≠ (Kind.keyword k).spelling) →
    LeadsAs text word .ident

theorem wordKind_spelling {k : Keyword} (hk : k ≠ .union_) :
    wordKind (Kind.keyword k).spelling = .keyword k := by
  have hne : ascii k.spelling ≠ ascii "_" := by cases k <;> decide
  have hspelling : (Kind.keyword k).spelling = ascii k.spelling := rfl
  rw [hspelling, wordKind, if_neg hne, Keyword.ofWord?_spelling hk]

theorem wordKind_of_forall_ne {word : Bytes} (hne : word ≠ ascii "_")
    (h : ∀ k : Keyword, word ≠ (Kind.keyword k).spelling) : wordKind word = .ident := by
  rw [wordKind, if_neg hne]
  rcases hkeyword : Keyword.ofWord? word with _ | k
  · rfl
  · exact absurd (Keyword.spelling_of_ofWord? hkeyword).symm (h k)

/-- The word that a text begins with is the first token, as which it is looked up. -/
theorem wordRule_of_items {text : Bytes} (h : ({} : Machine).items text = wordItems {} text) :
    WordRule text (text.takeWhile isWordByte) := by
  have htext : text = text.takeWhile isWordByte ++ text.dropWhile isWordByte :=
    List.takeWhile_append_dropWhile.symm
  rw [wordItems] at h
  generalize text.takeWhile isWordByte = word at h htext
  refine ⟨?_, ?_, ?_, ?_, ?_⟩
  · rintro rfl
    exact leadsAs_token h htext nofun
  · rintro k hk rfl
    rw [wordKind_spelling hk] at h
    exact leadsAs_token h htext nofun
  · rintro rfl hword
    exact leadsAs_union htext h (beforeWord_iff.1 hword)
  · rintro rfl hword
    exact leadsAs_token h htext fun _ _ => Bool.eq_false_iff.2 (mt beforeWord_iff.2 hword)
  · intro hne hkeyword
    rw [wordKind_of_forall_ne hne hkeyword] at h
    exact leadsAs_token h htext fun _ hunion => absurd hunion (hkeyword .union_)

/-- A word that no literal is opened with, and that is no letter of an exponent. -/
structure IsFree (word : Bytes) : Prop where
  start : word.head?.any isWordStart = true
  bytes : word.all isWordByte = true
  not_lead : ∀ lead ∈ [ascii "r", ascii "b", ascii "br"], ¬ word <+: lead
  not_letter : word ∉ [ascii "e", ascii "E"]

theorem isFree_spelling (k : Keyword) : IsFree (ascii k.spelling) := by
  refine ⟨?_, ?_, ?_, ?_⟩ <;> cases k <;> decide

theorem isFree_underscore : IsFree (ascii "_") := by
  refine ⟨?_, ?_, ?_, ?_⟩ <;> decide

theorem IsFree.start_of_begins {word text : Bytes} (h : IsFree word) (hbegins : word <+: text) :
    text.head?.any isWordStart = true := by
  obtain ⟨c, hc, hstart⟩ := (Option.any_eq_true _ _).1 h.start
  obtain ⟨rest, rfl⟩ := List.head?_eq_some_iff.1 hc
  obtain ⟨more, rfl⟩ := hbegins
  exact hstart

theorem IsFree.not_opensLiteral {word text : Bytes} (h : IsFree word) (hbegins : word <+: text) :
    ¬ OpensLiteral (text.takeWhile isWordByte) (text.dropWhile isWordByte).head? := by
  obtain ⟨more, rfl⟩ := hbegins
  have hword : word <+: (word ++ more).takeWhile isWordByte := by
    rw [List.takeWhile_append_of_pos (List.all_eq_true.1 h.bytes)]
    exact List.prefix_append _ _
  rintro (⟨hlead, -⟩ | ⟨hlead, -⟩ | ⟨hlead, -⟩) <;>
    exact h.not_lead _ (by simp) (hlead ▸ hword)

section Items

variable {text : Bytes} {n : Nat} {i : Item} (hi : (({} : Machine).items text)[n]? = some i)
include hi

/-- What is written like the lifetime `'static` is no identifier. -/
theorem slice_ne_static (hkind : i.token.kind = .ident) : i.slice text ≠ ascii "'static" := by
  intro hslice
  obtain ⟨more, hmore⟩ : ascii "'static" <+: text.drop i.start.offset :=
    hslice ▸ List.take_prefix _ _
  have hletters : ∀ b ∈ ascii "static", isWordByte b = true := List.all_eq_true.1 rfl
  have hname : OpensName (ascii "static" ++ more) := by
    rw [OpensName, List.takeWhile_append_of_pos hletters]
    refine ⟨List.append_ne_nil_of_left_ne_nil (by decide) _, fun h => ?_⟩
    have hlength : 6 + (more.takeWhile isWordByte).length = 1 := by simpa [ascii] using h.1
    omega
  have hitems : Machine.items ⟨i.start, .idle⟩ (ascii "'static" ++ more) = _ :=
    Machine.items_tick_name hname i.start
  rcases Machine.head?_items_drop hi with hhead | ⟨-, -, hfault⟩
  · rw [← hmore, hitems, List.head?_cons, Option.some_inj] at hhead
    rw [← hhead] at hkind
    exact nameKind_ne_ident _ hkind
  · rw [Item.token, hfault] at hkind
    cases hkind

/-- A word that is no letter of an exponent is found by a machine that begins in front of it. -/
theorem head?_items_drop_of_slice {word : Bytes} (hslice : i.slice text = word)
    (hword : IsFree word) :
    (Machine.items ⟨i.start, .idle⟩ (text.drop i.start.offset)).head? = some i := by
  rcases Machine.head?_items_drop hi with hhead | ⟨hletter, hlength, -⟩
  · exact hhead
  · obtain ⟨e, he, hexponent⟩ := (Option.any_eq_true _ _).1 hletter
    obtain ⟨rest, hrest⟩ := List.head?_eq_some_iff.1 he
    refine absurd ?_ hword.not_letter
    rw [← hslice, Item.slice, hrest, hlength]
    rw [NumberMode.isExponentLetter, Bool.or_eq_true, beq_iff_eq, beq_iff_eq] at hexponent
    rcases hexponent with rfl | rfl
    · exact List.mem_cons_self
    · exact List.mem_cons_of_mem _ List.mem_cons_self

/-- **Where a text reads a word, the word is found**, and ends there. -/
theorem item_of_slice {word : Bytes} (hslice : i.slice text = word) (hword : IsFree word) :
    i = (Lexeme.ofText i.start word).token (wordKind word) ∧
      (text.drop (i.start.offset + i.length)).head?.any isWordByte = false := by
  have hbegins : word <+: text.drop i.start.offset := hslice ▸ List.take_prefix _ _
  have hhead := head?_items_drop_of_slice hi hslice hword
  rw [Machine.items_idle_word (hword.start_of_begins hbegins) (hword.not_opensLiteral hbegins),
    wordItems, List.head?_cons, Option.some_inj] at hhead
  have hlength : ((text.drop i.start.offset).takeWhile isWordByte).length = i.length :=
    congrArg Item.length hhead
  have hspan : text.drop i.start.offset = (text.drop i.start.offset).takeWhile isWordByte ++
      (text.drop i.start.offset).dropWhile isWordByte := List.takeWhile_append_dropWhile.symm
  -- the item covers the whole word, so the word is what it reads
  have hwhole : (text.drop i.start.offset).takeWhile isWordByte = word := by
    rw [← hslice, Item.slice, ← hlength]
    exact List.prefix_iff_eq_take.1 (List.takeWhile_prefix isWordByte)
  refine ⟨by rw [hwhole] at hhead; exact hhead.symm, ?_⟩
  rw [← hlength, drop_add_of_drop_eq _ hspan, ← Machine.apply_headD (by decide)]
  exact Machine.headD_dropWhile (by decide) _

end Items

section Tokens

variable {text : Bytes} {n : Nat} {t : Token} {i : Item}
  (ht : (scan text).tokens[n]? = some t) (hi : (({} : Machine).items text)[n]? = some i)
include ht hi

/-- An identifier is not reserved. -/
theorem ofReserved?_of_ident (hkind : t.kind = .ident) :
    ∃ word, t.text = some word ∧ Kind.ofReserved? word = none := by
  rcases scan_token_eq_or_union ht hi with rfl | ⟨-, hunion⟩
  · obtain ⟨front, behind, -, -, hto⟩ :=
      Machine.word_of_mem_items (List.mem_of_getElem? hi) (by rw [hkind]; rfl)
    obtain ⟨word, htext, hkeyword⟩ := hto.ident hkind
    refine ⟨word, htext, ?_⟩
    have hslice : i.slice text = word := by
      have hsound := (textOrSpelling_of_tells (scan_tells ht hi) (by rw [hkind]; decide)).1
      rw [← hsound, Token.textOrSpelling, htext, Option.getD_some]
    rw [Kind.ofReserved?, if_neg (hslice ▸ slice_ne_static hi hkind), hkeyword, Option.map_none]
  · rw [hkind] at hunion
    cases hunion

/-- No byte behind a word could have belonged to it. -/
theorem stop_of_word (h : t.kind.isWord = true ∨ t.kind = .symbol .underscore) :
    (text.drop (i.start.offset + i.length)).head?.any isWordByte = false := by
  rcases h with hword | hunderscore
  · have hfound : i.token.kind.isWord = true := by
      rcases scan_token_eq_or_union ht hi with rfl | ⟨hident, -⟩
      · exact hword
      · rw [hident]
        rfl
    obtain ⟨front, behind, rfl, hbehind, hto⟩ :=
      Machine.word_of_mem_items (List.mem_of_getElem? hi) hfound
    rwa [hto.end_eq, List.drop_left]
  · have hslice : i.slice text = ascii "_" := by
      have hspelling := eq_spelling_of_tells (scan_tells ht hi) (by rw [hunderscore]; decide)
      rw [hspelling, hunderscore]
      rfl
    exact (item_of_slice hi hslice isFree_underscore).2

/-- A keyword is found just where its spelling is a lexeme. -/
theorem keyword_iff_slice {k : Keyword} (hk : k ≠ .union_) :
    t.kind = .keyword k ↔ i.slice text = (Kind.keyword k).spelling := by
  constructor
  · intro hkind
    rw [← hkind]
    exact eq_spelling_of_tells (scan_tells ht hi) (hkind ▸ k.spelling_ne_nil)
  · intro hslice
    have hitem := (item_of_slice hi hslice (isFree_spelling k)).1
    rw [wordKind_spelling hk] at hitem
    have hkind : i.token.kind = .keyword k := congrArg (·.token.kind) hitem
    rcases scan_token_eq_or_union ht hi with rfl | ⟨hident, -⟩
    · exact hkind
    · rw [hkind] at hident
      exact absurd hident nofun

end Tokens

/-- **Words are read to their end and then looked up.**  The word that a text begins with is its
first token, unless it opens a literal: the underscore, the keyword that it spells, or an
identifier, where `union` is a keyword just in front of another word.  So no identifier of a text is
reserved, no word goes on behind its token, and a keyword is found just for its own spelling.  The
bytes that a token covers are those of the item in its place; up to the size that fits into 32 bits
the token itself says which they are. -/
theorem scan_words (text : Bytes) :
    (text.head?.any isWordStart = true →
      ¬ OpensLiteral (text.takeWhile isWordByte) (text.dropWhile isWordByte).head? →
      WordRule text (text.takeWhile isWordByte)) ∧
    ∀ (n : Nat) (t : Token), (scan text).tokens[n]? = some t →
      ∃ i : Item, (({} : Machine).items text)[n]? = some i ∧
        (text.length ≤ Source.maxSize → t.place = i.place) ∧
        (t.kind = .ident → ∃ word, t.text = some word ∧ Kind.ofReserved? word = none) ∧
        (t.kind.isWord = true ∨ t.kind = .symbol .underscore →
          (text.drop (i.start.offset + i.length)).head?.any isWordByte = false) ∧
        ∀ k : Keyword, k ≠ .union_ →
          (t.kind = .keyword k ↔ i.slice text = (Kind.keyword k).spelling) := by
  constructor
  · intro hstart hopens
    exact wordRule_of_items (Machine.items_idle_word hstart hopens {})
  · intro n t ht
    obtain ⟨i, hi, -⟩ := scan_getElem? ht
    exact ⟨i, hi, fun hsize => scan_place hsize ht hi, ofReserved?_of_ident ht hi,
      stop_of_word ht hi, fun k hk => keyword_iff_slice ht hi hk⟩

/-- The underscore, a keyword, `union` in front of a word, a word that begins like a literal, and
one that begins like a keyword. -/
theorem scan_words_forms :
    LeadsAs (ascii "_+") (ascii "_") (.symbol .underscore) ∧
    LeadsAs (ascii "break;") (ascii "break") (.keyword .break_) ∧
    LeadsAs (ascii "union u") (ascii "union") (.keyword .union_) ∧
    LeadsAs (ascii "brr\"") (ascii "brr") .ident ∧
    ∃ i : Item, (({} : Machine).items (ascii "r#if ifs"))[1]? = some i ∧
      ((ascii "r#if ifs").drop (i.start.offset + i.length)).head?.any isWordByte = false ∧
      i.slice (ascii "r#if ifs") ≠ (Kind.keyword .if_).spelling := by
  refine ⟨?_, ?_, ?_, ?_, ?_⟩
  · exact ((scan_words (ascii "_+")).1 (by decide) (by decide)).underscore (by decide)
  · exact ((scan_words (ascii "break;")).1 (by decide) (by decide)).keyword .break_ (by decide)
      (by decide)
  · refine ((scan_words (ascii "union u")).1 (by decide) (by decide)).union (by decide) ?_
    exact ⟨⟨0, 6, .ident, some (ascii "u"), 6, 1⟩, by decide, Or.inl rfl⟩
  · refine ((scan_words (ascii "brr\"")).1 (by decide) (by decide)).ident (by decide) fun k => ?_
    cases k <;> decide
  · obtain ⟨i, hi, -, -, hstop, hkeyword⟩ := (scan_words (ascii "r#if ifs")).2 1
      ⟨0, 5, .ident, some (ascii "ifs"), 5, 3⟩ (by decide)
    refine ⟨i, hi, hstop (Or.inl rfl), fun hslice => ?_⟩
    exact absurd ((hkeyword .if_ (by decide)).2 hslice) (by decide)

end Scan
end RustScan
