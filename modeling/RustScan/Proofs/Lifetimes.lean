import RustScan.Proofs.QuotedLiterals

/-!
# Lifetimes, labels and characters

A single quote opens three things, and the bytes that a name can have decide between them, as far as
they go: a name behind the quote makes a lifetime or a label of it, unless it is a single byte with
a quote behind it.

* `OpensName body` — the bytes behind a quote are such a name.  `Machine.items_tick_name` is what a
  machine makes of it, wherever it stands.
* `Machine.items_tick_char` — in front of anything else a quote opens a character, as other quotes
  open their literals.  The machine has a mode of its own for the first byte behind the quote, which
  reacts like that of a quoted literal wherever the two could be told apart.
* `scan_tick` — the main statement.
-/

set_option autoImplicit false

namespace RustScan.Scan

/-- The bytes behind a quote begin with a name that no quote closes after its first byte. -/
def OpensName (body : Bytes) : Prop :=
  body.takeWhile isWordByte ≠ [] ∧
    ¬ ((body.takeWhile isWordByte).length = 1 ∧
      (body.dropWhile isWordByte).head? = some '\''.toUInt8)

instance (body : Bytes) : Decidable (OpensName body) := inferInstanceAs (Decidable (_ ∧ ¬ (_ ∧ _)))

/-- What a quote with a name is, by the byte that follows. -/
def nameKind (body : Bytes) : Kind :=
  if (body.dropWhile isWordByte).head? = some ':'.toUInt8 then .label
  else if body.takeWhile isWordByte = ascii "static" then .staticLifetime
  else .lifetime

theorem nameKind_ne_ident (body : Bytes) : nameKind body ≠ .ident := by
  rw [nameKind]
  split_ifs <;> exact nofun

/-- Where no name is opened, either no byte of a name follows, or a single one between quotes. -/
theorem cases_of_not_opensName {body : Bytes} (h : ¬ OpensName body) :
    isWordByte (body.headD Bytes.lf) = false ∨
      ∃ c rest, isWordByte c = true ∧ body = c :: '\''.toUInt8 :: rest := by
  obtain _ | ⟨c, rest⟩ := body
  · exact Or.inl (by decide)
  by_cases hc : isWordByte c = true
  · rw [OpensName, List.takeWhile_cons_of_pos hc, List.dropWhile_cons_of_pos hc] at h
    obtain ⟨hlength, hquote⟩ := not_not.1 (not_and.1 h (List.cons_ne_nil _ _))
    have hempty : rest.takeWhile isWordByte = [] :=
      List.eq_nil_of_length_eq_zero (Nat.succ_injective hlength)
    rw [← rest.takeWhile_append_dropWhile (p := isWordByte), hempty, List.nil_append]
    obtain ⟨more, hmore⟩ := List.head?_eq_some_iff.1 hquote
    exact Or.inr ⟨c, more, hc, hmore ▸ rfl⟩
  · exact Or.inl (Bool.eq_false_iff.2 hc)

/-! ## Names -/

theorem Kind.ofReserved?_tick {word : Bytes} :
    Kind.ofReserved? (ascii "'" ++ word) = some .staticLifetime ↔ word = ascii "static" := by
  have hstatic : ascii "'static" = ascii "'" ++ ascii "static" := rfl
  constructor
  · intro h
    exact List.append_cancel_left ((Kind.eq_of_ofReserved?_static h).trans hstatic)
  · rintro rfl
    rw [← hstatic, Kind.ofReserved?, if_pos rfl]

theorem Lexeme.lifetime_headD (p : Position) (body : Bytes) :
    (Lexeme.ofText p (ascii "'" ++ body.takeWhile isWordByte)).lifetime
        ((body.dropWhile isWordByte).headD Bytes.lf) =
      (Lexeme.ofText p (ascii "'" ++ body.takeWhile isWordByte)).token (nameKind body) := by
  rw [lifetime, nameKind, ofText_text]
  simp only [Machine.headD_eq_iff (show ':'.toUInt8 ≠ Bytes.lf by decide), Kind.ofReserved?_tick]
  split_ifs <;> rfl

namespace Machine

theorem items_idle_tick (p : Position) (body : Bytes) :
    items ⟨p, .idle⟩ (ascii "'" ++ body) = (inside p (ascii "'") (.tick false)).items body :=
  items_idle_lexeme rfl p body

/-- **A name behind a quote is taken as a whole**, and the byte behind it is not. -/
theorem items_lifetime {p : Position} {text : Bytes} (hcolumn : (p.after text).column ≠ 0)
    (rest : Bytes) :
    (inside p text .lifetime).items rest =
      (Lexeme.ofText p (text ++ rest.takeWhile isWordByte)).lifetime
          ((rest.dropWhile isWordByte).headD Bytes.lf) ::
        items ⟨p.after (text ++ rest.takeWhile isWordByte), .idle⟩ (rest.dropWhile isWordByte) := by
  have hline : Bytes.lf ∉ rest.takeWhile isWordByte := fun hmem =>
    isWordByte_ne_lf (List.mem_takeWhile_imp hmem) rfl
  rw [@items_inside_takeWhile Unit (fun _ => .lifetime) (fun a _ => a) isWordByte
    (fun _ lx b hb => if_pos hb) p text rest ()]
  have hstop : isWordByte ((rest.dropWhile isWordByte).headD Bytes.lf) = false :=
    headD_dropWhile (by decide) rest
  exact items_inside_cut (after_append_column_ne_zero hcolumn hline)
    (if_neg (Bool.eq_false_iff.1 hstop)) (Lexeme.lifetime_covers _ _)

/-- The first byte of a name may be the only one of a character. -/
theorem items_tick_wordByte {c : UInt8} (hc : isWordByte c = true) (p : Position) (rest : Bytes) :
    (inside p (ascii "'") (.tick false)).items (c :: rest) =
      (inside p (ascii "'" ++ [c]) (.tick true)).items rest := by
  refine items_inside_extend ?_ rest
  have hslash : c ≠ '\\'.toUInt8 := by
    rintro rfl
    exact absurd hc (by decide)
  have hquote : c ≠ '\''.toUInt8 := by
    rintro rfl
    exact absurd hc (by decide)
  simp only [Mode.react, Mode.reactTick, Bool.false_eq_true, if_false, if_neg hslash, if_neg hquote,
    if_pos hc]

/-- **A quote with a name is a lifetime or a label**, wherever it stands. -/
theorem items_tick_name {body : Bytes} (h : OpensName body) (p : Position) :
    items ⟨p, .idle⟩ (ascii "'" ++ body) =
      (Lexeme.ofText p (ascii "'" ++ body.takeWhile isWordByte)).token (nameKind body) ::
        items ⟨p.after (ascii "'" ++ body.takeWhile isWordByte), .idle⟩
          (body.dropWhile isWordByte) := by
  obtain ⟨hne, hquote⟩ := h
  obtain _ | ⟨c, rest⟩ := body
  · exact absurd rfl hne
  have hc : isWordByte c = true := by
    by_contra hc
    exact hne (List.takeWhile_cons_of_neg hc)
  have hcolumn : (p.after (ascii "'" ++ [c])).column ≠ 0 :=
    after_concat_column_ne_zero p (ascii "'") (isWordByte_ne_lf hc)
  -- a quote behind the first byte is excluded, so the byte goes on like every other of a name
  have hnext : rest.headD Bytes.lf ≠ '\''.toUInt8 := by
    rw [Ne, headD_eq_iff (by decide)]
    intro hhead
    obtain ⟨more, rfl⟩ := List.head?_eq_some_iff.1 hhead
    refine hquote ?_
    rw [List.takeWhile_cons_of_pos hc, List.dropWhile_cons_of_pos hc,
      List.takeWhile_cons_of_neg (by decide), List.dropWhile_cons_of_neg (by decide)]
    exact ⟨rfl, rfl⟩
  have hreact : (Mode.tick true).react (.ofText p (ascii "'" ++ [c])) (rest.headD Bytes.lf) =
      Mode.lifetime.react (.ofText p (ascii "'" ++ [c])) (rest.headD Bytes.lf) :=
    if_neg hnext
  have htake : ascii "'" ++ (c :: rest).takeWhile isWordByte =
      ascii "'" ++ [c] ++ rest.takeWhile isWordByte := by
    rw [List.takeWhile_cons_of_pos hc, List.append_assoc, List.singleton_append]
  have hdrop : (c :: rest).dropWhile isWordByte = rest.dropWhile isWordByte :=
    List.dropWhile_cons_of_pos hc
  rw [items_idle_tick, items_tick_wordByte hc, items_inside_congr hcolumn hreact,
    items_lifetime hcolumn, ← Lexeme.lifetime_headD, htake, hdrop]

/-! ## Characters -/

/-- What can be no name reacts like the first byte of a character. -/
theorem react_tick_false {c : UInt8} (hc : isWordByte c = false) (lx : Lexeme) :
    (Mode.tick false).react lx c = (Mode.quoted .char .none false).react lx c := by
  have hcloser : Quote.char.closer = '\''.toUInt8 := rfl
  simp only [Mode.react, Mode.reactTick, Quote.react, Quote.reactPlain, Quote.isBytes,
    Quote.isSingle, hcloser, hc, Bool.false_eq_true, if_false, false_and, and_false, Bool.not_false,
    and_self, if_true]
  split_ifs with hslash hquote
  · subst hslash
    exact absurd hquote (by decide)
  all_goals rfl

/-- The first byte of a name is a character like any other. -/
theorem react_quoted_wordByte {c : UInt8} (hc : isWordByte c = true) (lx : Lexeme) :
    (Mode.quoted .char .none false).react lx c = .extend lx c (.quoted .char .none true) := by
  have hslash : c ≠ '\\'.toUInt8 := by
    rintro rfl
    exact absurd hc (by decide)
  have hquote : c ≠ Quote.char.closer := by
    rintro rfl
    exact absurd hc (by decide)
  simp only [Mode.react, Quote.react, Quote.reactPlain, Quote.isBytes, Bool.false_eq_true,
    false_and, and_false, if_false, if_neg hslash, if_neg hquote]

/-- **A quote without a name opens a character**, wherever it stands. -/
theorem items_tick_char {body : Bytes} (h : ¬ OpensName body) (p : Position) :
    items ⟨p, .idle⟩ (ascii "'" ++ body) =
      (inside p (ascii "'") (.quoted .char .none false)).items body := by
  rw [items_idle_tick]
  obtain hnext | ⟨c, rest, hc, rfl⟩ := cases_of_not_opensName h
  · exact items_inside_congr (after_concat_column_ne_zero p [] (by decide))
      (react_tick_false hnext _)
  · rw [items_tick_wordByte hc, items_inside_extend (react_quoted_wordByte hc _)]
    exact items_inside_congr (after_concat_column_ne_zero p _ (isWordByte_ne_lf hc)) rfl

end Machine

/-! ## The first token -/

section Literal

variable {q : Quote} {body : Bytes} (hitems : ({} : Machine).items (ascii q.opener ++ body) =
  (Machine.inside {} (ascii q.opener) (.quoted q .none false)).items body)
include hitems

/-- A literal that a text begins with is its first token. -/
theorem leads_literal {w : Bytes} (hw : w <+: ascii q.opener ++ body) (hmem : w ∈ q.language) :
    Leads (ascii q.opener ++ body) w (.literal q.literal) w := by
  obtain ⟨v, hv, rfl⟩ := Quote.exists_of_mem_language hmem
  obtain ⟨behind, rfl⟩ := (List.prefix_append_right_inj _).1 hw
  rw [Machine.items_of_run_singleton
    (Machine.run_quoted_closes q.admits_none {} (ascii q.opener) hv)] at hitems
  exact leads_token (List.append_assoc _ _ _).symm rfl nofun hitems

variable (hnone : ∀ w, w <+: ascii q.opener ++ body → w ∉ q.language)
include hnone

omit hitems in
theorem notMem_completions {w : Bytes} (hw : w <+: body) : w ∉ q.completions false .none := by
  intro hmem
  exact hnone _ ((List.prefix_append_right_inj _).2 hw) (Quote.opener_append_mem_language.2 hmem)

/-- Without a literal, the first byte that none goes on with ends a malformed one. -/
theorem leads_break {front : Bytes}
    (hfront : FirstBreak q.language (ascii q.opener ++ body) front) :
    ∃ f, Leads (ascii q.opener ++ body) front .error (Fault.message f) := by
  obtain ⟨w, c, rfl, hw⟩ := hfront.exists_last (List.prefix_append _ _)
  obtain ⟨behind, rfl⟩ := (List.prefix_append_right_inj _).1 hfront.start
  have hshorter : w <+: w ++ [c] ++ behind := by
    rw [List.append_assoc]
    exact List.prefix_append _ _
  obtain ⟨f, hrun⟩ := Machine.run_quoted_breaks q.admits_none {} (ascii q.opener) hw
    (fun u hu => notMem_completions hnone (hu.trans hshorter))
    (mt Quote.viable_opener_append.2 hfront.breaks)
  rw [Machine.items_of_run_singleton hrun] at hitems
  exact ⟨f, leads_fault (List.append_assoc _ _ _).symm hitems⟩

/-- Without such a byte, everything is malformed. -/
theorem tokens_open (hviable : Viable q.language (ascii q.opener ++ body)) :
    ∃ f, (scan (ascii q.opener ++ body)).tokens = [⟨0, 0, .error, some (Fault.message f), 0,
      (ascii q.opener ++ body).length.toUInt32⟩] := by
  obtain ⟨f, hopen⟩ := Machine.items_quoted_open q.admits_none {} (ascii q.opener)
    (Quote.viable_opener_append.1 hviable) (fun u hu => notMem_completions hnone hu)
  exact ⟨f, (leads_fault_whole (hitems.trans hopen)).only⟩

end Literal

/-- Two colons are found as one symbol. -/
theorem head?_scanAt_pathSep (p : Position) (rest : Bytes) :
    ∃ t, (scanAt p (ascii "::" ++ rest)).head? = some t ∧ t.kind = .symbol .pathSep ∧
      t.length = 2 := by
  have hrun : Machine.run ⟨p, .idle⟩ (ascii "::") =
      ([(Lexeme.ofText p (ascii "::")).token (.symbol .pathSep)],
        ⟨p.after (ascii "::"), .idle⟩) := rfl
  rw [scanAt_eq, Machine.items_of_run_singleton hrun, List.map_cons,
    reclassify_cons_of_ne_ident (by simp [Item.token, Lexeme.token])]
  exact ⟨_, rfl, rfl, rfl⟩

/-- **What a single quote opens.**  A name behind it makes it a label in front of a colon, and else
a lifetime; the byte behind the name is left to the next token, so that two colons stay one symbol.
Without a name a character follows, as its language says: the character that the text begins with is
the first token.  If there is none, the first token is malformed and ends with the first byte that
no character goes on with, if there is such a byte, and with the input otherwise. -/
theorem scan_tick (body : Bytes) :
    (OpensName body →
      LeadsAs (ascii "'" ++ body) (ascii "'" ++ body.takeWhile isWordByte) (nameKind body) ∧
      ∀ more, body.dropWhile isWordByte = ascii "::" ++ more →
        ∃ t, (scan (ascii "'" ++ body)).tokens[1]? = some t ∧ t.kind = .symbol .pathSep ∧
          t.length = 2) ∧
    (¬ OpensName body →
      (∀ w, w <+: ascii "'" ++ body → w ∈ Quote.char.language →
        Leads (ascii "'" ++ body) w (.literal .char) w) ∧
      ((∀ w, w <+: ascii "'" ++ body → w ∉ Quote.char.language) →
        (∀ u, u <+: ascii "'" ++ body → ¬ Viable Quote.char.language u →
          ∃ front f, FirstBreak Quote.char.language (ascii "'" ++ body) front ∧
            Leads (ascii "'" ++ body) front .error (Fault.message f)) ∧
        ((∀ u, u <+: ascii "'" ++ body → Viable Quote.char.language u) →
          ∃ f, (scan (ascii "'" ++ body)).tokens = [⟨0, 0, .error, some (Fault.message f), 0,
            (ascii "'" ++ body).length.toUInt32⟩]))) := by
  constructor
  · intro hname
    have htext : ascii "'" ++ body =
        ascii "'" ++ body.takeWhile isWordByte ++ body.dropWhile isWordByte := by
      rw [List.append_assoc, List.takeWhile_append_dropWhile]
    have hleads : LeadsAs (ascii "'" ++ body) (ascii "'" ++ body.takeWhile isWordByte)
        (nameKind body) :=
      leadsAs_token (Machine.items_tick_name hname {}) htext (absurd · (nameKind_ne_ident body))
    refine ⟨hleads, fun more hmore => ?_⟩
    rw [hleads.tokens, List.getElem?_cons_succ, ← List.head?_eq_getElem?]
    nth_rewrite 1 [htext]
    rw [List.drop_left, hmore]
    exact head?_scanAt_pathSep _ more
  · intro hname
    have hitems := Machine.items_tick_char hname {}
    refine ⟨fun w hw hmem => leads_literal (q := .char) hitems hw hmem, fun hnone => ⟨?_, ?_⟩⟩
    · intro u hu hbreaks
      obtain ⟨front, hfront⟩ := exists_firstBreak hu hbreaks
      obtain ⟨f, hleads⟩ := leads_break (q := .char) hitems hnone hfront
      exact ⟨front, f, hfront, hleads⟩
    · intro hviable
      exact tokens_open (q := .char) hitems hnone (hviable _ List.prefix_rfl)

/-- A label in front of two colons, a character, two quotes with nothing between them, and a quote
that nothing follows. -/
theorem scan_tick_forms :
    LeadsAs (ascii "'a::b") (ascii "'a") .label ∧
    (∃ t, (scan (ascii "'a::b")).tokens[1]? = some t ∧ t.kind = .symbol .pathSep ∧ t.length = 2) ∧
    Leads (ascii "'a'b") (ascii "'a'") (.literal .char) (ascii "'a'") ∧
    (∃ front f, FirstBreak Quote.char.language (ascii "''") front ∧
      Leads (ascii "''") front .error (Fault.message f)) ∧
    ∃ f, (scan (ascii "'")).tokens = [⟨0, 0, .error, some (Fault.message f), 0, 1⟩] := by
  have hchar : ascii "'a'" ∈ Quote.char.language := by
    have helement : ascii "a" ∈ Quote.char.element := Or.inl ⟨_, rfl, rfl⟩
    exact Quote.opener_append_mem_language.2 ⟨ascii "a", helement, ascii "'", ⟨_, rfl, rfl⟩, rfl⟩
  have hempty : ∀ v, ascii "'" ++ v ∉ Quote.char.completions false .none := by
    intro v hv
    have hquotient : (Quote.char.tail false).leftQuotient (ascii "'") = 0 :=
      Quote.leftQuotient_tail .char false '\''.toUInt8
    exact Language.notMem_zero v (hquotient ▸ hv)
  obtain ⟨hlabel, hcolons⟩ := (scan_tick (ascii "a::b")).1 (by decide)
  refine ⟨hlabel, hcolons (ascii "b") (by decide), ?_, ?_, ?_⟩
  · exact ((scan_tick (ascii "a'b")).2 (by decide)).1 _ (by decide) hchar
  · refine (((scan_tick (ascii "'")).2 (by decide)).2 ?_).1 (ascii "''") List.prefix_rfl ?_
    · intro w hw hmem
      obtain ⟨v, hv, rfl⟩ := Quote.exists_of_mem_language hmem
      have hshort : v <+: [] ++ ascii "'" := (List.prefix_append_right_inj (ascii "'")).1 hw
      obtain hv' | hv' := List.prefix_concat_iff.1 hshort
      · exact hempty [] (hv' ▸ hv)
      · exact Quote.nil_notMem_completions _ _ _ (List.prefix_nil.1 hv' ▸ hv)
    · rintro ⟨v, hv⟩
      exact hempty v (Quote.opener_append_mem_language.1 hv)
  · refine (((scan_tick []).2 (by decide)).2 ?_).2 ?_
    · intro w hw hmem
      obtain ⟨v, hv, rfl⟩ := Quote.exists_of_mem_language hmem
      have hv' : v <+: [] := (List.prefix_append_right_inj (ascii "'")).1 hw
      exact Quote.nil_notMem_completions _ _ _ (List.prefix_nil.1 hv' ▸ hv)
    · intro u hu
      exact Quote.char.viable_opener.of_prefix hu

end RustScan.Scan
