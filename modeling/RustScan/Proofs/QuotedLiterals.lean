import RustScan.Proofs.Leading
import RustScan.Proofs.QuotedLanguage

/-!
# Quoted literals

Strings, strings of bytes and single bytes are read just as their languages say, and the first byte
with which no literal goes on is reported.

* `Machine.run_quoted` — a literal stays open as long as its bytes can be completed and are not
  complete, and the words that may follow are those of the state it is in.
* `Machine.run_quoted_closes`, `Machine.run_quoted_breaks`, `Machine.items_quoted_open` — the three
  ways in which this ends.
* `scan_quoted` — the main statement.
-/

set_option autoImplicit false

namespace RustScan.Scan

namespace Machine

section Run

variable {q : Quote} {escape : Escape} {filled : Bool} {w : Bytes} (h : q.Admits escape)
  (p : Position) (text : Bytes)
include h

/-- **A literal is open as long as its bytes can be completed and are not complete**, and what may
follow is then known to the escape. -/
theorem run_quoted (hviable : Viable (q.completions filled escape) w)
    (hopen : ∀ u, u <+: w → u ∉ q.completions filled escape) :
    ∃ (next : Escape) (filled' : Bool), q.Admits next ∧
      (q.completions filled escape).leftQuotient w = q.completions filled' next ∧
      (inside p text (.quoted q escape filled)).run w =
        ([], inside p (text ++ w) (.quoted q next filled')) := by
  induction w generalizing escape filled text with
  | nil => exact ⟨escape, filled, h, rfl, by simp [run]⟩
  | cons c w ih =>
    have hoffers : q.Offers _ _ c ((Mode.quoted q escape filled).react (.ofText p text) c) :=
      q.offers filled (.ofText p text) c h
    generalize hreact : (Mode.quoted q escape filled).react (.ofText p text) c = r at hoffers
    cases hoffers with
    | @takes next filled' admits quotient =>
      have hmem : ∀ v, c :: v ∈ q.completions filled escape ↔ v ∈ q.completions filled' next := by
        intro v
        rw [← quotient]
        rfl
      obtain ⟨v, hv⟩ := hviable
      obtain ⟨last, filled'', hlast, hquotient, hrun⟩ := ih admits (text ++ [c])
        ⟨v, (hmem _).1 hv⟩ fun u hu hmem' =>
          hopen (c :: u) ((List.prefix_cons_inj c).2 hu) ((hmem u).2 hmem')
      refine ⟨last, filled'', hlast, ?_, ?_⟩
      · rw [← List.singleton_append, Language.leftQuotient_append, quotient, hquotient]
      · rw [run, step_inside_extend hreact, hrun]
        simp
    | closes quotient =>
      refine absurd ?_ (hopen [c] ⟨w, rfl⟩)
      have hnil : [] ∈ (q.completions filled escape).leftQuotient [c] := by
        rw [quotient]
        rfl
      exact hnil
    | breaks quotient =>
      obtain ⟨v, hv⟩ := hviable
      have hmem : w ++ v ∈ (q.completions filled escape).leftQuotient [c] := hv
      rw [quotient] at hmem
      exact absurd hmem (Language.notMem_zero _)

/-- **A literal is closed by the last byte of a word.** -/
theorem run_quoted_closes (hw : w ∈ q.completions filled escape) :
    (inside p text (.quoted q escape filled)).run w =
      ([(Lexeme.ofText p (text ++ w)).token (.literal q.literal)],
        ⟨p.after (text ++ w), .idle⟩) := by
  obtain rfl | ⟨u, c, rfl⟩ := List.eq_nil_or_concat' w
  · exact absurd hw (q.nil_notMem_completions filled escape)
  have hopen : ∀ v, v <+: u → v ∉ q.completions filled escape := by
    rintro v ⟨t, rfl⟩ hv
    rw [List.append_assoc] at hw
    exact List.concat_ne_nil _ _ (Quote.append_mem_completions h hv hw)
  obtain ⟨next, filled', hnext, hquotient, hrun⟩ := run_quoted h p text ⟨[c], hw⟩ hopen
  have hc : [] ∈ (q.completions filled' next).leftQuotient [c] := hquotient ▸ hw
  have hoffers : q.Offers _ _ c ((Mode.quoted q next filled').react (.ofText p (text ++ u)) c) :=
    q.offers filled' (.ofText p (text ++ u)) c hnext
  generalize hreact : (Mode.quoted q next filled').react (.ofText p (text ++ u)) c = r at hoffers
  cases hoffers with
  | takes admits quotient => exact absurd (quotient ▸ hc) (q.nil_notMem_completions _ _)
  | closes quotient =>
    rw [run_append, hrun, run, step_inside_close hreact, Lexeme.ofText_push, List.append_assoc]
    rfl
  | breaks quotient => exact absurd (quotient ▸ hc) (Language.notMem_zero _)

/-- **A literal is malformed at the first byte that no word goes on with.** -/
theorem run_quoted_breaks {c : UInt8} (hviable : Viable (q.completions filled escape) w)
    (hopen : ∀ u, u <+: w → u ∉ q.completions filled escape)
    (hbreaks : ¬ Viable (q.completions filled escape) (w ++ [c])) :
    ∃ f, (inside p text (.quoted q escape filled)).run (w ++ [c]) =
      ([(Lexeme.ofText p (text ++ (w ++ [c]))).fault f],
        ⟨p.after (text ++ (w ++ [c])), .idle⟩) := by
  obtain ⟨next, filled', hnext, hquotient, hrun⟩ := run_quoted h p text hviable hopen
  have hc : ∀ v, v ∉ (q.completions filled' next).leftQuotient [c] := by
    intro v hv
    rw [← hquotient, ← Language.leftQuotient_append] at hv
    exact hbreaks ⟨v, hv⟩
  have hoffers : q.Offers _ _ c ((Mode.quoted q next filled').react (.ofText p (text ++ w)) c) :=
    q.offers filled' (.ofText p (text ++ w)) c hnext
  generalize hreact : (Mode.quoted q next filled').react (.ofText p (text ++ w)) c = r at hoffers
  cases hoffers with
  | @takes last filled'' admits quotient =>
    obtain ⟨v, hv⟩ := Quote.exists_mem_completions admits filled''
    exact absurd (quotient ▸ hv) (hc v)
  | closes quotient => exact absurd (quotient ▸ rfl) (hc [])
  | @breaks f quotient =>
    refine ⟨f, ?_⟩
    rw [run_append, hrun, run, step_inside_close hreact, Lexeme.ofText_push, List.append_assoc]
    rfl

/-- **A literal that is open at the end of the input** is malformed as a whole. -/
theorem items_quoted_open (hviable : Viable (q.completions filled escape) w)
    (hopen : ∀ u, u <+: w → u ∉ q.completions filled escape) :
    ∃ f, (inside p text (.quoted q escape filled)).items w =
      [(Lexeme.ofText p (text ++ w)).fault f] := by
  obtain ⟨next, filled', -, -, hrun⟩ := run_quoted h p text hviable hopen
  rw [← List.append_nil w, items_of_run hrun, List.append_nil]
  exact ⟨_, items_inside_nil p (text ++ w) rfl⟩

end Run

/-- The bytes in front of a literal open it. -/
theorem run_opener {q : Quote} (hq : q ≠ .char) :
    ({} : Machine).run (ascii q.opener) =
      ([], inside {} (ascii q.opener) (.quoted q .none false)) := by
  cases q with
  | char => exact absurd rfl hq
  | byte => rfl
  | str => rfl
  | byteStr => rfl

theorem run_opener_append {q : Quote} (hq : q ≠ .char) (w : Bytes) :
    ({} : Machine).run (ascii q.opener ++ w) =
      (inside {} (ascii q.opener) (.quoted q .none false)).run w := by
  rw [run_append, run_opener hq, List.nil_append]

end Machine

/-! ## The first token -/

/-- What no literal begins with has the bytes of the opener, others that can be completed, and one
that cannot. -/
theorem FirstBreak.exists_last {q : Quote} {text front : Bytes} (htext : ascii q.opener <+: text)
    (h : FirstBreak q.language text front) :
    ∃ w c, front = ascii q.opener ++ (w ++ [c]) ∧ Viable (q.completions false .none) w := by
  have hopener := q.viable_opener
  obtain hfront | ⟨w, rfl⟩ := List.prefix_or_prefix_of_prefix h.start htext
  · exact absurd (hopener.of_prefix hfront) h.breaks
  obtain rfl | ⟨w, c, rfl⟩ := List.eq_nil_or_concat' w
  · exact absurd hopener (by simpa using h.breaks)
  refine ⟨w, c, rfl, Quote.viable_opener_append.1 (not_not.1 fun hbreaks => ?_)⟩
  have hle := h.first (ascii q.opener ++ w) ?_ hbreaks
  · simp at hle
  · refine List.IsPrefix.trans ⟨[c], ?_⟩ h.start
    rw [List.append_assoc]

/-- **Quoted literals are read as their language says.**  A literal that a text begins with is its
first token.  If there is none, the first token is malformed and ends with the first byte that no
literal goes on with, if there is such a byte, and with the input otherwise. -/
theorem scan_quoted (q : Quote) (hq : q ≠ .char) (text : Bytes) (htext : ascii q.opener <+: text) :
    (∀ w, w <+: text → w ∈ q.language →
      Leads text w (.literal q.literal) w ∧ ∀ v, v <+: text → v ∈ q.language → v = w) ∧
    ((∀ w, w <+: text → w ∉ q.language) → ∀ u, u <+: text → ¬ Viable q.language u →
      ∃ front f, FirstBreak q.language text front ∧ Leads text front .error (Fault.message f) ∧
        (Scanner.run {} front).machine.state = .idle) ∧
    ((∀ w, w <+: text → w ∉ q.language) → (∀ u, u <+: text → Viable q.language u) →
      ∃ f, (scan text).tokens =
        [⟨0, 0, .error, some (Fault.message f), 0, text.length.toUInt32⟩]) := by
  have hopen : (∀ w, w <+: text → w ∉ q.language) → ∀ {w}, ascii q.opener ++ w <+: text →
      ∀ u, u <+: w → u ∉ q.completions false .none := by
    intro hnone w hw u hu hmem
    refine hnone (ascii q.opener ++ u) ?_ (Quote.opener_append_mem_language.2 hmem)
    exact ((List.prefix_append_right_inj _).2 hu).trans hw
  refine ⟨fun w hw hmem => ⟨?_, fun v hv hv' => ?_⟩, fun hnone u hu hbreaks => ?_,
    fun hnone hviable => ?_⟩
  · obtain ⟨behind, rfl⟩ := hw
    obtain ⟨v, hv, rfl⟩ := Quote.exists_of_mem_language hmem
    have hrun := Machine.run_quoted_closes q.admits_none {} (ascii q.opener) hv
    rw [← Machine.run_opener_append hq] at hrun
    exact leads_token rfl rfl nofun (Machine.items_of_run_singleton hrun)
  · exact Quote.eq_of_mem_language hmem hv' hw hv
  · obtain ⟨front, hfront⟩ := exists_firstBreak hu hbreaks
    obtain ⟨w, c, rfl, hw⟩ := hfront.exists_last htext
    have hshorter : ascii q.opener ++ w <+: text :=
      ((List.prefix_append_right_inj _).2 (List.prefix_append w [c])).trans hfront.start
    obtain ⟨f, hrun⟩ := Machine.run_quoted_breaks q.admits_none {} (ascii q.opener) hw
      (hopen hnone hshorter) (mt Quote.viable_opener_append.2 hfront.breaks)
    rw [← Machine.run_opener_append hq] at hrun
    obtain ⟨behind, rfl⟩ := hfront.start
    refine ⟨_, f, hfront, leads_fault rfl (Machine.items_of_run_singleton hrun), ?_⟩
    rw [Scanner.run_eq, Scanner.found_machine, hrun]
  · obtain ⟨rest, rfl⟩ := htext
    obtain ⟨f, hitems⟩ := Machine.items_quoted_open q.admits_none {} (ascii q.opener)
      (Quote.viable_opener_append.1 (hviable _ List.prefix_rfl)) (hopen hnone List.prefix_rfl)
    rw [← Machine.items_of_run (Machine.run_opener hq)] at hitems
    exact ⟨f, (leads_fault_whole hitems).only⟩

/-- A string with an escape, a byte that is missing, and a string of bytes that is not closed. -/
theorem scan_quoted_escape :
    (Leads (ascii "\"\\n\"+") (ascii "\"\\n\"") (.literal .str) (ascii "\"\\n\"")) ∧
    (∃ front f, FirstBreak Quote.byte.language (ascii "b''") front ∧
      Leads (ascii "b''") front .error (Fault.message f) ∧
      (Scanner.run {} front).machine.state = .idle) ∧
    ∃ f, (scan (ascii "b\"")).tokens = [⟨0, 0, .error, some (Fault.message f), 0, 2⟩] := by
  have hstr : ascii "\"\\n\"" ∈ Quote.str.language := by
    have helement : ascii "\\n" ∈ Quote.str.element :=
      Or.inr ⟨ascii "\\", ⟨_, rfl, rfl⟩, ascii "n", Or.inl (Or.inl (Or.inl ⟨_, rfl, rfl⟩)), rfl⟩
    refine Quote.opener_append_mem_language.2 ⟨ascii "\\n", ?_, ascii "\"", ⟨_, rfl, rfl⟩, rfl⟩
    exact ⟨[ascii "\\n"], rfl, by simpa using helement⟩
  have hempty : ∀ v, ascii "'" ++ v ∉ Quote.byte.completions false .none := by
    intro v hv
    have hquotient : (Quote.byte.tail false).leftQuotient (ascii "'") = 0 :=
      Quote.leftQuotient_tail .byte false '\''.toUInt8
    exact Language.notMem_zero v (hquotient ▸ hv)
  refine ⟨?_, ?_, ?_⟩
  · exact ((scan_quoted .str nofun _ (by decide)).1 _ (by decide) hstr).1
  · refine (scan_quoted .byte nofun _ (by decide)).2.1 ?_ (ascii "b''") List.prefix_rfl ?_
    · intro w hw hmem
      obtain ⟨v, hv, rfl⟩ := Quote.exists_of_mem_language hmem
      have hshort : v <+: [] ++ ascii "'" := (List.prefix_append_right_inj (ascii "b'")).1 hw
      obtain hv' | hv' := List.prefix_concat_iff.1 hshort
      · exact hempty [] (hv' ▸ hv)
      · exact Quote.nil_notMem_completions _ _ _ (List.prefix_nil.1 hv' ▸ hv)
    · rintro ⟨v, hv⟩
      exact hempty v (Quote.opener_append_mem_language.1 hv)
  · refine (scan_quoted .byteStr nofun (ascii "b\"") (by decide)).2.2 ?_ ?_
    · intro w hw hmem
      obtain ⟨v, hv, rfl⟩ := Quote.exists_of_mem_language hmem
      have hv' : v <+: [] := (List.prefix_append_right_inj (ascii "b\"")).1 hw
      exact Quote.nil_notMem_completions _ _ _ (List.prefix_nil.1 hv' ▸ hv)
    · intro u hu
      exact Quote.byteStr.viable_opener.of_prefix hu

end RustScan.Scan
