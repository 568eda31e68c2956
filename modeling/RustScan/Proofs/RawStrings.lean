import Mathlib.Data.Nat.Find
import RustScan.Proofs.Leading

/-!
# Raw strings

A raw string ends at the first quote that enough hashes follow.  The scanner finds it with two
counters and without going back; this file compares it with the plain description.

* `RawPhase.closer n` — the quote and the hashes that close a raw string.  `RawPhase.Marks` says
  what a phase knows about the text read so far: how much of the closer it ends with.
* `Machine.step_raw_closer`, `Machine.step_raw_nonAscii`, `Machine.step_raw_text` — a byte that
  completes the closer, one that may not stand in a string of bytes, and any other, which keeps
  `RawPhase.Marks`.  `Machine.run_raw` goes on to a whole text without the closer.
* `scan_raw` — the main statement, also about hashes that no quote follows.
-/

set_option autoImplicit false

namespace RustScan.Scan

namespace RawPhase

/-- The quote and the hashes that close a raw string. -/
def closer (n : Nat) : Bytes := '"'.toUInt8 :: List.replicate n '#'.toUInt8

/-- The lead and the hashes in front of the first quote. -/
def hashLead (bytes : Bool) (n : Nat) : Bytes :=
  ascii (lead bytes) ++ List.replicate n '#'.toUInt8

/-- What opens a raw string. -/
def opening (bytes : Bool) (n : Nat) : Bytes := hashLead bytes n ++ ['"'.toUInt8]

theorem closer_succ (n : Nat) : closer (n + 1) = closer n ++ ['#'.toUInt8] := by
  rw [closer, closer, List.replicate_succ', List.cons_append]

theorem hashLead_succ (bytes : Bool) (n : Nat) :
    hashLead bytes (n + 1) = hashLead bytes n ++ ['#'.toUInt8] := by
  rw [hashLead, hashLead, List.replicate_succ', List.append_assoc]

/-! ## What a phase knows about the text -/

theorem concat_suffix_concat {front text : Bytes} {b c : UInt8} :
    front ++ [b] <:+ text ++ [c] ↔ c = b ∧ front <:+ text := by
  rw [List.suffix_concat_iff]
  constructor
  · rintro (hnil | ⟨front', hfront, hsuffix⟩)
    · exact absurd hnil (List.concat_ne_nil _ _)
    · obtain ⟨rfl, hb⟩ := List.append_inj' hfront rfl
      exact ⟨(List.singleton_inj.1 hb).symm, hsuffix⟩
  · rintro ⟨rfl, hsuffix⟩
    exact Or.inr ⟨front, rfl, hsuffix⟩

/-- The last byte of a closer is its quote, if there are no hashes. -/
theorem closer_zero_suffix_concat {text : Bytes} {c : UInt8} :
    closer 0 <:+ text ++ [c] ↔ c = '"'.toUInt8 :=
  (@concat_suffix_concat [] text _ c).trans (and_iff_left List.nil_suffix)

/-- Otherwise it is a hash. -/
theorem closer_succ_suffix_concat {n : Nat} {text : Bytes} {c : UInt8} :
    closer (n + 1) <:+ text ++ [c] ↔ c = '#'.toUInt8 ∧ closer n <:+ text := by
  rw [closer_succ, concat_suffix_concat]

/-- A text ends with a closer for one number of hashes only. -/
theorem closer_suffix_unique {m n : Nat} {text : Bytes} (hm : closer m <:+ text)
    (hn : closer n <:+ text) : m = n := by
  induction text using List.reverseRecOn generalizing m n with
  | nil => exact absurd (List.suffix_nil.1 hm) (List.cons_ne_nil _ _)
  | append_singleton text c ih =>
    cases m with
    | zero =>
      obtain rfl := closer_zero_suffix_concat.1 hm
      cases n with
      | zero => rfl
      | succ n => exact absurd (closer_succ_suffix_concat.1 hn).1 (by decide)
    | succ m =>
      obtain ⟨rfl, hm'⟩ := closer_succ_suffix_concat.1 hm
      cases n with
      | zero => exact absurd (closer_zero_suffix_concat.1 hn) (by decide)
      | succ n => exact congrArg (· + 1) (ih hm' (closer_succ_suffix_concat.1 hn).2)

/-- How much of the closer with `n` hashes a text ends with: all hashes that have been seen behind a
quote, and nothing in the phase of the text. -/
def Marks (n : Nat) (text : Bytes) : RawPhase → Prop
  | hashes => False
  | body => ∀ k, k < n → ¬ closer k <:+ text
  | closing seen => seen < n ∧ closer seen <:+ text

end RawPhase

namespace Machine

section Steps

variable {bytes : Bool} {n : Nat} {text : Bytes} {phase : RawPhase} (h : phase.Marks n text)
  (p : Position) (read : Bytes) {c : UInt8}
include h

/-- The last byte of the closer closes the string. -/
theorem step_raw_closer (hcloser : RawPhase.closer n <:+ text ++ [c]) :
    (inside p read (.raw bytes n phase)).step c =
      ([(Lexeme.ofText p (read ++ [c])).token (.literal (RawPhase.literal bytes))],
        ⟨p.after (read ++ [c]), .idle⟩) := by
  rw [← Lexeme.ofText_push]
  refine step_inside_close ?_
  cases phase with
  | hashes => exact h.elim
  | body =>
    cases n with
    | zero =>
      obtain rfl := RawPhase.closer_zero_suffix_concat.1 hcloser
      cases bytes <;> rfl
    | succ n =>
      exact absurd (RawPhase.closer_succ_suffix_concat.1 hcloser).2 (h n (Nat.lt_succ_self n))
  | closing seen =>
    obtain ⟨hseen, hsuffix⟩ := h
    cases n with
    | zero => exact absurd hseen (Nat.not_lt_zero seen)
    | succ n =>
      obtain ⟨rfl, hfront⟩ := RawPhase.closer_succ_suffix_concat.1 hcloser
      obtain rfl := RawPhase.closer_suffix_unique hsuffix hfront
      simp only [Mode.react, RawPhase.react, RawPhase.reactClosing, if_true]

/-- A byte that is not ASCII ends a string of bytes. -/
theorem step_raw_nonAscii (hbytes : bytes = true) (hc : isAscii c = false) :
    (inside p read (.raw bytes n phase)).step c =
      ([(Lexeme.ofText p (read ++ [c])).fault .nonAsciiRaw], ⟨p.after (read ++ [c]), .idle⟩) := by
  have hbody : (inside p read (.raw bytes n .body)).step c =
      ([(Lexeme.ofText p (read ++ [c])).fault .nonAsciiRaw], ⟨p.after (read ++ [c]), .idle⟩) := by
    rw [← Lexeme.ofText_push]
    refine step_inside_close ?_
    simp only [Mode.react, RawPhase.react, RawPhase.reactBody, hbytes, hc, Bool.not_false, and_self,
      if_true]
  cases phase with
  | hashes => exact h.elim
  | body => exact hbody
  | closing seen =>
    refine (step_inside_retry ?_).trans hbody
    have hquote : c ≠ '"'.toUInt8 := by
      rintro rfl
      exact absurd hc (by decide)
    have hhash : c ≠ '#'.toUInt8 := by
      rintro rfl
      exact absurd hc (by decide)
    simp only [Mode.react, RawPhase.react, RawPhase.reactClosing, if_neg hquote, if_neg hhash]

/-- Any other byte belongs to the text. -/
theorem step_raw_text (hcloser : ¬ RawPhase.closer n <:+ text ++ [c])
    (hc : bytes = true → isAscii c = true) :
    ∃ next : RawPhase, next.Marks n (text ++ [c]) ∧
      (inside p read (.raw bytes n phase)).step c =
        ([], inside p (read ++ [c]) (.raw bytes n next)) := by
  have hascii : ¬ (bytes = true ∧ (!isAscii c) = true) := by
    rintro ⟨hbytes, hc'⟩
    rw [hc hbytes] at hc'
    exact Bool.false_ne_true hc'
  have hplain : c ≠ '"'.toUInt8 → (inside p read (.raw bytes n .body)).step c =
      ([], inside p (read ++ [c]) (.raw bytes n .body)) := by
    intro hquote
    refine step_inside_extend ?_
    simp only [Mode.react, RawPhase.react, RawPhase.reactBody, if_neg hascii, if_neg hquote]
  cases phase with
  | hashes => exact h.elim
  | body =>
    by_cases hquote : c = '"'.toUInt8
    · have hn : n ≠ 0 := by
        rintro rfl
        exact hcloser (RawPhase.closer_zero_suffix_concat.2 hquote)
      refine ⟨.closing 0, ⟨Nat.pos_of_ne_zero hn, RawPhase.closer_zero_suffix_concat.2 hquote⟩, ?_⟩
      refine step_inside_extend ?_
      simp only [Mode.react, RawPhase.react, RawPhase.reactBody, if_neg hascii, if_pos hquote,
        if_neg hn]
    · refine ⟨.body, ?_, hplain hquote⟩
      rintro (_ | k) hk hsuffix
      · exact hquote (RawPhase.closer_zero_suffix_concat.1 hsuffix)
      · exact h k (Nat.lt_of_succ_lt hk) (RawPhase.closer_succ_suffix_concat.1 hsuffix).2
  | closing seen =>
    obtain ⟨hseen, hsuffix⟩ := h
    by_cases hhash : c = '#'.toUInt8
    · have hlonger : RawPhase.closer (seen + 1) <:+ text ++ [c] :=
        RawPhase.closer_succ_suffix_concat.2 ⟨hhash, hsuffix⟩
      have hn : seen + 1 ≠ n := by
        rintro rfl
        exact hcloser hlonger
      refine ⟨.closing (seen + 1), ⟨Nat.lt_of_le_of_ne hseen hn, hlonger⟩, ?_⟩
      refine step_inside_extend ?_
      simp only [Mode.react, RawPhase.react, RawPhase.reactClosing, if_pos hhash, if_neg hn]
    · by_cases hquote : c = '"'.toUInt8
      · refine ⟨.closing 0, ⟨Nat.zero_lt_of_lt hseen,
          RawPhase.closer_zero_suffix_concat.2 hquote⟩, step_inside_extend ?_⟩
        simp only [Mode.react, RawPhase.react, RawPhase.reactClosing, if_neg hhash, if_pos hquote]
      · refine ⟨.body, ?_, (step_inside_retry ?_).trans (hplain hquote)⟩
        · rintro (_ | k) hk hsuffix
          · exact hquote (RawPhase.closer_zero_suffix_concat.1 hsuffix)
          · exact hhash (RawPhase.closer_succ_suffix_concat.1 hsuffix).1
        · simp only [Mode.react, RawPhase.react, RawPhase.reactClosing, if_neg hhash,
            if_neg hquote]

end Steps

/-- **A text without the closer is read through.** -/
theorem run_raw {bytes : Bool} {n : Nat} {text : Bytes} (hcloser : ¬ RawPhase.closer n <:+: text)
    (hascii : bytes = true → ∀ c ∈ text, isAscii c = true) (p : Position) (read : Bytes) :
    ∃ phase : RawPhase, phase.Marks n text ∧
      (inside p read (.raw bytes n .body)).run text =
        ([], inside p (read ++ text) (.raw bytes n phase)) := by
  induction text using List.reverseRecOn with
  | nil =>
    refine ⟨.body, ?_, by simp [run]⟩
    intro k _ hsuffix
    exact List.cons_ne_nil _ _ (List.suffix_nil.1 hsuffix)
  | append_singleton text c ih =>
    rw [List.infix_concat_iff, not_or] at hcloser
    obtain ⟨phase, hphase, hrun⟩ := ih hcloser.2 fun hbytes d hd =>
      hascii hbytes d (List.mem_append_left _ hd)
    obtain ⟨next, hnext, hstep⟩ := step_raw_text hphase p (read ++ text) hcloser.1 fun hbytes =>
      hascii hbytes c (by simp)
    refine ⟨next, hnext, ?_⟩
    rw [run_append, hrun, run, hstep]
    simp [run]

/-- The hashes are counted. -/
theorem run_hashLead (bytes : Bool) (n : Nat) :
    ({} : Machine).run (RawPhase.hashLead bytes (n + 1)) =
      ([], inside {} (RawPhase.hashLead bytes (n + 1)) (.raw bytes (n + 1) .hashes)) := by
  induction n with
  | zero => cases bytes <;> rfl
  | succ n ih =>
    have hstep : (inside {} (RawPhase.hashLead bytes (n + 1)) (.raw bytes (n + 1) .hashes)).step
        '#'.toUInt8 = ([], inside {} (RawPhase.hashLead bytes (n + 1) ++ ['#'.toUInt8])
          (.raw bytes (n + 2) .hashes)) := step_inside_extend rfl
    rw [RawPhase.hashLead_succ, run_append, ih, run, hstep]
    rfl

/-- Behind the hashes a quote opens the string. -/
theorem run_opening (bytes : Bool) (n : Nat) :
    ({} : Machine).run (RawPhase.opening bytes n) =
      ([], inside {} (RawPhase.opening bytes n) (.raw bytes n .body)) := by
  cases n with
  | zero => cases bytes <;> rfl
  | succ n =>
    have hstep : (inside {} (RawPhase.hashLead bytes (n + 1)) (.raw bytes (n + 1) .hashes)).step
        '"'.toUInt8 = ([], inside {} (RawPhase.opening bytes (n + 1)) (.raw bytes (n + 1) .body)) :=
      step_inside_extend rfl
    rw [RawPhase.opening, run_append, run_hashLead, run, hstep]
    rfl


section Items

variable {bytes : Bool} {n : Nat} {text : Bytes} (hcloser : ¬ RawPhase.closer n <:+: text)
  (hascii : bytes = true → ∀ c ∈ text, isAscii c = true) (p : Position) (read : Bytes)
include hcloser hascii

/-- What is found in a raw string that is closed. -/
theorem items_raw_closer {c : UInt8} (hc : RawPhase.closer n <:+ text ++ [c]) (rest : Bytes) :
    (inside p read (.raw bytes n .body)).items (text ++ c :: rest) =
      (Lexeme.ofText p (read ++ text ++ [c])).token (.literal (RawPhase.literal bytes)) ::
        items ⟨p.after (read ++ text ++ [c]), .idle⟩ rest := by
  obtain ⟨phase, hphase, hrun⟩ := run_raw hcloser hascii p read
  rw [items_of_run hrun, items_cons, step_raw_closer hphase p (read ++ text) hc]
  rfl

/-- What is found in a string of bytes up to a byte that is not ASCII. -/
theorem items_raw_nonAscii {c : UInt8} (hbytes : bytes = true) (hc : isAscii c = false)
    (rest : Bytes) :
    (inside p read (.raw bytes n .body)).items (text ++ c :: rest) =
      (Lexeme.ofText p (read ++ text ++ [c])).fault .nonAsciiRaw ::
        items ⟨p.after (read ++ text ++ [c]), .idle⟩ rest := by
  obtain ⟨phase, hphase, hrun⟩ := run_raw hcloser hascii p read
  rw [items_of_run hrun, items_cons, step_raw_nonAscii hphase p (read ++ text) hbytes hc]
  rfl

/-- What is found in a raw string that is not closed. -/
theorem items_raw_open :
    (inside p read (.raw bytes n .body)).items text =
      [(Lexeme.ofText p (read ++ text)).fault (.openRaw bytes)] := by
  obtain ⟨phase, hphase, hrun⟩ := run_raw hcloser hascii p read
  have hopen : (Mode.raw bytes n phase).isOpenEnded = true ∧
      (Mode.raw bytes n phase).lineFault? = none := by
    cases phase with
    | hashes => exact hphase.elim
    | body => exact ⟨rfl, rfl⟩
    | closing seen => exact ⟨rfl, rfl⟩
  rw [← List.append_nil text, items_of_run hrun, List.append_nil]
  exact items_inside_nil_of_lineFault? p (read ++ text) hopen.1 hopen.2

end Items

/-- What is found behind hashes that no quote follows. -/
theorem items_hashLead (bytes : Bool) (n : Nat) {rest : Bytes}
    (hhash : rest.head? ≠ some '#'.toUInt8) (hquote : rest.head? ≠ some '"'.toUInt8)
    (hident : ¬ (bytes = false ∧ n + 1 = 1 ∧ rest.head?.any isWordStart = true)) :
    ({} : Machine).items (RawPhase.hashLead bytes (n + 1) ++ rest) =
      (Lexeme.ofText {} (RawPhase.hashLead bytes (n + 1))).fault .noRawQuote ::
        items ⟨({} : Position).after (RawPhase.hashLead bytes (n + 1)), .idle⟩ rest := by
  have hcolumn : (({} : Position).after (RawPhase.hashLead bytes (n + 1))).column ≠ 0 := by
    rw [RawPhase.hashLead_succ]
    exact after_concat_column_ne_zero _ _ (by decide)
  rw [items_of_run (run_hashLead bytes n)]
  refine items_inside_cut hcolumn ?_ (Lexeme.fault_covers _ _)
  rw [Ne, ← headD_eq_iff (by decide)] at hhash hquote
  rw [← apply_headD (by decide)] at hident
  have hword : ¬ (n + 1 = 1 ∧ bytes = false ∧ isWordStart (rest.headD Bytes.lf) = true) :=
    fun h => hident ⟨h.2.1, h.1, h.2.2⟩
  simp only [Mode.react, RawPhase.react, RawPhase.reactHashes, if_neg hhash, if_neg hquote,
    if_neg hword]

/-- What is found behind one hash that a letter follows. -/
theorem items_rawIdent {rest : Bytes} (h : rest.head?.any isWordStart = true) :
    ({} : Machine).items (RawPhase.hashLead false 1 ++ rest) =
      (Lexeme.ofText {} (RawPhase.hashLead false 1 ++ rest.takeWhile isWordByte)).token .rawIdent ::
        items ⟨Position.after {} (RawPhase.hashLead false 1 ++ rest.takeWhile isWordByte), .idle⟩
          (rest.dropWhile isWordByte) := by
  obtain _ | ⟨c, rest⟩ := rest
  · exact absurd h Bool.false_ne_true
  have hstart : isWordStart c = true := h
  have hword : isWordByte c = true := by rw [isWordByte, hstart, Bool.true_or]
  have hne : ∀ d : UInt8, isWordStart d = false → c ≠ d := by
    rintro d hd rfl
    exact Bool.false_ne_true (hd.symm.trans hstart)
  have hhash : c ≠ '#'.toUInt8 := hne _ (by decide)
  have hquote : c ≠ '"'.toUInt8 := hne _ (by decide)
  have hreact : (Mode.raw false 1 .hashes).react (.ofText {} (RawPhase.hashLead false 1)) c =
      .extend (.ofText {} (RawPhase.hashLead false 1)) c (.word .rawIdent) := by
    simp only [Mode.react, RawPhase.react, RawPhase.reactHashes, if_neg hhash, if_neg hquote,
      hstart, and_self, if_true]
  have hcolumn := after_concat_column_ne_zero {} (RawPhase.hashLead false 1)
    (hne Bytes.lf (by decide))
  have hspan := @items_inside_span {} (RawPhase.hashLead false 1 ++ [c]) Unit
    (fun _ => .word .rawIdent) (fun a _ => a) isWordByte (fun _ lx => lx.token .rawIdent)
    (by decide) (fun _ lx b hb => if_pos hb) (fun _ lx b hb => if_neg (by simp [hb]))
    (fun _ lx => lx.token_covers rfl (by decide)) hcolumn rest ()
  rw [items_of_run (run_hashLead false 0), items_inside_extend hreact, hspan,
    List.takeWhile_cons_of_pos hword, List.dropWhile_cons_of_pos hword, List.append_assoc]
  rfl

end Machine

/-! ## The first token -/

namespace RawPhase

/-- The first closer in a text ends behind `k` bytes. -/
structure ClosesAt (n : Nat) (text : Bytes) (k : Nat) : Prop where
  suffix : closer n <:+ text.take k
  first : ∀ j < k, ¬ closer n <:+ text.take j

variable {n k : Nat} {text : Bytes}

/-- An occurrence of the closer ends somewhere. -/
theorem closer_infix_iff :
    closer n <:+: text ↔ ∃ k, k ≤ text.length ∧ closer n <:+ text.take k := by
  rw [List.infix_iff_suffix_prefix]
  constructor
  · rintro ⟨front, hsuffix, hprefix⟩
    refine ⟨front.length, hprefix.length_le, ?_⟩
    rwa [← List.prefix_iff_eq_take.1 hprefix]
  · rintro ⟨k, -, hsuffix⟩
    exact ⟨_, hsuffix, List.take_prefix k text⟩

theorem exists_closesAt (h : closer n <:+: text) : ∃ k, ClosesAt n text k := by
  obtain ⟨k, -, hk⟩ := closer_infix_iff.1 h
  have hex : ∃ k, closer n <:+ text.take k := ⟨k, hk⟩
  exact ⟨Nat.find hex, Nat.find_spec hex, fun j hj => Nat.find_min hex hj⟩

namespace ClosesAt

/-- No closer ends further in front. -/
theorem not_infix (h : ClosesAt n text k) {j : Nat} (hj : j < k) :
    ¬ closer n <:+: text.take j := by
  rw [closer_infix_iff]
  rintro ⟨i, hi, hsuffix⟩
  have hij : i ≤ j := hi.trans (List.length_take_le j text)
  rw [List.take_take, Nat.min_eq_left hij] at hsuffix
  exact h.first i (Nat.lt_of_le_of_lt hij hj) hsuffix

/-- The first closer has a last byte. -/
theorem exists_last (h : ClosesAt n text k) :
    ∃ j c, k = j + 1 ∧ text[j]? = some c := by
  cases k with
  | zero => exact absurd (List.suffix_nil.1 h.suffix) (List.cons_ne_nil _ _)
  | succ j =>
    cases hc : text[j]? with
    | some c => exact ⟨j, c, rfl, hc⟩
    | none =>
      have htake : text.take (j + 1) = text.take j := by
        rw [List.take_add_one, hc, Option.toList_none, List.append_nil]
      exact absurd (htake ▸ h.suffix) (h.first j (Nat.lt_succ_self j))

end ClosesAt
end RawPhase

section Leads

variable {bytes : Bool} {n : Nat} {rest : Bytes}

/-- A text up to one of its bytes, and that byte. -/
theorem take_append_cons {j : Nat} {c : UInt8} (hc : rest[j]? = some c) :
    rest.take (j + 1) = rest.take j ++ [c] ∧ rest.take j ++ c :: rest.drop (j + 1) = rest := by
  have htake : rest.take (j + 1) = rest.take j ++ [c] := by
    rw [List.take_add_one, hc, Option.toList_some]
  refine ⟨htake, ?_⟩
  rw [← List.singleton_append, ← List.append_assoc, ← htake, List.take_append_drop]

theorem leads_raw_closer {k : Nat} (hk : RawPhase.ClosesAt n rest k)
    (hascii : bytes = true → ∀ c ∈ rest.take k, isAscii c = true) :
    Leads (RawPhase.opening bytes n ++ rest) (RawPhase.opening bytes n ++ rest.take k)
      (.literal (RawPhase.literal bytes)) (RawPhase.opening bytes n ++ rest.take k) := by
  obtain ⟨j, c, rfl, hc⟩ := hk.exists_last
  obtain ⟨htake, hrest⟩ := take_append_cons hc
  have hfront : bytes = true → ∀ b ∈ rest.take j, isAscii b = true := fun hbytes b hb =>
    hascii hbytes b (htake ▸ List.mem_append_left _ hb)
  have hitems := Machine.items_raw_closer (hk.not_infix (Nat.lt_succ_self j)) hfront {}
    (RawPhase.opening bytes n) (htake ▸ hk.suffix) (rest.drop (j + 1))
  rw [hrest, List.append_assoc, ← htake] at hitems
  rw [← Machine.items_of_run (Machine.run_opening bytes n)] at hitems
  refine leads_token ?_ rfl nofun hitems
  rw [List.append_assoc, List.take_append_drop]

theorem leads_raw_nonAscii {j : Nat} {c : UInt8} (hbytes : bytes = true) (hc : rest[j]? = some c)
    (hascii : isAscii c = false) (hfront : ∀ b ∈ rest.take j, isAscii b = true)
    (hcloser : ¬ RawPhase.closer n <:+: rest.take j) :
    Leads (RawPhase.opening bytes n ++ rest) (RawPhase.opening bytes n ++ rest.take (j + 1))
      .error Fault.nonAsciiRaw.message := by
  obtain ⟨htake, hrest⟩ := take_append_cons hc
  have hitems := Machine.items_raw_nonAscii hcloser (fun _ => hfront) {}
    (RawPhase.opening bytes n) hbytes hascii (rest.drop (j + 1))
  rw [hrest, List.append_assoc, ← htake] at hitems
  rw [← Machine.items_of_run (Machine.run_opening bytes n)] at hitems
  refine leads_fault ?_ hitems
  rw [List.append_assoc, List.take_append_drop]

theorem leads_raw_open (hcloser : ¬ RawPhase.closer n <:+: rest)
    (hascii : bytes = true → ∀ c ∈ rest, isAscii c = true) :
    Leads (RawPhase.opening bytes n ++ rest) (RawPhase.opening bytes n ++ rest) .error
      (Fault.openRaw bytes).message :=
  leads_fault_whole ((Machine.items_of_run (Machine.run_opening bytes n)).trans
    (Machine.items_raw_open hcloser hascii {} _))

end Leads

/-- **Where a raw string ends.**  It ends at the first closer with as many hashes as it opens with.
A string of bytes is malformed up to the first byte in front of there that is not ASCII, and a
string without a closer up to the end of the input.  Hashes that lead to no quote are a raw
identifier, or malformed themselves. -/
theorem scan_raw (bytes : Bool) (n : Nat) (rest : Bytes) :
    (RawPhase.closer n <:+: rest → ∃ k, RawPhase.ClosesAt n rest k ∧
      ((bytes = true → ∀ c ∈ rest.take k, isAscii c = true) →
        Leads (RawPhase.opening bytes n ++ rest) (RawPhase.opening bytes n ++ rest.take k)
          (.literal (RawPhase.literal bytes)) (RawPhase.opening bytes n ++ rest.take k))) ∧
    (∀ j c, bytes = true → rest[j]? = some c → isAscii c = false →
      (∀ b ∈ rest.take j, isAscii b = true) → ¬ RawPhase.closer n <:+: rest.take j →
      Leads (RawPhase.opening bytes n ++ rest) (RawPhase.opening bytes n ++ rest.take (j + 1))
        .error Fault.nonAsciiRaw.message) ∧
    (¬ RawPhase.closer n <:+: rest → (bytes = true → ∀ c ∈ rest, isAscii c = true) →
      (scan (RawPhase.opening bytes n ++ rest)).tokens =
        [⟨0, 0, .error, some (Fault.openRaw bytes).message, 0,
          (RawPhase.opening bytes n ++ rest).length.toUInt32⟩]) ∧
    (1 ≤ n → rest.head? ≠ some '#'.toUInt8 → rest.head? ≠ some '"'.toUInt8 →
      if bytes = false ∧ n = 1 ∧ rest.head?.any isWordStart then
        Leads (RawPhase.hashLead bytes n ++ rest)
          (RawPhase.hashLead bytes n ++ rest.takeWhile isWordByte) .rawIdent
          (RawPhase.hashLead bytes n ++ rest.takeWhile isWordByte)
      else
        Leads (RawPhase.hashLead bytes n ++ rest) (RawPhase.hashLead bytes n) .error
          Fault.noRawQuote.message) := by
  refine ⟨fun hcloser => ?_, fun j c => leads_raw_nonAscii,
    fun hcloser hascii => (leads_raw_open hcloser hascii).only, fun hn hhash hquote => ?_⟩
  · obtain ⟨k, hk⟩ := RawPhase.exists_closesAt hcloser
    exact ⟨k, hk, leads_raw_closer hk⟩
  · obtain ⟨n, rfl⟩ := Nat.exists_eq_add_of_le' hn
    split_ifs with hident
    · obtain ⟨rfl, hone, hword⟩ := hident
      obtain rfl : n = 0 := Nat.succ.inj hone
      refine leads_token ?_ rfl nofun (Machine.items_rawIdent hword)
      rw [List.append_assoc, List.takeWhile_append_dropWhile]
    · exact leads_fault rfl (Machine.items_hashLead bytes n hhash hquote hident)

/-- Quotes with too few hashes, a byte that is not ASCII, no closer, and hashes alone. -/
theorem scan_raw_hashes :
    (∃ k, RawPhase.ClosesAt 1 (ascii "a\"b\"##") k ∧
      Leads (RawPhase.opening false 1 ++ ascii "a\"b\"##")
        (RawPhase.opening false 1 ++ (ascii "a\"b\"##").take k) (.literal .rawStr)
        (RawPhase.opening false 1 ++ (ascii "a\"b\"##").take k)) ∧
    Leads (RawPhase.opening true 0 ++ [0x61, 0xc3, 0xa9]) (RawPhase.opening true 0 ++ [0x61, 0xc3])
      .error Fault.nonAsciiRaw.message ∧
    (scan (RawPhase.opening false 1 ++ ascii "a\"")).tokens =
      [⟨0, 0, .error, some (Fault.openRaw false).message, 0, 5⟩] ∧
    Leads (RawPhase.hashLead false 1 ++ ascii "if(") (RawPhase.hashLead false 1 ++ ascii "if")
      .rawIdent (RawPhase.hashLead false 1 ++ ascii "if") ∧
    Leads (RawPhase.hashLead true 1 ++ ascii "x") (RawPhase.hashLead true 1) .error
      Fault.noRawQuote.message := by
  refine ⟨?_, ?_, ?_, ?_, ?_⟩
  · obtain ⟨k, hk, hleads⟩ := (scan_raw false 1 (ascii "a\"b\"##")).1
      ⟨ascii "a\"b", ascii "#", rfl⟩
    exact ⟨k, hk, hleads nofun⟩
  · have hascii : ∀ b ∈ [0x61], isAscii b = true := List.forall_mem_singleton.2 rfl
    exact (scan_raw true 0 [0x61, 0xc3, 0xa9]).2.1 1 0xc3 rfl rfl rfl hascii (by decide)
  · exact (scan_raw false 1 (ascii "a\"")).2.2.1 (by decide) nofun
  · exact (scan_raw false 1 (ascii "if(")).2.2.2 (by decide) (by decide) (by decide)
  · exact (scan_raw true 1 (ascii "x")).2.2.2 (by decide) (by decide) (by decide)

end RustScan.Scan
