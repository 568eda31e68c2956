import RustScan.Proofs.Leading

/-!
# Numbers

Where a number ends is said here by the longest runs of digits, in the order in which its parts
stand in the text, and without the modes of the scanner.

* `Numeral.whole`, `Numeral.fraction`, `Numeral.mantissa`, `Numeral.exponent` — the parts of a
  decimal number.  `Numeral.mantissa_append_behindMantissa` puts a text together again.
* `Machine.items_counted` — digits of which at least one must be there: those behind a radix prefix,
  and those of an exponent.
* `Machine.items_point_left`, `Machine.items_exponentLead` — the two places in which a number ends
  in front of its last byte.  In front of a range or a name the scanner goes on as if it had not
  read the point; the letter of an exponent without a sign is malformed.
* `scan_number` — the main statement, assembled from `Machine.items_numeral_radix` and
  `Machine.items_numeral`.
-/

set_option autoImplicit false

namespace RustScan.Scan

/-! ## The parts of a number -/

/-- A digit of the number system, or the underscore between digits. -/
def Radix.isDigitOrGap (r : Radix) (c : UInt8) : Bool := r.isDigit c || c == '_'.toUInt8

theorem NumberMode.isDigitOrGap_of_isDigit {c : UInt8} (h : isDigit c = true) :
    isDigitOrGap c = true := by
  rw [isDigitOrGap, h, Bool.true_or]

namespace Numeral

/-- The number system that the first two bytes of a text choose. -/
def radix? : Bytes → Option Radix
  | zero :: letter :: _ => if zero = '0'.toUInt8 then Radix.ofLetter? letter else none
  | _ => none

/-- The decimal digits that a text begins with. -/
def whole (text : Bytes) : Bytes := text.takeWhile NumberMode.isDigitOrGap

/-- What stands behind these digits. -/
def behindWhole (text : Bytes) : Bytes := text.dropWhile NumberMode.isDigitOrGap

/-- The point behind the digits and the digits behind the point, if it leads to a digit. -/
def fraction (text : Bytes) : Bytes :=
  if (behindWhole text).head? = some '.'.toUInt8 ∧ (behindWhole text)[1]?.any isDigit then
    '.'.toUInt8 :: ((behindWhole text).drop 1).takeWhile NumberMode.isDigitOrGap
  else []

/-- The number in front of an exponent. -/
def mantissa (text : Bytes) : Bytes := whole text ++ fraction text

/-- The form of this number. -/
def form (text : Bytes) : Literal := if fraction text = [] then .decimal else .float

/-- What stands behind this number. -/
def behindMantissa (text : Bytes) : Bytes := text.drop (mantissa text).length

/-- The digits behind the letter and the sign of an exponent. -/
def exponent (text : Bytes) : Bytes :=
  ((behindMantissa text).drop 2).takeWhile NumberMode.isDigitOrGap

/-- The number with its exponent. -/
def signed (text : Bytes) : Bytes := mantissa text ++ (behindMantissa text).take 2 ++ exponent text

/-- The number with its radix prefix. -/
def prefixed (r : Radix) (text : Bytes) : Bytes :=
  text.take 2 ++ (text.drop 2).takeWhile r.isDigitOrGap

/-! ### How they follow each other -/

variable {text : Bytes}

theorem whole_append_behindWhole (text : Bytes) : whole text ++ behindWhole text = text :=
  List.takeWhile_append_dropWhile

theorem lf_notMem_whole (text : Bytes) : Bytes.lf ∉ whole text := by
  intro hmem
  exact absurd (List.mem_takeWhile_imp hmem) (by decide)

theorem whole_ne_nil (h : text.head?.any isDigit = true) : whole text ≠ [] := by
  obtain _ | ⟨d, rest⟩ := text
  · exact absurd h Bool.false_ne_true
  have hgap : NumberMode.isDigitOrGap d = true := NumberMode.isDigitOrGap_of_isDigit h
  rw [whole, List.takeWhile_cons_of_pos hgap]
  exact List.cons_ne_nil _ _

theorem behindMantissa_eq {rest : Bytes} (h : mantissa text ++ rest = text) :
    behindMantissa text = rest := by
  have hdrop := congrArg (List.drop (mantissa text).length) h
  rwa [List.drop_left, eq_comm] at hdrop

/-- A point that leads to a digit, and what is behind the fraction. -/
theorem fraction_append {more : Bytes} (hpoint : behindWhole text = '.'.toUInt8 :: more)
    (hdigit : more.head?.any isDigit = true) :
    fraction text = '.'.toUInt8 :: more.takeWhile NumberMode.isDigitOrGap ∧
      behindMantissa text = more.dropWhile NumberMode.isDigitOrGap := by
  have hfraction : fraction text = '.'.toUInt8 :: more.takeWhile NumberMode.isDigitOrGap := by
    rw [fraction, hpoint, if_pos]
    · rfl
    · exact ⟨rfl, List.head?_eq_getElem? ▸ hdigit⟩
  refine ⟨hfraction, behindMantissa_eq ?_⟩
  rw [mantissa, hfraction, List.append_assoc, List.cons_append, List.takeWhile_append_dropWhile,
    ← hpoint, whole_append_behindWhole]

/-- Without a fraction the mantissa is whole. -/
theorem mantissa_of_fraction_eq_nil (h : fraction text = []) :
    mantissa text = whole text ∧ behindMantissa text = behindWhole text := by
  have hmantissa : mantissa text = whole text := by rw [mantissa, h, List.append_nil]
  exact ⟨hmantissa, behindMantissa_eq (hmantissa ▸ whole_append_behindWhole text)⟩

/-- **The mantissa, and what is behind it.** -/
theorem mantissa_append_behindMantissa (text : Bytes) :
    mantissa text ++ behindMantissa text = text := by
  by_cases h : (behindWhole text).head? = some '.'.toUInt8 ∧ (behindWhole text)[1]?.any isDigit
  · obtain ⟨more, hmore⟩ := List.head?_eq_some_iff.1 h.1
    have hdigit : more.head?.any isDigit = true := by
      rw [List.head?_eq_getElem?]
      simpa [hmore] using h.2
    obtain ⟨hfraction, hbehind⟩ := fraction_append hmore hdigit
    rw [mantissa, hfraction, hbehind, List.append_assoc, List.cons_append,
      List.takeWhile_append_dropWhile, ← hmore, whole_append_behindWhole]
  · obtain ⟨hmantissa, hbehind⟩ := mantissa_of_fraction_eq_nil (if_neg h)
    rw [hmantissa, hbehind, whole_append_behindWhole]

theorem lf_notMem_mantissa (text : Bytes) : Bytes.lf ∉ mantissa text := by
  rw [mantissa, fraction]
  split_ifs
  · simpa [lf_notMem_whole] using ⟨by decide, lf_notMem_whole _⟩
  · simpa using lf_notMem_whole text

end Numeral

/-- A name does not begin with a digit. -/
theorem isDigit_eq_false_of_isWordStart {c : UInt8} (h : isWordStart c = true) :
    isDigit c = false := by
  simp only [isWordStart, Bool.or_eq_true, Bool.and_eq_true, decide_eq_true_eq, beq_iff_eq] at h
  rw [isDigit, Bool.and_eq_false_iff, decide_eq_false_iff_not, decide_eq_false_iff_not]
  right
  intro hdigit
  obtain (⟨hlow, -⟩ | ⟨hlow, -⟩) | rfl := h
  · exact absurd (UInt8.le_trans hlow hdigit) (by decide)
  · exact absurd (UInt8.le_trans hlow hdigit) (by decide)
  · exact absurd hdigit (by decide)

theorem foldl_or_eq_any (f : UInt8 → Bool) (text : Bytes) (seen : Bool) :
    text.foldl (fun seen c => seen || f c) seen = (seen || text.any f) := by
  induction text generalizing seen with
  | nil => simp
  | cons c text ih => rw [List.foldl_cons, ih, List.any_cons, Bool.or_assoc]

namespace Lexeme

@[simp] theorem ofText_front (p : Position) (text : Bytes) (c : UInt8) :
    (ofText p (text ++ [c])).front = ofText p text := by
  simp [ofText, front]

/-- On a single line the last byte is a lexeme of its own. -/
theorem ofText_last (p : Position) {text : Bytes} {c : UInt8} (hlf : Bytes.lf ∉ text)
    (hc : c ≠ Bytes.lf) : (ofText p (text ++ [c])).last = ofText (p.after text) [c] :=
  last_eq rfl (by simpa [hc.symm] using hlf)

end Lexeme

namespace Machine

/-! ## Digits that count -/

/-- A number that takes digits and gaps, and is malformed without a digit. -/
theorem items_counted {mode : Bool → NumberMode} {isDigit : UInt8 → Bool} {l : Literal} {f : Fault}
    (hlf : isDigit Bytes.lf = false)
    (hreact : ∀ seen lx c, (mode seen).react lx c =
      if isDigit c then .extend lx c (.number (mode true))
      else if c = '_'.toUInt8 then .extend lx c (.number (mode seen))
      else if seen then .cut (lx.token (.literal l)) else .cut (lx.fault f))
    {isBody : UInt8 → Bool} (hbody : ∀ c, isBody c = (isDigit c || c == '_'.toUInt8))
    {p : Position} {text : Bytes} (hcolumn : (p.after text).column ≠ 0) (rest : Bytes) :
    (inside p text (.number (mode false))).items rest =
      (if (rest.takeWhile isBody).any isDigit then
        (Lexeme.ofText p (text ++ rest.takeWhile isBody)).token (.literal l)
      else (Lexeme.ofText p (text ++ rest.takeWhile isBody)).fault f) ::
        items ⟨p.after (text ++ rest.takeWhile isBody), .idle⟩ (rest.dropWhile isBody) := by
  have hspan := @items_inside_span p text Bool (fun seen => .number (mode seen))
    (fun seen c => seen || isDigit c) isBody
    (fun seen lx => if seen then lx.token (.literal l) else lx.fault f) ?_ ?_ ?_ ?_ hcolumn rest
    false
  · rwa [foldl_or_eq_any, Bool.false_or] at hspan
  · rw [hbody, hlf]
    rfl
  · intro seen lx c hc
    rw [hbody, Bool.or_eq_true, beq_iff_eq] at hc
    refine (hreact seen lx c).trans ?_
    by_cases hdigit : isDigit c = true
    · rw [if_pos hdigit, hdigit, Bool.or_true]
    · rw [if_neg hdigit, if_pos (hc.resolve_left hdigit), Bool.eq_false_iff.2 hdigit,
        Bool.or_false]
  · intro seen lx c hc
    rw [hbody, Bool.or_eq_false_iff, beq_eq_false_iff_ne] at hc
    refine (hreact seen lx c).trans ?_
    rw [if_neg (by simp [hc.1]), if_neg hc.2]
    cases seen <;> rfl
  · intro seen lx
    cases seen
    · exact lx.fault_covers f
    · exact lx.literal_covers l

section Digits

variable {p : Position} {text : Bytes} {rest : Bytes}

/-- A number with a radix prefix. -/
theorem items_radix (r : Radix) (hcolumn : (p.after text).column ≠ 0) (rest : Bytes) :
    (inside p text (.number (.radix r false))).items rest =
      (if (rest.takeWhile r.isDigitOrGap).any r.isDigit then
        (Lexeme.ofText p (text ++ rest.takeWhile r.isDigitOrGap)).token (.literal r.literal)
      else (Lexeme.ofText p (text ++ rest.takeWhile r.isDigitOrGap)).fault (.noRadixDigit r)) ::
        items ⟨p.after (text ++ rest.takeWhile r.isDigitOrGap), .idle⟩
          (rest.dropWhile r.isDigitOrGap) :=
  @items_counted (.radix r) r.isDigit r.literal (.noRadixDigit r) (by cases r <;> decide)
    (fun _ _ _ => rfl) r.isDigitOrGap (fun _ => rfl) p text hcolumn rest

/-- The digits of an exponent, behind its letter and its sign. -/
theorem items_exponent (hsign : rest[1]?.any NumberMode.isSign = true) :
    (inside p (text ++ rest.take 2) (.number (.exponent false))).items (rest.drop 2) =
      (if ((rest.drop 2).takeWhile NumberMode.isDigitOrGap).any isDigit then
        (Lexeme.ofText p (text ++ rest.take 2 ++
          (rest.drop 2).takeWhile NumberMode.isDigitOrGap)).token (.literal .float)
      else (Lexeme.ofText p (text ++ rest.take 2 ++
        (rest.drop 2).takeWhile NumberMode.isDigitOrGap)).fault .noExponentDigit) ::
        items ⟨p.after (text ++ rest.take 2 ++
          (rest.drop 2).takeWhile NumberMode.isDigitOrGap), .idle⟩
          ((rest.drop 2).dropWhile NumberMode.isDigitOrGap) := by
  match rest with
  | [] => exact absurd hsign Bool.false_ne_true
  | [_] => exact absurd hsign Bool.false_ne_true
  | e :: sign :: rest =>
    have hcolumn : (p.after (text ++ [e, sign])).column ≠ 0 := by
      rw [← List.singleton_append, ← List.append_assoc]
      exact after_concat_column_ne_zero p _ (@ne_lf_of_class NumberMode.isSign (by decide) _ hsign)
    exact @items_counted .exponent isDigit .float .noExponentDigit (by decide) (fun _ _ _ => rfl)
      NumberMode.isDigitOrGap (fun _ => rfl) p _ hcolumn rest

/-- The digits of a fraction. -/
theorem items_fraction (p : Position) (text rest : Bytes) :
    (inside p text (.number .fraction)).items rest =
      (inside p (text ++ rest.takeWhile NumberMode.isDigitOrGap) (.number .fraction)).items
        (rest.dropWhile NumberMode.isDigitOrGap) :=
  @items_inside_takeWhile Unit (fun _ => .number .fraction) (fun a _ => a) NumberMode.isDigitOrGap
    (fun _ _ _ hc => if_pos hc) p text rest ()

end Digits

/-! ## Behind the mantissa -/

/-- What is found in a number whose mantissa is `text`. -/
def mantissaItems (p : Position) (text : Bytes) (form : Literal) (rest : Bytes) : List Item :=
  if rest.head?.any NumberMode.isExponentLetter then
    if rest[1]?.any NumberMode.isSign then
      (inside p (text ++ rest.take 2) (.number (.exponent false))).items (rest.drop 2)
    else (Lexeme.ofText p text).token (.literal form) ::
      (Lexeme.ofText (p.after text) (rest.take 1)).fault .noExponentSign ::
        items ⟨p.after (text ++ rest.take 1), .idle⟩ (rest.drop 1)
  else (Lexeme.ofText p text).token (.literal form) :: items ⟨p.after text, .idle⟩ rest

section Mantissa

variable {p : Position} {text : Bytes} (hlf : Bytes.lf ∉ text)
include hlf

/-- A letter without a sign is malformed, and the number ends in front of it. -/
theorem items_exponentLead {pointed : Bool} {e : UInt8} (he : NumberMode.isExponentLetter e = true)
    (rest : Bytes) :
    (inside p (text ++ [e]) (.number (.exponentLead pointed))).items rest =
      if rest.head?.any NumberMode.isSign then
        (inside p (text ++ [e] ++ rest.take 1) (.number (.exponent false))).items (rest.drop 1)
      else (Lexeme.ofText p text).token (.literal (if pointed then .float else .decimal)) ::
        (Lexeme.ofText (p.after text) [e]).fault .noExponentSign ::
          items ⟨p.after (text ++ [e]), .idle⟩ rest := by
  have hlf' : e ≠ Bytes.lf := ne_lf_of_class (by decide) he
  by_cases hsign : rest.head?.any NumberMode.isSign = true
  · rw [if_pos hsign]
    obtain _ | ⟨c, rest⟩ := rest
    · exact absurd hsign Bool.false_ne_true
    have hc : c = '+'.toUInt8 ∨ c = '-'.toUInt8 := by simpa [NumberMode.isSign] using hsign
    refine items_inside_extend ?_ rest
    simp only [Mode.react, NumberMode.react, NumberMode.reactExponentLead, if_pos hc]
  · rw [if_neg hsign]
    have hc : ¬ (rest.headD Bytes.lf = '+'.toUInt8 ∨ rest.headD Bytes.lf = '-'.toUInt8) := by
      rw [← apply_headD (by decide)] at hsign
      simpa [NumberMode.isSign] using hsign
    have hreact : (Mode.number (.exponentLead pointed)).react (.ofText p (text ++ [e]))
        (rest.headD Bytes.lf) = ⟨[(Lexeme.ofText p text).token
          (.literal (if pointed then .float else .decimal)),
          (Lexeme.ofText (p.after text) [e]).fault .noExponentSign], .idle, false⟩ := by
      simp only [Mode.react, NumberMode.react, NumberMode.reactExponentLead, if_neg hc,
        Lexeme.ofText_front, Lexeme.ofText_last p hlf hlf']
    refine items_inside_unused (after_concat_column_ne_zero p text hlf') hreact ?_
    intro i hi
    rw [List.length_append]
    obtain rfl | rfl : i = _ ∨ i = _ := by simpa using hi
    · exact Nat.add_le_add_left (Nat.le_add_right _ _) _
    · refine le_of_eq ?_
      change (p.after text).offset + 1 = _
      rw [Position.after_offset, Nat.add_assoc]
      rfl

/-- **What is found behind a mantissa**, in both modes in which one is read. -/
theorem items_mantissa (hne : text ≠ []) {n : NumberMode} {pointed : Bool} {rest : Bytes}
    (hreact : ∀ lx, n.react lx (rest.headD Bytes.lf) =
      if NumberMode.isExponentLetter (rest.headD Bytes.lf) then
        .extend lx (rest.headD Bytes.lf) (.number (.exponentLead pointed))
      else .cut (lx.token (.literal (if pointed then .float else .decimal)))) :
    (inside p text (.number n)).items rest =
      mantissaItems p text (if pointed then .float else .decimal) rest := by
  have hcolumn := Position.after_column_ne_zero (p := p) hne hlf
  rw [mantissaItems]
  by_cases hletter : rest.head?.any NumberMode.isExponentLetter = true
  · rw [if_pos hletter]
    obtain _ | ⟨e, rest⟩ := rest
    · exact absurd hletter Bool.false_ne_true
    have he : NumberMode.isExponentLetter e = true := hletter
    have hextend : (Mode.number n).react (.ofText p text) e =
        .extend (.ofText p text) e (.number (.exponentLead pointed)) :=
      (hreact _).trans (if_pos he)
    rw [items_inside_extend hextend, items_exponentLead hlf he, List.head?_eq_getElem?,
      List.append_assoc]
    rfl
  · rw [if_neg hletter]
    rw [← apply_headD (by decide)] at hletter
    exact items_inside_cut hcolumn ((hreact _).trans (if_neg hletter)) (Lexeme.literal_covers _ _)

/-- **In front of a range or a name the point is read as if it had not been part of the number.** -/
theorem items_point_left {c : UInt8} (hc : (c == '.'.toUInt8 || isWordStart c) = true)
    (rest : Bytes) :
    (inside p (text ++ ['.'.toUInt8]) (.number .point)).items (c :: rest) =
      (Lexeme.ofText p text).token (.literal .decimal) ::
        items ⟨p.after text, .idle⟩ ('.'.toUInt8 :: c :: rest) := by
  have hlast : (Lexeme.ofText p (text ++ ['.'.toUInt8])).last =
      .ofText (p.after text) ['.'.toUInt8] := Lexeme.ofText_last p hlf (by decide)
  have hcursor : (p.after text).advance '.'.toUInt8 = p.after (text ++ ['.'.toUInt8]) := by simp
  rw [items_idle_dot, hcursor]
  by_cases hdot : c = '.'.toUInt8
  · subst hdot
    have hreact : (Mode.number .point).react (.ofText p (text ++ ['.'.toUInt8])) '.'.toUInt8 =
        ⟨[(Lexeme.ofText p text).token (.literal .decimal)],
          .within (.symbol .dot) (.ofText (p.after text) ['.'.toUInt8]), false⟩ := by
      rw [← hlast, ← Lexeme.ofText_front p text '.'.toUInt8]
      rfl
    exact items_inside_unused_cons hreact rest
  · have hname : isWordStart c = true := by simpa [hdot] using hc
    have hdigit := isDigit_eq_false_of_isWordStart hname
    have hreact : (Mode.number .point).react (.ofText p (text ++ ['.'.toUInt8])) c =
        ⟨[(Lexeme.ofText p text).token (.literal .decimal),
          (Lexeme.ofText (p.after text) ['.'.toUInt8]).token (.symbol .dot)], .idle, false⟩ := by
      simp only [Mode.react, NumberMode.react, NumberMode.reactPoint, hdigit, Bool.false_eq_true,
        if_false, if_neg hdot, if_pos hname, Lexeme.ofText_front, hlast]
    have hcut : (Mode.symbol .dot).react (.ofText (p.after text) ['.'.toUInt8]) c =
        .cut ((Lexeme.ofText (p.after text) ['.'.toUInt8]).token (.symbol .dot)) := by
      simp only [Mode.react, reactSymbol, Symbol.extend?_dot_eq_none hname]
    -- The point alone is complete in front of a name, with the same item.
    have hpoint := items_inside_unused_cons hcut rest
    rw [inside, ← Position.after_append] at hpoint
    rw [items_inside_unused_cons hreact]
    exact congrArg (_ :: ·) hpoint.symm

/-- A point behind digits: a digit goes on, a range or a name leave it alone, and in front of
anything else it ends the number. -/
theorem items_point (rest : Bytes) :
    (inside p (text ++ ['.'.toUInt8]) (.number .point)).items rest =
      if rest.head?.any isDigit then
        (inside p (text ++ '.'.toUInt8 :: rest.takeWhile NumberMode.isDigitOrGap)
          (.number .fraction)).items (rest.dropWhile NumberMode.isDigitOrGap)
      else if rest.head?.any (fun c => c == '.'.toUInt8 || isWordStart c) then
        (Lexeme.ofText p text).token (.literal .decimal) ::
          items ⟨p.after text, .idle⟩ ('.'.toUInt8 :: rest)
      else (Lexeme.ofText p (text ++ ['.'.toUInt8])).token (.literal .float) ::
        items ⟨p.after (text ++ ['.'.toUInt8]), .idle⟩ rest := by
  split_ifs with hdigit hleft
  · obtain _ | ⟨c, rest⟩ := rest
    · exact absurd hdigit Bool.false_ne_true
    have hextend : (Mode.number .point).react (.ofText p (text ++ ['.'.toUInt8])) c =
        .extend (.ofText p (text ++ ['.'.toUInt8])) c (.number .fraction) := if_pos hdigit
    have hgap : NumberMode.isDigitOrGap c = true := NumberMode.isDigitOrGap_of_isDigit hdigit
    rw [items_inside_extend hextend, items_fraction, List.takeWhile_cons_of_pos hgap,
      List.dropWhile_cons_of_pos hgap]
    simp
  · obtain _ | ⟨c, rest⟩ := rest
    · exact absurd hleft Bool.false_ne_true
    exact items_point_left hlf hleft rest
  · rw [← apply_headD (by decide)] at hdigit hleft
    rw [Bool.or_eq_true, beq_iff_eq, not_or] at hleft
    refine items_inside_cut (after_concat_column_ne_zero p text (by decide)) ?_
      (Lexeme.literal_covers _ _)
    simp only [Mode.react, NumberMode.react, NumberMode.reactPoint, if_neg hdigit, if_neg hleft.1,
      if_neg hleft.2]

end Mantissa

/-! ## The first byte -/

open Numeral

/-- A digit begins a number. -/
theorem items_idle_digit {d : UInt8} (hd : isDigit d = true) (p : Position) (rest : Bytes) :
    items ⟨p, .idle⟩ (d :: rest) =
      (inside p [d] (.number (if d = '0'.toUInt8 then .zero else .digits))).items rest := by
  have hspace : isSpace d = false := by
    by_contra hspace
    rw [Bool.not_eq_false] at hspace
    simp only [isSpace, Bool.or_eq_true, beq_iff_eq] at hspace
    obtain ((((rfl | rfl) | rfl) | rfl) | rfl) | rfl := hspace <;> exact absurd hd (by decide)
  have hopening : Opening.ofByte d =
      .lexeme (.number (if d = '0'.toUInt8 then .zero else .digits)) := by
    rw [Opening.ofByte, if_neg (by simp [hspace])]
    split_ifs
    · rfl
    · rfl
  have hreact : State.idle.react p d = ⟨[], .within
      (.number (if d = '0'.toUInt8 then .zero else .digits)) (.single p d), true⟩ := by
    rw [State.react, reactIdle, hopening]
  rw [items_of_used (by rw [hreact]), hreact]
  rfl

/-- **Decimal digits** in front of anything else. -/
theorem items_whole {text : Bytes} (h : text.head?.any isDigit = true)
    (hradix : radix? text = none) :
    ({} : Machine).items text =
      (inside {} (whole text) (.number .digits)).items (behindWhole text) := by
  obtain _ | ⟨d, rest⟩ := text
  · exact absurd h Bool.false_ne_true
  have hd : isDigit d = true := h
  have hgap := NumberMode.isDigitOrGap_of_isDigit hd
  have hdigits : ({} : Machine).items (d :: rest) =
      (inside {} [d] (.number .digits)).items rest := by
    refine (items_idle_digit hd {} rest).trans ?_
    split_ifs with hzero
    · have hcolumn : (({} : Position).after [d]).column ≠ 0 :=
        after_concat_column_ne_zero {} [] (ne_lf_of_class (by decide) hd)
      refine items_inside_retry hcolumn ?_
      have hletter : Radix.ofLetter? (rest.headD Bytes.lf) = none := by
        obtain _ | ⟨letter, rest⟩ := rest
        · decide
        · simpa [radix?, hzero] using hradix
      simp only [Mode.react, NumberMode.react, hletter]
    · rfl
  rw [hdigits, whole, behindWhole, List.takeWhile_cons_of_pos hgap,
    List.dropWhile_cons_of_pos hgap]
  exact @items_inside_takeWhile Unit (fun _ => .number .digits) (fun a _ => a)
    NumberMode.isDigitOrGap (fun _ _ _ hc => if_pos hc) {} [d] rest ()

/-- **A number with a radix prefix.** -/
theorem items_numeral_radix {text : Bytes} {r : Radix} (hradix : radix? text = some r) :
    ({} : Machine).items text =
      (if ((text.drop 2).takeWhile r.isDigitOrGap).any r.isDigit then
        (Lexeme.ofText {} (text.take 2 ++ (text.drop 2).takeWhile r.isDigitOrGap)).token
          (.literal r.literal)
      else (Lexeme.ofText {} (text.take 2 ++ (text.drop 2).takeWhile r.isDigitOrGap)).fault
        (.noRadixDigit r)) ::
        items ⟨({} : Position).after (text.take 2 ++ (text.drop 2).takeWhile r.isDigitOrGap), .idle⟩
          ((text.drop 2).dropWhile r.isDigitOrGap) := by
  match text with
  | [] => exact absurd hradix nofun
  | [_] => exact absurd hradix nofun
  | zero :: letter :: rest =>
    rw [radix?] at hradix
    split_ifs at hradix with hzero
    subst hzero
    have hreact : (Mode.number .zero).react (.ofText {} ['0'.toUInt8]) letter =
        .extend (.ofText {} ['0'.toUInt8]) letter (.number (.radix r false)) := by
      simp only [Mode.react, NumberMode.react, hradix]
    have hcolumn : (({} : Position).after ['0'.toUInt8, letter]).column ≠ 0 := by
      refine after_concat_column_ne_zero {} ['0'.toUInt8] ?_
      rintro rfl
      cases hradix
    calc ({} : Machine).items ('0'.toUInt8 :: letter :: rest)
        = (inside {} ['0'.toUInt8] (.number .zero)).items (letter :: rest) :=
          items_idle_digit (by decide) {} _
      _ = (inside {} ['0'.toUInt8, letter] (.number (.radix r false))).items rest :=
          items_inside_extend hreact rest
      _ = _ := items_radix r hcolumn rest

/-- **A decimal number**, up to where it ends or its exponent begins. -/
theorem items_numeral {text : Bytes} (h : text.head?.any isDigit = true)
    (hradix : radix? text = none) :
    ({} : Machine).items text =
      if (behindWhole text).head? = some '.'.toUInt8 ∧ ¬ (behindWhole text)[1]?.any isDigit then
        if (behindWhole text)[1]?.any (fun c => c == '.'.toUInt8 || isWordStart c) then
          (Lexeme.ofText {} (whole text)).token (.literal .decimal) ::
            items ⟨({} : Position).after (whole text), .idle⟩ (behindWhole text)
        else (Lexeme.ofText {} (whole text ++ ['.'.toUInt8])).token (.literal .float) ::
          items ⟨({} : Position).after (whole text ++ ['.'.toUInt8]), .idle⟩
            ((behindWhole text).drop 1)
      else mantissaItems {} (mantissa text) (form text) (behindMantissa text) := by
  have hne := whole_ne_nil h
  have hlf := lf_notMem_whole text
  rw [items_whole h hradix]
  by_cases hpoint : (behindWhole text).head? = some '.'.toUInt8
  · obtain ⟨more, hmore⟩ := List.head?_eq_some_iff.1 hpoint
    have hsecond : (behindWhole text)[1]? = more.head? := by
      rw [hmore, List.head?_eq_getElem?]
      rfl
    rw [hsecond, hmore, items_inside_extend rfl, items_point hlf]
    by_cases hdigit : more.head?.any isDigit = true
    · obtain ⟨hfraction, hbehind⟩ := fraction_append hmore hdigit
      rw [if_pos hdigit, if_neg (not_and_not_right.2 fun _ => hdigit), hbehind, mantissa,
        form, hfraction, if_neg (List.cons_ne_nil _ _)]
      have hgap : NumberMode.isDigitOrGap
          ((more.dropWhile NumberMode.isDigitOrGap).headD Bytes.lf) = false :=
        headD_dropWhile (by decide) more
      refine @items_mantissa _ _ ?_ ?_ .fraction true _ fun lx => ?_
      · simpa [hlf] using ⟨by decide, lf_notMem_whole more⟩
      · exact List.append_ne_nil_of_left_ne_nil hne _
      · simp only [NumberMode.react, NumberMode.reactFraction, hgap, Bool.false_eq_true, if_false,
          if_true]
    · have hends : ('.'.toUInt8 :: more).head? = some '.'.toUInt8 ∧
          ¬ more.head?.any isDigit = true := ⟨rfl, hdigit⟩
      rw [if_neg hdigit, if_pos hends]
      rfl
  · rw [if_neg (hpoint ·.1)]
    have hfraction : fraction text = [] := if_neg (hpoint ·.1)
    obtain ⟨hmantissa, hbehind⟩ := mantissa_of_fraction_eq_nil hfraction
    rw [hmantissa, hbehind, form, if_pos hfraction]
    have hgap : NumberMode.isDigitOrGap ((behindWhole text).headD Bytes.lf) = false :=
      headD_dropWhile (by decide) text
    rw [← headD_eq_iff (by decide)] at hpoint
    refine @items_mantissa _ _ hlf hne .digits false _ fun lx => ?_
    simp only [NumberMode.react, NumberMode.reactDigits, hgap, if_neg hpoint, Bool.false_eq_true,
      if_false]

end Machine

/-! ## The first token -/

open Numeral

/-- A number with a radix prefix. -/
theorem leads_prefixed {text : Bytes} {r : Radix} (hradix : radix? text = some r) :
    if ((text.drop 2).takeWhile r.isDigitOrGap).any r.isDigit then
      Leads text (prefixed r text) (.literal r.literal) (prefixed r text)
    else Leads text (prefixed r text) .error (Fault.noRadixDigit r).message := by
  have hitems := Machine.items_numeral_radix hradix
  have htext : text = prefixed r text ++ (text.drop 2).dropWhile r.isDigitOrGap := by
    rw [prefixed, List.append_assoc, List.takeWhile_append_dropWhile, List.take_append_drop]
  split_ifs at hitems ⊢
  · exact leads_token htext rfl nofun hitems
  · exact leads_fault htext hitems

/-- A number with a signed exponent. -/
theorem leads_signed {text : Bytes}
    (hsign : (behindMantissa text)[1]?.any NumberMode.isSign = true)
    (hitems : ({} : Machine).items text =
      (Machine.inside {} (mantissa text ++ (behindMantissa text).take 2)
        (.number (.exponent false))).items ((behindMantissa text).drop 2)) :
    if (exponent text).any isDigit then
      Leads text (signed text) (.literal .float) (signed text)
    else Leads text (signed text) .error Fault.noExponentDigit.message := by
  have htext : text = signed text ++
      ((behindMantissa text).drop 2).dropWhile NumberMode.isDigitOrGap := by
    rw [signed, exponent, List.append_assoc, List.takeWhile_append_dropWhile, List.append_assoc,
      List.take_append_drop, mantissa_append_behindMantissa]
  rw [Machine.items_exponent hsign] at hitems
  rw [exponent]
  split_ifs at hitems ⊢
  · exact leads_token htext rfl nofun hitems
  · exact leads_fault htext hitems

/-- A number with an exponent that has no sign is two tokens. -/
theorem tokens_unsigned {text : Bytes}
    (hletter : (behindMantissa text).head?.any NumberMode.isExponentLetter = true)
    (hitems : ({} : Machine).items text =
      (Lexeme.ofText {} (mantissa text)).token (.literal (form text)) ::
        (Lexeme.ofText (({} : Position).after (mantissa text))
          ((behindMantissa text).take 1)).fault .noExponentSign ::
        Machine.items ⟨({} : Position).after (mantissa text ++ (behindMantissa text).take 1),
          .idle⟩ ((behindMantissa text).drop 1)) :
    (scan text).tokens =
      ⟨0, 0, .literal (form text), some (mantissa text), 0, (mantissa text).length.toUInt32⟩ ::
      ⟨0, (mantissa text).length.toUInt32, .error, some Fault.noExponentSign.message,
        (mantissa text).length.toUInt32, 1⟩ ::
      scanAt (({} : Position).after (mantissa text ++ (behindMantissa text).take 1))
        ((behindMantissa text).drop 1) := by
  have hone : ((behindMantissa text).take 1).length = 1 := by
    cases hbehind : behindMantissa text with
    | nil =>
      rw [hbehind] at hletter
      exact absurd hletter Bool.false_ne_true
    | cons e rest => rfl
  have hplace : ({} : Position).after (mantissa text) =
      ⟨0, (mantissa text).length, (mantissa text).length⟩ := by
    rw [Position.after_eq_right _ (lf_notMem_mantissa text), Position.right, Nat.zero_add]
  have hfault : ((Lexeme.ofText (({} : Position).after (mantissa text))
      ((behindMantissa text).take 1)).fault .noExponentSign).token =
      ⟨0, (mantissa text).length.toUInt32, .error, some Fault.noExponentSign.message,
        (mantissa text).length.toUInt32, 1⟩ := by
    rw [hplace, Lexeme.fault, Item.token, show (Lexeme.ofText _ _).bytes.size = 1 from hone]
    rfl
  have hnumber :
      ((Lexeme.ofText {} (mantissa text)).token (.literal (form text))).token.kind ≠ .ident :=
    show Kind.literal (form text) ≠ .ident by simp
  have herror : Kind.error ≠ .ident := by decide
  rw [scan_tokens, hitems, List.map_cons, List.map_cons, hfault, scanAt_eq,
    reclassify_cons_of_ne_ident hnumber, reclassify_cons_of_ne_ident herror]
  rfl

/-- **Where a number ends, and what it leaves to the next token.**  Behind a radix prefix at least
one digit must follow.  A point belongs to the number unless a range or a name follows, and a
fraction begins with a digit.  An exponent needs a sign and a digit: without a digit the whole
number is malformed, without a sign only the letter. -/
theorem scan_number (text : Bytes) (h : text.head?.any isDigit = true) :
    (∀ r, radix? text = some r →
      if ((text.drop 2).takeWhile r.isDigitOrGap).any r.isDigit then
        Leads text (prefixed r text) (.literal r.literal) (prefixed r text)
      else Leads text (prefixed r text) .error (Fault.noRadixDigit r).message) ∧
    (radix? text = none →
      if (behindWhole text).head? = some '.'.toUInt8 ∧ ¬ (behindWhole text)[1]?.any isDigit then
        if (behindWhole text)[1]?.any (fun c => c == '.'.toUInt8 || isWordStart c) then
          Leads text (whole text) (.literal .decimal) (whole text)
        else
          Leads text (whole text ++ ['.'.toUInt8]) (.literal .float) (whole text ++ ['.'.toUInt8])
      else if (behindMantissa text).head?.any NumberMode.isExponentLetter then
        if (behindMantissa text)[1]?.any NumberMode.isSign then
          if (exponent text).any isDigit then
            Leads text (signed text) (.literal .float) (signed text)
          else Leads text (signed text) .error Fault.noExponentDigit.message
        else
          (scan text).tokens =
            ⟨0, 0, .literal (form text), some (mantissa text), 0,
              (mantissa text).length.toUInt32⟩ ::
            ⟨0, (mantissa text).length.toUInt32, .error, some Fault.noExponentSign.message,
              (mantissa text).length.toUInt32, 1⟩ ::
            scanAt (({} : Position).after (mantissa text ++ (behindMantissa text).take 1))
              ((behindMantissa text).drop 1)
      else Leads text (mantissa text) (.literal (form text)) (mantissa text)) := by
  refine ⟨fun r hradix => leads_prefixed hradix, fun hradix => ?_⟩
  have hitems := Machine.items_numeral h hradix
  by_cases hpoint :
      (behindWhole text).head? = some '.'.toUInt8 ∧ ¬ (behindWhole text)[1]?.any isDigit
  · rw [if_pos hpoint] at hitems ⊢
    obtain ⟨more, hmore⟩ := List.head?_eq_some_iff.1 hpoint.1
    have htext : text = whole text ++ ['.'.toUInt8] ++ (behindWhole text).drop 1 := by
      nth_rewrite 1 [← whole_append_behindWhole text]
      rw [hmore, List.append_assoc]
      rfl
    split_ifs at hitems ⊢
    · exact leads_token (whole_append_behindWhole text).symm rfl nofun hitems
    · exact leads_token htext rfl nofun hitems
  · rw [if_neg hpoint] at hitems ⊢
    rw [Machine.mantissaItems] at hitems
    by_cases hletter : (behindMantissa text).head?.any NumberMode.isExponentLetter = true
    · rw [if_pos hletter] at hitems ⊢
      by_cases hsign : (behindMantissa text)[1]?.any NumberMode.isSign = true
      · rw [if_pos hsign] at hitems ⊢
        exact leads_signed hsign hitems
      · rw [if_neg hsign] at hitems ⊢
        exact tokens_unsigned hletter hitems
    · rw [if_neg hletter] at hitems ⊢
      exact leads_token (mantissa_append_behindMantissa text).symm rfl nofun hitems

/-- A radix prefix without digits, a range, a point alone, an exponent, and one without a sign. -/
theorem scan_number_forms :
    Leads (ascii "0b_2") (ascii "0b_") .error (Fault.noRadixDigit .binary).message ∧
    Leads (ascii "1..2") (ascii "1") (.literal .decimal) (ascii "1") ∧
    Leads (ascii "1._") (ascii "1") (.literal .decimal) (ascii "1") ∧
    Leads (ascii "1.") (ascii "1.") (.literal .float) (ascii "1.") ∧
    Leads (ascii "1.5e-7") (ascii "1.5e-7") (.literal .float) (ascii "1.5e-7") ∧
    (scan (ascii "1e5")).tokens =
      [⟨0, 0, .literal .decimal, some (ascii "1"), 0, 1⟩,
        ⟨0, 1, .error, some Fault.noExponentSign.message, 1, 1⟩,
        ⟨0, 2, .literal .decimal, some (ascii "5"), 2, 1⟩] := by
  refine ⟨?_, ?_, ?_, ?_, ?_, ?_⟩
  · exact (scan_number (ascii "0b_2") (by decide)).1 .binary (by decide)
  · exact (scan_number (ascii "1..2") (by decide)).2 (by decide)
  · exact (scan_number (ascii "1._") (by decide)).2 (by decide)
  · exact (scan_number (ascii "1.") (by decide)).2 (by decide)
  · exact (scan_number (ascii "1.5e-7") (by decide)).2 (by decide)
  · refine ((scan_number (ascii "1e5") (by decide)).2 (by decide)).trans ?_
    decide

end RustScan.Scan
