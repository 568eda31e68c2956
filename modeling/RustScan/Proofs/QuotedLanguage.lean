import Mathlib.Computability.MyhillNerode
import RustScan.Proofs.Tracking

/-!
# The language of a quoted literal

The literals between quotes are a regular language, `Quote.language`.  This file follows it through
the states of the scanner.

* `Quote.completions q filled escape` — the words that complete a literal which is open in a given
  state.  `Quote.offers` is the main lemma: a byte is taken, closes the literal or breaks it
  according to the left quotient of these words by the byte, which are the completions of the next
  state, the empty word alone, or nothing.
* `Quote.nil_notMem_completions`, `Quote.exists_mem_completions`, `Quote.append_mem_completions` —
  an open literal is not complete, can be completed, and is complete only once.
* `Viable`, `FirstBreak` — the beginnings of the words of a language, and the first place in a text
  where no word goes on.
-/

set_option autoImplicit false

namespace RustScan.Scan

open Computability

/-! ## Languages of literals -/

/-- The words of one byte of a class. -/
def oneOf (isIn : UInt8 → Bool) : Language UInt8 := {w | ∃ c, isIn c = true ∧ w = [c]}

/-- The word of one byte. -/
def only (b : UInt8) : Language UInt8 := oneOf (· == b)

/-- The rest of the digits of a character, of which there are one to six, and the brace behind
them. -/
def braced (seen : Nat) : Language UInt8 :=
  {w | ∃ digits : Bytes, (∀ d ∈ digits, isHexDigit d = true) ∧ 1 ≤ seen + digits.length ∧
    seen + digits.length ≤ 6 ∧ w = digits ++ ['\x7d'.toUInt8]}

namespace Quote

/-- The bytes that stand for themselves. -/
def isPlain (q : Quote) (c : UInt8) : Bool :=
  c != q.closer && c != '\\'.toUInt8 && (!q.isBytes || isAscii c)

/-- The first digit of a hexadecimal escape, which names an ASCII character or any byte. -/
def isHighDigit (q : Quote) (c : UInt8) : Bool :=
  if q.isBytes then isHexDigit c else '0'.toUInt8 ≤ c && c ≤ '7'.toUInt8

/-- What may follow a backslash: a byte that makes an escape with it, two digits behind `x`, one to
six in braces behind `u` unless the literal is of bytes, and in a string a line feed. -/
def escapes (q : Quote) : Language UInt8 :=
  oneOf (ascii "'\"nrt\\0").contains +
    only 'x'.toUInt8 * (oneOf q.isHighDigit * oneOf isHexDigit) +
    (if q.isBytes then 0 else only 'u'.toUInt8 * (only '\x7b'.toUInt8 * braced 0)) +
    (if q = .str then only Bytes.lf else 0)

/-- One character, or what stands for it. -/
def element (q : Quote) : Language UInt8 := oneOf q.isPlain + only '\\'.toUInt8 * q.escapes

/-- The well-formed literals: one character between single quotes, any number between double
ones. -/
def language (q : Quote) : Language UInt8 :=
  {ascii q.opener} * ((if q.isSingle then q.element else q.element∗) * only q.closer)

end Quote

/-! ## Left quotients -/

@[simp] theorem leftQuotient_add (l m : Language UInt8) (w : Bytes) :
    (l + m).leftQuotient w = l.leftQuotient w + m.leftQuotient w := rfl

theorem nil_notMem_mul {l m : Language UInt8} (h : [] ∉ m) : [] ∉ l * m := by
  rintro ⟨u, -, v, hv, huv⟩
  exact h ((List.append_eq_nil_iff.1 huv).2 ▸ hv)

theorem exists_mem_mul {l m : Language UInt8} (hl : ∃ w, w ∈ l) (hm : ∃ w, w ∈ m) :
    ∃ w, w ∈ l * m := by
  obtain ⟨u, hu⟩ := hl
  obtain ⟨v, hv⟩ := hm
  exact ⟨u ++ v, Language.append_mem_mul hu hv⟩

theorem exists_mem_oneOf {isIn : UInt8 → Bool} {c : UInt8} (h : isIn c = true) :
    ∃ w, w ∈ oneOf isIn := ⟨[c], c, h, rfl⟩

theorem exists_mem_only (b : UInt8) : ∃ w, w ∈ only b := exists_mem_oneOf (beq_self_eq_true b)

theorem nil_notMem_only (b : UInt8) : [] ∉ only b := by
  rintro ⟨c, -, h⟩
  exact List.cons_ne_nil _ _ h.symm

@[simp] theorem leftQuotient_zero (w : Bytes) : (0 : Language UInt8).leftQuotient w = 0 := rfl

@[simp] theorem leftQuotient_oneOf_mul (isIn : UInt8 → Bool) (l : Language UInt8) (c : UInt8) :
    (oneOf isIn * l).leftQuotient [c] = if isIn c then l else 0 := by
  ext w
  rw [Language.mem_leftQuotient, List.singleton_append, Language.mem_mul]
  split_ifs with hc
  · constructor
    · rintro ⟨-, ⟨d, -, rfl⟩, v, hv, h⟩
      obtain ⟨-, rfl⟩ := List.cons.inj h
      exact hv
    · intro hw
      exact ⟨[c], ⟨c, hc, rfl⟩, w, hw, rfl⟩
  · refine iff_of_false ?_ (Language.notMem_zero w)
    rintro ⟨-, ⟨d, hd, rfl⟩, v, -, h⟩
    obtain ⟨rfl, -⟩ := List.cons.inj h
    exact hc hd

@[simp] theorem leftQuotient_only_mul (b : UInt8) (l : Language UInt8) (c : UInt8) :
    (only b * l).leftQuotient [c] = if c = b then l else 0 := by
  rw [only, leftQuotient_oneOf_mul]
  simp only [beq_iff_eq]

@[simp] theorem leftQuotient_only (b c : UInt8) :
    (only b).leftQuotient [c] = if c = b then 1 else 0 := by
  rw [← leftQuotient_only_mul b 1 c, mul_one]

/-- What may follow a byte inside the braces. -/
theorem leftQuotient_braced_mul (seen : Nat) (l : Language UInt8) (c : UInt8) :
    (braced seen * l).leftQuotient [c] =
      (if c = '\x7d'.toUInt8 ∧ 1 ≤ seen ∧ seen ≤ 6 then l else 0) +
        if isHexDigit c then braced (seen + 1) * l else 0 := by
  ext w
  rw [Language.mem_leftQuotient, Language.mem_add, List.singleton_append, Language.mem_mul]
  constructor
  · rintro ⟨-, ⟨digits, hdigits, hseen, hsix, rfl⟩, v, hv, h⟩
    cases digits with
    | nil =>
      obtain ⟨rfl, rfl⟩ := List.cons.inj h
      left
      rw [if_pos ⟨rfl, hseen, hsix⟩]
      exact hv
    | cons d digits =>
      obtain ⟨rfl, rfl⟩ := List.cons.inj h
      right
      rw [if_pos (hdigits d List.mem_cons_self)]
      rw [List.length_cons] at hseen hsix
      exact Language.append_mem_mul ⟨digits, fun b hb => hdigits b (List.mem_cons_of_mem _ hb),
        by omega, by omega, rfl⟩ hv
  · rintro (hw | hw)
    · split_ifs at hw with hc
      · obtain ⟨rfl, hseen, hsix⟩ := hc
        exact ⟨_, ⟨[], nofun, hseen, hsix, rfl⟩, w, hw, rfl⟩
      · exact absurd hw (Language.notMem_zero w)
    · split_ifs at hw with hc
      · obtain ⟨-, ⟨digits, hdigits, hseen, hsix, rfl⟩, v, hv, rfl⟩ := hw
        refine ⟨_, ⟨c :: digits, ?_, ?_, ?_, rfl⟩, v, hv, rfl⟩
        · exact List.forall_mem_cons.2 ⟨hc, hdigits⟩
        · rw [List.length_cons]
          omega
        · rw [List.length_cons]
          omega
      · exact absurd hw (Language.notMem_zero w)

/-- There are no more than six digits. -/
theorem braced_eq_zero {seen : Nat} (h : 6 < seen) : braced seen = 0 := by
  ext w
  refine iff_of_false ?_ (Language.notMem_zero w)
  rintro ⟨digits, -, -, hsix, -⟩
  omega

namespace Quote

/-- What may still follow inside the quotes and at their end. -/
def tail (q : Quote) (filled : Bool) : Language UInt8 :=
  (if q.isSingle then if filled then 1 else q.element else q.element∗) * only q.closer

/-- Between quotes either the closer follows or a character. -/
theorem tail_eq (q : Quote) (filled : Bool) :
    q.tail filled = (if q.isSingle = true ∧ filled = false then 0 else only q.closer) +
      if q.isSingle = true ∧ filled = true then 0 else q.element * q.tail true := by
  cases hsingle : q.isSingle with
  | true => cases filled <;> simp [tail, hsingle]
  | false =>
    simp only [tail, hsingle, Bool.false_eq_true, false_and, if_false]
    calc q.element∗ * only q.closer
        = (1 + q.element * q.element∗) * only q.closer := by
          rw [Language.one_add_self_mul_kstar_eq_kstar]
      _ = only q.closer + q.element * (q.element∗ * only q.closer) := by
          rw [add_mul, one_mul, mul_assoc]

theorem leftQuotient_element_mul (q : Quote) (l : Language UInt8) (c : UInt8) :
    (q.element * l).leftQuotient [c] =
      (if q.isPlain c then l else 0) + if c = '\\'.toUInt8 then q.escapes * l else 0 := by
  rw [element, add_mul, mul_assoc, leftQuotient_add, leftQuotient_oneOf_mul, leftQuotient_only_mul]

/-- The words that complete a literal, by how much of an escape has been read. -/
def completions (q : Quote) (filled : Bool) : Escape → Language UInt8
  | .none => q.tail filled
  | .slash => q.escapes * q.tail true
  | .hex 0 => oneOf q.isHighDigit * (oneOf isHexDigit * q.tail true)
  | .hex _ => oneOf isHexDigit * q.tail true
  | .unicodeLead => only '\x7b'.toUInt8 * (braced 0 * q.tail true)
  | .unicode digits => braced digits * q.tail true

/-- The escapes that can be open: none is complete, and none names a character in a literal of
bytes. -/
def Admits (q : Quote) : Escape → Prop
  | .hex digits => digits ≤ 1
  | .unicodeLead => q.isBytes = false
  | .unicode digits => q.isBytes = false ∧ digits ≤ 6
  | _ => True

theorem admits_none (q : Quote) : q.Admits .none := trivial

/-- What a byte does to a literal that the words of `l` complete, by the words that may follow the
byte. -/
inductive Offers (q : Quote) (l : Language UInt8) (lx : Lexeme) (c : UInt8) : Reaction → Prop
  | takes {escape : Escape} {filled : Bool} (admits : q.Admits escape)
      (quotient : l.leftQuotient [c] = q.completions filled escape) :
      Offers q l lx c (.extend lx c (.quoted q escape filled))
  | closes (quotient : l.leftQuotient [c] = 1) :
      Offers q l lx c (.close ((lx.push c).token (.literal q.literal)))
  | breaks {f : Fault} (quotient : l.leftQuotient [c] = 0) :
      Offers q l lx c (.close ((lx.push c).fault f))

section Offers

variable (q : Quote) (filled : Bool) (lx : Lexeme) (c : UInt8)

theorem closer_ne_slash : q.closer ≠ '\\'.toUInt8 := by cases q <;> decide

theorem isAscii_closer : isAscii q.closer = true := by cases q <;> decide

/-- What may follow a byte outside escapes. -/
theorem leftQuotient_tail :
    (q.tail filled).leftQuotient [c] =
      if c = q.closer then if q.isSingle ∧ !filled then 0 else 1
      else if q.isSingle ∧ filled then 0
      else if c = '\\'.toUInt8 then q.escapes * q.tail true
      else if q.isBytes ∧ !isAscii c then 0 else q.tail true := by
  have hsum : (q.tail filled).leftQuotient [c] =
      (if q.isSingle = true ∧ filled = false then 0 else if c = q.closer then 1 else 0) +
        if q.isSingle = true ∧ filled = true then 0
        else (if q.isPlain c then q.tail true else 0) +
          if c = '\\'.toUInt8 then q.escapes * q.tail true else 0 := by
    rw [tail_eq, leftQuotient_add, ← leftQuotient_only, ← leftQuotient_element_mul]
    congr 1
    · split_ifs <;> rfl
    · split_ifs <;> rfl
  rw [hsum]
  by_cases hcloser : c = q.closer
  · simp [isPlain, hcloser, q.closer_ne_slash]
  · by_cases hslash : c = '\\'.toUInt8
    · simp [isPlain, ← hslash, hcloser]
    · have hplain : (q.isPlain c = true) = ¬ (q.isBytes = true ∧ (!isAscii c) = true) := by
        cases hbytes : q.isBytes <;> simp [isPlain, hcloser, hslash, hbytes]
      simp only [if_neg hcloser, if_neg hslash, hplain, ite_not, ite_self, zero_add, add_zero]

theorem reactPlain_offers :
    q.Offers (q.tail filled) lx c (q.reactPlain filled lx c) := by
  have hquotient := q.leftQuotient_tail filled c
  rw [reactPlain]
  split_ifs with hascii hcloser hempty hmany hslash
  · have hcloser : c ≠ q.closer := by
      rintro rfl
      simp [q.isAscii_closer] at hascii
    have hslash : c ≠ '\\'.toUInt8 := by
      rintro rfl
      exact absurd hascii.2 (by decide)
    refine .breaks ?_
    rw [hquotient, if_neg hcloser, if_neg hslash, if_pos hascii, ite_self]
  · refine .breaks ?_
    rw [hquotient, if_pos hcloser, if_pos hempty]
  · refine .closes ?_
    rw [hquotient, if_pos hcloser, if_neg hempty]
  · refine .breaks ?_
    rw [hquotient, if_neg hcloser, if_pos hmany]
  · refine .takes trivial ?_
    rw [hquotient, if_neg hcloser, if_neg hmany, if_pos hslash]
    rfl
  · refine .takes trivial ?_
    rw [hquotient, if_neg hcloser, if_neg hmany, if_neg hslash, if_neg hascii]
    rfl

/-- What may follow the byte behind a backslash.  No byte begins two escapes. -/
theorem leftQuotient_escapes_mul (l : Language UInt8) :
    (q.escapes * l).leftQuotient [c] =
      if isSimpleEscape c then l
      else if c = Bytes.lf then if q = .str then l else 0
      else if c = 'x'.toUInt8 then oneOf q.isHighDigit * (oneOf isHexDigit * l)
      else if c = 'u'.toUInt8 then if q.isBytes then 0 else only '\x7b'.toUInt8 * (braced 0 * l)
      else 0 := by
  have hunicode : ((if q.isBytes then 0 else only 'u'.toUInt8 * (only '\x7b'.toUInt8 * braced 0)) *
      l).leftQuotient [c] = if c = 'u'.toUInt8 then
        if q.isBytes then 0 else only '\x7b'.toUInt8 * (braced 0 * l) else 0 := by
    cases q.isBytes with
    | true => simp
    | false => simp [mul_assoc]
  have hline : ((if q = .str then only Bytes.lf else 0) * l).leftQuotient [c] =
      if c = Bytes.lf then if q = .str then l else 0 else 0 := by
    by_cases hq : q = .str
    · simp [hq]
    · simp [hq]
  have hsum : (q.escapes * l).leftQuotient [c] =
      (if isSimpleEscape c then l else 0) +
        (if c = 'x'.toUInt8 then oneOf q.isHighDigit * (oneOf isHexDigit * l) else 0) +
        (if c = 'u'.toUInt8 then
          if q.isBytes then 0 else only '\x7b'.toUInt8 * (braced 0 * l) else 0) +
        (if c = Bytes.lf then if q = .str then l else 0 else 0) := by
    rw [escapes, add_mul, add_mul, add_mul, leftQuotient_add, leftQuotient_add, leftQuotient_add,
      hunicode, hline, leftQuotient_oneOf_mul, mul_assoc, mul_assoc, leftQuotient_only_mul]
    rfl
  rw [hsum]
  by_cases hsimple : isSimpleEscape c = true
  · have hne : ∀ d, isSimpleEscape d = false → c ≠ d := by
      rintro d hd rfl
      exact Bool.false_ne_true (hd.symm.trans hsimple)
    have hlf : c ≠ Bytes.lf := hne _ (by decide)
    have hx : c ≠ 'x'.toUInt8 := hne _ (by decide)
    have hu : c ≠ 'u'.toUInt8 := hne _ (by decide)
    simp [hsimple, hlf, hx, hu]
  · by_cases hlf : c = Bytes.lf
    · subst hlf
      have hx : Bytes.lf ≠ 'x'.toUInt8 := by decide
      have hu : Bytes.lf ≠ 'u'.toUInt8 := by decide
      simp [hsimple, hx, hu]
    · by_cases hx : c = 'x'.toUInt8
      · have hu : 'x'.toUInt8 ≠ 'u'.toUInt8 := by decide
        simp [hx ▸ hsimple, hx ▸ hlf, hx, hu]
      · simp [hsimple, hlf, hx]

theorem reactSlash_offers :
    q.Offers (q.escapes * q.tail true) lx c (q.reactSlash filled lx c) := by
  have hquotient := q.leftQuotient_escapes_mul c (q.tail true)
  rw [reactSlash]
  split_ifs with hsimple hline hstr hhex hunicode hbytes
  · refine .takes trivial ?_
    rw [hquotient, if_pos hsimple]
    rfl
  · refine .takes trivial ?_
    rw [hquotient, if_neg hsimple, if_pos hline, if_pos hstr]
    rfl
  · refine .breaks ?_
    rw [hquotient, if_neg hsimple, if_pos hline, if_neg hstr]
  · refine .takes (Nat.zero_le 1) ?_
    rw [hquotient, if_neg hsimple, if_neg hline, if_pos hhex]
    rfl
  · refine .breaks ?_
    rw [hquotient, if_neg hsimple, if_neg hline, if_neg hhex, if_pos hunicode, if_pos hbytes]
  · refine .takes (Bool.eq_false_of_not_eq_true hbytes) ?_
    rw [hquotient, if_neg hsimple, if_neg hline, if_neg hhex, if_pos hunicode, if_neg hbytes]
    rfl
  · refine .breaks ?_
    rw [hquotient, if_neg hsimple, if_neg hline, if_neg hhex, if_neg hunicode]

/-- The first digit of a hexadecimal escape is at most `7`, unless the literal is of bytes. -/
theorem isHighDigit_iff :
    q.isHighDigit c = true ↔ isHexDigit c = true ∧ (q.isBytes = false → ¬ '7'.toUInt8 < c) := by
  cases hbytes : q.isBytes with
  | true => simp [isHighDigit, hbytes]
  | false =>
    simp only [isHighDigit, hbytes, Bool.false_eq_true, if_false, isHexDigit, isDigit,
      Bool.or_eq_true, Bool.and_eq_true, decide_eq_true_eq, UInt8.not_lt, true_imp_iff]
    constructor
    · rintro ⟨hlow, hhigh⟩
      exact ⟨Or.inl (Or.inl ⟨hlow, UInt8.le_trans hhigh (by decide)⟩), hhigh⟩
    · rintro ⟨(⟨hlow, -⟩ | ⟨hlow, -⟩) | ⟨hlow, -⟩, hhigh⟩
      · exact ⟨hlow, hhigh⟩
      · exact absurd (UInt8.le_trans hlow hhigh) (by decide)
      · exact absurd (UInt8.le_trans hlow hhigh) (by decide)

theorem reactHex_offers {digits : Nat} (hdigits : digits ≤ 1) :
    q.Offers (q.completions filled (.hex digits)) lx c (q.reactHex digits filled lx c) := by
  obtain rfl | rfl : digits = 0 ∨ digits = 1 := by omega
  · have hquotient : (q.completions filled (.hex 0)).leftQuotient [c] =
        if q.isHighDigit c then oneOf isHexDigit * q.tail true else 0 :=
      leftQuotient_oneOf_mul ..
    rw [reactHex, if_neg (by decide : ¬ 0 + 1 = 2)]
    split_ifs with hhex hhigh
    · refine .breaks (hquotient.trans (if_neg fun hdigit => ?_))
      exact absurd ((q.isHighDigit_iff c).1 hdigit).1 (by simpa using hhex)
    · refine .breaks (hquotient.trans (if_neg fun hdigit => ?_))
      exact ((q.isHighDigit_iff c).1 hdigit).2 (by simpa using hhigh.2.1) hhigh.2.2
    · have hdigit : q.isHighDigit c = true := by
        refine (q.isHighDigit_iff c).2 ⟨by simpa using hhex, fun hbytes hc => ?_⟩
        exact hhigh ⟨rfl, by simp [hbytes], hc⟩
      exact .takes (Nat.le_refl 1) (hquotient.trans (if_pos hdigit))
  · have hquotient : (q.completions filled (.hex 1)).leftQuotient [c] =
        if isHexDigit c then q.tail true else 0 :=
      leftQuotient_oneOf_mul ..
    rw [reactHex, if_neg (fun h => Nat.one_ne_zero h.1 : ¬ (1 = 0 ∧ _)), if_pos rfl]
    split_ifs with hhex
    · refine .breaks ?_
      rw [hquotient, if_neg (by simpa using hhex)]
    · refine .takes trivial ?_
      rw [hquotient, if_pos (by simpa using hhex)]
      rfl

theorem reactUnicodeLead_offers (hbytes : q.isBytes = false) :
    q.Offers (q.completions filled .unicodeLead) lx c (q.reactUnicodeLead filled lx c) := by
  have hquotient : (q.completions filled .unicodeLead).leftQuotient [c] =
      if c = '\x7b'.toUInt8 then braced 0 * q.tail true else 0 :=
    leftQuotient_only_mul ..
  rw [reactUnicodeLead]
  split_ifs with hbrace
  · refine .takes ⟨hbytes, Nat.zero_le 6⟩ ?_
    rw [hquotient, if_pos hbrace]
    rfl
  · refine .breaks ?_
    rw [hquotient, if_neg hbrace]

theorem reactUnicode_offers {digits : Nat} (hbytes : q.isBytes = false) (hdigits : digits ≤ 6) :
    q.Offers (q.completions filled (.unicode digits)) lx c (q.reactUnicode digits filled lx c) := by
  have hquotient : (q.completions filled (.unicode digits)).leftQuotient [c] =
      if c = '\x7d'.toUInt8 then if digits = 0 then 0 else q.tail true
      else if isHexDigit c then braced (digits + 1) * q.tail true else 0 := by
    refine (leftQuotient_braced_mul ..).trans ?_
    by_cases hbrace : c = '\x7d'.toUInt8
    · have hhex : isHexDigit '\x7d'.toUInt8 = false := by decide
      simp [hbrace, hhex, hdigits, Nat.one_le_iff_ne_zero]
    · simp [hbrace]
  rw [reactUnicode]
  split_ifs with hbrace hnone hhex hlong
  · refine .breaks ?_
    rw [hquotient, if_pos hbrace, if_pos hnone]
  · refine .takes trivial ?_
    rw [hquotient, if_pos hbrace, if_neg hnone]
    rfl
  · refine .breaks ?_
    rw [hquotient, if_neg hbrace, if_pos hhex, braced_eq_zero hlong, zero_mul]
  · refine .takes ⟨hbytes, Nat.le_of_not_lt hlong⟩ ?_
    rw [hquotient, if_neg hbrace, if_pos hhex]
    rfl
  · refine .breaks ?_
    rw [hquotient, if_neg hbrace, if_neg hhex]

/-- **A byte takes the left quotient of the words that may follow.** -/
theorem offers {escape : Escape} (h : q.Admits escape) :
    q.Offers (q.completions filled escape) lx c (q.react escape filled lx c) := by
  cases escape with
  | none => exact q.reactPlain_offers filled lx c
  | slash => exact q.reactSlash_offers filled lx c
  | hex digits => exact q.reactHex_offers filled lx c h
  | unicodeLead => exact q.reactUnicodeLead_offers filled lx c h
  | unicode digits => exact q.reactUnicode_offers filled lx c h.1 h.2

end Offers

/-- The closer is still to come. -/
theorem nil_notMem_completions (q : Quote) (filled : Bool) (escape : Escape) :
    [] ∉ q.completions filled escape := by
  have htail : ∀ filled, [] ∉ q.tail filled := fun filled =>
    nil_notMem_mul (nil_notMem_only q.closer)
  unfold completions
  split
  · exact htail filled
  · exact nil_notMem_mul (htail true)
  · exact nil_notMem_mul (nil_notMem_mul (htail true))
  · exact nil_notMem_mul (htail true)
  · exact nil_notMem_mul (nil_notMem_mul (htail true))
  · exact nil_notMem_mul (htail true)

/-- An open literal can be completed. -/
theorem exists_mem_completions {q : Quote} {escape : Escape} (h : q.Admits escape) (filled : Bool) :
    ∃ w, w ∈ q.completions filled escape := by
  have hescapes : ∃ w, w ∈ q.escapes := by
    obtain ⟨w, hw⟩ := @exists_mem_oneOf (ascii "'\"nrt\\0").contains 'n'.toUInt8 (by decide)
    exact ⟨w, Or.inl (Or.inl (Or.inl hw))⟩
  have helement : ∃ w, w ∈ q.element := by
    obtain ⟨w, hw⟩ := exists_mem_mul (exists_mem_only '\\'.toUInt8) hescapes
    exact ⟨w, Or.inr hw⟩
  have htail : ∀ filled, ∃ w, w ∈ q.tail filled := by
    intro filled
    refine exists_mem_mul ?_ (exists_mem_only q.closer)
    split_ifs
    · exact ⟨[], rfl⟩
    · exact helement
    · exact ⟨[], Language.nil_mem_kstar q.element⟩
  have hhex : ∃ w, w ∈ oneOf isHexDigit := @exists_mem_oneOf _ '0'.toUInt8 (by decide)
  have hbraced : ∀ {seen}, seen ≤ 6 → ∃ w, w ∈ braced seen := by
    intro seen hsix
    cases seen with
    | zero =>
      exact ⟨_, ['0'.toUInt8], List.forall_mem_singleton.2 rfl, Nat.le_refl 1, by decide, rfl⟩
    | succ seen => exact ⟨_, [], nofun, Nat.le_add_left 1 seen, hsix, rfl⟩
  unfold completions
  split
  · exact htail filled
  · exact exists_mem_mul hescapes (htail true)
  · refine exists_mem_mul ?_ (exists_mem_mul hhex (htail true))
    exact @exists_mem_oneOf _ '0'.toUInt8 (by cases q <;> decide)
  · exact exists_mem_mul hhex (htail true)
  · exact exists_mem_mul (exists_mem_only _)
      (exists_mem_mul (hbraced (Nat.zero_le 6)) (htail true))
  · exact exists_mem_mul (hbraced h.2) (htail true)

/-- No word goes on behind another. -/
theorem append_mem_completions {q : Quote} {w v : Bytes} {escape : Escape} {filled : Bool}
    (h : q.Admits escape) (hw : w ∈ q.completions filled escape)
    (hv : w ++ v ∈ q.completions filled escape) : v = [] := by
  induction w generalizing escape filled with
  | nil => exact absurd hw (q.nil_notMem_completions filled escape)
  | cons c w ih =>
    rw [← List.singleton_append, ← Language.mem_leftQuotient] at hw
    rw [List.cons_append, ← List.singleton_append, ← Language.mem_leftQuotient] at hv
    have hoffers := q.offers filled (.single {} c) c h
    generalize q.react escape filled _ c = r at hoffers
    cases hoffers with
    | takes admits quotient => exact ih admits (quotient ▸ hw) (quotient ▸ hv)
    | closes quotient =>
      rw [quotient] at hv
      exact (List.append_eq_nil_iff.1 hv).2
    | breaks quotient =>
      rw [quotient] at hv
      exact absurd hv (Language.notMem_zero _)

end Quote

/-! ## Beginnings of words -/

/-- The beginnings of the words of a language. -/
def Viable (l : Language UInt8) (u : Bytes) : Prop := ∃ v, u ++ v ∈ l

theorem Viable.of_prefix {l : Language UInt8} {u w : Bytes} (h : Viable l w) (hu : u <+: w) :
    Viable l u := by
  obtain ⟨t, rfl⟩ := hu
  obtain ⟨v, hv⟩ := h
  exact ⟨t ++ v, List.append_assoc u t v ▸ hv⟩

namespace Quote

variable {q : Quote} {w v : Bytes}

theorem opener_append_mem_language :
    ascii q.opener ++ w ∈ q.language ↔ w ∈ q.completions false .none := by
  constructor
  · rintro ⟨u, rfl, v, hv, h⟩
    exact List.append_cancel_left h ▸ hv
  · intro hw
    exact Language.append_mem_mul rfl hw

theorem exists_of_mem_language (h : w ∈ q.language) :
    ∃ v ∈ q.completions false .none, w = ascii q.opener ++ v := by
  obtain ⟨u, rfl, v, hv, rfl⟩ := h
  exact ⟨v, hv, rfl⟩

theorem viable_opener_append :
    Viable q.language (ascii q.opener ++ w) ↔ Viable (q.completions false .none) w := by
  refine exists_congr fun v => ?_
  rw [List.append_assoc, opener_append_mem_language]

theorem viable_opener (q : Quote) : Viable q.language (ascii q.opener) := by
  obtain ⟨v, hv⟩ := exists_mem_completions q.admits_none false
  exact ⟨v, opener_append_mem_language.2 hv⟩

/-- Of two literals that a text begins with, neither goes on behind the other. -/
theorem eq_of_mem_language {text : Bytes} (hw : w ∈ q.language) (hv : v ∈ q.language)
    (hwtext : w <+: text) (hvtext : v <+: text) : v = w := by
  -- It is enough to look at the shorter one first.
  have key : ∀ {w v}, w ∈ q.language → v ∈ q.language → w <+: v → v = w := by
    rintro w v hw hv ⟨t, rfl⟩
    obtain ⟨u, hu, rfl⟩ := exists_of_mem_language hw
    rw [List.append_assoc, opener_append_mem_language] at hv
    have ht : t = [] := append_mem_completions q.admits_none hu hv
    rw [ht, List.append_nil]
  obtain h | h := List.prefix_or_prefix_of_prefix hwtext hvtext
  · exact key hw hv h
  · exact (key hv hw h).symm

end Quote

/-- The shortest beginning of a text with which no word begins. -/
structure FirstBreak (l : Language UInt8) (text front : Bytes) : Prop where
  start : front <+: text
  breaks : ¬ Viable l front
  first : ∀ u, u <+: text → ¬ Viable l u → front.length ≤ u.length

theorem exists_firstBreak {l : Language UInt8} {text u : Bytes} (hu : u <+: text)
    (hbreaks : ¬ Viable l u) : ∃ front, FirstBreak l text front := by
  classical
  have hex : ∃ n, ¬ Viable l (text.take n) :=
    ⟨u.length, by rwa [← List.prefix_iff_eq_take.1 hu]⟩
  refine ⟨text.take (Nat.find hex), List.take_prefix _ text, Nat.find_spec hex, ?_⟩
  intro v hv hbreaks
  rw [List.prefix_iff_eq_take.1 hv] at hbreaks
  exact (List.length_take_le _ text).trans (Nat.find_min' hex hbreaks)

end RustScan.Scan
