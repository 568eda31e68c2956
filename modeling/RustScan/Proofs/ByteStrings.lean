import Mathlib.Data.List.Basic
import RustScan.Bytes.Class

/-!
# Cutting byte strings, and reading numbers

What the operations on byte strings find, said without them.

* `Bytes.after?_eq_some_iff`, `Bytes.splitFirst?_eq_some_iff` — a fixed lead is read past, and a
  text is cut at the first separator.
* `Bytes.length_split`, `Bytes.split_append_cons` — a text has one piece more than separators, and
  every separator cuts it in two.  So texts that are each closed by a separator are had back by
  cutting (`Bytes.split_flatMap_concat`).
* `Bytes.ofDecimal`, `Bytes.ofSignedDecimal` — the number that is written in decimal.
-/

set_option autoImplicit false

namespace RustScan.Bytes

variable {sep : UInt8}

/-! ## Leads and separators -/

theorem after?_eq_some_iff {lead text rest : Bytes} :
    after? lead text = some rest ↔ text = lead ++ rest := by
  induction lead generalizing text with
  | nil => simp [after?, eq_comm]
  | cons l lead ih =>
    cases text with
    | nil => simp [after?]
    | cons c text =>
      rw [after?, List.cons_append, List.cons_eq_cons]
      split
      · rename_i hl
        rw [ih, hl]
        simp
      · rename_i hl
        simp [Ne.symm hl]

theorem splitFirst?_eq_none_iff {text : Bytes} :
    splitFirst? sep text = none ↔ sep ∉ text := by
  induction text with
  | nil => simp [splitFirst?]
  | cons c rest ih =>
    rw [splitFirst?]
    split
    · rename_i hc
      simp [hc]
    · rename_i hc
      simp [ih, Ne.symm hc]

/-- A text is cut at the first separator. -/
theorem splitFirst?_eq_some_iff {text before behind : Bytes} :
    splitFirst? sep text = some (before, behind) ↔
      text = before ++ sep :: behind ∧ sep ∉ before := by
  induction text generalizing before with
  | nil => simp [splitFirst?]
  | cons c rest ih =>
    rw [splitFirst?]
    split
    · rename_i hc
      subst hc
      cases before with
      | nil => simp [eq_comm]
      | cons b before => simp +contextual
    · rename_i hc
      cases before with
      | nil => simp [hc]
      | cons b before =>
        have hnot : sep ∉ b :: before ↔ sep ≠ b ∧ sep ∉ before := by simp
        rw [hnot]
        constructor
        · intro h
          obtain ⟨⟨before', behind'⟩, hcut, heq⟩ := Option.map_eq_some_iff.1 h
          obtain ⟨⟨rfl, rfl⟩, rfl⟩ : (c = b ∧ before' = before) ∧ behind' = behind := by
            simpa using heq
          obtain ⟨hrest, hout⟩ := ih.1 hcut
          exact ⟨by rw [hrest, List.cons_append], Ne.symm hc, hout⟩
        · rintro ⟨heq, -, hout⟩
          obtain ⟨rfl, hrest⟩ := List.cons.inj heq
          rw [ih.2 ⟨hrest, hout⟩]
          rfl

/-- A separator that stands in no earlier place is where a text is cut. -/
theorem splitFirst?_append_cons {before : Bytes} (h : sep ∉ before) (behind : Bytes) :
    splitFirst? sep (before ++ sep :: behind) = some (before, behind) :=
  splitFirst?_eq_some_iff.2 ⟨rfl, h⟩

/-! ## Pieces -/

theorem split_ne_nil (sep : UInt8) (text : Bytes) : split sep text ≠ [] := by
  cases text with
  | nil => simp [split]
  | cons c rest =>
    rw [split]
    split
    · simp
    · split <;> simp

theorem length_split (sep : UInt8) (text : Bytes) :
    (split sep text).length = text.count sep + 1 := by
  induction text with
  | nil => rfl
  | cons c rest ih =>
    rw [split]
    by_cases hc : c = sep
    · rw [if_pos hc, hc, List.count_cons_self, List.length_cons, ih]
    · rw [if_neg hc, List.count_cons_of_ne hc, ← ih]
      cases hrest : split sep rest with
      | nil => exact absurd hrest (split_ne_nil sep rest)
      | cons piece pieces => rfl

theorem split_of_notMem {text : Bytes} (h : sep ∉ text) : split sep text = [text] := by
  induction text with
  | nil => rfl
  | cons c rest ih =>
    rw [List.mem_cons, not_or] at h
    rw [split, if_neg (Ne.symm h.1), ih h.2]

/-- A separator cuts a text in two. -/
theorem split_append_cons (a b : Bytes) :
    split sep (a ++ sep :: b) = split sep a ++ split sep b := by
  induction a with
  | nil => simp [split]
  | cons c a ih =>
    rw [List.cons_append, split, split]
    by_cases hc : c = sep
    · rw [if_pos hc, if_pos hc, ih, List.cons_append]
    · rw [if_neg hc, if_neg hc, ih]
      cases ha : split sep a with
      | nil => exact absurd ha (split_ne_nil sep a)
      | cons piece pieces => rfl

/-- **Texts that are each closed by a separator are the pieces between the separators.** -/
theorem split_flatMap_concat {texts : List Bytes} (h : ∀ text ∈ texts, sep ∉ text) :
    split sep (texts.flatMap fun text => text ++ [sep]) = texts ++ [[]] := by
  induction texts with
  | nil => rfl
  | cons text texts ih =>
    obtain ⟨hfirst, hrest⟩ := List.forall_mem_cons.1 h
    rw [List.flatMap_cons, List.append_assoc, List.singleton_append, split_append_cons,
      split_of_notMem hfirst, ih hrest]
    rfl

/-! ## Numbers -/

theorem toNat_of_mem_toDigits {n : Nat} {d : Char} (h : d ∈ Nat.toDigits 10 n) :
    48 ≤ d.toNat ∧ d.toNat ≤ 57 := by
  have hdigit := Nat.isDigit_of_mem_toDigits (by decide) (by decide) h
  rw [Char.isDigit, Bool.and_eq_true, decide_eq_true_eq, decide_eq_true_eq, ge_iff_le,
    UInt32.le_iff_toNat_le, UInt32.le_iff_toNat_le] at hdigit
  exact hdigit

/-- A number is written in digits. -/
theorem isDigit_of_mem_decimal {n : Nat} {c : UInt8} (h : c ∈ decimal n) :
    isDigit c = true := by
  obtain ⟨d, hd, rfl⟩ := List.mem_map.1 h
  have hdigit := toNat_of_mem_toDigits hd
  have hbyte : d.toUInt8.toNat = d.toNat % 256 := UInt32.toNat_toUInt8 d.val
  have hlow : '0'.toUInt8.toNat = 48 := rfl
  have hhigh : '9'.toUInt8.toNat = 57 := rfl
  rw [isDigit, Bool.and_eq_true, decide_eq_true_eq, decide_eq_true_eq, UInt8.le_iff_toNat_le,
    UInt8.le_iff_toNat_le]
  omega

/-- The number that a text of decimal digits stands for. -/
def ofDecimal (text : Bytes) : Nat := Nat.ofDigitChars 10 (text.map Char.ofUInt8) 0

/-- **A number can be read back from its digits.** -/
theorem ofDecimal_decimal (n : Nat) : ofDecimal (decimal n) = n := by
  have hback : ∀ d ∈ Nat.toDigits 10 n, Char.ofUInt8 d.toUInt8 = d := by
    intro d hd
    have hdigit := toNat_of_mem_toDigits hd
    have hbyte : d.toUInt8.toNat = d.toNat % 256 := UInt32.toNat_toUInt8 d.val
    refine Char.toNat_inj.1 ?_
    show d.toUInt8.toUInt32.toNat = d.toNat
    rw [UInt8.toNat_toUInt32, hbyte]
    omega
  have hsame : (Nat.toDigits 10 n).map (Char.ofUInt8 ∘ Char.toUInt8) = Nat.toDigits 10 n :=
    (List.map_congr_left hback).trans (List.map_id _)
  rw [ofDecimal, decimal, List.map_map, hsame]
  exact Nat.ofDigitChars_ten_toDigits

/-- The integer that a text of decimal digits with or without a minus sign stands for. -/
def ofSignedDecimal (text : Bytes) : Int :=
  match after? (ascii "-") text with
  | some digits => -(ofDecimal digits : Int)
  | none => ofDecimal text

theorem notMem_decimal {n : Nat} {c : UInt8} (h : isDigit c = false) : c ∉ decimal n := by
  intro hmem
  exact Bool.false_ne_true (h.symm.trans (isDigit_of_mem_decimal hmem))

theorem notMem_signedDecimal {n : Int} {c : UInt8} (h : isDigit c = false)
    (hsign : c ≠ '-'.toUInt8) : c ∉ signedDecimal n := by
  rw [signedDecimal]
  split
  · rw [List.mem_cons, not_or]
    exact ⟨hsign, notMem_decimal h⟩
  · exact notMem_decimal h

theorem ofSignedDecimal_signedDecimal (n : Int) : ofSignedDecimal (signedDecimal n) = n := by
  rw [signedDecimal]
  split
  · have hsign : after? (ascii "-") ('-'.toUInt8 :: decimal n.natAbs) = some (decimal n.natAbs) :=
      after?_eq_some_iff.2 rfl
    rw [ofSignedDecimal, hsign]
    show -(ofDecimal (decimal n.natAbs) : Int) = n
    rw [ofDecimal_decimal]
    omega
  · have hsign : after? (ascii "-") (decimal n.natAbs) = none := by
      rw [Option.eq_none_iff_forall_ne_some]
      intro digits hdigits
      have hdash : '-'.toUInt8 ∈ decimal n.natAbs := by
        rw [after?_eq_some_iff.1 hdigits]
        exact List.mem_cons_self
      exact notMem_decimal (by decide) hdash
    rw [ofSignedDecimal, hsign]
    show (ofDecimal (decimal n.natAbs) : Int) = n
    rw [ofDecimal_decimal]
    omega

end RustScan.Bytes
