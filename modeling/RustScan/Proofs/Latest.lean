import Mathlib.Data.List.Induction

/-!
# What is said last

The flags of a command, the entries of a written filter and the changes to a session have one thing
in common: of several that are about the same, the last one holds.

* `LastTells tells xs a` — the last element of a list that says something says `a`.
  `lastTells_concat` adds an element, and `lastTells_iff` finds what is said last by reading the
  list from its end.
* `view_foldl` — if a single step replaces what is seen of a state by what the step says, then many
  steps replace it by what is said last.
-/

set_option autoImplicit false

namespace RustScan

variable {ι α : Type} {tells : ι → α → Prop}

/-- The last element of a list that says something says `a`. -/
def LastTells (tells : ι → α → Prop) (xs : List ι) (a : α) : Prop :=
  ∃ before x behind, xs = before ++ x :: behind ∧ tells x a ∧
    ∀ later ∈ behind, ∀ other, ¬ tells later other

theorem not_lastTells_nil {a : α} : ¬ LastTells tells [] a := by
  rintro ⟨before, x, behind, heq, -⟩
  simp at heq

/-- A further element is the last one that says something, unless it says nothing. -/
theorem lastTells_concat {xs : List ι} {x : ι} {a : α} :
    LastTells tells (xs ++ [x]) a ↔
      tells x a ∨ (∀ other, ¬ tells x other) ∧ LastTells tells xs a := by
  constructor
  · rintro ⟨before, y, behind, heq, htells, hlater⟩
    rcases List.eq_nil_or_concat behind with rfl | ⟨front, last, rfl⟩
    · obtain ⟨-, hlast⟩ := List.append_inj' heq rfl
      obtain rfl : x = y := List.singleton_inj.1 hlast
      exact Or.inl htells
    · rw [List.concat_eq_append] at heq hlater
      rw [← List.cons_append, ← List.append_assoc] at heq
      obtain ⟨hfront, hlast⟩ := List.append_inj' heq rfl
      obtain rfl : x = last := List.singleton_inj.1 hlast
      refine Or.inr ⟨hlater x (by simp), before, y, front, hfront, htells, ?_⟩
      intro later hmem
      exact hlater later (List.mem_append_left _ hmem)
  · rintro (htells | ⟨hnone, before, y, behind, rfl, htells, hlater⟩)
    · exact ⟨xs, x, [], rfl, htells, nofun⟩
    · refine ⟨before, y, behind ++ [x], by simp, htells, ?_⟩
      intro later hmem
      rcases List.mem_append.1 hmem with hmem | hmem
      · exact hlater later hmem
      · rw [List.mem_singleton.1 hmem]
        exact hnone

/-! ## Reading from the end -/

section

variable {read : ι → Option α}

/-- What is said last is what is found first from the end. -/
theorem lastTells_iff (hread : ∀ {x a}, read x = some a ↔ tells x a) {xs : List ι} {a : α} :
    LastTells tells xs a ↔ xs.reverse.findSome? read = some a := by
  induction xs using List.reverseRecOn with
  | nil => exact iff_of_false not_lastTells_nil nofun
  | append_singleton xs x ih =>
    rw [lastTells_concat, ih, List.reverse_concat, List.findSome?_cons]
    simp only [← hread]
    cases read x with
    | none => simp
    | some b => simp

/-- Nothing is found if nothing is said. -/
theorem forall_not_tells_iff (hread : ∀ {x a}, read x = some a ↔ tells x a) {xs : List ι} :
    (∀ x ∈ xs, ∀ a, ¬ tells x a) ↔ xs.reverse.findSome? read = none := by
  rw [List.findSome?_eq_none_iff]
  simp only [List.mem_reverse, ← hread]
  exact forall₂_congr fun x _ => Option.eq_none_iff_forall_ne_some.symm

end

/-- **What is seen of a state after many steps** is what the last of them says that says
something. -/
theorem view_foldl {σ : Type} {step : σ → ι → σ} {view : σ → Option α} {pick : ι → Option α}
    (hstep : ∀ s x, view (step s x) = (pick x).or (view s)) (s : σ) (xs : List ι) :
    view (xs.foldl step s) = (xs.reverse.findSome? pick).or (view s) := by
  induction xs using List.reverseRecOn with
  | nil => rfl
  | append_singleton xs x ih =>
    rw [List.foldl_append, List.foldl_cons, List.foldl_nil, hstep, ih, List.reverse_concat,
      List.findSome?_cons]
    cases pick x <;> rfl

end RustScan
