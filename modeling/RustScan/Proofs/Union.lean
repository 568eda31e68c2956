import Mathlib.Data.List.ModifyLast
import RustScan.Proofs.Items

/-!
# The word `union`

A scanner decides late what the word `union` is: it is kept as an identifier, and rewritten when
the next token turns out to be a word.  This file says what comes out when all tokens are there.

* `reclassify` — a list of tokens in which every `union` in front of a word is a keyword.  It looks
  only forward, so a later part of the list can be treated on its own (`reclassify_drop`), and what
  becomes of a token depends on the next one alone (`getElem?_reclassify`).  Places and lengths do
  not matter to it (`reclassify_map`).
* `join` — puts two finished lists together.  The last token of the first list is the only one that
  can change.  `join` is associative, and `reclassify` turns appending into joining
  (`reclassify_append`).
* `toList_foldl_addToken` — adding tokens one by one with `addToken` gives the same list.  So the
  tokens of a text are those of its items, reclassified (`scan_tokens`).
-/

set_option autoImplicit false

namespace RustScan.Scan

/-! ## Promoting a token -/

/-- A promoted token is a word if it was one before. -/
@[simp] theorem promote_isWord (t : Token) : (promote t).kind.isWord = t.kind.isWord := by
  rw [promote]
  split
  · rename_i h
    simp only [isUnion, Bool.and_eq_true, decide_eq_true_eq] at h
    rw [h.1]
    rfl
  · rfl

theorem promote_eq_self {t : Token} (h : isUnion t = false) : promote t = t := by
  rw [promote, if_neg (by simp [h])]

/-! ## Joining finished lists -/

/-- Two lists of tokens, one behind the other.  If the second begins with a word, a `union` at the
end of the first becomes a keyword. -/
def join (xs ys : List Token) : List Token :=
  match ys with
  | [] => xs
  | u :: _ => (if u.kind.isWord then xs.modifyLast promote else xs) ++ ys

@[simp] theorem join_nil (xs : List Token) : join xs [] = xs := rfl

@[simp] theorem nil_join (ys : List Token) : join [] ys = ys := by
  cases ys with
  | nil => rfl
  | cons u rest =>
    rw [join, show List.modifyLast promote [] = [] from rfl, ite_self, List.nil_append]

/-- Joining is appending, but that it may promote the last token of the first list. -/
theorem join_cases (xs ys : List Token) :
    join xs ys = xs ++ ys ∨
      ∃ front last, xs = front ++ [last] ∧ join xs ys = front ++ promote last :: ys := by
  cases ys with
  | nil => exact Or.inl (List.append_nil xs).symm
  | cons u ys =>
    rw [join]
    split
    · rcases List.eq_nil_or_concat xs with rfl | ⟨front, last, rfl⟩
      · exact Or.inl rfl
      · refine Or.inr ⟨front, last, List.concat_eq_append, ?_⟩
        rw [List.concat_eq_append, List.modifyLast_concat, List.append_assoc]
        rfl
    · exact Or.inl rfl

/-- Promoting the last token does not change whether the first is a word. -/
theorem modifyLast_promote_eq_cons (u : Token) (rest : List Token) :
    ∃ u' rest', (u :: rest).modifyLast promote = u' :: rest' ∧
      u'.kind.isWord = u.kind.isWord := by
  cases rest with
  | nil => exact ⟨promote u, [], List.modifyLast_concat promote u [], promote_isWord u⟩
  | cons v rest =>
    refine ⟨u, (v :: rest).modifyLast promote, ?_, rfl⟩
    exact List.modifyLast_append_of_right_ne_nil promote [u] (v :: rest) (List.cons_ne_nil _ _)

theorem join_assoc (xs ys zs : List Token) : join (join xs ys) zs = join xs (join ys zs) := by
  cases ys with
  | nil => rw [join_nil, nil_join]
  | cons u ys =>
    cases zs with
    | nil => rw [join_nil, join_nil]
    | cons v zs =>
      by_cases hv : v.kind.isWord = true
      · obtain ⟨u', ys', hys, hu⟩ := modifyLast_promote_eq_cons u ys
        have hne : u :: ys ≠ [] := List.cons_ne_nil _ _
        simp only [join, hv, if_true, hys, List.cons_append, hu]
        rw [List.modifyLast_append_of_right_ne_nil _ _ _ hne, hys, List.append_assoc,
          List.cons_append]
      · simp only [join, hv, Bool.false_eq_true, if_false, List.append_assoc, List.cons_append]

/-! ## Looking at all tokens at once -/

/-- The tokens with every `union` in front of a word made a keyword. -/
def reclassify : List Token → List Token
  | [] => []
  | [t] => [t]
  | t :: u :: rest => (if u.kind.isWord then promote t else t) :: reclassify (u :: rest)

theorem reclassify_cons_cons (t u : Token) (rest : List Token) :
    reclassify (t :: u :: rest) =
      (if u.kind.isWord then promote t else t) :: reclassify (u :: rest) := rfl

/-- The first token is found in its place, promoted or not. -/
theorem reclassify_eq_cons (t : Token) (rest : List Token) :
    ∃ t', reclassify (t :: rest) = t' :: reclassify rest ∧ (t' = t ∨ t' = promote t) := by
  cases rest with
  | nil => exact ⟨t, rfl, Or.inl rfl⟩
  | cons u rest =>
    refine ⟨_, reclassify_cons_cons t u rest, ?_⟩
    split
    · exact Or.inr rfl
    · exact Or.inl rfl

theorem reclassify_cons (t : Token) (rest : List Token) :
    reclassify (t :: rest) = join [t] (reclassify rest) := by
  cases rest with
  | nil => rfl
  | cons u rest =>
    obtain ⟨u', hrest, hu'⟩ := reclassify_eq_cons u rest
    have hu : u'.kind.isWord = u.kind.isWord := by
      rcases hu' with rfl | rfl
      · rfl
      · exact promote_isWord u
    rw [reclassify_cons_cons, hrest, join, hu]
    by_cases h : u.kind.isWord = true
    · rw [if_pos h, if_pos h, show List.modifyLast promote [t] = [promote t] from rfl]
      rfl
    · rw [if_neg h, if_neg h]
      rfl

/-- **Appending becomes joining.** -/
theorem reclassify_append (xs ys : List Token) :
    reclassify (xs ++ ys) = join (reclassify xs) (reclassify ys) := by
  induction xs with
  | nil => exact (nil_join _).symm
  | cons x xs ih => rw [List.cons_append, reclassify_cons, ih, reclassify_cons, join_assoc]

/-- **What a token is depends only on the tokens behind it.** -/
theorem reclassify_drop (ts : List Token) (n : Nat) :
    (reclassify ts).drop n = reclassify (ts.drop n) := by
  induction n generalizing ts with
  | zero => rfl
  | succ n ih =>
    cases ts with
    | nil => rfl
    | cons t rest =>
      obtain ⟨t', ht, -⟩ := reclassify_eq_cons t rest
      rw [ht, List.drop_succ_cons, List.drop_succ_cons, ih]

/-- **Tokens can be changed before or after**, if the change leaves words alone and promotes as
before. -/
theorem reclassify_map {f : Token → Token} (hword : ∀ t, (f t).kind.isWord = t.kind.isWord)
    (hpromote : ∀ t, promote (f t) = f (promote t)) (ts : List Token) :
    reclassify (ts.map f) = (reclassify ts).map f := by
  induction ts with
  | nil => rfl
  | cons t rest ih =>
    cases rest with
    | nil => rfl
    | cons u rest =>
      rw [List.map_cons, List.map_cons, reclassify_cons_cons, ← List.map_cons, ih,
        reclassify_cons_cons, List.map_cons, hword]
      split
      · rw [hpromote]
      · rfl

/-- Whether a list has a word in place `n`. -/
def hasWordAt (ts : List Token) (n : Nat) : Bool := (ts[n]?).any fun t => t.kind.isWord

/-- **A token is promoted just if a word stands behind it.** -/
theorem getElem?_reclassify (ts : List Token) (n : Nat) :
    (reclassify ts)[n]? =
      (ts[n]?).map fun t => if hasWordAt ts (n + 1) then promote t else t := by
  induction ts generalizing n with
  | nil => rfl
  | cons t rest ih =>
    cases n with
    | zero => cases rest <;> rfl
    | succ n =>
      obtain ⟨t', hcons, -⟩ := reclassify_eq_cons t rest
      rw [hcons, List.getElem?_cons_succ, ih]
      rfl

/-- Reclassifying tokens makes no word of anything else. -/
theorem hasWordAt_reclassify (ts : List Token) (n : Nat) :
    hasWordAt (reclassify ts) n = hasWordAt ts n := by
  rw [hasWordAt, hasWordAt, getElem?_reclassify]
  cases ts[n]? with
  | none => rfl
  | some t =>
    simp only [Option.map_some, Option.any_some]
    split
    · exact promote_isWord t
    · rfl

/-- **Reclassifying goes on where it stopped.**  Of the tokens that are there already, only a
`union` at the end can still change. -/
theorem getElem?_reclassify_of_take {ts : List Token} {k j : Nat} {u : Token}
    (hu : (reclassify (ts.take k))[j]? = some u) :
    (reclassify ts)[j]? = some u ∨
      isUnion u = true ∧ j + 1 = k ∧ (reclassify ts)[j]? = some (promote u) := by
  rw [getElem?_reclassify, Option.map_eq_some_iff] at hu
  obtain ⟨t, ht, hu⟩ := hu
  have hjk : j < k := by
    by_contra hge
    rw [List.getElem?_take_eq_none (by omega)] at ht
    exact absurd ht (by simp)
  rw [List.getElem?_take_of_lt hjk] at ht
  rw [getElem?_reclassify, ht, Option.map_some]
  rcases Nat.lt_or_eq_of_le (Nat.succ_le_of_lt hjk) with hnext | hlast
  · -- the token behind it is there as well
    have hsame : hasWordAt (ts.take k) (j + 1) = hasWordAt ts (j + 1) := by
      rw [hasWordAt, hasWordAt, List.getElem?_take_of_lt hnext]
    rw [← hsame, hu]
    exact Or.inl rfl
  · have hnone : hasWordAt (ts.take k) (j + 1) = false := by
      rw [hasWordAt, List.getElem?_take_eq_none (by omega)]
      rfl
    rw [hnone] at hu
    obtain rfl : t = u := hu
    cases hunion : isUnion t with
    | true =>
      split
      · exact Or.inr ⟨rfl, hlast, rfl⟩
      · exact Or.inl rfl
    | false =>
      rw [promote_eq_self hunion, ite_self]
      exact Or.inl rfl

/-! ## Adding tokens one by one -/

theorem toList_addToken (tokens : Array Token) (t : Token) :
    (addToken tokens t).toList = join tokens.toList [t] := by
  obtain ⟨tokens⟩ := tokens
  rcases List.eq_nil_or_concat tokens with rfl | ⟨front, last, rfl⟩
  · rw [nil_join]
    rfl
  · simp only [addToken, join, List.concat_eq_append, List.modifyLast_concat]
    by_cases h : t.kind.isWord = true <;> simp [h]

/-- **Tokens that are added one by one are reclassified as a whole.** -/
theorem toList_foldl_addToken (ts : List Token) (tokens : Array Token) :
    (ts.foldl addToken tokens).toList = join tokens.toList (reclassify ts) := by
  induction ts generalizing tokens with
  | nil => rfl
  | cons t ts ih =>
    rw [List.foldl_cons, ih, toList_addToken, join_assoc, reclassify_cons]

/-- The tokens of a text are made from its items. -/
theorem scan_tokens (text : Bytes) :
    (scan text).tokens = reclassify ((({} : Machine).items text).map Item.token) := by
  rw [scan, Scanner.finish_run, Scanner.found_tokens, toList_foldl_addToken]
  exact nil_join _

/-- The token in a place of the list is that of the item in the same place, promoted just if a word
stands behind it. -/
theorem scan_tokens_getElem? (text : Bytes) (n : Nat) :
    (scan text).tokens[n]? = ((({} : Machine).items text)[n]?).map fun i =>
      if hasWordAt (scan text).tokens (n + 1) then promote i.token else i.token := by
  rw [scan_tokens, hasWordAt_reclassify, getElem?_reclassify, List.getElem?_map, Option.map_map]
  rfl

/-- The token in a place of the list is made from the item in the same place. -/
theorem scan_getElem? {text : Bytes} {n : Nat} {t : Token} (h : (scan text).tokens[n]? = some t) :
    ∃ i, (({} : Machine).items text)[n]? = some i ∧ (t = i.token ∨ t = promote i.token) := by
  rw [scan_tokens_getElem?, Option.map_eq_some_iff] at h
  obtain ⟨i, hi, rfl⟩ := h
  refine ⟨i, hi, ?_⟩
  split
  · exact Or.inr rfl
  · exact Or.inl rfl

end RustScan.Scan
