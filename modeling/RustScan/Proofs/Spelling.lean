import RustScan.Token.Kind

/-!
# Spellings

Symbols and keywords are found by their spellings, in tables that are made from lists of all of
them.  So whatever is found is spelled as the bytes it was found by (`Symbol.spelling_of_ofBytes?`,
`Keyword.spelling_of_ofWord?`, `Kind.eq_of_ofReserved?_static`).
-/

set_option autoImplicit false

namespace RustScan

/-- What is found in a table of things beside their keys has the key that was asked for. -/
theorem key_of_lookup {α : Type} (key : α → Bytes) {entries : List α} {text : Bytes} {a : α}
    (h : (entries.map fun a => (key a, a)).lookup text = some a) : key a = text := by
  rw [List.lookup_eq_some_iff] at h
  obtain ⟨l₁, l₂, hl, -⟩ := h
  have hmem : (text, a) ∈ entries.map fun a => (key a, a) := by
    rw [hl]
    simp
  obtain ⟨b, -, hb⟩ := List.mem_map.1 hmem
  rw [Prod.mk.injEq] at hb
  rw [← hb.2]
  exact hb.1

/-! ## Symbols -/

namespace Symbol

theorem spelling_of_ofBytes? {text : Bytes} {s : Symbol} (h : ofBytes? text = some s) :
    ascii s.spelling = text :=
  key_of_lookup (fun s : Symbol => ascii s.spelling) h

theorem spelling_of_extend? {s t : Symbol} {c : UInt8} (h : s.extend? c = some t) :
    ascii t.spelling = ascii s.spelling ++ [c] :=
  spelling_of_ofBytes? h

theorem spelling_ne_nil (s : Symbol) : ascii s.spelling ≠ [] := by
  cases s <;> decide

theorem lf_not_mem_spelling (s : Symbol) : Bytes.lf ∉ ascii s.spelling := by
  cases s <;> decide

theorem extend?_lf (s : Symbol) : s.extend? Bytes.lf = none := by
  cases ht : s.extend? Bytes.lf with
  | none => rfl
  | some t =>
    refine absurd ?_ t.lf_not_mem_spelling
    rw [spelling_of_extend? ht]
    exact List.mem_append_right _ (List.mem_singleton_self _)

end Symbol

/-! ## Reserved words -/

theorem Keyword.spelling_of_ofWord? {word : Bytes} {k : Keyword} (h : ofWord? word = some k) :
    ascii k.spelling = word :=
  key_of_lookup (fun k : Keyword => ascii k.spelling) h

theorem Keyword.spelling_ne_nil (k : Keyword) : ascii k.spelling ≠ [] := by
  cases k <;> decide

/-- Only one lexeme is reserved as a lifetime. -/
theorem Kind.eq_of_ofReserved?_static {lexeme : Bytes}
    (h : ofReserved? lexeme = some staticLifetime) : lexeme = ascii "'static" := by
  rw [ofReserved?] at h
  split at h
  · assumption
  · simp at h

/-- A kind has a spelling just if it is not empty. -/
theorem Kind.spelling_eq_nil_iff {k : Kind} : k.spelling = [] ↔ k.spelling? = none := by
  cases k with
  | keyword k => simpa [spelling, spelling?] using k.spelling_ne_nil
  | symbol s => simpa [spelling, spelling?] using s.spelling_ne_nil
  | staticLifetime => decide
  | _ => exact iff_of_true rfl rfl

end RustScan
