import RustScan.Proofs.ByteStrings
import RustScan.Token.Basic

/-!
# Reading a token listing

A line of a token listing holds the position of a token, the name of its kind and, behind one more
tab, its text.  Anything can stand in the text: tabs, colons, line feeds, names of kinds, or nothing
at all.  The line can be read back nevertheless, because only the text is at its end: a number holds
no colon and no tab, and a name holds no tab.

* `Kind.ofName?` — the kind with a given name.  The names of the kinds that have a code are all
  different (`Kind.ofName?_name`).
* `Token.Entry` — what a line tells of its token, and `Token.Entry.ofListing?`, the way from a line
  to it.
* `Token.listing_decodable` — the main statement.
-/

set_option autoImplicit false

namespace RustScan

/-! ## Names of kinds -/

namespace Kind

/-- The kind with a given name, among those that have a code. -/
def ofName? (name : Bytes) : Option Kind :=
  (assigned.map fun k => (ascii k.name, k)).lookup name

/-- **No two kinds have the same name**, and no name holds a tab. -/
theorem ofName?_name :
    ∀ k ∈ assigned, ofName? (ascii k.name) = some k ∧ Bytes.tab ∉ ascii k.name := by
  decide +kernel

end Kind

/-! ## Lines -/

namespace Token

/-- What a line of a token listing tells of its token. -/
structure Entry where
  line : UInt32
  column : UInt32
  kind : Kind
  text : Option Bytes
  deriving DecidableEq

/-- What the listing tells of a token: everything but the bytes it covers. -/
def entry (t : Token) : Entry :=
  { line := t.line, column := t.column, kind := t.kind, text := t.text }

/-- The name of a kind, and the text behind the first tab.  Without a tab there is no text. -/
def Entry.splitText (line : Bytes) : Bytes × Option Bytes :=
  match Bytes.splitFirst? Bytes.tab line with
  | some (name, text) => (name, some text)
  | none => (line, none)

/-- What is written on a line of a token listing. -/
def Entry.ofListing? (line : Bytes) : Option Entry := do
  let (row, line) ← Bytes.splitFirst? ':'.toUInt8 line
  let (column, line) ← Bytes.splitFirst? Bytes.tab line
  let (name, text) := splitText line
  let kind ← Kind.ofName? name
  some { line := (Bytes.ofDecimal row).toUInt32, column := (Bytes.ofDecimal column).toUInt32,
         kind, text }

/-- The end of a line, behind the name of the kind. -/
def textPart : Option Bytes → Bytes
  | none => []
  | some text => Bytes.tab :: text

/-- A line, cut where `Entry.ofListing?` cuts it. -/
theorem listing_eq (t : Token) :
    t.listing = Bytes.decimal t.line.toNat ++ ':'.toUInt8 ::
      (Bytes.decimal t.column.toNat ++ Bytes.tab :: (ascii t.kind.name ++ textPart t.text)) := by
  have hcolon : ascii ":" = [':'.toUInt8] := rfl
  have htab : ascii "\t" = [Bytes.tab] := rfl
  rw [listing, hcolon, htab]
  cases t.text <;> simp [textPart]

/-- A text that is empty is told from one that is absent by its tab. -/
theorem Entry.splitText_append {name : Bytes} (h : Bytes.tab ∉ name) (text : Option Bytes) :
    splitText (name ++ textPart text) = (name, text) := by
  rw [splitText]
  cases text with
  | none => rw [textPart, List.append_nil, Bytes.splitFirst?_eq_none_iff.2 h]
  | some text => rw [textPart, Bytes.splitFirst?_append_cons h]

/-- **A line can be read back.** -/
theorem Entry.ofListing?_listing {t : Token} (h : t.kind ∈ Kind.assigned) :
    ofListing? t.listing = some t.entry := by
  have hcolon : ':'.toUInt8 ∉ Bytes.decimal t.line.toNat := Bytes.notMem_decimal (by decide)
  have htab : Bytes.tab ∉ Bytes.decimal t.column.toNat := Bytes.notMem_decimal (by decide)
  obtain ⟨hkind, hname⟩ := Kind.ofName?_name t.kind h
  simp only [ofListing?, listing_eq, Bytes.splitFirst?_append_cons hcolon,
    Bytes.splitFirst?_append_cons htab, splitText_append hname, hkind, Bytes.ofDecimal_decimal,
    Option.bind_eq_bind, Option.bind_some, Nat.toUInt32_eq, UInt32.ofNat_toNat, entry]

/-- **The lines of a token listing are decodable.**  The position, the kind and the text of a token
are had back from its line, whatever the text is, and so no other position, kind or text has the
same line.  The kind has to be one with a code. -/
theorem listing_decodable {t : Token} (ht : t.kind ∈ Kind.assigned) :
    Entry.ofListing? t.listing = some t.entry ∧
      ∀ u : Token, u.kind ∈ Kind.assigned → t.listing = u.listing →
        t.line = u.line ∧ t.column = u.column ∧ t.kind = u.kind ∧ t.text = u.text := by
  have hread := Entry.ofListing?_listing ht
  refine ⟨hread, fun u hu heq => ?_⟩
  rw [heq, Entry.ofListing?_listing hu, Option.some_inj] at hread
  exact ⟨congrArg Entry.line hread.symm, congrArg Entry.column hread.symm,
    congrArg Entry.kind hread.symm, congrArg Entry.text hread.symm⟩

/-- Two tokens that cover different bytes, with a text that looks like the rest of a listing. -/
theorem listing_decodable_tabs :
    let t : Token := ⟨1, 10, .comment .plain, some (ascii "//\tERROR\n0:0\t"), 5, 13⟩
    let u : Token := { t with offset := 9, length := 4 }
    (t.kind ∈ Kind.assigned ∧ u.kind ∈ Kind.assigned ∧ t.listing = u.listing) ∧
      Entry.ofListing? (ascii "1:10\tCOMMENT\t//\tERROR\n0:0\t") = some t.entry ∧
      t.line = u.line ∧ t.column = u.column ∧ t.kind = u.kind ∧ t.text = u.text := by
  intro t u
  have ht : t.kind ∈ Kind.assigned := by decide
  have hu : u.kind ∈ Kind.assigned := by decide
  have heq : t.listing = u.listing := rfl
  have hline : t.listing = ascii "1:10\tCOMMENT\t//\tERROR\n0:0\t" := by decide
  obtain ⟨hread, hsame⟩ := listing_decodable ht
  exact ⟨⟨ht, hu, heq⟩, hline ▸ hread, hsame u hu heq⟩

-- the kinds that have a code are those of the first 123 codes, and the others share one name
example : Kind.assigned.length = 123 := by decide

example : (⟨0, 0, .unassigned 123, none, 0, 0⟩ : Token).listing =
    (⟨0, 0, .unassigned 124, none, 0, 0⟩ : Token).listing := rfl

end Token
end RustScan
