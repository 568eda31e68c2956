import RustScan.Proofs.Cuts
import RustScan.Proofs.Ending
import RustScan.Proofs.Words

/-!
# The lexeme a text begins with

The families of lexemes are described one by one in the modules that follow, each by what the first
token of a text is.  This file holds what they share.

* `scanAt p text` — the tokens of a text that stands at `p`.  `Leads text front kind words` says
  that `front` is the first lexeme of a text: its token is the first one, and a scanner that begins
  behind it finds the others.  `leads_token` and `leads_fault` lead there from the items of a
  machine.
* `LeadsAs text front kind` — the same of a well-formed lexeme of any kind.  Its token has no text
  if the kind has a spelling, and if it reads `union` its kind depends on the next token
  (`leadsAs_token`, `leadsAs_union`).
* `Machine.head?_items_drop` — what is known of the first lexeme of every text is known of all
  lexemes, since every item is the first one of the text from there on.
* `Machine.inside p text mode` — the machine behind the first bytes of a lexeme.  What a byte does
  to it is read off the reaction of its mode, for a byte that is taken (`step_inside_extend`,
  `step_inside_close`, `step_inside_retry`) and for one that is not (`items_inside_unused`).  The
  end of the input is no case of its own there: it acts like a line feed.
* `Machine.run_inside`, `Machine.items_inside_span` — a lexeme that takes byte after byte, and one
  that takes all bytes of a class.
* `Machine.items_inside_congr` — modes that react alike to the next byte find the same.
* `Machine.items_inside_nil` — a lexeme that waits for its closer when the input ends.
-/

set_option autoImplicit false

namespace RustScan.Scan

/-! ## Tokens from a place on -/

/-- The tokens of a text that stands at `p`: those of a scanner that begins there. -/
def scanAt (p : Position) (text : Bytes) : List Token :=
  (Scanner.run { machine := { cursor := p } } text).finish.tokens.toList

theorem scanAt_eq (p : Position) (text : Bytes) :
    scanAt p text = reclassify ((Machine.items ⟨p, .idle⟩ text).map Item.token) := by
  rw [scanAt, ← Scanner.ahead_eq, Scanner.ahead]
  exact nil_join _

/-- Up to the size that fits into 32 bits, the tokens are those of the text alone, moved to where it
stands. -/
theorem scanAt_eq_map_shift (p : Position) {text : Bytes} (hsize : text.length ≤ Source.maxSize) :
    scanAt p text = (scan text).tokens.map (Token.shift p.location) := by
  rw [scanAt_eq, tokens_shift p hsize]

@[simp] theorem scanAt_nil (p : Position) : scanAt p [] = [] := by
  rw [scanAt_eq, Machine.items_idle_nil]
  rfl

/-! ## The first lexeme -/

/-- The first token of `text` is of the given kind, says `words`, and covers just `front`. -/
structure Leads (text front : Bytes) (kind : Kind) (words : Bytes) : Prop where
  start : front <+: text
  /-- The tokens behind it are those of a scanner that begins behind `front`. -/
  tokens : (scan text).tokens = ⟨0, 0, kind, some words, 0, front.length.toUInt32⟩ ::
    scanAt (({} : Position).after front) (text.drop front.length)
  /-- If positions fit into 32 bits, they are those of the rest alone, moved behind `front`. -/
  behind : text.length ≤ Source.maxSize →
    (scan text).tokens.tail =
      (scan (text.drop front.length)).tokens.map (Token.shift (Bytes.extent front))

/-- Only an identifier can be made a keyword by what follows. -/
theorem reclassify_cons_of_ne_ident {t : Token} (h : t.kind ≠ .ident) (rest : List Token) :
    reclassify (t :: rest) = t :: reclassify rest := by
  have hunion : isUnion t = false := by simp [isUnion, h]
  rw [reclassify_cons, cons_join (Or.inr hunion), nil_join]

/-- A first token that covers the whole text is the only one. -/
theorem Leads.only {text words : Bytes} {kind : Kind} (h : Leads text text kind words) :
    (scan text).tokens = [⟨0, 0, kind, some words, 0, text.length.toUInt32⟩] := by
  rw [h.tokens, List.drop_length, scanAt_nil]

section Items

variable {text front rest : Bytes} (htext : text = front ++ rest)
include htext

theorem leads_of_items {item : Item} {kind : Kind} {words : Bytes}
    (htoken : item.token = ⟨0, 0, kind, some words, 0, front.length.toUInt32⟩)
    (hkind : kind ≠ .ident)
    (hitems : ({} : Machine).items text =
      item :: Machine.items ⟨({} : Position).after front, .idle⟩ rest) :
    Leads text front kind words := by
  subst htext
  have htokens : (scan (front ++ rest)).tokens =
      ⟨0, 0, kind, some words, 0, front.length.toUInt32⟩ ::
        scanAt (({} : Position).after front) rest := by
    rw [scan_tokens, hitems, List.map_cons, htoken, reclassify_cons_of_ne_ident hkind, ← scanAt_eq]
  refine ⟨List.prefix_append _ _, ?_, fun hsize => ?_⟩
  · rw [htokens, List.drop_left]
  · have hrest : rest.length ≤ Source.maxSize := by
      rw [List.length_append] at hsize
      omega
    rw [htokens, List.tail_cons, List.drop_left, scanAt_eq_map_shift _ hrest,
      Position.location_after_start]

/-- A well-formed lexeme whose kind has no spelling of its own. -/
theorem leads_token {kind : Kind} (free : kind.spelling? = none) (hkind : kind ≠ .ident)
    (hitems : ({} : Machine).items text =
      (Lexeme.ofText {} front).token kind ::
        Machine.items ⟨({} : Position).after front, .idle⟩ rest) :
    Leads text front kind front := by
  refine leads_of_items htext ?_ hkind hitems
  simp only [Lexeme.token, free, Option.isSome_none, Bool.false_eq_true, if_false]
  rfl

/-- A malformed lexeme. -/
theorem leads_fault {f : Fault}
    (hitems : ({} : Machine).items text =
      (Lexeme.ofText {} front).fault f ::
        Machine.items ⟨({} : Position).after front, .idle⟩ rest) :
    Leads text front .error f.message :=
  leads_of_items htext rfl nofun hitems

end Items

/-- A lexeme that is malformed up to the end of the input. -/
theorem leads_fault_whole {text : Bytes} {f : Fault}
    (hitems : ({} : Machine).items text = [(Lexeme.ofText {} text).fault f]) :
    Leads text text .error f.message := by
  refine leads_fault (List.append_nil text).symm ?_
  rw [hitems, Machine.items_idle_nil]

/-! ## The first lexeme, of any kind -/

/-- The token of a well-formed lexeme at the start of a text. -/
def leadToken (front : Bytes) (kind : Kind) : Token :=
  ⟨0, 0, kind, if kind.spelling?.isSome then none else some front, 0, front.length.toUInt32⟩

/-- The first token of `text` is well formed and of the given kind, and covers just `front`. -/
structure LeadsAs (text front : Bytes) (kind : Kind) : Prop where
  start : front <+: text
  /-- The tokens behind it are those of a scanner that begins behind `front`. -/
  tokens : (scan text).tokens =
    leadToken front kind :: scanAt (({} : Position).after front) (text.drop front.length)
  /-- If positions fit into 32 bits, they are those of the rest alone, moved behind `front`. -/
  behind : text.length ≤ Source.maxSize →
    (scan text).tokens.tail =
      (scan (text.drop front.length)).tokens.map (Token.shift (Bytes.extent front))

section Items

variable {text front rest : Bytes} {kind : Kind}

theorem leadsAs_of_tokens (htext : text = front ++ rest)
    (htokens : (scan text).tokens =
      leadToken front kind :: scanAt (({} : Position).after front) rest) :
    LeadsAs text front kind := by
  subst htext
  have hrest : (front ++ rest).drop front.length = rest := List.drop_left
  refine ⟨List.prefix_append _ _, by rw [hrest, htokens], fun hsize => ?_⟩
  have hsize' : rest.length ≤ Source.maxSize := by
    rw [List.length_append] at hsize
    omega
  rw [htokens, List.tail_cons, hrest, scanAt_eq_map_shift _ hsize', Position.location_after_start]

variable (hitems : ({} : Machine).items text = (Lexeme.ofText {} front).token kind ::
  Machine.items ⟨({} : Position).after front, .idle⟩ rest)
include hitems

/-- What is found first is the first token, unless the next one makes it a keyword. -/
theorem tokens_of_items :
    (scan text).tokens = (if hasWordAt (scan text).tokens 1 then promote (leadToken front kind)
      else leadToken front kind) :: scanAt (({} : Position).after front) rest := by
  have htoken : ((Lexeme.ofText {} front).token kind).token = leadToken front kind := rfl
  have hfirst := scan_tokens_getElem? text 0
  obtain ⟨t, htokens, -⟩ := reclassify_eq_cons (leadToken front kind)
    ((Machine.items ⟨({} : Position).after front, .idle⟩ rest).map Item.token)
  rw [← htoken, ← List.map_cons, ← hitems, ← scan_tokens, ← scanAt_eq] at htokens
  rw [hitems, List.getElem?_cons_zero, Option.map_some, htoken, Nat.zero_add] at hfirst
  generalize hasWordAt (scan text).tokens 1 = word at hfirst ⊢
  rw [htokens, List.getElem?_cons_zero, Option.some_inj] at hfirst
  rw [htokens, hfirst]

/-- Only the word `union` is not kept as it was found. -/
theorem leadsAs_token (htext : text = front ++ rest)
    (hkept : kind = .ident → front = ascii "union" → hasWordAt (scan text).tokens 1 = false) :
    LeadsAs text front kind := by
  refine leadsAs_of_tokens htext ((tokens_of_items hitems).trans ?_)
  split_ifs with hword
  · rw [promote_eq_self]
    refine Bool.eq_false_iff.2 fun hunion => ?_
    simp only [isUnion, Bool.and_eq_true, decide_eq_true_eq] at hunion
    obtain ⟨rfl, hfront⟩ := hunion
    exact Bool.false_ne_true ((hkept rfl (Option.some.inj hfront)).symm.trans hword)
  · rfl

omit hitems in
/-- In front of a word, `union` is a keyword. -/
theorem leadsAs_union (htext : text = ascii "union" ++ rest)
    (hitems : ({} : Machine).items text = (Lexeme.ofText {} (ascii "union")).token .ident ::
      Machine.items ⟨({} : Position).after (ascii "union"), .idle⟩ rest)
    (hword : hasWordAt (scan text).tokens 1 = true) :
    LeadsAs text (ascii "union") (.keyword .union_) := by
  refine leadsAs_of_tokens htext ((tokens_of_items hitems).trans ?_)
  rw [if_pos hword]
  rfl

end Items

/-! ## The lexeme in any place -/

/-- A token is its item's, unless it is the word `union` in front of a word. -/
theorem scan_token_eq_or_union {text : Bytes} {n : Nat} {t : Token} {i : Item}
    (ht : (scan text).tokens[n]? = some t) (hi : (({} : Machine).items text)[n]? = some i) :
    t = i.token ∨ i.token.kind = .ident ∧ t.kind = .keyword .union_ := by
  obtain ⟨j, hj, rfl | rfl⟩ := scan_getElem? ht
  · exact Or.inl (congrArg Item.token (Option.some.inj (hj.symm.trans hi)))
  · obtain rfl : j = i := Option.some.inj (hj.symm.trans hi)
    rw [promote]
    split_ifs with hunion
    · simp only [isUnion, Bool.and_eq_true, decide_eq_true_eq] at hunion
      exact Or.inr ⟨hunion.1, rfl⟩
    · exact Or.inl rfl

theorem NumberMode.isWordStart_of_isExponentLetter {e : UInt8} (h : isExponentLetter e = true) :
    isWordStart e = true := by
  rw [isExponentLetter, Bool.or_eq_true, beq_iff_eq, beq_iff_eq] at h
  rcases h with rfl | rfl <;> decide

namespace Machine

/-- **Every item is found again by a machine that begins in front of it**, or is the letter of an
exponent. -/
theorem exists_head?_items (p : Position) (text : Bytes) (n : Nat) (item : Item)
    (h : (items ⟨p, .idle⟩ text)[n]? = some item) :
    ∃ before behind, text = before ++ behind ∧ item.start = p.after before ∧
      ((items ⟨item.start, .idle⟩ behind).head? = some item ∨
        behind.head?.any NumberMode.isExponentLetter = true ∧ item.length = 1 ∧
          item.finding = .fault .noExponentSign) := by
  induction p, text using items_induction generalizing n with
  | nil p => exact absurd h (by simp [items_idle_nil])
  | skip p c rest hc ih =>
    rw [items_idle_of_isSpace hc] at h
    obtain ⟨before, behind, rfl, hstart, hitem⟩ := ih n h
    exact ⟨c :: before, behind, rfl, hstart, hitem⟩
  | lexeme p c front rest first hc start length tells hfound ih =>
    rw [hfound] at h
    cases n with
    | zero =>
      rw [List.getElem?_cons_zero, Option.some_inj] at h
      subst h
      exact ⟨[], c :: front ++ rest, rfl, start, Or.inl (by rw [start, hfound, List.head?_cons])⟩
    | succ n =>
      rw [List.getElem?_cons_succ] at h
      obtain ⟨before, behind, rfl, hstart, hitem⟩ := ih n h
      refine ⟨c :: front ++ before, behind, by simp, ?_, hitem⟩
      rw [hstart, Position.after_append]
  | exponent p c front e rest first hc start length tells letter hfound ih =>
    rw [hfound] at h
    match n with
    | 0 =>
      rw [List.getElem?_cons_zero, Option.some_inj] at h
      subst h
      exact ⟨[], c :: front ++ e :: rest, rfl, start,
        Or.inl (by rw [start, hfound, List.head?_cons])⟩
    | 1 =>
      rw [List.getElem?_cons_succ, List.getElem?_cons_zero, Option.some_inj] at h
      subst h
      exact ⟨c :: front, e :: rest, rfl, rfl, Or.inr ⟨letter, rfl, rfl⟩⟩
    | n + 2 =>
      rw [List.getElem?_cons_succ, List.getElem?_cons_succ] at h
      obtain ⟨before, behind, rfl, hstart, hitem⟩ := ih n h
      refine ⟨c :: front ++ e :: before, behind, by simp, ?_, hitem⟩
      rw [hstart, Position.after_append]
      rfl

/-- The same of a whole text. -/
theorem head?_items_drop {text : Bytes} {n : Nat} {i : Item}
    (h : (({} : Machine).items text)[n]? = some i) :
    (items ⟨i.start, .idle⟩ (text.drop i.start.offset)).head? = some i ∨
      (text.drop i.start.offset).head?.any NumberMode.isExponentLetter = true ∧ i.length = 1 ∧
        i.finding = .fault .noExponentSign := by
  obtain ⟨before, behind, rfl, hstart, hitem⟩ := exists_head?_items {} text n i h
  have hdrop : (before ++ behind).drop i.start.offset = behind := by
    rw [hstart, Position.after_offset, Nat.zero_add, List.drop_left]
  rwa [hdrop]

/-- Where no word begins, no exponent does. -/
theorem head?_items_drop_of_not_isWordStart {text : Bytes} {n : Nat} {i : Item}
    (h : (({} : Machine).items text)[n]? = some i)
    (hstart : (text.drop i.start.offset).head?.any isWordStart = false) :
    (items ⟨i.start, .idle⟩ (text.drop i.start.offset)).head? = some i := by
  rcases head?_items_drop h with hhead | ⟨hletter, -, -⟩
  · exact hhead
  · cases hc : (text.drop i.start.offset).head? with
    | none => simp [hc] at hletter
    | some c =>
      rw [hc, Option.any_some] at hletter hstart
      rw [NumberMode.isWordStart_of_isExponentLetter hletter] at hstart
      exact absurd hstart.symm Bool.false_ne_true

/-! ## Inside a lexeme -/

/-- The machine behind the bytes `text` of a lexeme that begins at `p` and is open in `mode`. -/
def inside (p : Position) (text : Bytes) (mode : Mode) : Machine :=
  ⟨p.after text, .within mode (.ofText p text)⟩

variable {p : Position} {text : Bytes} {mode next : Mode} {c : UInt8} {rest : Bytes}

/-- A byte between lexemes opens one. -/
theorem items_idle_lexeme (h : Opening.ofByte c = .lexeme mode) (p : Position) (rest : Bytes) :
    items ⟨p, .idle⟩ (c :: rest) = (inside p [c] mode).items rest := by
  have hreact : State.idle.react p c = ⟨[], .within mode (.single p c), true⟩ := by
    rw [State.react, reactIdle, h]
  rw [items_of_used (by rw [hreact]), hreact]
  rfl

/-- The byte belongs to the lexeme. -/
theorem step_inside_extend
    (h : mode.react (.ofText p text) c = .extend (.ofText p text) c next) :
    (inside p text mode).step c = ([], inside p (text ++ [c]) next) := by
  have hreact : State.react (.within mode (.ofText p text)) (p.after text) c = _ := h
  rw [inside, step, settle_of_used (by rw [hreact]; rfl), hreact]
  simp [Reaction.extend, inside]

/-- The byte completes the lexeme. -/
theorem step_inside_close {item : Item} (h : mode.react (.ofText p text) c = .close item) :
    (inside p text mode).step c = ([item], ⟨p.after (text ++ [c]), .idle⟩) := by
  have hreact : State.react (.within mode (.ofText p text)) (p.after text) c = _ := h
  rw [inside, step, settle_of_used (by rw [hreact]; rfl), hreact]
  simp [Reaction.close]

/-- The byte is read in another mode. -/
theorem step_inside_retry (h : mode.react (.ofText p text) c = .retry (.ofText p text) next) :
    (inside p text mode).step c = (inside p text next).step c := by
  have hreact : State.react (.within mode (.ofText p text)) (p.after text) c = _ := h
  rw [inside, inside, step, step, settle_of_unused (by rw [hreact]; rfl), hreact]
  rfl

theorem items_inside_extend
    (h : mode.react (.ofText p text) c = .extend (.ofText p text) c next) (rest : Bytes) :
    (inside p text mode).items (c :: rest) = (inside p (text ++ [c]) next).items rest := by
  rw [items_cons, step_inside_extend h, List.nil_append]

theorem items_inside_close {item : Item} (h : mode.react (.ofText p text) c = .close item)
    (rest : Bytes) :
    (inside p text mode).items (c :: rest) = item :: items ⟨p.after (text ++ [c]), .idle⟩ rest := by
  rw [items_cons, step_inside_close h, List.singleton_append]

/-- **A lexeme takes byte after byte**, in modes that differ by what they count. -/
theorem run_inside {α : Type} {mode : α → Mode} {count : α → UInt8 → α} {body : Bytes}
    (h : ∀ a lx, ∀ b ∈ body, (mode a).react lx b = .extend lx b (mode (count a b)))
    (p : Position) (text : Bytes) (a : α) :
    (inside p text (mode a)).run body =
      ([], inside p (text ++ body) (mode (body.foldl count a))) := by
  induction body generalizing text a with
  | nil => simp [run]
  | cons b body ih =>
    have hstep := step_inside_extend (h a (.ofText p text) b List.mem_cons_self)
    have hbody := ih (fun a lx d hd => h a lx d (List.mem_cons_of_mem _ hd)) (text ++ [b])
      (count a b)
    rw [run, hstep, hbody]
    simp

/-- What is found in a text whose first bytes a lexeme takes. -/
theorem items_of_run {m n : Machine} {a b : Bytes} (h : m.run a = ([], n)) :
    m.items (a ++ b) = n.items b := by
  rw [items_append, h, List.nil_append]

/-- What is found in a text whose first bytes are a lexeme. -/
theorem items_of_run_singleton {m n : Machine} {item : Item} {a b : Bytes}
    (h : m.run a = ([item], n)) : m.items (a ++ b) = item :: n.items b := by
  rw [items_append, h, List.singleton_append]

/-- **A lexeme takes all bytes of a class.** -/
theorem items_inside_takeWhile {α : Type} {mode : α → Mode} {count : α → UInt8 → α}
    {isBody : UInt8 → Bool}
    (h : ∀ a lx b, isBody b = true → (mode a).react lx b = .extend lx b (mode (count a b)))
    (p : Position) (text rest : Bytes) (a : α) :
    (inside p text (mode a)).items rest =
      (inside p (text ++ rest.takeWhile isBody)
        (mode ((rest.takeWhile isBody).foldl count a))).items (rest.dropWhile isBody) := by
  have hbody : ∀ a lx, ∀ b ∈ rest.takeWhile isBody,
      (mode a).react lx b = .extend lx b (mode (count a b)) :=
    fun a lx b hb => h a lx b (List.mem_takeWhile_imp hb)
  rw [← items_of_run (run_inside hbody p text a), List.takeWhile_append_dropWhile]

/-! ## The byte behind a lexeme

At the end of the input a line feed is offered, so that the byte behind a lexeme is
`rest.headD Bytes.lf`. -/

/-- Behind a byte that is no line feed the line is open. -/
theorem after_concat_column_ne_zero (p : Position) (text : Bytes) (hc : c ≠ Bytes.lf) :
    (p.after (text ++ [c])).column ≠ 0 := by
  rw [Position.after_append]
  exact mt Position.advance_column_eq_zero.1 hc

/-- A byte that is not used is left to what follows. -/
theorem items_inside_unused_cons {found : List Item} {s : State}
    (h : mode.react (.ofText p text) c = ⟨found, s, false⟩) (rest : Bytes) :
    (inside p text mode).items (c :: rest) = found ++ items ⟨p.after text, s⟩ (c :: rest) := by
  have hreact : State.react (.within mode (.ofText p text)) (p.after text) c =
    ⟨found, s, false⟩ := h
  rw [inside, items_of_unused (by rw [hreact]), hreact]

/-- **The byte behind a lexeme is left to what follows.**  A lexeme that ends at the end of the
input has bytes of its last line, and none beyond the input. -/
theorem items_inside_unused {found : List Item} {s : State} (hcolumn : (p.after text).column ≠ 0)
    (h : mode.react (.ofText p text) (rest.headD Bytes.lf) = ⟨found, s, false⟩)
    (hends : ∀ i ∈ found, i.start.offset + i.length ≤ p.offset + text.length) :
    (inside p text mode).items rest = found ++ items ⟨p.after text, s⟩ rest := by
  cases rest with
  | nil =>
    have hreact : State.react (.within mode (.ofText p text)) (p.after text) Bytes.lf =
      ⟨found, s, false⟩ := h
    have hclip : found.map (Item.clip (p.after text).offset) = found := by
      refine (List.map_congr_left fun i hi => ?_).trans (List.map_id _)
      exact Item.clip_eq_self (by rw [Position.after_offset]; exact hends i hi)
    rw [inside, items_nil_of_unused hcolumn (by rw [hreact]), hreact, hclip]
  | cons c rest => exact items_inside_unused_cons h rest

/-- **A lexeme ends in front of a byte.** -/
theorem items_inside_cut {item : Item} (hcolumn : (p.after text).column ≠ 0)
    (h : mode.react (.ofText p text) (rest.headD Bytes.lf) = .cut item)
    (hcovers : item.Covers (.ofText p text)) :
    (inside p text mode).items rest = item :: items ⟨p.after text, .idle⟩ rest := by
  refine items_inside_unused hcolumn h ?_
  intro i hi
  obtain rfl := List.mem_singleton.1 hi
  rw [hcovers.start, hcovers.length]
  exact Nat.le_refl _

/-- The end of the input is like a byte that is not in a class. -/
theorem apply_headD {isBody : UInt8 → Bool} (h : isBody Bytes.lf = false) (rest : Bytes) :
    isBody (rest.headD Bytes.lf) = rest.head?.any isBody := by
  cases rest with
  | nil => exact h
  | cons c rest => rfl

theorem headD_eq_iff {c : UInt8} (hc : c ≠ Bytes.lf) (rest : Bytes) :
    rest.headD Bytes.lf = c ↔ rest.head? = some c := by
  cases rest with
  | nil => exact iff_of_false hc.symm nofun
  | cons d rest => exact Option.some_inj.symm

/-- Behind all bytes of a class stands a byte that is not in it. -/
theorem headD_dropWhile {isBody : UInt8 → Bool} (h : isBody Bytes.lf = false) (rest : Bytes) :
    isBody ((rest.dropWhile isBody).headD Bytes.lf) = false := by
  rw [List.headD_eq_head?_getD]
  have hhead := List.head?_dropWhile_not isBody rest
  cases hrest : (rest.dropWhile isBody).head? with
  | none => exact h
  | some c => simpa [hrest] using hhead

/-- Further bytes that are no line feeds leave the line open. -/
theorem after_append_column_ne_zero {more : Bytes} (hcolumn : (p.after text).column ≠ 0)
    (hmore : Bytes.lf ∉ more) : (p.after (text ++ more)).column ≠ 0 := by
  rw [Position.after_append]
  by_cases hne : more = []
  · rwa [hne]
  · exact Position.after_column_ne_zero hne hmore

/-- **A lexeme takes all bytes of a class and ends behind them**, as what the bytes make of it. -/
theorem items_inside_span {α : Type} {mode : α → Mode} {count : α → UInt8 → α}
    {isBody : UInt8 → Bool} {found : α → Lexeme → Item} (hlf : isBody Bytes.lf = false)
    (htake : ∀ a lx b, isBody b = true → (mode a).react lx b = .extend lx b (mode (count a b)))
    (hcut : ∀ a lx b, isBody b = false → (mode a).react lx b = .cut (found a lx))
    (hcovers : ∀ a lx, (found a lx).Covers lx) (hcolumn : (p.after text).column ≠ 0)
    (rest : Bytes) (a : α) :
    (inside p text (mode a)).items rest =
      found ((rest.takeWhile isBody).foldl count a) (.ofText p (text ++ rest.takeWhile isBody)) ::
        items ⟨p.after (text ++ rest.takeWhile isBody), .idle⟩ (rest.dropWhile isBody) := by
  have hline : Bytes.lf ∉ rest.takeWhile isBody := by
    intro hmem
    exact Bool.false_ne_true (hlf.symm.trans (List.mem_takeWhile_imp hmem))
  rw [items_inside_takeWhile htake p text rest a]
  exact items_inside_cut (after_append_column_ne_zero hcolumn hline)
    (hcut _ _ _ (headD_dropWhile hlf rest)) (hcovers _ _)

/-- What a byte leads to is decided by the first reaction to it. -/
theorem settle_congr {s s' : State} (h : s.react p c = s'.react p c) :
    settle p c maxOffers s = settle p c maxOffers s' := by
  cases hused : (s'.react p c).used with
  | true => rw [settle_of_used hused, settle_of_used (h ▸ hused), h]
  | false => rw [settle_of_unused hused, settle_of_unused (h ▸ hused), h]

/-- **Modes that react alike to the next byte find the same.** -/
theorem items_inside_congr {mode' : Mode} (hcolumn : (p.after text).column ≠ 0)
    (h : mode.react (.ofText p text) (rest.headD Bytes.lf) =
      mode'.react (.ofText p text) (rest.headD Bytes.lf)) :
    (inside p text mode).items rest = (inside p text mode').items rest := by
  have hsettle : settle (p.after text) (rest.headD Bytes.lf) maxOffers
      (.within mode (.ofText p text)) = settle (p.after text) (rest.headD Bytes.lf) maxOffers
      (.within mode' (.ofText p text)) := settle_congr h
  cases rest with
  | nil =>
    rw [List.headD_nil] at hsettle
    rw [inside, inside, items_nil, items_nil, closeLine, closeLine, if_neg hcolumn, if_neg hcolumn,
      hsettle]
  | cons c rest =>
    rw [List.headD_cons] at hsettle
    rw [inside, inside, items_cons, items_cons, step, step, hsettle]

/-- The byte behind a lexeme is read in another mode. -/
theorem items_inside_retry (hcolumn : (p.after text).column ≠ 0)
    (h : mode.react (.ofText p text) (rest.headD Bytes.lf) = .retry (.ofText p text) next) :
    (inside p text mode).items rest = (inside p text next).items rest :=
  items_inside_unused hcolumn h nofun

/-! ## The end of the input -/

/-- **A lexeme that waits for its closer at the end of the input** is malformed as a whole. -/
theorem items_inside_nil (p : Position) (text : Bytes) (h : mode.isOpenEnded = true) :
    (inside p text mode).items [] =
      [(Lexeme.ofText p text).fault (if (p.after text).column = 0 then mode.unfinished
        else mode.lineFault?.getD mode.unfinished)] := by
  have hend : p.offset + text.length = (p.after text).offset := (p.after_offset text).symm
  by_cases hcolumn : (p.after text).column = 0
  · rw [inside, items_nil_of_column_eq_zero hcolumn, if_pos hcolumn]
    exact congrArg (fun i => [i]) (Item.clip_eq_self (le_of_eq hend))
  · rw [inside, items_nil, closeLine, if_neg hcolumn, Mode.settle_lf_unfinished h, if_neg hcolumn]
    exact congrArg (fun i => [i]) ((Lexeme.ofText p text).fault_push_clip hend Bytes.lf _)

/-- Where a lexeme may go on in the next line, it is the same at the end of a line and behind it. -/
theorem items_inside_nil_of_lineFault? (p : Position) (text : Bytes) (h : mode.isOpenEnded = true)
    (hline : mode.lineFault? = none) :
    (inside p text mode).items [] = [(Lexeme.ofText p text).fault mode.unfinished] := by
  rw [items_inside_nil p text h, hline, Option.getD_none, ite_self]

end Machine
end RustScan.Scan
