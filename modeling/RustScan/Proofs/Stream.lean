import RustScan.Proofs.Union
import RustScan.Scan.Stream

/-!
# Scanning on demand is scanning

A stream hands out tokens while it reads, and a token that has been handed out can no longer be
rewritten.  This file shows that none has to be: whatever a stream is asked, and in whatever order,
it hands out the tokens of `scan`, one after another.

* `Stream.ahead s` — the tokens that `s` has not handed out yet: those that wait, joined with what
  is found in the rest of the input.  Reading on does not change it (`ahead_prepare`), and handing
  out a token takes it off the front (`ahead_next`).  This is where the rule about a waiting `union`
  is used: a token that is settled is not touched by `join` (`cons_join`).
* `Stream.Exhausted s` — the input is read and nothing waits.
* `Stream.Call`, `Stream.Reply`, `Stream.answers` — a sequence of requests and what is answered.
  `Stream.answers_ofBytes` is the main statement.
* `Stream.Kept` — a property that reading and handing out do not change.  It holds at all times if
  it holds at the beginning (`Stream.Kept.answers`).
-/

set_option autoImplicit false

namespace RustScan.Scan

/-! ## Tokens that are still to come -/

/-- A token that is followed by another, or is no `union`, stays as it is. -/
theorem cons_join {t : Token} {xs : List Token} (h : xs ≠ [] ∨ isUnion t = false)
    (ys : List Token) : join (t :: xs) ys = t :: join xs ys := by
  cases ys with
  | nil => rfl
  | cons u ys =>
    have hlast : (t :: xs).modifyLast promote = t :: xs.modifyLast promote := by
      rcases h with hxs | ht
      · exact List.modifyLast_append_of_right_ne_nil promote [t] xs hxs
      · cases xs with
        | nil =>
          rw [show List.modifyLast promote [t] = [promote t] from rfl, promote_eq_self ht]
          rfl
        | cons x xs =>
          exact List.modifyLast_append_of_right_ne_nil promote [t] _ (List.cons_ne_nil _ _)
    by_cases hu : u.kind.isWord = true
    · simp only [join, hu, if_true, hlast, List.cons_append]
    · simp only [join, hu, Bool.false_eq_true, if_false, List.cons_append]

/-- The tokens of a scanner when it has read the rest of its input. -/
def Scanner.ahead (sc : Scanner) (rest : Bytes) : List Token :=
  join sc.tokens.toList (reclassify ((sc.machine.items rest).map Item.token))

theorem Scanner.ahead_eq (sc : Scanner) (rest : Bytes) :
    sc.ahead rest = (sc.run rest).finish.tokens.toList := by
  rw [ahead, finish_run, found_tokens, toList_foldl_addToken]

/-- Reading a byte changes nothing about the tokens at the end. -/
theorem Scanner.ahead_step (sc : Scanner) (c : UInt8) (rest : Bytes) :
    (sc.step c).ahead rest = sc.ahead (c :: rest) := by
  rw [ahead_eq, ahead_eq]
  rfl

namespace Stream

/-- The tokens that have not been handed out. -/
def ahead (s : Stream) : List Token :=
  if s.finished then s.scanner.tokens.toList else s.scanner.ahead s.rest

theorem ahead_of_finished {s : Stream} (h : s.finished = true) :
    s.ahead = s.scanner.tokens.toList := if_pos h

theorem ahead_of_not_finished {s : Stream} (h : s.finished = false) :
    s.ahead = s.scanner.ahead s.rest := if_neg (by simp [h])

/-- At the beginning all tokens of the text are to come. -/
theorem ahead_ofBytes (text : Bytes) : (ofBytes text).ahead = (scan text).tokens := by
  rw [ahead_of_not_finished rfl, Scanner.ahead_eq]
  rfl

theorem ahead_readOn (sc : Scanner) (text : Bytes) : (readOn sc text).ahead = sc.ahead text := by
  induction text generalizing sc with
  | nil => exact (Scanner.ahead_eq sc []).symm
  | cons c rest ih =>
    rw [readOn]
    split
    · rw [ahead_of_not_finished rfl, Scanner.ahead_step]
    · rw [ih, Scanner.ahead_step]

/-- Reading on changes nothing about the tokens that are to come. -/
theorem ahead_prepare (s : Stream) : s.prepare.ahead = s.ahead := by
  rw [prepare]
  split
  · rfl
  · rename_i h
    have hf : s.finished = false := by simp_all
    rw [ahead_readOn, ahead_of_not_finished hf]

/-! ## Handing out one token -/

theorem readOn_isReady_or_finished (sc : Scanner) (text : Bytes) :
    (readOn sc text).isReady = true ∨ (readOn sc text).finished = true := by
  induction text generalizing sc with
  | nil => exact Or.inr rfl
  | cons c rest ih =>
    rw [readOn]
    split
    · rename_i h
      exact Or.inl h
    · exact ih _

/-- A prepared stream has a token to hand out, unless it is at its end. -/
theorem prepare_isReady_or_finished (s : Stream) :
    s.prepare.isReady = true ∨ s.prepare.finished = true := by
  rw [prepare]
  split
  · rename_i h
    exact Bool.or_eq_true_iff.1 h
  · exact readOn_isReady_or_finished s.scanner s.rest

/-- What `take` does to the list of waiting tokens. -/
theorem take_eq {s : Stream} {t : Token} {ts : List Token} (h : s.scanner.tokens.toList = t :: ts) :
    s.take.1 = some t ∧ s.take.2.scanner.tokens.toList = ts := by
  obtain ⟨⟨machine, ⟨tokens⟩, problems, count⟩, rest, finished⟩ := s
  replace h : tokens = t :: ts := h
  subst h
  exact ⟨rfl, by simp [take]⟩

/-- **A token that is ready is the next of the tokens to come**, and handing it out leaves the
others as they are. -/
theorem ahead_take {s : Stream} (h : s.isReady = true) :
    ∃ t, s.take.1 = some t ∧ s.ahead = t :: s.take.2.ahead := by
  cases htokens : s.scanner.tokens.toList with
  | nil =>
    have hempty : s.scanner.tokens = #[] := Array.toList_eq_nil_iff.1 htokens
    cases hf : s.finished <;> simp [isReady, hf, Scanner.hasSettled, hempty] at h
  | cons t ts =>
    obtain ⟨ht, hts⟩ := take_eq htokens
    refine ⟨t, ht, ?_⟩
    cases hf : s.finished with
    | true =>
      have hf' : s.take.2.finished = true := hf
      rw [ahead_of_finished hf, ahead_of_finished hf', htokens, hts]
    | false =>
      have hf' : s.take.2.finished = false := hf
      have hsettled : ts ≠ [] ∨ isUnion t = false := by
        have hget : s.scanner.tokens[0]? = some t := ht
        have hsize : s.scanner.tokens.size = ts.length + 1 := by
          rw [← Array.length_toList, htokens, List.length_cons]
        simp only [isReady, hf, Bool.false_eq_true, if_false, Scanner.hasSettled, hget, hsize,
          Bool.or_eq_true, decide_eq_true_eq, Bool.not_eq_true'] at h
        rcases h with hlen | hu
        · exact Or.inl (List.ne_nil_of_length_pos (by omega))
        · exact Or.inr hu
      rw [ahead_of_not_finished hf, ahead_of_not_finished hf', Scanner.ahead, Scanner.ahead,
        htokens, hts, cons_join hsettled]
      rfl

/-- Everything has been read and handed out. -/
structure Exhausted (s : Stream) : Prop where
  finished : s.finished = true
  tokens : s.scanner.tokens = #[]

theorem Exhausted.ahead {s : Stream} (h : s.Exhausted) : s.ahead = [] := by
  rw [ahead_of_finished h.finished, h.tokens]

theorem Exhausted.take {s : Stream} (h : s.Exhausted) : s.take.1 = none ∧ s.take.2.Exhausted := by
  refine ⟨?_, h.finished, ?_⟩
  · simp [Stream.take, h.tokens]
  · simp [Stream.take, h.tokens]

/-- An exhausted stream hands out nothing and stays as it is. -/
theorem Exhausted.next {s : Stream} (h : s.Exhausted) : s.next.1 = none ∧ s.next.2.Exhausted := by
  have hprepare : s.prepare = s := by
    rw [prepare, if_pos (by simp [h.finished])]
  rw [Stream.next, hprepare]
  exact h.take

/-- A request for a token is answered with the next of the tokens to come, or else the stream is
exhausted. -/
theorem next_cases (s : Stream) :
    (∃ t, s.next.1 = some t ∧ s.ahead = t :: s.next.2.ahead) ∨
      (s.next.1 = none ∧ s.ahead = [] ∧ s.next.2.Exhausted) := by
  by_cases hready : s.prepare.isReady = true
  · left
    obtain ⟨t, ht, hahead⟩ := ahead_take hready
    exact ⟨t, ht, (ahead_prepare s).symm.trans hahead⟩
  · right
    have hf := (prepare_isReady_or_finished s).resolve_left hready
    have hex : s.prepare.Exhausted := by
      refine ⟨hf, ?_⟩
      simpa [isReady, hf] using hready
    refine ⟨hex.take.1, ?_, hex.take.2⟩
    rw [← ahead_prepare, hex.ahead]

theorem ahead_next (s : Stream) : s.ahead = s.next.1.toList ++ s.next.2.ahead := by
  rcases next_cases s with ⟨t, ht, hahead⟩ | ⟨hnone, hahead, hex⟩
  · rw [ht, hahead]
    rfl
  · rw [hnone, hahead, hex.ahead]
    rfl

/-! ## Handing out everything -/

/-- **Draining a stream hands out all tokens that are to come.** -/
theorem drain_spec (s : Stream) : s.drain.1 = s.ahead ∧ s.drain.2.Exhausted := by
  fun_induction drain s with
  | case1 s s' hnext =>
    rcases next_cases s with ⟨t, ht, -⟩ | ⟨-, hahead, hex⟩
    · rw [hnext] at ht
      exact absurd ht (by simp)
    · rw [hnext] at hex
      exact ⟨hahead.symm, hex⟩
  | case2 s t s' hnext ts s'' hdrain ih =>
    rw [hdrain] at ih
    refine ⟨?_, ih.2⟩
    rw [ahead_next, hnext, ← ih.1]
    rfl

theorem drain_ofBytes (text : Bytes) : (ofBytes text).drain.1 = (scan text).tokens := by
  rw [(drain_spec _).1, ahead_ofBytes]

/-- Collecting the tokens is draining the stream. -/
theorem collect_eq (s : Stream) (taken : Array Token) :
    s.collect taken = (taken ++ s.drain.1.toArray, s.drain.2) := by
  fun_induction drain s generalizing taken with
  | case1 s s' hnext =>
    rw [collect]
    split
    · rename_i s₁ h
      cases hnext.symm.trans h
      simp
    · rename_i t s₁ h
      cases hnext.symm.trans h
  | case2 s t s' hnext ts s'' hdrain ih =>
    rw [collect]
    split
    · rename_i s₁ h
      cases hnext.symm.trans h
    · rename_i u s₁ h
      cases hnext.symm.trans h
      rw [ih, hdrain]
      simp

/-! ## Any sequence of requests -/

/-- What a stream can be asked for. -/
inductive Call where
  /-- The next token. -/
  | next
  /-- All tokens that are left. -/
  | rest
  /-- The problems found so far. -/
  | problems
  deriving DecidableEq

/-- What a stream answers. -/
inductive Reply where
  | token (t : Option Token)
  | tokens (ts : List Token)
  | problems (ps : List Problem)
  deriving DecidableEq

namespace Reply

/-- The tokens that an answer hands out. -/
def handedOut : Reply → List Token
  | token t => t.toList
  | tokens ts => ts
  | problems _ => []

/-- The answer tells that no token is left: there was none to hand out, or all have been. -/
def isFinal : Reply → Bool
  | token none => true
  | tokens _ => true
  | _ => false

end Reply

/-- The answer to one request. -/
def answer (s : Stream) : Call → Reply × Stream
  | .next => (.token s.next.1, s.next.2)
  | .rest => (.tokens s.drain.1, s.drain.2)
  | .problems => (.problems s.scanner.problems.toList, s)

/-- The answers to a sequence of requests. -/
def answers : Stream → List Call → List Reply × Stream
  | s, [] => ([], s)
  | s, call :: calls =>
    ((s.answer call).1 :: ((s.answer call).2.answers calls).1, ((s.answer call).2.answers calls).2)

/-- The tokens that a sequence of answers hands out. -/
def handedOut (replies : List Reply) : List Token := replies.flatMap Reply.handedOut

/-- What an answer hands out is taken off the tokens to come. -/
theorem ahead_answer (s : Stream) (call : Call) :
    s.ahead = (s.answer call).1.handedOut ++ (s.answer call).2.ahead := by
  cases call with
  | next => exact ahead_next s
  | rest =>
    have h := drain_spec s
    simp only [answer, Reply.handedOut, h.1, h.2.ahead, List.append_nil]
  | problems => rfl

theorem ahead_answers (s : Stream) (calls : List Call) :
    s.ahead = handedOut (s.answers calls).1 ++ (s.answers calls).2.ahead := by
  induction calls generalizing s with
  | nil => rfl
  | cons call calls ih =>
    rw [ahead_answer s call, ih]
    simp [answers, handedOut]

/-- After a final answer the stream is exhausted. -/
theorem exhausted_of_isFinal {s : Stream} {call : Call} (h : (s.answer call).1.isFinal = true) :
    (s.answer call).2.Exhausted := by
  cases call with
  | next =>
    rcases next_cases s with ⟨t, ht, -⟩ | ⟨-, -, hex⟩
    · simp [answer, ht, Reply.isFinal] at h
    · exact hex
  | rest => exact (drain_spec s).2
  | problems => exact absurd h (by simp [answer, Reply.isFinal])

/-- An exhausted stream stays exhausted. -/
theorem Exhausted.answer {s : Stream} (h : s.Exhausted) (call : Call) :
    (s.answer call).2.Exhausted := by
  cases call with
  | next => exact h.next.2
  | rest => exact (drain_spec s).2
  | problems => exact h

theorem Exhausted.answers {s : Stream} (h : s.Exhausted) (calls : List Call) :
    (s.answers calls).2.Exhausted := by
  induction calls generalizing s with
  | nil => exact h
  | cons call calls ih => exact ih (h.answer call)

/-- A stream that has given a final answer is exhausted ever after. -/
theorem answers_exhausted {s : Stream} {calls : List Call}
    (h : ∃ r ∈ (s.answers calls).1, r.isFinal = true) : (s.answers calls).2.Exhausted := by
  induction calls generalizing s with
  | nil =>
    obtain ⟨r, hr, -⟩ := h
    exact absurd hr (by simp [Stream.answers])
  | cons call calls ih =>
    obtain ⟨r, hr, hfinal⟩ := h
    rcases List.mem_cons.1 hr with rfl | hr
    · exact (exhausted_of_isFinal hfinal).answers calls
    · exact ih ⟨r, hr, hfinal⟩

/-- **Whatever a stream is asked, it hands out the tokens of the text in order.**  At any time they
are a first part of all tokens, so none is handed out before it is final.  When the stream has said
that nothing is left they are all tokens, and no later request gets another. -/
theorem answers_ofBytes (text : Bytes) (calls : List Call) :
    handedOut ((ofBytes text).answers calls).1 <+: (scan text).tokens ∧
      ((∃ r ∈ ((ofBytes text).answers calls).1, r.isFinal = true) →
        handedOut ((ofBytes text).answers calls).1 = (scan text).tokens ∧
          ∀ later, (((ofBytes text).answers calls).2.answers later).2.next.1 = none) := by
  have htokens := ahead_answers (ofBytes text) calls
  rw [ahead_ofBytes] at htokens
  refine ⟨⟨_, htokens.symm⟩, fun hfinal => ?_⟩
  have hex := answers_exhausted hfinal
  refine ⟨?_, fun later => (hex.answers later).next.1⟩
  rw [htokens, hex.ahead, List.append_nil]

/-- A `union` is held back until the word behind it has been read. -/
theorem answers_ofBytes_union :
    (∃ r ∈ ((ofBytes (ascii "union x")).answers [.next, .problems, .next, .next]).1,
        r.isFinal = true) ∧
      handedOut ((ofBytes (ascii "union x")).answers [.next, .problems, .next, .next]).1 =
        (scan (ascii "union x")).tokens := by
  have hfinal : ∃ r ∈ ((ofBytes (ascii "union x")).answers [.next, .problems, .next, .next]).1,
      r.isFinal = true := by
    decide
  have h := (answers_ofBytes (ascii "union x") [.next, .problems, .next, .next]).2 hfinal
  exact ⟨hfinal, h.1⟩

/-! ## What holds at all times -/

/-- A property of streams that no byte, nor the end of the input, nor taking a token changes. -/
structure Kept (P : Stream → Prop) : Prop where
  byte {s : Stream} {c : UInt8} {rest : Bytes} (hrest : s.rest = c :: rest) (h : P s) :
    P { s with scanner := s.scanner.step c, rest }
  finish {s : Stream} (hrest : s.rest = []) (h : P s) :
    P { s with scanner := s.scanner.finish, finished := true }
  take {s : Stream} (h : P s) : P s.take.2

namespace Kept

variable {P : Stream → Prop} (hP : Kept P)
include hP

theorem readOn {sc : Scanner} {text : Bytes} (h : P { scanner := sc, rest := text }) :
    P (readOn sc text) := by
  induction text generalizing sc with
  | nil => exact hP.finish rfl h
  | cons c rest ih =>
    have hstep : P { scanner := sc.step c, rest } := hP.byte rfl h
    rw [Stream.readOn]
    split
    · exact hstep
    · exact ih hstep

theorem prepare {s : Stream} (h : P s) : P s.prepare := by
  rw [Stream.prepare]
  split
  · exact h
  · rename_i hready
    have hfinished : s.finished = false := by simp_all
    obtain ⟨scanner, rest, finished⟩ := s
    obtain rfl : finished = false := hfinished
    exact hP.readOn h

theorem next {s : Stream} (h : P s) : P s.next.2 := hP.take (hP.prepare h)

theorem drain {s : Stream} (h : P s) : P s.drain.2 := by
  fun_induction Stream.drain s with
  | case1 s s' hnext =>
    have hkept := hP.next h
    rwa [hnext] at hkept
  | case2 s t s' hnext ts s'' hdrain ih =>
    have hkept := hP.next h
    rw [hnext] at hkept
    have hrest := ih hkept
    rwa [hdrain] at hrest

theorem answer {s : Stream} (h : P s) (call : Call) : P (s.answer call).2 := by
  cases call with
  | next => exact hP.next h
  | rest => exact hP.drain h
  | problems => exact h

theorem answers {s : Stream} (h : P s) (calls : List Call) : P (s.answers calls).2 := by
  induction calls generalizing s with
  | nil => exact h
  | cons call calls ih => exact ih (hP.answer h call)

end Kept
end Stream
end RustScan.Scan
