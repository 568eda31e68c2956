import RustScan.Proofs.Stream
import RustScan.Proofs.Tracking

/-!
# The loops of a scanner end

Three loops drive a scanner: a byte is offered until it is used, bytes are read until a token can be
handed out, and tokens are asked for until there is none.  The definitions are written so that they
end at sight: `settle` has a limit on the offers, `Stream.readOn` goes down the input, and
`Stream.drain` has a measure.  This file is about the loops as such, which have no limit and no
measure.  All of them end, and the definitions return what they end with.

* `Loop round s notes t` — a loop that starts in `s` and ends in `t`, with a note of every round.
* `Offer.round` — offering a byte once.  The loop ends after three rounds at most, in any state and
  with any bytes in the open lexeme (`State.Uses.loop`).
* `Stream.round` — reading a byte, or dealing with the end of the input.  `Stream.todo` is all that
  is left to do, and every round does the first of it (`Stream.ReadsAll.loop_prepare`).
* `Stream.Gets`, `Stream.Drains` — a request for a token, and such requests until there is none.
* `Stream.loops_end` — the main statement.
-/

set_option autoImplicit false

namespace RustScan

/-- A loop that ends.  In each state `round` tells what the next round does and where it leads, or
that the loop is over.  The loop starts in the first state and ends in the last. -/
inductive Loop {σ α : Type} (round : σ → Option (α × σ)) : σ → List α → σ → Prop
  | stop {s : σ} (h : round s = none) : Loop round s [] s
  | more {s s' t : σ} {note : α} {notes : List α} (h : round s = some (note, s'))
      (rest : Loop round s' notes t) : Loop round s (note :: notes) t

/-- A loop ends in one way only. -/
theorem Loop.unique {σ α : Type} {round : σ → Option (α × σ)} {s t u : σ} {notes others : List α}
    (h : Loop round s notes t) (h' : Loop round s others u) : notes = others ∧ t = u := by
  induction h generalizing others with
  | stop hstop =>
    cases h' with
    | stop => exact ⟨rfl, rfl⟩
    | more hmore => cases hstop.symm.trans hmore
  | more hmore _ ih =>
    cases h' with
    | stop hstop => cases hstop.symm.trans hmore
    | more hmore' rest' =>
      cases hmore.symm.trans hmore'
      obtain ⟨rfl, rfl⟩ := ih rest'
      exact ⟨rfl, rfl⟩

namespace Scan

/-! ## Offering a byte -/

/-- A byte on offer: the state that it is offered to next, unless it has been used. -/
structure Offer where
  state : State
  used : Bool := false

/-- One offer of the byte `c` at `p`, and what is found. -/
def Offer.round (p : Position) (c : UInt8) (o : Offer) : Option (List Item × Offer) :=
  if o.used then none
  else some ((o.state.react p c).items, ⟨(o.state.react p c).state, (o.state.react p c).used⟩)

/-- **A state that uses the byte after some offers ends the loop**, in no more rounds than that, and
`settle` returns what the loop finds. -/
theorem State.Uses.loop {p : Position} {c : UInt8} {n : Nat} {s : State} (h : s.Uses p c n) :
    ∃ founds, founds.length ≤ n ∧
      Loop (Offer.round p c) { state := s } founds ⟨(settle p c n s).2, true⟩ ∧
      founds.flatten = (settle p c n s).1 := by
  induction n generalizing s with
  | zero => exact absurd h id
  | succ n ih =>
    rw [settle]
    cases hused : (s.react p c).used with
    | true =>
      have hround : Offer.round p c { state := s } =
          some ((s.react p c).items, ⟨(s.react p c).state, true⟩) := by
        rw [Offer.round, hused]
        rfl
      exact ⟨[(s.react p c).items], Nat.succ_le_succ (Nat.zero_le n), .more hround (.stop rfl),
        List.append_nil _⟩
    | false =>
      have hround : Offer.round p c { state := s } =
          some ((s.react p c).items, { state := (s.react p c).state }) := by
        rw [Offer.round, hused]
        rfl
      obtain ⟨founds, hlength, hloop, hfound⟩ := ih (h.resolve_left (by simp [hused]))
      refine ⟨(s.react p c).items :: founds, Nat.succ_le_succ hlength, .more hround hloop, ?_⟩
      rw [List.flatten_cons, hfound]
      rfl

-- behind a zero, a semicolon is offered as to a number, as to its digits and between lexemes
example : ¬ (State.within (.number .zero) (.single {} '0'.toUInt8)).Uses {} ';'.toUInt8 2 := by
  rintro (h | h | h)
  · exact absurd h (by decide)
  · exact absurd h (by decide)
  · exact h

/-- The machine is offered the byte `c` three times at most.  The last offer uses it and leaves the
machine in state `s`, and `items` is what has been found. -/
def Machine.Settles (m : Machine) (c : UInt8) (items : List Item) (s : State) : Prop :=
  ∃ founds, founds.length ≤ 3 ∧
    Loop (Offer.round m.cursor c) { state := m.state } founds ⟨s, true⟩ ∧ founds.flatten = items

theorem Machine.settles_iff {m : Machine} {c : UInt8} {items : List Item} {s : State} :
    m.Settles c items s ↔ settle m.cursor c maxOffers m.state = (items, s) := by
  obtain ⟨founds, hlength, hloop, hfound⟩ := (State.uses_maxOffers m.cursor c m.state).loop
  constructor
  · rintro ⟨others, -, hother, rfl⟩
    obtain ⟨rfl, hend⟩ := hloop.unique hother
    exact Prod.ext hfound.symm (Offer.mk.inj hend).1
  · intro heq
    rw [heq] at hloop hfound
    exact ⟨founds, hlength, hloop, hfound⟩

namespace Stream

/-! ## Reading until a token is ready -/

/-- What a stream does in one round. -/
inductive Act where
  /-- It reads a byte. -/
  | byte (c : UInt8)
  /-- It deals with the end of the input. -/
  | finish
  deriving DecidableEq

/-- One round of reading.  The loop is over when a token can be handed out, or when nothing is left
to read. -/
def round (s : Stream) : Option (Act × Stream) :=
  if s.isReady then none
  else match s.rest with
    | c :: rest => some (.byte c, { s with scanner := s.scanner.step c, rest })
    | [] =>
      if s.finished then none
      else some (.finish, { s with scanner := s.scanner.finish, finished := true })

/-- All that is left to do. -/
def todo (s : Stream) : List Act := s.rest.map .byte ++ if s.finished then [] else [.finish]

/-- The end of the input is dealt with when all of it has been read, and not before. -/
def ReadsAll (s : Stream) : Prop := s.finished = true → s.rest = []

theorem round_of_isReady {s : Stream} (h : s.isReady = true) : s.round = none := if_pos h

theorem round_of_finished {s : Stream} (hall : s.ReadsAll) (h : s.finished = true) :
    s.round = none := by
  rw [round, hall h, h]
  exact ite_self none

theorem ReadsAll.todo_eq_nil {s : Stream} (hall : s.ReadsAll) (h : s.finished = true) :
    s.todo = [] := by
  rw [todo, hall h, h]
  rfl

theorem kept_readsAll : Kept ReadsAll where
  byte hrest h := fun hfinished => by
    rw [h hfinished] at hrest
    cases hrest
  finish hrest _ := fun _ => hrest
  take h := h

theorem readsAll_ofBytes (text : Bytes) : (ofBytes text).ReadsAll := nofun

/-- Reading on is the loop, and does the first things that are left to do. -/
theorem loop_readOn (sc : Scanner) (text : Bytes) (h : sc.hasSettled = false) :
    ∃ acts, Loop round { scanner := sc, rest := text } acts (readOn sc text) ∧
      todo { scanner := sc, rest := text } = acts ++ (readOn sc text).todo := by
  induction text generalizing sc with
  | nil =>
    have hround : round { scanner := sc, rest := [] } = some (.finish, readOn sc []) :=
      if_neg (by simp [isReady, h])
    have hstop : (readOn sc []).round = none := round_of_finished (fun _ => rfl) rfl
    exact ⟨[.finish], .more hround (.stop hstop), rfl⟩
  | cons c rest ih =>
    have hround : round { scanner := sc, rest := c :: rest } =
        some (.byte c, { scanner := sc.step c, rest }) := if_neg (by simp [isReady, h])
    rw [readOn]
    cases hsettled : (sc.step c).hasSettled with
    | true => exact ⟨[.byte c], .more hround (.stop (round_of_isReady hsettled)), rfl⟩
    | false =>
      obtain ⟨acts, hloop, htodo⟩ := ih (sc.step c) hsettled
      exact ⟨.byte c :: acts, .more hround hloop, congrArg (Act.byte c :: ·) htodo⟩

/-- **Preparing a stream is the loop.** -/
theorem ReadsAll.loop_prepare {s : Stream} (h : s.ReadsAll) :
    ∃ acts, Loop round s acts s.prepare ∧ s.todo = acts ++ s.prepare.todo := by
  by_cases hready : s.isReady = true
  · rw [Stream.prepare, hready]
    exact ⟨[], .stop (round_of_isReady hready), rfl⟩
  · cases hfinished : s.finished with
    | true =>
      rw [Stream.prepare, hfinished, Bool.or_true]
      exact ⟨[], .stop (round_of_finished h hfinished), rfl⟩
    | false =>
      obtain ⟨scanner, rest, finished⟩ := s
      obtain rfl : finished = false := hfinished
      rw [Stream.prepare, if_neg (by simpa using hready)]
      exact loop_readOn scanner rest (by simpa [isReady] using hready)

/-! ## Asking for tokens until there is none -/

/-- A request for a token: the loop, and then the first of the tokens that wait, if there is one. -/
def Gets (s : Stream) (acts : List Act) (t : Option Token) (s' : Stream) : Prop :=
  ∃ ready, Loop round s acts ready ∧ ready.take = (t, s')

/-- Requests for tokens until there is none, with all that is done on the way. -/
inductive Drains : Stream → List Act → List Token → Stream → Prop
  | last {s s' : Stream} {acts : List Act} (h : s.Gets acts none s') : Drains s acts [] s'
  | token {s s' s'' : Stream} {acts more : List Act} {t : Token} {ts : List Token}
      (h : s.Gets acts (some t) s') (rest : Drains s' more ts s'') :
      Drains s (acts ++ more) (t :: ts) s''

theorem Gets.unique {s s₁ s₂ : Stream} {acts₁ acts₂ : List Act} {t₁ t₂ : Option Token}
    (h₁ : s.Gets acts₁ t₁ s₁) (h₂ : s.Gets acts₂ t₂ s₂) : acts₁ = acts₂ ∧ t₁ = t₂ ∧ s₁ = s₂ := by
  obtain ⟨ready₁, hloop₁, htake₁⟩ := h₁
  obtain ⟨ready₂, hloop₂, htake₂⟩ := h₂
  obtain ⟨rfl, rfl⟩ := hloop₁.unique hloop₂
  exact ⟨rfl, Prod.mk.inj (htake₁.symm.trans htake₂)⟩

theorem Drains.unique {s s₁ s₂ : Stream} {acts₁ acts₂ : List Act} {ts₁ ts₂ : List Token}
    (h₁ : s.Drains acts₁ ts₁ s₁) (h₂ : s.Drains acts₂ ts₂ s₂) :
    acts₁ = acts₂ ∧ ts₁ = ts₂ ∧ s₁ = s₂ := by
  induction h₁ generalizing acts₂ ts₂ with
  | last hlast =>
    cases h₂ with
    | last hlast' =>
      obtain ⟨rfl, -, rfl⟩ := hlast.unique hlast'
      exact ⟨rfl, rfl, rfl⟩
    | token htoken' => cases (hlast.unique htoken').2.1
  | token htoken _ ih =>
    cases h₂ with
    | last hlast' => cases (htoken.unique hlast').2.1
    | token htoken' rest' =>
      obtain ⟨rfl, ht, rfl⟩ := htoken.unique htoken'
      obtain ⟨rfl, rfl, rfl⟩ := ih rest'
      cases ht
      exact ⟨rfl, rfl, rfl⟩

theorem ReadsAll.gets_next {s : Stream} (h : s.ReadsAll) :
    ∃ acts, s.Gets acts s.next.1 s.next.2 ∧ s.todo = acts ++ s.next.2.todo := by
  obtain ⟨acts, hloop, htodo⟩ := h.loop_prepare
  exact ⟨acts, ⟨s.prepare, hloop, rfl⟩, htodo⟩

/-- **Draining a stream does all that is left to do.** -/
theorem ReadsAll.drains {s : Stream} (h : s.ReadsAll) : s.Drains s.todo s.drain.1 s.drain.2 := by
  fun_induction Stream.drain s with
  | case1 s s' hnext =>
    obtain ⟨acts, hgets, htodo⟩ := h.gets_next
    have hall := kept_readsAll.next h
    -- nothing is left behind the request that gets no token
    rcases next_cases s with ⟨t, ht, -⟩ | ⟨-, -, hex⟩
    · rw [hnext] at ht
      cases ht
    · rw [hnext] at hgets htodo hall hex
      rw [hall.todo_eq_nil hex.finished, List.append_nil] at htodo
      rw [htodo]
      exact .last hgets
  | case2 s t s' hnext ts s'' hdrain ih =>
    obtain ⟨acts, hgets, htodo⟩ := h.gets_next
    have hall := kept_readsAll.next h
    rw [hnext] at hgets htodo hall
    have hrest := ih hall
    rw [hdrain] at hrest
    rw [htodo]
    exact .token hgets hrest

/-- **The loops of a scanner end.**  Whatever the state of a machine, a byte that is read and the
line feed that closes the last line are used by the third offer at the latest.  Whatever a stream
has been asked, a request for a token reads a first part of what is left, and a request for all
tokens reads all of it: for a fresh stream each byte of the text once, in order, and then the
end. -/
theorem loops_end :
    (∀ (m : Machine) (c : UInt8) (items : List Item) (s : State),
      m.Settles c items s ↔ m.step c = (items, ⟨m.cursor.advance c, s⟩)) ∧
    (∀ m : Machine, ∃ items s, m.Settles Bytes.lf items s ∧
      m.closeLine = if m.cursor.column = 0 then ([], m.state) else (items, s)) ∧
    (∀ (text : Bytes) (calls : List Call),
      let s := ((ofBytes text).answers calls).2
      (∃ acts, s.todo = acts ++ s.next.2.todo ∧
        ∀ others t s', s.Gets others t s' ↔ others = acts ∧ t = s.next.1 ∧ s' = s.next.2) ∧
      ∀ acts ts s', s.Drains acts ts s' ↔ acts = s.todo ∧ ts = s.drain.1 ∧ s' = s.drain.2) ∧
    ∀ text : Bytes, (ofBytes text).todo = text.map .byte ++ [.finish] := by
  refine ⟨?_, ?_, ?_, fun text => rfl⟩
  · intro m c items s
    have hstep : m.step c = ((settle m.cursor c maxOffers m.state).1,
        ⟨m.cursor.advance c, (settle m.cursor c maxOffers m.state).2⟩) := rfl
    rw [Machine.settles_iff, hstep]
    simp [Prod.ext_iff]
  · intro m
    exact ⟨_, _, Machine.settles_iff.2 rfl, rfl⟩
  · intro text calls s
    have hall : s.ReadsAll := kept_readsAll.answers (readsAll_ofBytes text) calls
    obtain ⟨acts, hgets, htodo⟩ := hall.gets_next
    refine ⟨⟨acts, htodo, fun others t s' => ⟨fun h => h.unique hgets, ?_⟩⟩,
      fun acts ts s' => ⟨fun h => h.unique hall.drains, ?_⟩⟩
    · rintro ⟨rfl, rfl, rfl⟩
      exact hgets
    · rintro ⟨rfl, rfl, rfl⟩
      exact hall.drains

end Stream
end Scan
end RustScan
