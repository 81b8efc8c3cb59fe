import CloudLab.Transport.Framing

/-!
# When `read_n` returns

A result of 0 uses up a retry and a negative one does not. So `read_n` comes back from a closed
connection, and does not from a socket that goes on failing, such as the descriptor -1 of a
connection that was not accepted: `returns_iff`.
-/
namespace CloudLab.Transport

open Library

/-! ## What comes in -/

/-- What `recv` goes on returning behind the last byte. -/
inductive Ending where
  | closed
  | failing
  deriving DecidableEq, Repr

def Ending.choice : Ending → RecvChoice
  | .closed => .upTo 0
  | .failing => .error

/-- How many bytes a call hands out if that many are asked for. -/
def RecvChoice.size : RecvChoice → Nat
  | .upTo limit => limit + 1
  | .error => 0

def total (calls : List RecvChoice) : Nat := (calls.map RecvChoice.size).sum

/-- A stream, the calls that hand it out with negative results in between, and what is behind. -/
structure Incoming where
  stream : Bytes
  calls : List RecvChoice
  ending : Ending
  delivered : total calls = stream.length

namespace Incoming

def choice (i : Incoming) (call : Nat) : RecvChoice := i.calls[call]?.getD i.ending.choice

/-- `read_n` comes back with all that was asked for, or all there is. -/
def Returns (i : Incoming) (n : Nat) : Prop :=
  ∃ enough, ∀ fuel, enough ≤ fuel →
    ∃ fd, readN i.choice fuel ⟨i.stream, 0⟩ n = some (i.stream.take n, fd)

/-- A descriptor that is not open. -/
def failed : Incoming := ⟨[], [], .failing, rfl⟩

/-- What comes in on a descriptor. -/
def on (sockfd : Int) (i : Incoming) : Incoming := if sockfd < 0 then failed else i

end Incoming

/-- `accept_connection`, by what `accept` returns. -/
def acceptConnection (newSocket : Int) : Int := if newSocket < 0 then -1 else newSocket

/-! ## The loop -/

/-- The calls from some number on. -/
def Follows (choice : Nat → RecvChoice) (call : Nat) (rest : List RecvChoice) (ending : Ending) : Prop :=
  ∀ i, choice (call + i) = rest[i]?.getD ending.choice

theorem Follows.head {choice : Nat → RecvChoice} {call : Nat} {c : RecvChoice}
    {rest : List RecvChoice} {ending : Ending} (follows : Follows choice call (c :: rest) ending) :
    choice call = c := follows 0

theorem Follows.tail {choice : Nat → RecvChoice} {call : Nat} {c : RecvChoice}
    {rest : List RecvChoice} {ending : Ending} (follows : Follows choice call (c :: rest) ending) :
    Follows choice (call + 1) rest ending := by
  intro i
  have next := follows (i + 1)
  rwa [List.getElem?_cons_succ, ← Nat.add_assoc, Nat.add_right_comm] at next

theorem total_cons (c : RecvChoice) (rest : List RecvChoice) : total (c :: rest) = c.size + total rest := by
  rw [total, List.map_cons, List.sum_cons, total]

variable {choice : Nat → RecvChoice} {ending : Ending} {rest : List RecvChoice}

/-- The bytes that are asked for are all delivered. -/
theorem readLoop_served {n : Nat} {stream buffer : Bytes} {call retries fuel : Nat}
    (follows : Follows choice call rest ending) (delivered : total rest = stream.length)
    (enough : rest.length < fuel) (served : n ≤ buffer.length + stream.length) :
    ∃ fd, readLoop choice n fuel ⟨stream, call⟩ buffer retries =
      some (buffer ++ stream.take (n - buffer.length), fd) := by
  induction rest generalizing stream buffer call retries fuel with
  | nil =>
    obtain ⟨fuel, rfl⟩ : ∃ less, fuel = less + 1 := ⟨fuel - 1, by omega⟩
    rw [total, List.map_nil, List.sum_nil] at delivered
    have done : n - buffer.length = 0 := by omega
    rw [readLoop_full _ _ _ _ _ _ (by omega), done]
    simp
  | cons c rest ih =>
    obtain ⟨fuel, rfl⟩ : ∃ less, fuel = less + 1 := ⟨fuel - 1, by omega⟩
    rw [total_cons] at delivered
    by_cases left : buffer.length < n
    · cases c with
      | error =>
        rw [readLoop_error left follows.head]
        exact ih follows.tail (by simpa [RecvChoice.size] using delivered) (by simpa using enough) served
      | upTo limit =>
        have more : stream ≠ [] := by
          rintro rfl
          simp [RecvChoice.size] at delivered
        rw [RecvChoice.size] at delivered
        rw [readLoop_data left follows.head rfl more]
        generalize taken : min (n - buffer.length) (limit + 1) = k
        have joined := (read_rest stream buffer n k (by omega)).1
        -- The call is the last one, or the next ones have as much as is missing.
        by_cases last : n - buffer.length ≤ limit + 1
        · obtain ⟨fuel, rfl⟩ : ∃ less, fuel = less + 1 := ⟨fuel - 1, by simp at enough; omega⟩
          have full : n - (buffer ++ stream.take k).length = 0 := by
            simp only [List.length_append, List.length_take]
            omega
          rw [readLoop_full _ _ _ _ _ _ (by omega), ← joined, full]
          simp
        · rw [← joined]
          apply ih follows.tail
          · rw [List.length_drop]
            omega
          · simpa using enough
          · simp only [List.length_append, List.length_take, List.length_drop]
            omega
    · have done : n - buffer.length = 0 := by omega
      rw [readLoop_full _ _ _ _ _ _ left, done]
      simp

/-- More is asked for than comes before the socket fails: the loop goes on for ever. -/
theorem readLoop_failing {n : Nat} {stream buffer : Bytes} {call retries fuel : Nat}
    (follows : Follows choice call rest .failing) (delivered : total rest = stream.length)
    (missing : buffer.length + stream.length < n) :
    readLoop choice n fuel ⟨stream, call⟩ buffer retries = none := by
  induction fuel generalizing stream buffer call retries rest with
  | zero => rfl
  | succ fuel ih =>
    have left : buffer.length < n := by omega
    cases rest with
    | nil =>
      have fails : choice call = .error := follows 0
      rw [readLoop_error left fails]
      have again : Follows choice (call + 1) [] .failing := by
        intro i
        rw [Nat.add_assoc, follows]
        rfl
      exact ih again delivered missing
    | cons c rest =>
      rw [total_cons] at delivered
      cases c with
      | error =>
        rw [readLoop_error left follows.head]
        exact ih follows.tail (by simpa [RecvChoice.size] using delivered) missing
      | upTo limit =>
        rw [RecvChoice.size] at delivered
        have more : stream ≠ [] := by
          rintro rfl
          simp at delivered
        rw [readLoop_data left follows.head (Nat.min_eq_right (by omega)) more]
        apply ih follows.tail
        · rw [List.length_drop]
          omega
        · simp only [List.length_append, List.length_take, List.length_drop]
          omega

/-! ## All calls -/

namespace Incoming

theorem follows (i : Incoming) : Follows i.choice 0 i.calls i.ending := by
  intro call
  rw [Nat.zero_add]
  rfl

/-- A closed connection as a schedule: behind the calls none fails. -/
theorem fair {i : Incoming} (closed : i.ending = .closed) (call : Nat) :
    ∃ later, call ≤ later ∧ i.choice later ≠ .error := by
  refine ⟨call + i.calls.length, Nat.le_add_right _ _, ?_⟩
  rw [choice, List.getElem?_eq_none (Nat.le_add_left _ _), closed]
  simp [Ending.choice]

theorem returns_of_closed {i : Incoming} (closed : i.ending = .closed) (n : Nat) : i.Returns n := by
  obtain ⟨enough, calls, total⟩ := readN_total ⟨i.choice, fair closed⟩ ⟨i.stream, 0⟩ n
  exact ⟨enough, fun fuel more => ⟨_, total fuel more⟩⟩

theorem returns_of_le {i : Incoming} {n : Nat} (served : n ≤ i.stream.length) : i.Returns n := by
  refine ⟨i.calls.length + 1, fun fuel enough => ?_⟩
  have ended : ∃ fd, readLoop i.choice n fuel ⟨i.stream, 0⟩ [] 0 =
      some (([] : Bytes) ++ i.stream.take (n - ([] : Bytes).length), fd) :=
    readLoop_served i.follows i.delivered enough (by simpa using served)
  simpa [readN] using ended

theorem readN_failing {i : Incoming} {n : Nat} (failing : i.ending = .failing)
    (missing : i.stream.length < n) (fuel : Nat) : readN i.choice fuel ⟨i.stream, 0⟩ n = none := by
  have follows := i.follows
  rw [failing] at follows
  exact readLoop_failing follows i.delivered (by simpa using missing)

/-- `read_n` returns exactly if as many bytes come as it asks for, or the connection is closed
behind the last one. -/
theorem returns_iff (i : Incoming) (n : Nat) :
    i.Returns n ↔ n ≤ i.stream.length ∨ i.ending = .closed := by
  constructor
  · rintro ⟨enough, returns⟩
    by_contra neither
    push Not at neither
    have failing : i.ending = .failing := by
      cases ending : i.ending with
      | closed => exact absurd ending neither.2
      | failing => rfl
    obtain ⟨fd, ended⟩ := returns enough (Nat.le_refl _)
    rw [readN_failing failing neither.1] at ended
    cases ended
  · rintro (served | closed)
    · exact returns_of_le served
    · exact returns_of_closed closed n

/-- The size of a message is awaited from a connection that was not accepted. -/
theorem not_returns_failed :
    ¬∀ (newSocket : Int) (i : Incoming) (n : Nat), (i.on (acceptConnection newSocket)).Returns n := by
  intro all
  obtain ⟨enough, returns⟩ := all (-1) failed lengthSizeField
  obtain ⟨fd, ended⟩ := returns enough (Nat.le_refl _)
  have none : readN failed.choice enough ⟨failed.stream, 0⟩ lengthSizeField = none :=
    readN_failing rfl (by decide) enough
  cases none.symm.trans ended

end Incoming

end CloudLab.Transport
