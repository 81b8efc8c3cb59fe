import CloudLab.SingleNode.Mirror

/-!
# The trace cursor (`task1/source/client.cpp`)

Every thread has an iterator into the traces. It begins at the share of the thread, and behind
every request `get_operation` and `get_tx` move it by the same code, `advance`. Behind the last
element it goes back to the share of some thread, which a single client computes modulo zero.
-/
namespace CloudLab.SingleNode.Cursor

open Library Library.Wire Mirror

/-! ## Positions -/

section Positions

variable (traces : List TraceCmd) (nbClients id : Nat)

/-- Where the loop of `client` begins. -/
def start : Option Nat :=
  if nbClients = 0 then none else some (traces.length / nbClients * id)

/-- The iterator behind so many messages, if it was always at an element of the traces; `rand`
is what the calls of `rand` return. -/
def position (rand : Nat → Nat) : Nat → Option Nat
  | 0 => start traces nbClients id
  | i + 1 => do
    let it ← position rand i
    let _ ← traces[it]?
    advance traces nbClients it (rand i)

/-- The iterator is at an element with every message and behind the last one. -/
def Inside (nbMessages : Nat) (rand : Nat → Nat) : Prop :=
  ∀ i ≤ nbMessages, ∃ it, position traces nbClients id rand i = some it ∧ it < traces.length

variable {traces nbClients id}

/-- The share of every thread begins within the traces. -/
theorem share_lt (nonempty : traces ≠ []) (mine : id < nbClients) :
    traces.length / nbClients * id < traces.length := by
  have some := List.length_pos_of_ne_nil nonempty
  have whole := Nat.div_mul_le_self traces.length nbClients
  rcases Nat.eq_zero_or_pos (traces.length / nbClients) with none | share
  · rw [none, Nat.zero_mul]
    exact some
  · exact ((Nat.mul_lt_mul_left share).mpr mine).trans_le whole

/-- The iterator is not moved out of the traces. -/
theorem advance_lt {it jump next : Nat} (within : it < traces.length)
    (moved : advance traces nbClients it jump = some next) : next < traces.length := by
  unfold advance at moved
  split at moved
  · cases moved
    omega
  · obtain ⟨several, moved⟩ := Option.ite_none_left_eq_some.mp moved
    cases moved
    have nonempty : traces ≠ [] := by
      rintro rfl
      cases within
    rcases Nat.eq_zero_or_pos nbClients with none | clients
    · rw [none, Nat.div_zero, Nat.zero_mul]
      exact List.length_pos_of_ne_nil nonempty
    · have other := Nat.mod_lt jump (show nbClients - 1 > 0 by omega)
      exact share_lt nonempty (by omega)

/-- With two clients the iterator can always be moved. -/
theorem advance_isSome (several : 2 ≤ nbClients) (it jump : Nat) :
    (advance traces nbClients it jump).isSome := by
  unfold advance
  split
  · rfl
  · rw [if_neg (by omega)]
    rfl

/-- One message: an element is read and the iterator moved. -/
theorem position_succ {rand : Nat → Nat} {i it : Nat}
    (here : position traces nbClients id rand i = some it) (within : it < traces.length) :
    position traces nbClients id rand (i + 1) = advance traces nbClients it (rand i) := by
  simp [position, here, List.getElem?_eq_getElem within]

theorem position_several (nonempty : traces ≠ []) (mine : id < nbClients)
    (several : 2 ≤ nbClients) (rand : Nat → Nat) (i : Nat) :
    ∃ it, position traces nbClients id rand i = some it ∧ it < traces.length := by
  induction i with
  | zero =>
    refine ⟨_, ?_, share_lt nonempty mine⟩
    rw [position, start, if_neg (by omega)]
  | succ i ih =>
    obtain ⟨it, here, within⟩ := ih
    obtain ⟨next, moved⟩ := Option.isSome_iff_exists.mp (advance_isSome several it (rand i))
    exact ⟨next, (position_succ here within).trans moved, advance_lt within moved⟩

/-- A single client reads one element after the other. -/
theorem position_single (rand : Nat → Nat) {i : Nat} (within : i < traces.length) :
    position traces 1 0 rand i = some i := by
  induction i with
  | zero => rfl
  | succ i ih =>
    rw [position_succ (ih (by omega)) (by omega), advance, if_pos (by omega)]

/-- Behind the last element a single client divides by zero. -/
theorem position_single_end (nonempty : traces ≠ []) (rand : Nat → Nat) :
    position traces 1 0 rand traces.length = none := by
  obtain ⟨last, length⟩ := Nat.exists_eq_succ_of_ne_zero (List.length_pos_of_ne_nil nonempty).ne'
  have here : position traces 1 0 rand last = some last := position_single rand (by omega)
  rw [length, Nat.succ_eq_add_one, position_succ here (by omega), advance, if_neg (by omega),
    if_pos rfl]

/-- The iterator stays within the traces for several clients, and for a single one as long as it
has not read the last element. -/
theorem inside_iff (nonempty : traces ≠ []) (clients : 1 ≤ nbClients) (mine : id < nbClients)
    (nbMessages : Nat) (rand : Nat → Nat) :
    Inside traces nbClients id nbMessages rand ↔ 2 ≤ nbClients ∨ nbMessages < traces.length := by
  constructor
  · intro inside
    by_contra out
    push Not at out
    obtain rfl : nbClients = 1 := by omega
    obtain rfl : id = 0 := by omega
    obtain ⟨it, here, _⟩ := inside traces.length out.2
    rw [position_single_end nonempty] at here
    cases here
  · rintro (several | short) i before
    · exact position_several nonempty mine several rand i
    · by_cases several : 2 ≤ nbClients
      · exact position_several nonempty mine several rand i
      · obtain rfl : nbClients = 1 := by omega
        obtain rfl : id = 0 := by omega
        exact ⟨i, position_single rand (by omega), by omega⟩

/-- The second of two clients sends ten messages on a trace of three elements. -/
theorem inside_second : Inside [⟨.put, 1⟩, ⟨.put, 2⟩, ⟨.get, 1⟩] 2 1 10 fun _ => 7 :=
  (inside_iff (List.cons_ne_nil _ _) (by decide) (by decide) 10 _).mpr (Or.inl (le_refl 2))

/-- A single client with a single element and a single message. -/
theorem not_inside_single : ¬ Inside [⟨.put, 1⟩] 1 0 1 fun _ => 0 := by
  intro inside
  obtain ⟨it, here, _⟩ := inside 1 (le_refl 1)
  cases here

end Positions

/-! ## All threads -/

theorem inside_update {nbClients size : Nat} {threads : Fin nbClients → Thread}
    (inside : ∀ t, (threads t).it < size) (owner : Fin nbClients) {thread : Thread}
    (within : thread.it < size) (t : Fin nbClients) :
    (Function.update threads owner thread t).it < size := by
  by_cases own : t = owner
  · rw [own, Function.update_self]
    exact within
  · rw [Function.update_of_ne own]
    exact inside t

/-- In whatever order the threads go on, none of them leaves the traces. -/
theorem threads_inside {traces : List TraceCmd} {nbClients nbMessages : Nat}
    (nonempty : traces ≠ []) {s : State nbClients}
    (reachable : (system traces nbClients nbMessages).Reachable System.Always s)
    (t : Fin nbClients) : (s.threads t).it < traces.length := by
  revert t
  apply reachable.invariant
  · rintro _ rfl t
    exact share_lt nonempty t.isLt
  · intro s l s' inside _ taken
    cases l with
    | record owner rand jump =>
      obtain ⟨_, taken⟩ := Option.ite_none_right_eq_some.mp taken
      obtain ⟨cmd, _, taken⟩ := Option.bind_eq_some_iff.mp taken
      obtain ⟨⟨kv, od⟩, _, taken⟩ := Option.bind_eq_some_iff.mp taken
      obtain ⟨it, moved, rfl⟩ := Option.map_eq_some_iff.mp taken
      exact inside_update inside owner (advance_lt (inside owner) moved)
    | send owner =>
      simp only [system, State.stepSend] at taken
      split at taken
      · cases taken
        exact inside_update inside owner (inside owner)
      · cases taken
    | apply owner =>
      simp only [system, State.stepApply] at taken
      split at taken
      · cases taken
        exact inside_update inside owner (inside owner)
      · cases taken
    | receive owner =>
      simp only [system, State.stepReceive] at taken
      split at taken
      · cases taken
        exact inside_update inside owner (inside owner)
      · cases taken

end CloudLab.SingleNode.Cursor
