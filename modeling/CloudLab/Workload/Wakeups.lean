import CloudLab.Workload.Workers

/-!
# Wake-ups

Only `add_to_ready` notifies, though the wait also ends when no node is left: the hand-out of the
last node notifies nobody. Whoever waits then and is not met by a notification that is on its way
sleeps forever, `asleep_crowd`. Nobody does in a run in which the last node is handed out only when
no more workers wait than have yet to notify.
-/
namespace CloudLab.Workload.Workers

open Library

variable {W : Type} [Fintype W] [DecidableEq W]

def Worker.Notifies : Worker → Prop
  | .notifying _ => True
  | _ => False

instance : DecidablePred Worker.Notifies
  | .notifying _ => .isTrue trivial
  | .calling | .waiting | .notified | .holding _ | .dropping _ | .pushing .. | .stopped => .isFalse id

/-- All is done, and a worker waits for a notification that nobody is going to send. -/
def Asleep (s : State W) : Prop :=
  s.txnGraph.remainingNodes = 0 ∧ (∀ id ∈ s.handed, id ∈ s.dropped) ∧
    (∀ x, ¬(s.workers x).Notifies) ∧ ∃ x, s.workers x = .waiting

/-- No spurious wake-up, and no call by a worker that got nothing. -/
def Plain (_ : State W) : Action W → Prop
  | .wakeSpuriously _ | .callAgain _ => False
  | _ => True

instance (s : State W) : DecidablePred (Plain s)
  | .wakeSpuriously _ | .callAgain _ => .isFalse id
  | .getReady _ | .drop _ | .release _ | .push _ | .notify .. | .finish _ => .isTrue trivial

def waiters (s : State W) : Finset W := {x | s.workers x = .waiting}

def notifiers (s : State W) : Finset W := {x | (s.workers x).Notifies}

/-- If the step hands out the last node, there is a notification on its way for each waiter. -/
def InTime (s : State W) : Action W → Prop
  | .getReady _ => s.txnGraph.remainingNodes = 1 → s.txnGraph.readyNodes ≠ [] →
      (waiters s).card ≤ (notifiers s).card
  | _ => True

instance (s : State W) : DecidablePred (InTime s)
  | .getReady _ => inferInstanceAs (Decidable (_ → _ → _))
  | .drop _ | .release _ | .push _ | .notify .. | .finish _ | .wakeSpuriously _ | .callAgain _ =>
    .isTrue trivial

instance (s : State W) : Decidable (Asleep s) := inferInstanceAs (Decidable (_ ∧ _))

/-! ## The invariant -/

/-- When nothing is left, there is a notification on its way for each waiter. -/
def Awaited (s : State W) : Prop :=
  s.txnGraph.remainingNodes = 0 → (waiters s).card ≤ (notifiers s).card

section Steps

theorem card_update (p : Worker → Prop) [DecidablePred p] (workers : W → Worker) (x : W) (now : Worker) :
    (Finset.univ.filter fun y => p (Function.update workers x now y)).card +
        (if p (workers x) then 1 else 0) =
      (Finset.univ.filter fun y => p (workers y)).card + if p now then 1 else 0 := by
  have others : ∑ y ∈ Finset.univ.erase x, (if p (Function.update workers x now y) then 1 else 0) =
      ∑ y ∈ Finset.univ.erase x, if p (workers y) then 1 else 0 := by
    refine Finset.sum_congr rfl fun y member => ?_
    rw [Function.update_of_ne (Finset.ne_of_mem_erase member)]
  rw [Finset.card_filter, Finset.card_filter, ← Finset.add_sum_erase _ _ (Finset.mem_univ x),
    ← Finset.add_sum_erase _ (fun y => if p (workers y) then 1 else 0) (Finset.mem_univ x), others,
    Function.update_self]
  omega

theorem waiters_move (s : State W) (x : W) (now : Worker) :
    (waiters (s.move x now)).card + (if s.workers x = .waiting then 1 else 0) =
      (waiters s).card + if now = .waiting then 1 else 0 :=
  card_update (· = .waiting) s.workers x now

theorem notifiers_move (s : State W) (x : W) (now : Worker) :
    (notifiers (s.move x now)).card + (if (s.workers x).Notifies then 1 else 0) =
      (notifiers s).card + if now.Notifies then 1 else 0 :=
  card_update Worker.Notifies s.workers x now

variable {T : Trace} {s t : State W} {x : W} {before : Worker}

/-- A worker that neither starts to wait nor has to notify. -/
theorem bound_move (bound : (waiters s).card ≤ (notifiers s).card) (here : s.workers x = before)
    (now : Worker) (waits : now ≠ .waiting) (notifies : ¬before.Notifies) :
    (waiters (s.move x now)).card ≤ (notifiers (s.move x now)).card := by
  have waiting := waiters_move s x now
  have notifying := notifiers_move s x now
  rw [if_neg waits] at waiting
  rw [here, if_neg notifies] at notifying
  omega

theorem Awaited.move (awaited : Awaited s) (here : s.workers x = before) (now : Worker)
    (waits : now ≠ .waiting) (notifies : ¬before.Notifies) : Awaited (s.move x now) := fun zero =>
  bound_move (awaited zero) here now waits notifies

theorem Awaited.getReady (awaited : Awaited s) (scheduled : Scheduled T s) (here : s.workers x = before)
    (notifies : ¬before.Notifies) (inTime : InTime s (.getReady x)) : Awaited (s.getReady x) := by
  rw [State.getReady]
  split
  next =>
    intro zero
    have none : s.txnGraph.remainingNodes = 0 := zero
    refine bound_move (awaited none) here _ ?_ notifies
    rw [if_pos none]
    simp
  next node rest queue =>
    intro zero
    have some : s.txnGraph.readyNodes ≠ [] := queue ▸ List.cons_ne_nil node rest
    have positive := scheduled.remaining_pos some
    simp only [State.txnGraph, World.setGraph, Function.update_self] at zero
    have last : s.txnGraph.remainingNodes = 1 := by
      rw [State.txnGraph] at positive ⊢
      omega
    exact bound_move (inTime last some) here (.holding node) (by simp) notifies

/-- A waiter and a notifier less. -/
theorem Awaited.notifyOne {y : W} {rest : List Nat} (awaited : Awaited s)
    (here : s.workers x = .notifying rest) (waits : s.workers y = .waiting) :
    Awaited ((s.move y .notified).move x (.dropping rest)) := by
  intro zero
  have bound := awaited zero
  have there := notifying_move here waits
  have waiting := waiters_move s y .notified
  have notifying := notifiers_move s y .notified
  have waiting' := waiters_move (s.move y .notified) x (.dropping rest)
  have notifying' := notifiers_move (s.move y .notified) x (.dropping rest)
  simp only [waits, Worker.Notifies, reduceCtorEq, if_true, if_false] at waiting notifying
  simp only [there, Worker.Notifies, reduceCtorEq, if_true, if_false] at waiting' notifying'
  omega

theorem Awaited.notifyNone {rest : List Nat} (nobody : ∀ y, s.workers y ≠ .waiting) :
    Awaited (s.move x (.dropping rest)) := by
  intro _
  have none : waiters (s.move x (.dropping rest)) = ∅ := by
    simp only [waiters, Finset.filter_eq_empty_iff]
    intro y _ waits
    by_cases same : y = x
    · subst same
      simp [State.move] at waits
    · exact nobody y (by simpa [State.move, Function.update_of_ne same] using waits)
  rw [none, Finset.card_empty]
  exact Nat.zero_le _

theorem Awaited.step {a : Action W} (awaited : Awaited s) (scheduled : Scheduled T s)
    (inTime : InTime s a) (step : Step s a t) : Awaited t := by
  cases step with
  | getReady here idle => rcases idle with rfl | rfl <;> exact awaited.getReady scheduled here id inTime
  | @drop x node here => exact awaited.move here (.dropping node.next) (by simp) id
  | @release x a rest heap last here =>
    refine awaited.move here (s.afterRelease rest last) ?_ id
    cases last with
    | none => simp [State.afterRelease]
    | some node =>
      rw [State.afterRelease]
      split <;> simp
  | @push x node rest here =>
    intro zero
    refine bound_move (awaited ?_) here (.notifying rest) (by simp) id
    rw [scheduled.home x node rest here] at zero
    simpa only [State.txnGraph, World.addToReady, World.setReady, World.setGraph, State.move,
      Function.update_self] using zero
  | notifyOne here waits => exact awaited.notifyOne here waits
  | notifyNone here nobody => exact .notifyNone nobody
  | finish here | wakeSpuriously here | callAgain here => exact awaited.move here _ (by simp) id

end Steps

/-! ## Runs -/

/-- Nobody is left asleep when no last node is handed out too early. Spurious wake-ups may happen,
and calls by workers that got nothing. -/
theorem not_asleep_of_inTime {W : Type} [Fintype W] [DecidableEq W] {T : Trace}
    {loop death : Iteration (UInt64 × Nat × List UInt64)} {s : State W}
    (reachable : (system W T loop death).Reachable InTime s) : ¬Asleep s := by
  have invariant : Scheduled T s ∧ Awaited s := by
    refine reachable.invariant (I := fun s => Scheduled T s ∧ Awaited s)
      (fun s initial => ⟨.init initial, fun _ => ?_⟩)
      fun s a t before inTime taken =>
        have step := step_of_next taken
        ⟨before.1.step step, before.2.step before.1 inTime step⟩
    have none : waiters s = ∅ := by
      simp only [waiters, Finset.filter_eq_empty_iff]
      exact fun x _ waits => by cases (initial.2.1 x).symm.trans waits
    rw [none, Finset.card_empty]
    exact Nat.zero_le _
  rintro ⟨zero, _, quiet, x, waits⟩
  have none : notifiers s = ∅ := by
    simp only [notifiers, Finset.filter_eq_empty_iff]
    exact fun y _ => quiet y
  have bound := invariant.2 zero
  rw [none, Finset.card_empty, Nat.le_zero, Finset.card_eq_zero] at bound
  have member : x ∈ waiters s := by simp [waiters, waits]
  rw [bound] at member
  cases member

/-- The only waiter takes the last node, and the first worker comes back and gets nothing. -/
theorem not_asleep_of_inTime_handover : ∃ s : State Bool,
    s.txnGraph.remainingNodes = 0 ∧ s.workers false = .stopped ∧ ¬Asleep s := by
  have initial := init_start (W := Bool) chain .asListed .asListed
  have stopped : (((system Bool chain .asListed .asListed).guarded InTime).run
      (start Bool chain .asListed .asListed) (handover ++ [.finish false, .getReady false])).map
        (fun s => (s.txnGraph.remainingNodes, s.workers false)) = some (0, .stopped) := by decide
  obtain ⟨s, ran, same⟩ := Option.map_eq_some_iff.mp stopped
  obtain ⟨remaining, gone⟩ := Prod.mk.inj same
  exact ⟨s, remaining, gone, not_asleep_of_inTime ((System.Reachable.start initial).guarded ran)⟩

inductive Crew where
  | first
  | second
  | third
  deriving DecidableEq

instance : Fintype Crew := ⟨{.first, .second, .third}, fun x => by cases x <;> decide⟩

/-- Two workers wait, and the one that is woken takes the last node. -/
def crowd : List (Action Crew) :=
  [.getReady .first, .getReady .second, .getReady .third, .drop .first, .release .first, .push .first,
    .notify .first (some .second), .finish .first, .getReady .second, .drop .second, .finish .second,
    .getReady .first, .getReady .second]

/-- The other one is never woken. -/
theorem asleep_crowd : ∃ s : State Crew,
    (system Crew chain .asListed .asListed).Reachable Plain s ∧ Asleep s := by
  have initial := init_start (W := Crew) chain .asListed .asListed
  have asleep : (((system Crew chain .asListed .asListed).guarded Plain).run
      (start Crew chain .asListed .asListed) crowd).any (fun s => Asleep s) = true := by decide
  obtain ⟨s, ran, bad⟩ := (Option.any_eq_true _ _).mp asleep
  exact ⟨s, (System.Reachable.start initial).guarded ran, of_decide_eq_true bad⟩

end CloudLab.Workload.Workers
