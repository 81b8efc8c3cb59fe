import CloudLab.Workload.Operations
import CloudLab.Library.Transition

/-!
# Where the arithmetic operations are undefined (`load_txn.cpp`)

`op_wrapper` returns false if an operand is missing or no number, and otherwise computes. Nothing
keeps it from a result that is no `int64_t` or from a divisor that is zero. What a check in front
of the operation would have to ask is `Fits`.
-/
namespace CloudLab.Workload

open Library

inductive ArithOp where
  | add
  | sub
  | mult
  | div
  | mod
  deriving DecidableEq, Repr

namespace ArithOp

def func : ArithOp → OpFunc
  | .add => .add
  | .sub => .sub
  | .mult => .mult
  | .div => .div
  | .mod => .mod

/-- The operands leave room for the result, which is not computed here. -/
def Fits (lhs rhs : Int64) : ArithOp → Prop
  | .add =>
    if 0 ≤ rhs.toInt then lhs.toInt ≤ 2 ^ 63 - 1 - rhs.toInt else -2 ^ 63 - rhs.toInt ≤ lhs.toInt
  | .sub =>
    if 0 ≤ rhs.toInt then -2 ^ 63 + rhs.toInt ≤ lhs.toInt else lhs.toInt ≤ 2 ^ 63 - 1 + rhs.toInt
  | .mult =>
    rhs.toInt = 0 ∨ lhs.toInt.natAbs ≤
      (if 0 ≤ lhs.toInt ↔ 0 ≤ rhs.toInt then 2 ^ 63 - 1 else 2 ^ 63) / rhs.toInt.natAbs
  | .div | .mod => rhs.toInt ≠ 0 ∧ (rhs.toInt = -1 → lhs.toInt ≠ -2 ^ 63)

end ArithOp

/-! ## Runs -/

/-- A command as `get_possible_results` visits it; `answer` is what a PAUSE or KILL reads. -/
structure Visit where
  answer : Bool
  cmd : TxnCmd
  deriving DecidableEq

/-- None where the command is undefined. -/
def visit (state : KVStoreState) (v : Visit) : Option KVStoreState :=
  match v.cmd.op with
  | .op op => some (if op = .put then state.put v.cmd.key v.cmd.value else state)
  | .func func => (func.call v.answer state v.cmd).map Prod.fst

def visits : System KVStoreState Visit where
  init state := state = Store.empty
  next := visit

/-- An arithmetic operation with both operands has them in range. -/
def Visit.Fits (v : Visit) (state : KVStoreState) : Prop :=
  ∀ (op : ArithOp) (lhs rhs : Int64), v.cmd.op = .func op.func →
    operands state v.cmd = some (lhs, rhs) → op.Fits lhs rhs

/-- So has each one of a run. -/
def FitsAlong : KVStoreState → List Visit → Prop
  | _, [] => True
  | state, v :: rest => v.Fits state ∧ ∀ after ∈ visit state v, FitsAlong after rest

/-! ## One operation -/

theorem isSome_signed (result : Int) : (signed result).isSome ↔ -2 ^ 63 ≤ result ∧ result < 2 ^ 63 := by
  unfold signed
  split
  next fits => exact iff_of_true rfl fits
  next outside => exact iff_of_false (by simp) outside

theorem opWrapper_isSome {f : Int64 → Int64 → Option Int} {state : KVStoreState} {cmd : TxnCmd}
    {lhs rhs : Int64} (read : operands state cmd = some (lhs, rhs)) :
    (opWrapper f state cmd).isSome ↔ (f lhs rhs).isSome := by
  simp only [opWrapper, read, Option.isSome_map]

/-- Without its operands an operation returns false. -/
theorem opWrapper_none {f : Int64 → Int64 → Option Int} {state : KVStoreState} {cmd : TxnCmd}
    (missing : operands state cmd = none) : opWrapper f state cmd = some (state, false) := by
  simp only [opWrapper, missing]

section Ranges

variable (a b : Int64)

theorem add_fits_iff : (signed (a.toInt + b.toInt)).isSome ↔ ArithOp.add.Fits a b := by
  have low := a.le_toInt
  have high := a.toInt_lt
  have low' := b.le_toInt
  have high' := b.toInt_lt
  rw [isSome_signed, ArithOp.Fits]
  split <;> omega

theorem sub_fits_iff : (signed (a.toInt - b.toInt)).isSome ↔ ArithOp.sub.Fits a b := by
  have low := a.le_toInt
  have high := a.toInt_lt
  have low' := b.le_toInt
  have high' := b.toInt_lt
  rw [isSome_signed, ArithOp.Fits]
  split <;> omega

theorem mult_fits_iff : (signed (a.toInt * b.toInt)).isSome ↔ ArithOp.mult.Fits a b := by
  rw [isSome_signed, ArithOp.Fits]
  generalize a.toInt = x
  generalize b.toInt = y
  by_cases zero : y = 0
  · subst zero
    simp
  · have magnitude := Int.natAbs_mul x y
    rw [Nat.le_div_iff_mul_le (Int.natAbs_pos.mpr zero), ← magnitude]
    -- The sign of the product says which of the bounds counts.
    split
    next same =>
      have nonneg : 0 ≤ x * y := mul_nonneg_iff.mpr (by omega)
      omega
    next opposite =>
      have nonpos : x * y ≤ 0 := mul_nonpos_iff.mpr (by omega)
      omega

/-- The quotient is an `int64_t` except for one. -/
theorem div_fits_iff (nonzero : b.toInt ≠ 0) :
    (signed (a.toInt.tdiv b.toInt)).isSome ↔ (b.toInt = -1 → a.toInt ≠ -2 ^ 63) := by
  have low := a.le_toInt
  have high := a.toInt_lt
  rw [isSome_signed]
  generalize a.toInt = x at low high
  generalize b.toInt = y at nonzero
  by_cases one : y = 1 ∨ y = -1
  · rcases one with rfl | rfl
    · rw [Int.tdiv_one]
      omega
    · rw [Int.tdiv_neg, Int.tdiv_one]
      omega
  -- Any other divisor halves the magnitude at least.
  · have half : (x.tdiv y).natAbs ≤ x.natAbs / 2 := by
      rw [Int.natAbs_tdiv]
      exact Nat.div_le_div_left (by omega) (by decide)
    omega

theorem divides_iff : b ≠ 0 ∧ (signed (a.toInt.tdiv b.toInt)).isSome ↔ ArithOp.div.Fits a b := by
  rw [ArithOp.Fits, ne_eq, ne_eq, ← Int64.toInt_inj, Int64.toInt_zero]
  constructor
  · rintro ⟨nonzero, fits⟩
    exact ⟨nonzero, (div_fits_iff a b nonzero).mp fits⟩
  · rintro ⟨nonzero, fits⟩
    exact ⟨nonzero, (div_fits_iff a b nonzero).mpr fits⟩

end Ranges

private theorem isSome_unless {α : Type} {p : Prop} [Decidable p] {x : Option α} :
    (if p then none else x).isSome ↔ ¬p ∧ x.isSome := by
  split <;> simp [*]

/-- An operation on operands that it finds is defined exactly if they fit. -/
theorem call_isSome_iff (op : ArithOp) (answer : Bool) {state : KVStoreState} {cmd : TxnCmd}
    {lhs rhs : Int64} (read : operands state cmd = some (lhs, rhs)) :
    (op.func.call answer state cmd).isSome ↔ op.Fits lhs rhs := by
  cases op with
  | add => exact (opWrapper_isSome read).trans (add_fits_iff lhs rhs)
  | sub => exact (opWrapper_isSome read).trans (sub_fits_iff lhs rhs)
  | mult => exact (opWrapper_isSome read).trans (mult_fits_iff lhs rhs)
  | div =>
    apply (opWrapper_isSome read).trans
    rw [isSome_unless]
    exact divides_iff lhs rhs
  | mod =>
    apply (opWrapper_isSome read).trans
    rw [isSome_unless, Option.isSome_map]
    exact divides_iff lhs rhs

/-! ## All of them -/

/-- The other functions are defined everywhere. -/
theorem arith_or_total (func : OpFunc) : (∃ op : ArithOp, func = op.func) ∨
    ∀ answer state cmd, (func.call answer state cmd).isSome := by
  have wrapped : ∀ f state cmd, (binOpWrapper f state cmd).isSome := by
    intro f state cmd
    cases read : operands state cmd with
    | none => simp [binOpWrapper, opWrapper_none read]
    | some values => simp [binOpWrapper, opWrapper_isSome read]
  cases func with
  | add => exact Or.inl ⟨.add, rfl⟩
  | sub => exact Or.inl ⟨.sub, rfl⟩
  | mult => exact Or.inl ⟨.mult, rfl⟩
  | div => exact Or.inl ⟨.div, rfl⟩
  | mod => exact Or.inl ⟨.mod, rfl⟩
  | pauseFunc | killFunc | set | notFunc => exact Or.inr fun _ _ _ => rfl
  | andFunc => exact Or.inr fun _ => wrapped (fun lhs rhs => lhs &&& rhs)
  | orFunc => exact Or.inr fun _ => wrapped (fun lhs rhs => lhs ||| rhs)
  | xorFunc => exact Or.inr fun _ => wrapped (fun lhs rhs => lhs ^^^ rhs)
  | nandFunc => exact Or.inr fun _ => wrapped (fun lhs rhs => ~~~(lhs &&& rhs))
  | norFunc => exact Or.inr fun _ => wrapped (fun lhs rhs => ~~~(lhs ||| rhs))

theorem call_isSome_of_none (op : ArithOp) (answer : Bool) {state : KVStoreState} {cmd : TxnCmd}
    (missing : operands state cmd = none) : (op.func.call answer state cmd).isSome := by
  cases op with
  | add | sub | mult | div | mod =>
    simp [ArithOp.func, OpFunc.call, add, sub, mult, div, mod, opWrapper_none missing]

theorem ArithOp.func_injective : Function.Injective func := by
  intro op other same
  cases op <;> cases other <;> first | rfl | cases same

theorem visit_isSome_iff (state : KVStoreState) (v : Visit) :
    (visit state v).isSome ↔ v.Fits state := by
  rcases v with ⟨answer, op, key, value⟩
  cases op with
  | op op => exact iff_of_true rfl fun _ _ _ same => by cases same
  | func func =>
    rw [visit, Option.isSome_map]
    rcases arith_or_total func with ⟨op, rfl⟩ | total
    · cases read : operands state ⟨.func op.func, key, value⟩ with
      | none =>
        exact iff_of_true (call_isSome_of_none op answer read) fun _ _ _ _ found => by
          rw [read] at found
          cases found
      | some values =>
        rw [call_isSome_iff op answer read]
        constructor
        · intro fits other lhs rhs same found
          obtain rfl := ArithOp.func_injective (OpType.func.inj same)
          rw [read] at found
          cases found
          exact fits
        · exact fun fits => fits op _ _ rfl read
    -- An operation that is always defined.
    · refine iff_of_true (total _ _ _) fun op lhs rhs same found => ?_
      obtain rfl := OpType.func.inj same
      exact (call_isSome_iff op answer found).mp (total _ _ _)

theorem run_isSome_iff (state : KVStoreState) (run : List Visit) :
    (visits.run state run).isSome ↔ FitsAlong state run := by
  induction run generalizing state with
  | nil => exact iff_of_true rfl trivial
  | cons v run ih =>
    rw [FitsAlong, ← visit_isSome_iff]
    cases after : visit state v with
    | none => simp [System.run, visits, after]
    | some next =>
      have rest := ih next
      simp only [Option.isSome_some, Option.mem_def, Option.some_inj, forall_eq', true_and]
      rw [← rest, System.run, List.foldlM_cons]
      simp [visits, after, System.run]

/-- In every state that a run from the empty store reaches, an operation on operands that it finds
is defined exactly if they fit; so a run is defined exactly if its operations fit all along. -/
theorem defined_iff (run : List Visit) :
    (∀ state, visits.run Store.empty run = some state → ∀ (op : ArithOp) (answer : Bool)
      (cmd : TxnCmd) (lhs rhs : Int64), operands state cmd = some (lhs, rhs) →
        ((op.func.call answer state cmd).isSome ↔ op.Fits lhs rhs)) ∧
      ((visits.run Store.empty run).isSome ↔ FitsAlong Store.empty run) := by
  constructor
  · exact fun state _ op answer cmd lhs rhs read => call_isSome_iff op answer read
  · exact run_isSome_iff Store.empty run

/-- A PUT of "0". -/
def putZero : Visit := ⟨true, { op := .op .put, value := [48] }⟩

theorem not_defined_div : ¬∀ run state, visits.run Store.empty run = some state →
    ∀ (op : ArithOp) (answer : Bool) (cmd : TxnCmd), (operands state cmd).isSome →
      (op.func.call answer state cmd).isSome := by
  intro all
  have stored : operands (Store.empty.put 0 [48]) {} = some (0, 0) := by decide
  have defined := all [putZero] (Store.empty.put 0 [48]) rfl .div true {} (by rw [stored]; rfl)
  rw [call_isSome_iff .div true stored] at defined
  exact defined.1 rfl

end CloudLab.Workload
