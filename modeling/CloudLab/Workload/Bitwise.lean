import CloudLab.Workload.Operations

/-!
# What the bitwise operations store (`load_txn.cpp`)

`bin_op_wrapper` hands an unsigned word on to `fmt::to_string`. A result with the sign bit is
printed as 2^63 or more, and the next operation cannot read it: `readable_iff`. `not_func` copies
its result back into the signed value.
-/
namespace CloudLab.Workload

open Library

inductive BitOp where
  | and
  | or
  | xor
  | nand
  | nor
  | not
  deriving DecidableEq, Repr

namespace BitOp

def func : BitOp → OpFunc
  | .and => .andFunc
  | .or => .orFunc
  | .xor => .xorFunc
  | .nand => .nandFunc
  | .nor => .norFunc
  | .not => .notFunc

/-- The result in two's complement. -/
def result (lhs rhs : Int64) : BitOp → Int64
  | .and => lhs &&& rhs
  | .or => lhs ||| rhs
  | .xor => lhs ^^^ rhs
  | .nand => ~~~(lhs &&& rhs)
  | .nor => ~~~(lhs ||| rhs)
  | .not => ~~~lhs

/-- By the signs of the operands: the result has no sign bit, or it is kept as a signed value. -/
def KeepsSign (lhs rhs : Int64) : BitOp → Prop
  | .and => 0 ≤ lhs.toInt ∨ 0 ≤ rhs.toInt
  | .or => 0 ≤ lhs.toInt ∧ 0 ≤ rhs.toInt
  | .xor => 0 ≤ lhs.toInt ↔ 0 ≤ rhs.toInt
  | .nand => lhs.toInt < 0 ∧ rhs.toInt < 0
  | .nor => lhs.toInt < 0 ∨ rhs.toInt < 0
  | .not => True

instance (lhs rhs : Int64) : DecidablePred (KeepsSign lhs rhs)
  | .and => inferInstanceAs (Decidable (0 ≤ lhs.toInt ∨ 0 ≤ rhs.toInt))
  | .or => inferInstanceAs (Decidable (0 ≤ lhs.toInt ∧ 0 ≤ rhs.toInt))
  | .xor => inferInstanceAs (Decidable (0 ≤ lhs.toInt ↔ 0 ≤ rhs.toInt))
  | .nand => inferInstanceAs (Decidable (lhs.toInt < 0 ∧ rhs.toInt < 0))
  | .nor => inferInstanceAs (Decidable (lhs.toInt < 0 ∨ rhs.toInt < 0))
  | .not => .isTrue trivial

/-- What the operation stores under the key of its command. -/
def stored (op : BitOp) (answer : Bool) (state : KVStoreState) (cmd : TxnCmd) : Option Bytes :=
  (op.func.call answer state cmd).bind fun (state, _) => state cmd.key

/-- The decimal form of the result is stored, and read back. -/
def Readable (op : BitOp) (answer : Bool) (state : KVStoreState) (cmd : TxnCmd)
    (lhs rhs : Int64) : Prop :=
  op.stored answer state cmd = some (stdToString (op.result lhs rhs).toInt) ∧
    (op.stored answer state cmd).bind fromChars = some (op.result lhs rhs)

/-! ## Signs -/

theorem msb_eq_false_iff (value : Int64) : value.toBitVec.msb = false ↔ 0 ≤ value.toInt := by
  rw [← Int64.toInt_toBitVec, BitVec.msb_eq_toInt, decide_eq_false_iff_not, Int.not_lt]

theorem result_nonneg_iff {op : BitOp} (binary : op ≠ .not) (lhs rhs : Int64) :
    0 ≤ (op.result lhs rhs).toInt ↔ op.KeepsSign lhs rhs := by
  have left := msb_eq_false_iff lhs
  have right := msb_eq_false_iff rhs
  rw [← msb_eq_false_iff]
  cases op with
  | not => exact absurd rfl binary
  | and | or | xor | nand | nor =>
    simp only [result, KeepsSign, Int64.toBitVec_and, Int64.toBitVec_or, Int64.toBitVec_xor,
      Int64.toBitVec_not, BitVec.msb_and, BitVec.msb_or, BitVec.msb_xor, BitVec.msb_not,
      ← Int.not_le, ← left, ← right]
    cases lhs.toBitVec.msb <;> cases rhs.toBitVec.msb <;> decide

/-- As an unsigned word a number is the same if it has no sign. -/
theorem toNat_toUInt64_eq_iff (value : Int64) :
    (value.toUInt64.toNat : Int) = value.toInt ↔ 0 ≤ value.toInt := by
  rw [← msb_eq_false_iff, ← Int64.toInt_toBitVec, ← Int64.toNat_toBitVec, BitVec.toInt_eq_msb_cond]
  cases value.toBitVec.msb with
  | false => simp
  | true =>
    simp
    omega

/-! ## Strings -/

theorem fromChars_toInt (value : Int64) : fromChars (stdToString value.toInt) = some value := by
  rw [fromChars_stdToString, if_pos ⟨value.le_toInt, value.toInt_lt⟩, Int64.ofInt_toInt]

variable {answer : Bool} {state : KVStoreState} {cmd : TxnCmd} {lhs rhs : Int64}

theorem stored_binary {op : BitOp} (binary : op ≠ .not) (left : operand state cmd.key = some lhs)
    (right : operand state (convertKeyToInt cmd.value) = some rhs) :
    op.stored answer state cmd = some (stdToString ((op.result lhs rhs).toUInt64.toNat : Int)) := by
  have read : operands state cmd = some (lhs, rhs) := by
    rw [operands, left, Option.bind_some, right, Option.map_some]
  cases op with
  | not => exact absurd rfl binary
  | and | or | xor | nand | nor =>
    simp [stored, func, OpFunc.call, andFunc, orFunc, xorFunc, nandFunc, norFunc, binOpWrapper,
      opWrapper, read, insertOrAssign, result]

theorem stored_not (left : operand state cmd.key = some lhs) :
    BitOp.not.stored answer state cmd = some (stdToString (~~~lhs).toInt) := by
  simp [stored, func, OpFunc.call, notFunc, left, insertOrAssign]

/-- A result with a sign is stored as another number. -/
theorem stored_eq_iff {op : BitOp} (binary : op ≠ .not) (left : operand state cmd.key = some lhs)
    (right : operand state (convertKeyToInt cmd.value) = some rhs) :
    op.stored answer state cmd = some (stdToString (op.result lhs rhs).toInt) ↔
      op.KeepsSign lhs rhs := by
  rw [stored_binary binary left right, ← result_nonneg_iff binary, ← toNat_toUInt64_eq_iff,
    Option.some_inj, stdToString_injective.eq_iff]

theorem readable_binary_iff {op : BitOp} (binary : op ≠ .not)
    (left : operand state cmd.key = some lhs)
    (right : operand state (convertKeyToInt cmd.value) = some rhs) :
    op.Readable answer state cmd lhs rhs ↔ op.KeepsSign lhs rhs := by
  constructor
  · rintro ⟨stored, _⟩
    exact (stored_eq_iff binary left right).mp stored
  · intro keeps
    have stored : op.stored answer state cmd = some (stdToString (op.result lhs rhs).toInt) :=
      (stored_eq_iff binary left right).mpr keeps
    exact ⟨stored, by rw [stored, Option.bind_some, fromChars_toInt]⟩

/-- NAND and NOR of a key with itself. -/
theorem stored_eq_not_iff {op : BitOp} (negation : op = .nand ∨ op = .nor)
    (left : operand state cmd.key = some lhs) (itself : convertKeyToInt cmd.value = cmd.key) :
    op.stored answer state cmd = BitOp.not.stored answer state cmd ↔ lhs.toInt < 0 := by
  have right : operand state (convertKeyToInt cmd.value) = some lhs := by rw [itself, left]
  rw [stored_not left]
  rcases negation with rfl | rfl
  · have same : BitOp.nand.result lhs lhs = ~~~lhs := by simp [result]
    rw [← same, stored_eq_iff (by decide) left right]
    exact and_self_iff
  · have same : BitOp.nor.result lhs lhs = ~~~lhs := by simp [result]
    rw [← same, stored_eq_iff (by decide) left right]
    exact or_self_iff

/-- The stored string is right and can be read exactly if the signs of the operands give a result
without a sign, or the operation is NOT. In particular NAND and NOR of a negative number with
itself store what NOT stores, and of no other number. -/
theorem readable_iff (op : BitOp) (answer : Bool) {state : KVStoreState} {cmd : TxnCmd}
    {lhs rhs : Int64} (left : operand state cmd.key = some lhs)
    (right : op = .not ∨ operand state (convertKeyToInt cmd.value) = some rhs) :
    (op.Readable answer state cmd lhs rhs ↔ op.KeepsSign lhs rhs) ∧
      (op = .nand ∨ op = .nor → convertKeyToInt cmd.value = cmd.key →
        (op.stored answer state cmd = BitOp.not.stored answer state cmd ↔ lhs.toInt < 0)) := by
  constructor
  · by_cases negation : op = .not
    · subst negation
      have keeps : BitOp.not.KeepsSign lhs rhs := trivial
      rw [Readable, stored_not left]
      exact iff_of_true ⟨rfl, fromChars_toInt _⟩ keeps
    · exact readable_binary_iff negation left (right.resolve_left negation)
  · exact fun negation itself => stored_eq_not_iff negation left itself

/-! ## A store with one number -/

def one (text : Bytes) : KVStoreState := Store.empty.put 0 text

def ofKeyZero (op : BitOp) : TxnCmd := { op := .func op.func, key := 0, value := [] }

/-- NAND of -6 with itself is 5. -/
theorem readable_nand : BitOp.nand.Readable true (one [45, 54]) (ofKeyZero .nand) (-6) (-6) ∧
    BitOp.nand.stored true (one [45, 54]) (ofKeyZero .nand) =
      BitOp.not.stored true (one [45, 54]) (ofKeyZero .nand) := by
  have left : operand (one [45, 54]) (ofKeyZero .nand).key = some (-6) := by decide
  obtain ⟨readable, same⟩ := readable_iff .nand true left (Or.inr left)
  exact ⟨readable.mpr (by decide), (same (Or.inl rfl) rfl).mpr (by decide)⟩

/-- NAND of 5 with itself is stored as 18446744073709551610. -/
theorem not_readable_nand :
    ¬BitOp.nand.Readable true (one [53]) (ofKeyZero .nand) 5 5 ∧
      BitOp.nand.stored true (one [53]) (ofKeyZero .nand) ≠
        BitOp.not.stored true (one [53]) (ofKeyZero .nand) := by
  have left : operand (one [53]) (ofKeyZero .nand).key = some 5 := by decide
  constructor
  · rw [readable_binary_iff (by decide) left left]
    decide
  · rw [ne_eq, stored_eq_not_iff (Or.inl rfl) left rfl]
    decide

end BitOp

end CloudLab.Workload
