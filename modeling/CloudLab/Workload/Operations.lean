import CloudLab.Library.Maps
import CloudLab.Library.Numerals

/-!
# Commands of a transaction trace (`load_txn.cpp`)

`parse_txn_trace` turns each `KVPair` of a trace into a command: an operation, a key and a
value. Values are kept as strings; the arithmetic and bitwise operations read their operands
as decimal text and store decimal text.

The traces come from `trace_generator.py`, which writes keys and values as bytes, lowest first.
The loader reads neither back: `not_formatAgrees`.
-/
namespace CloudLab.Workload

open Library

abbrev KVStoreState := Store UInt32 Bytes

/-! ## Commands -/

/-- `TxnCmd::Op` -/
inductive Op where
  | get
  | put
  | sendAndExecute
  | prepare
  | commit
  | abort
  | kill
  | pause
  deriving DecidableEq, Repr

/-- The functions that a command's operation may be. -/
inductive OpFunc where
  | pauseFunc
  | killFunc
  | set
  | add
  | sub
  | mult
  | div
  | mod
  | andFunc
  | orFunc
  | xorFunc
  | notFunc
  | nandFunc
  | norFunc
  deriving DecidableEq, Repr

/-- `TxnCmd::OpType` -/
inductive OpType where
  | op (op : Op)
  | func (func : OpFunc)
  deriving DecidableEq, Repr

structure TxnCmd where
  op : OpType := .op .get
  key : UInt32 := 0
  value : Bytes := []
  deriving DecidableEq, Repr

/-- `TxnTest::OpType` -/
inductive TraceOp where
  | put
  | get
  | sendAndExecute
  | prepare
  | commit
  | abort
  | pause
  | kill
  | set
  | add
  | sub
  | mult
  | div
  | mod
  | and
  | or
  | xor
  | not
  | nand
  | nor
  deriving DecidableEq, Repr

/-- `op_type_map` -/
def opTypeMap : TraceOp → OpType
  | .put => .op .put
  | .get => .op .get
  | .sendAndExecute => .op .sendAndExecute
  | .prepare => .op .prepare
  | .commit => .op .commit
  | .abort => .op .abort
  | .pause => .func .pauseFunc
  | .kill => .func .killFunc
  | .set => .func .set
  | .add => .func .add
  | .sub => .func .sub
  | .mult => .func .mult
  | .div => .func .div
  | .mod => .func .mod
  | .and => .func .andFunc
  | .or => .func .orFunc
  | .xor => .func .xorFunc
  | .not => .func .notFunc
  | .nand => .func .nandFunc
  | .nor => .func .norFunc

structure KVPair where
  op : TraceOp
  key : Bytes
  value : Bytes

/-- `convert_key_to_int`. The `memcpy` goes over the `string_view` object `key` itself; `res` is
returned as it was initialised. -/
def convertKeyToInt (_key : Bytes) : UInt32 :=
  let res : UInt32 := 0
  res

/-- The command that `parse_txn_trace` builds. -/
def KVPair.toCmd (cmd : KVPair) : TxnCmd where
  op := opTypeMap cmd.op
  key := convertKeyToInt cmd.key
  value := cmd.value

/-! ## Operations -/

/-- `insert_or_assign`, and whether the key is new. -/
def insertOrAssign (state : KVStoreState) (key : UInt32) (value : Bytes) : KVStoreState × Bool :=
  (state.put key value, (state key).isNone)

def set (state : KVStoreState) (cmd : TxnCmd) : KVStoreState × Bool :=
  insertOrAssign state cmd.key cmd.value

/-- `str_value_to_op_value` of what a key holds. -/
def operand (state : KVStoreState) (key : UInt32) : Option Int64 := (state key).bind fromChars

/-- What `op_wrapper` reads, or none where it returns false. -/
def operands (state : KVStoreState) (cmd : TxnCmd) : Option (Int64 × Int64) :=
  (operand state cmd.key).bind fun lhs =>
    (operand state (convertKeyToInt cmd.value)).map fun rhs => (lhs, rhs)

/-- `op_wrapper`; none where the operation is undefined on its operands. -/
def opWrapper (f : Int64 → Int64 → Option Int) (state : KVStoreState) (cmd : TxnCmd) :
    Option (KVStoreState × Bool) :=
  match operands state cmd with
  | none => some (state, false)
  | some (lhs, rhs) => (f lhs rhs).map fun res => insertOrAssign state cmd.key (stdToString res)

/-- Signed arithmetic is undefined when its result is no `int64_t`. -/
def signed (result : Int) : Option Int :=
  if -2 ^ 63 ≤ result ∧ result < 2 ^ 63 then some result else none

def add := opWrapper fun lhs rhs => signed (lhs.toInt + rhs.toInt)

def sub := opWrapper fun lhs rhs => signed (lhs.toInt - rhs.toInt)

def mult := opWrapper fun lhs rhs => signed (lhs.toInt * rhs.toInt)

def div := opWrapper fun lhs rhs =>
  if rhs = 0 then none else signed (lhs.toInt.tdiv rhs.toInt)

/-- The remainder is undefined wherever the quotient is. -/
def mod := opWrapper fun lhs rhs =>
  if rhs = 0 then none else (signed (lhs.toInt.tdiv rhs.toInt)).map fun _ => lhs.toInt.tmod rhs.toInt

/-- `bin_op_wrapper`: the operands are copied into unsigned words, and the result is one. -/
def binOpWrapper (f : UInt64 → UInt64 → UInt64) :=
  opWrapper fun lhs rhs => some (f lhs.toUInt64 rhs.toUInt64).toNat

def andFunc := binOpWrapper fun lhs rhs => lhs &&& rhs

def orFunc := binOpWrapper fun lhs rhs => lhs ||| rhs

def xorFunc := binOpWrapper fun lhs rhs => lhs ^^^ rhs

/-- The complement is copied back into the signed value. -/
def notFunc (state : KVStoreState) (cmd : TxnCmd) : KVStoreState × Bool :=
  match operand state cmd.key with
  | none => (state, false)
  | some value => insertOrAssign state cmd.key (stdToString (~~~value.toUInt64).toInt64.toInt)

def nandFunc := binOpWrapper fun lhs rhs => ~~~(lhs &&& rhs)

def norFunc := binOpWrapper fun lhs rhs => ~~~(lhs ||| rhs)

/-- A call through an `OpFunc`; `answer` is what `send_cmd` reads from standard input. -/
def OpFunc.call (answer : Bool) (state : KVStoreState) (cmd : TxnCmd) :
    OpFunc → Option (KVStoreState × Bool)
  | .pauseFunc | .killFunc => some (state, answer)
  | .set => some (Workload.set state cmd)
  | .add => Workload.add state cmd
  | .sub => Workload.sub state cmd
  | .mult => Workload.mult state cmd
  | .div => Workload.div state cmd
  | .mod => Workload.mod state cmd
  | .andFunc => Workload.andFunc state cmd
  | .orFunc => Workload.orFunc state cmd
  | .xorFunc => Workload.xorFunc state cmd
  | .notFunc => some (Workload.notFunc state cmd)
  | .nandFunc => Workload.nandFunc state cmd
  | .norFunc => Workload.norFunc state cmd

/-- One command of a transaction, with the functions' effects on the state as a parameter. -/
def runCmd (effect : OpFunc → KVStoreState → TxnCmd → KVStoreState) (state : KVStoreState)
    (cmd : TxnCmd) : KVStoreState :=
  match cmd.op with
  | .op op => if op = .put then state.put cmd.key cmd.value else state
  | .func func => effect func state cmd

/-! ## Keys and values of the generator -/

/-- A PUT as `trace_generator.py` writes it. -/
def generatedPut (n : UInt32) (v : UInt64) : KVPair :=
  ⟨.put, littleEndian 4 n.toNat, littleEndian 8 v.toNat⟩

/-- The command has the key that was written, and an operation on that key finds the value. -/
def FormatAgrees (n : UInt32) (v : UInt64) : Prop :=
  (generatedPut n v).toCmd.key = n ∧
    ∀ effect state, ∃ read,
      operand (runCmd effect state (generatedPut n v).toCmd) (generatedPut n v).toCmd.key = some read ∧
        read.toInt = v.toNat

/-- All keys become zero. -/
theorem key_generatedPut_iff (n : UInt32) (v : UInt64) : (generatedPut n v).toCmd.key = n ↔ n = 0 :=
  eq_comm

/-- What `from_chars` makes of a number's bytes is never the number. -/
theorem fromChars_littleEndian {v : UInt64} {read : Int64}
    (parsed : fromChars (littleEndian 8 v.toNat) = some read) : read.toInt ≠ v.toNat := by
  have value : ofLittleEndian (littleEndian 8 v.toNat) = v.toNat :=
    ofLittleEndian_littleEndian v.toNat_lt
  generalize littleEndian 8 v.toNat = text at parsed value
  simp only [fromChars] at parsed
  obtain ⟨found, parsed⟩ := Option.ite_none_left_eq_some.mp parsed
  obtain ⟨range, parsed⟩ := Option.ite_none_right_eq_some.mp parsed
  cases parsed
  rw [Int64.toInt_ofInt_of_le range.1 (by omega)]
  split
  -- A minus sign: the number read is not positive, and the value is.
  next minus =>
    have positive : 0 < ofLittleEndian text := by
      rcases text with _ | ⟨b, rest⟩
      · cases minus
      · obtain rfl := Option.some.inj minus
        rw [ofLittleEndian_cons, show (45 : UInt8).toNat = 45 from rfl]
        omega
    omega
  -- Digits: as bytes of a number they are worth more.
  next plus =>
    simp only [if_neg plus] at found
    have less := digitsValue_lt_ofLittleEndian
      (fun d member => List.mem_takeWhile_imp member) found
    have front := ofLittleEndian_prefix (List.takeWhile_prefix isDigit (l := text))
    omega

/-- Whatever the key and the value, the loader does not read back what the generator wrote. -/
theorem not_formatAgrees (n : UInt32) (v : UInt64) : ¬FormatAgrees n v := by
  rintro ⟨_, reads⟩
  obtain ⟨read, found, same⟩ := reads (fun _ state _ => state) Store.empty
  have stored : runCmd (fun _ state _ => state) Store.empty (generatedPut n v).toCmd
      (generatedPut n v).toCmd.key = some (littleEndian 8 v.toNat) := by
    simp [runCmd, generatedPut, KVPair.toCmd, opTypeMap]
  rw [operand, stored, Option.bind_some] at found
  exact fromChars_littleEndian found same

/-- The key 1 becomes the key 0. -/
theorem not_formatAgrees_one : ¬FormatAgrees 1 7 := fun agrees => absurd agrees.1 (by decide)

end CloudLab.Workload
