import CloudLab.SingleNode.Mirror
import CloudLab.Library.Lines
import CloudLab.Library.Numerals

/-!
# Trace files (`workload_traces/generate_traces.cpp`)

`split` goes through the text with two pointers, which are positions here. Without transactions it
takes every line that is not empty: `split_plain`. With transactions it stops in front of a line
that no newline ends: `agree_iff`.
-/
namespace CloudLab.SingleNode.Traces

open Library Mirror

/-! ## Commands -/

structure KvPair where
  keyHash : UInt32
  value : Bytes
  op : TraceOp
  deriving DecidableEq, Repr

/-- `TraceCmd`; its field `op` is never set. -/
structure TraceCmd where
  operation : List KvPair
  deriving DecidableEq, Repr

def defaultReadPermille : Nat := 500

/-- `TraceCmd::init`; `rand` is what the call of `rand` returns. -/
def TraceCmd.init (keyId : UInt32) (readPermille rand : Nat) : TraceCmd :=
  ⟨[⟨keyId, [49], if rand % 1000 < readPermille then .get else .put⟩]⟩

/-- `std::from_chars` leaves its result as it was where it fails, and nothing was in it. -/
def keyOf (uninitialized : UInt32) (text : Bytes) : UInt32 := (fromChars32 text).getD uninitialized

def TraceCmd.ofText (uninitialized : UInt32) (s : Bytes) (readPermille rand : Nat) : TraceCmd :=
  .init (keyOf uninitialized s) readPermille rand

/-- The pairs around a transaction have the key `(uint32_t)-1`. -/
def bracket (op : TraceOp) : KvPair := ⟨0xffffffff, [105, 110, 118, 97, 108, 105, 100], op⟩

def txnPut (uninitialized : UInt32) (s : Bytes) : KvPair := ⟨keyOf uninitialized s, [49], .txnPut⟩

/-! ## `split` -/

/-- What `split` is called with, what the calls of `rand` return and what is on the stack. -/
structure Input where
  str : Bytes
  delims : Bytes
  rand : Nat → Nat
  uninitialized : UInt32

namespace Input

variable (input : Input)

def last : Nat := input.str.length

/-- `std::find_first_of` from a position to the end. -/
def findFirstOf (first : Nat) : Nat :=
  first + ((input.str.drop first).takeWhile fun b => b ∉ input.delims).length

/-- `std::string_view(first, second - first)` -/
def view (first second : Nat) : Bytes := (input.str.drop first).take (second - first)

/-- The inner loop for a transaction, with the operations that are left. -/
def txLoop : Nat → Nat → Nat → List KvPair → Nat × Nat × List KvPair
  | 0, first, second, txs => (first, second, txs)
  | ops + 1, first, _, txs =>
    let second := input.findFirstOf first
    if second = input.last then (first, second, txs)
    else if first ≠ second then
      let txs := txs ++ [txnPut input.uninitialized (input.view first second)]
      let first := second + 1
      if first = input.last then (first, second, txs) else txLoop ops first second txs
    else txLoop ops first second txs

/-- The loop of `split`; the fuel counts its rounds. -/
def splitLoop (isTx : Bool) (opsPerTx : Nat) :
    Nat → Nat → Nat → List TraceCmd → Option (List TraceCmd)
  | 0, _, _, _ => none
  | fuel + 1, first, second, tokens =>
    if second = input.last then some tokens
    else if isTx then
      let (_, second, txs) := input.txLoop opsPerTx first second [bracket .txnStart]
      let tokens := if txs.length > 1 then tokens ++ [⟨txs ++ [bracket .txnCommit]⟩] else tokens
      splitLoop isTx opsPerTx fuel (second + 1) second tokens
    else
      let second := input.findFirstOf first
      let tokens := if first ≠ second then
          tokens ++ [.ofText input.uninitialized (input.view first second) defaultReadPermille
            (input.rand tokens.length)]
        else tokens
      splitLoop isTx opsPerTx fuel (second + 1) second tokens

def split (isTx : Bool) (opsPerTx fuel : Nat) : Option (List TraceCmd) :=
  input.splitLoop isTx opsPerTx fuel 0 0 []

end Input

/-- `parse_trace` on a file with this content. -/
def parseTrace (content : Bytes) (rand : Nat → Nat) (uninitialized : UInt32) (fuel : Nat) :
    Option (List TraceCmd) :=
  Input.split ⟨content, [10], rand, uninitialized⟩ false 2 fuel

/-! ## Pointers -/

section Newline

variable {input : Input} (newline : input.delims = [10])

include newline

theorem not_delim {line : Bytes} (free : 10 ∉ line) :
    ∀ b ∈ line, decide (b ∉ input.delims) = true := by
  intro b member
  rw [newline, decide_eq_true_eq, List.mem_singleton]
  rintro rfl
  exact free member

/-- A line that a newline ends is found, and the text goes on behind it. -/
theorem findFirstOf_next {first : Nat} {line rest : Bytes}
    (behind : input.str.drop first = line ++ 10 :: rest) (free : 10 ∉ line) :
    input.findFirstOf first = first + line.length ∧ input.view first (first + line.length) = line ∧
      input.str.drop (first + line.length + 1) = rest ∧ first + line.length < input.last := by
  have upTo : (line ++ 10 :: rest).takeWhile (fun b => b ∉ input.delims) = line := by
    rw [List.takeWhile_append_of_pos (not_delim newline free),
      List.takeWhile_cons_of_neg (by simp [newline]), List.append_nil]
  have length := congrArg List.length behind
  rw [List.length_drop, List.length_append, List.length_cons] at length
  refine ⟨?_, ?_, ?_, ?_⟩
  · rw [Input.findFirstOf, behind, upTo]
  · rw [Input.view, behind, Nat.add_sub_cancel_left, List.take_left]
  · rw [Nat.add_assoc, ← List.drop_drop, behind, List.drop_append,
      List.drop_eq_nil_of_le (by omega), Nat.add_sub_cancel_left]
    rfl
  · rw [Input.last]
    omega

/-- No newline is left. -/
theorem findFirstOf_last {first : Nat} {line : Bytes} (behind : input.str.drop first = line)
    (free : 10 ∉ line) (within : first ≤ input.last) :
    input.findFirstOf first = input.last ∧ input.view first input.last = line ∧
      input.last = first + line.length := by
  have all : line.takeWhile (fun b => b ∉ input.delims) = line :=
    List.takeWhile_eq_self_iff.mpr (not_delim newline free)
  have length := congrArg List.length behind
  rw [List.length_drop] at length
  have total : input.last = first + line.length := by
    rw [Input.last] at within ⊢
    omega
  refine ⟨?_, ?_, total⟩
  · rw [Input.findFirstOf, behind, all, total]
  · rw [Input.view, behind, total, Nat.add_sub_cancel_left, List.take_length]

omit newline in
/-- An empty text has no lines. -/
theorem split_empty (empty : input.str = []) (isTx : Bool) (opsPerTx : Nat) {fuel : Nat}
    (enough : input.last + 2 ≤ fuel) : input.split isTx opsPerTx fuel = some [] := by
  obtain ⟨fuel, rfl⟩ : ∃ less, fuel = less + 1 := ⟨fuel - 1, by omega⟩
  have ends : 0 = input.last := by rw [Input.last, empty, List.length_nil]
  rw [Input.split, Input.splitLoop, if_pos ends]

/-! ## Without transactions -/

/-- A single GET or PUT of a key. -/
def Single (key : UInt32) (cmd : TraceCmd) : Prop :=
  ∃ op, (op = .put ∨ op = .get) ∧ cmd = ⟨[⟨key, [49], op⟩]⟩

omit newline in
theorem single_ofText (line : Bytes) (readPermille rand : Nat) :
    Single (keyOf input.uninitialized line)
      (.ofText input.uninitialized line readPermille rand) := by
  unfold Single TraceCmd.ofText TraceCmd.init
  split
  · exact ⟨.get, Or.inr rfl, rfl⟩
  · exact ⟨.put, Or.inl rfl, rfl⟩

theorem splitLoop_plain (opsPerTx : Nat) (tokens : List TraceCmd) (rest : Bytes)
    {first second fuel : Nat} (behind : input.str.drop first = rest) (within : first ≤ input.last)
    (goes : second ≠ input.last) (enough : rest.length + 2 ≤ fuel) :
    ∃ cmds, input.splitLoop false opsPerTx fuel first second tokens = some (tokens ++ cmds) ∧
      List.Forall₂ (fun line cmd => Single (keyOf input.uninitialized line) cmd)
        (lines 10 rest) cmds := by
  induction rest using line_induction (10 : UInt8) generalizing first second fuel tokens with
  | last line single =>
    obtain ⟨fuel, rfl⟩ : ∃ less, fuel = less + 2 := ⟨fuel - 2, by omega⟩
    obtain ⟨found, view, total⟩ := findFirstOf_last newline behind single within
    rw [Input.splitLoop, if_neg goes, if_neg (by decide)]
    simp only [found, view]
    rw [Input.splitLoop, if_pos rfl, lines_last single]
    by_cases empty : line = []
    · rw [if_neg (by simp [total, empty]), if_pos empty]
      exact ⟨[], by rw [List.append_nil], .nil⟩
    · have some := List.length_pos_of_ne_nil empty
      rw [if_pos (by omega), if_neg empty]
      exact ⟨[_], rfl, .cons (single_ofText line _ _) .nil⟩
  | next line rest free ih =>
    obtain ⟨fuel, rfl⟩ : ∃ less, fuel = less + 1 := ⟨fuel - 1, by omega⟩
    obtain ⟨found, view, after, less⟩ := findFirstOf_next newline behind free
    have room : rest.length + 2 ≤ fuel := by
      simp only [List.length_append, List.length_cons] at enough
      omega
    rw [Input.splitLoop, if_neg goes, if_neg (by decide)]
    simp only [found, view]
    rw [lines_next free, lines_last free]
    by_cases empty : line = []
    · rw [if_neg (by simp [empty]), if_pos empty, List.nil_append]
      exact ih tokens after less less.ne room
    · have some := List.length_pos_of_ne_nil empty
      rw [if_pos (by omega), if_neg empty]
      obtain ⟨cmds, ran, each⟩ := ih _ after less less.ne room
      rw [ran]
      exact ⟨_ :: cmds, by rw [List.append_assoc]; rfl, .cons (single_ofText line _ _) each⟩

/-- The number in a line. -/
def lineKey (line : Bytes) : UInt32 := UInt32.ofNat (digitsValue line)

omit newline in
theorem keyOf_numeral {line : Bytes} (numeral : Numeral32 line) (uninitialized : UInt32) :
    keyOf uninitialized line = lineKey line := by
  rw [keyOf, fromChars32_numeral numeral, Option.getD_some, lineKey]

theorem split_lines (numerals : ∀ line ∈ lines 10 input.str, Numeral32 line) (opsPerTx : Nat)
    {fuel : Nat} (enough : input.last + 2 ≤ fuel) :
    ∃ cmds, input.split false opsPerTx fuel = some cmds ∧
      List.Forall₂ (fun line cmd => Single (lineKey line) cmd) (lines 10 input.str) cmds := by
  by_cases empty : input.str = []
  · rw [split_empty empty false opsPerTx enough, empty, lines_last List.not_mem_nil, if_pos rfl]
    exact ⟨[], rfl, .nil⟩
  · obtain ⟨cmds, ran, each⟩ := splitLoop_plain newline opsPerTx [] input.str List.drop_zero
      (Nat.zero_le _) (List.length_pos_of_ne_nil empty).ne enough
    refine ⟨cmds, ran, ?_⟩
    rw [List.forall₂_iff_get] at each ⊢
    refine ⟨each.1, fun i inside some => ?_⟩
    rw [← keyOf_numeral (numerals _ (List.get_mem _ _)) input.uninitialized]
    exact each.2 i inside some

/-- Every line that is not empty becomes one command, in the order of the lines. -/
theorem split_plain (numerals : ∀ line ∈ lines 10 input.str, Numeral32 line) (opsPerTx : Nat) :
    ∃ enough, ∀ fuel, enough ≤ fuel → ∃ cmds, input.split false opsPerTx fuel = some cmds ∧
      List.Forall₂ (fun line cmd => Single (lineKey line) cmd) (lines 10 input.str) cmds := by
  use input.last + 2
  intro fuel enough
  exact split_lines newline numerals opsPerTx enough

omit newline in
/-- The file has the lines 5 and 7 with an empty line between them. -/
theorem split_plain_parseTrace :
    ∃ enough, ∀ fuel, enough ≤ fuel → ∃ cmds,
      parseTrace [53, 10, 10, 55] (fun _ => 0) 0 fuel = some cmds ∧
      List.Forall₂ (fun line cmd => Single (lineKey line) cmd) [[53], [55]] cmds := by
  have cut : lines 10 ([53, 10, 10, 55] : Bytes) = [[53], [55]] := by decide
  rw [← cut]
  exact @split_plain ⟨[53, 10, 10, 55], [10], fun _ => 0, 0⟩ rfl (by decide) 2

/-! ## With transactions -/

/-- A start, between one and `opsPerTx` puts, and a commit. -/
def Transaction (opsPerTx : Nat) (cmd : TraceCmd) : Prop :=
  ∃ puts, 1 ≤ puts.length ∧ puts.length ≤ opsPerTx ∧ (∀ put ∈ puts, put.op = .txnPut) ∧
    cmd.operation = bracket .txnStart :: (puts ++ [bracket .txnCommit])

/-- The keys of all commands. -/
def keys (cmds : List TraceCmd) : List UInt32 :=
  cmds.flatMap fun cmd => cmd.operation.map KvPair.keyHash

/-- The keys that transactions put. -/
def putKeys (cmds : List TraceCmd) : List UInt32 :=
  cmds.flatMap fun cmd => (cmd.operation.filter fun pair => pair.op = .txnPut).map KvPair.keyHash

/-- In front of an empty line the pointers stay until the group is over. -/
theorem txLoop_empty {first : Nat} {rest : Bytes} (behind : input.str.drop first = 10 :: rest)
    (ops second : Nat) (txs : List KvPair) :
    input.txLoop (ops + 1) first second txs = input.txLoop ops first first txs := by
  have behind : input.str.drop first = [] ++ 10 :: rest := behind
  obtain ⟨found, _, _, less⟩ := findFirstOf_next newline behind List.not_mem_nil
  rw [Input.txLoop]
  simp only [found, List.length_nil, Nat.add_zero] at less ⊢
  rw [if_neg less.ne, if_neg (by simp)]

/-- A line is taken, and behind the last one the group is over. -/
theorem txLoop_line {first : Nat} {line rest : Bytes}
    (behind : input.str.drop first = line ++ 10 :: rest) (free : 10 ∉ line) (some : line ≠ [])
    (ops second : Nat) (txs : List KvPair) :
    input.txLoop (ops + 1) first second txs =
      if first + line.length + 1 = input.last then
        (first + line.length + 1, first + line.length, txs ++ [txnPut input.uninitialized line])
      else input.txLoop ops (first + line.length + 1) (first + line.length)
        (txs ++ [txnPut input.uninitialized line]) := by
  obtain ⟨found, view, _, less⟩ := findFirstOf_next newline behind free
  have length := List.length_pos_of_ne_nil some
  rw [Input.txLoop]
  simp only [found, view]
  rw [if_neg less.ne, if_pos (by omega)]

/-- No newline is left, and what stands in front of the end is not taken. -/
theorem txLoop_last {first : Nat} (within : first ≤ input.last) (free : 10 ∉ input.str.drop first)
    (ops second : Nat) (txs : List KvPair) :
    input.txLoop (ops + 1) first second txs = (first, input.last, txs) := by
  obtain ⟨found, _, _⟩ := findFirstOf_last newline rfl free within
  rw [Input.txLoop]
  simp only [found]
  rw [if_pos trivial]

/-- A group takes lines from the front. Behind `stop` the lines that end are those not taken. -/
theorem txLoop_spec (ops second : Nat) (txs : List KvPair) {low first : Nat}
    (within : first ≤ input.last) (above : low ≤ first)
    (settled : ops = 0 → low ≤ second ∧ second ≤ input.last ∧
      endedLines 10 (input.str.drop (second + 1)) = endedLines 10 (input.str.drop first)) :
    ∃ taken stop, (input.txLoop ops first second txs).2 =
        (stop, txs ++ taken.map (txnPut input.uninitialized)) ∧
      taken.length ≤ ops ∧ low ≤ stop ∧ stop ≤ input.last ∧
      endedLines 10 (input.str.drop first) =
        taken ++ endedLines 10 (input.str.drop (stop + 1)) := by
  induction ops generalizing first second txs with
  | zero =>
    obtain ⟨low, inside, same⟩ := settled rfl
    exact ⟨[], second, by rw [Input.txLoop, List.map_nil, List.append_nil], le_refl 0, low, inside,
      same.symm⟩
  | succ ops ih =>
    by_cases more : 10 ∈ input.str.drop first
    · obtain ⟨line, rest, behind, free⟩ := List.eq_append_cons_of_mem more
      obtain ⟨_, _, after, less⟩ := findFirstOf_next newline behind free
      have ended : endedLines 10 (input.str.drop first) =
          (if line = [] then [] else [line]) ++ endedLines 10 rest := by
        rw [behind, endedLines_next free, lines_last free]
      by_cases empty : line = []
      · subst empty
        have beyond : input.str.drop (first + 1) = rest := after
        have stays : endedLines 10 (input.str.drop (first + 1)) =
            endedLines 10 (input.str.drop first) := by
          rw [beyond, ended, if_pos rfl, List.nil_append]
        rw [txLoop_empty newline behind]
        obtain ⟨taken, stop, ran, count, low, inside, same⟩ :=
          ih first txs within above fun _ => ⟨above, within, stays⟩
        exact ⟨taken, stop, ran, by omega, low, inside, same⟩
      · rw [ended, if_neg empty, txLoop_line newline behind free empty]
        by_cases atEnd : first + line.length + 1 = input.last
        · rw [if_pos atEnd]
          exact ⟨[line], first + line.length, rfl, by simp, by omega, less.le, by rw [after]⟩
        · rw [if_neg atEnd]
          obtain ⟨taken, stop, ran, count, low, inside, same⟩ :=
            ih (first + line.length) (txs ++ [txnPut input.uninitialized line]) less (by omega)
              fun _ => ⟨by omega, less.le, rfl⟩
          rw [after] at same
          refine ⟨line :: taken, stop, ?_, ?_, low, inside, ?_⟩
          · rw [ran, List.map_cons, List.append_assoc, List.singleton_append]
          · rw [List.length_cons]
            omega
          · rw [same, List.singleton_append, List.cons_append]
    · have beyond : input.str.drop (input.last + 1) = [] :=
        List.drop_eq_nil_of_le (Nat.le_succ input.last)
      rw [txLoop_last newline within more, endedLines_last more]
      refine ⟨[], input.last, ?_, Nat.zero_le _, by omega, le_refl _, ?_⟩
      · rw [List.map_nil, List.append_nil]
      · rw [beyond, endedLines_last List.not_mem_nil, List.nil_append]

/-- The transaction for some lines. -/
def group (uninitialized : UInt32) (taken : List Bytes) : TraceCmd :=
  ⟨bracket .txnStart :: taken.map (txnPut uninitialized) ++ [bracket .txnCommit]⟩

omit newline in
theorem op_txnPut {uninitialized : UInt32} {taken : List Bytes} {put : KvPair}
    (member : put ∈ taken.map (txnPut uninitialized)) : put.op = .txnPut := by
  obtain ⟨line, _, rfl⟩ := List.mem_map.mp member
  rfl

omit newline in
theorem transaction_group {uninitialized : UInt32} {taken : List Bytes} {opsPerTx : Nat}
    (some : taken ≠ []) (count : taken.length ≤ opsPerTx) :
    Transaction opsPerTx (group uninitialized taken) := by
  refine ⟨taken.map (txnPut uninitialized), ?_, ?_, fun put => op_txnPut, rfl⟩
  · rw [List.length_map]
    exact List.length_pos_of_ne_nil some
  · rw [List.length_map]
    exact count

omit newline in
theorem putKeys_group (uninitialized : UInt32) (taken : List Bytes) (txns : List TraceCmd) :
    putKeys (group uninitialized taken :: txns) =
      taken.map (keyOf uninitialized) ++ putKeys txns := by
  have puts : (taken.map (txnPut uninitialized)).filter (fun pair => pair.op = .txnPut) =
      taken.map (txnPut uninitialized) := by
    rw [List.filter_eq_self]
    intro put member
    rw [op_txnPut member, decide_eq_true_eq]
  rw [putKeys, List.flatMap_cons, group, List.filter_append, List.filter_cons_of_neg (by decide),
    puts, List.filter_cons_of_neg (by decide), List.filter_nil, List.append_nil, List.map_map,
    putKeys]
  rfl

/-- Every line that ends is put by one transaction. -/
theorem splitLoop_txn {opsPerTx : Nat} (ops : 1 ≤ opsPerTx) (tokens : List TraceCmd)
    {first second fuel : Nat} (within : first ≤ input.last) (goes : second ≠ input.last)
    (enough : input.last - first + 2 ≤ fuel) :
    ∃ txns, input.splitLoop true opsPerTx fuel first second tokens = some (tokens ++ txns) ∧
      (∀ txn ∈ txns, Transaction opsPerTx txn) ∧
      putKeys txns =
        (endedLines 10 (input.str.drop first)).map (keyOf input.uninitialized) := by
  induction fuel generalizing first second tokens with
  | zero => omega
  | succ fuel ih =>
    obtain ⟨taken, stop, ran, count, low, inside, same⟩ :=
      txLoop_spec newline opsPerTx second [bracket .txnStart] within (le_refl first)
        fun none => absurd none (by omega)
    -- what the rounds behind this one yield
    have later : ∀ tokens, ∃ txns, input.splitLoop true opsPerTx fuel (stop + 1) stop tokens =
          some (tokens ++ txns) ∧ (∀ txn ∈ txns, Transaction opsPerTx txn) ∧
        putKeys txns =
          (endedLines 10 (input.str.drop (stop + 1))).map (keyOf input.uninitialized) := by
      intro tokens
      by_cases atEnd : stop = input.last
      · obtain ⟨fuel, rfl⟩ : ∃ less, fuel = less + 1 := ⟨fuel - 1, by omega⟩
        have beyond : input.str.drop (stop + 1) = [] :=
          List.drop_eq_nil_of_le (by rw [atEnd]; exact Nat.le_succ input.last)
        refine ⟨[], ?_, fun txn member => absurd member List.not_mem_nil, ?_⟩
        · rw [Input.splitLoop, if_pos atEnd, List.append_nil]
        · rw [beyond, endedLines_last List.not_mem_nil]
          rfl
      · exact ih tokens (by omega) atEnd (by omega)
    rw [Input.splitLoop, if_neg goes, if_pos rfl]
    simp only [ran]
    by_cases none : taken = []
    · rw [same, none, List.nil_append, if_neg (by simp)]
      exact later tokens
    · have some := List.length_pos_of_ne_nil none
      obtain ⟨txns, rest, each, puts⟩ := later (tokens ++ [group input.uninitialized taken])
      rw [if_pos (by simp; omega)]
      refine ⟨group input.uninitialized taken :: txns, ?_, ?_, ?_⟩
      · rw [List.append_assoc, List.singleton_append] at rest
        exact rest
      · exact List.forall_mem_cons.mpr ⟨transaction_group none count, each⟩
      · rw [same, List.map_append, putKeys_group, puts]

theorem split_groups (numerals : ∀ line ∈ lines 10 input.str, Numeral32 line) {opsPerTx fuel : Nat}
    (ops : 1 ≤ opsPerTx) (enough : input.last + 2 ≤ fuel) :
    ∃ txns, input.split true opsPerTx fuel = some txns ∧
      (∀ txn ∈ txns, Transaction opsPerTx txn) ∧
      putKeys txns = (endedLines 10 input.str).map lineKey := by
  by_cases empty : input.str = []
  · rw [split_empty empty true opsPerTx enough, empty, endedLines_last List.not_mem_nil]
    exact ⟨[], rfl, fun txn member => absurd member List.not_mem_nil, rfl⟩
  · obtain ⟨txns, ran, each, puts⟩ := splitLoop_txn newline ops [] (Nat.zero_le _)
      (List.length_pos_of_ne_nil empty).ne enough
    refine ⟨txns, ran, each, ?_⟩
    rw [puts, List.drop_zero]
    apply List.map_congr_left
    intro line member
    apply keyOf_numeral
    apply numerals
    rw [lines_eq_endedLines]
    exact List.mem_append_left _ member

end Newline

/-- Both modes end, the transactions are well-formed, and both see the same keys. -/
def Agree (input : Input) (opsPerTx : Nat) : Prop :=
  ∃ enough, ∀ fuel, enough ≤ fuel → ∃ plain txns,
    input.split false opsPerTx fuel = some plain ∧ input.split true opsPerTx fuel = some txns ∧
      (∀ txn ∈ txns, Transaction opsPerTx txn) ∧ putKeys txns = keys plain

theorem keys_plain {key : Bytes → UInt32} {texts : List Bytes} {cmds : List TraceCmd}
    (each : List.Forall₂ (fun line cmd => Single (key line) cmd) texts cmds) :
    keys cmds = texts.map key := by
  induction each with
  | nil => rfl
  | cons single _ ih =>
    obtain ⟨op, _, rfl⟩ := single
    rw [keys, List.flatMap_cons, ← keys, ih]
    rfl

/-- The two modes agree where the text does not stop within a line. -/
theorem agree_iff {input : Input} (newline : input.delims = [10])
    (numerals : ∀ line ∈ lines 10 input.str, Numeral32 line) {opsPerTx : Nat}
    (ops : 1 ≤ opsPerTx) :
    Agree input opsPerTx ↔ ∀ b ∈ input.str.getLast?, b = 10 := by
  rw [← lastLine_eq_nil_iff]
  have both : ∀ fuel, input.last + 2 ≤ fuel → ∃ plain txns,
      input.split false opsPerTx fuel = some plain ∧ input.split true opsPerTx fuel = some txns ∧
      (∀ txn ∈ txns, Transaction opsPerTx txn) ∧ keys plain = (lines 10 input.str).map lineKey ∧
      putKeys txns = (endedLines 10 input.str).map lineKey := by
    intro fuel enough
    obtain ⟨plain, ran, singles⟩ := split_lines newline numerals opsPerTx enough
    obtain ⟨txns, ended, each, puts⟩ := split_groups newline numerals ops enough
    exact ⟨plain, txns, ran, ended, each, keys_plain singles, puts⟩
  constructor
  · rintro ⟨enough, agree⟩
    obtain ⟨plain, txns, ran, ended, _, same⟩ := agree _ (Nat.le_max_left enough (input.last + 2))
    obtain ⟨plain', txns', ran', ended', _, listed, put⟩ := both _ (Nat.le_max_right enough _)
    obtain rfl := Option.some.inj (ran.symm.trans ran')
    obtain rfl := Option.some.inj (ended.symm.trans ended')
    have lengths := congrArg List.length (put.symm.trans (same.trans listed))
    rw [List.length_map, List.length_map, lines_eq_endedLines, List.length_append] at lengths
    by_contra some
    rw [if_neg some, List.length_singleton] at lengths
    omega
  · intro none
    use input.last + 2
    intro fuel enough
    obtain ⟨plain, txns, ran, ended, each, listed, put⟩ := both fuel enough
    refine ⟨plain, txns, ran, ended, each, ?_⟩
    rw [put, listed, lines_eq_endedLines, if_pos none, List.append_nil]

theorem agree_ends : Agree ⟨[53, 10, 10, 55, 10], [10], fun _ => 0, 0⟩ 2 :=
  (agree_iff rfl (by decide) (by decide)).mpr (by decide)

/-- The text is a single 5, which transactions lose. -/
theorem not_agree_five :
    (∀ line ∈ lines 10 ([53] : Bytes), Numeral32 line) ∧
      ¬ Agree ⟨[53], [10], fun _ => 0, 0⟩ 1 := by
  constructor
  · decide
  · rintro ⟨enough, agree⟩
    obtain ⟨plain, txns, ran, ended, _, same⟩ := agree (enough + 3) (Nat.le_add_right enough 3)
    have single : Input.split ⟨[53], [10], fun _ => 0, 0⟩ false 1 (enough + 3) =
        some [⟨[⟨5, [49], .get⟩]⟩] := rfl
    have lost : Input.split ⟨[53], [10], fun _ => 0, 0⟩ true 1 (enough + 3) = some [] := rfl
    obtain rfl := Option.some.inj (ran.symm.trans single)
    obtain rfl := Option.some.inj (ended.symm.trans lost)
    cases same

end CloudLab.SingleNode.Traces
