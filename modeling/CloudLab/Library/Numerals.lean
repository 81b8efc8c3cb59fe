import CloudLab.Library.Bytes

/-!
# Numbers in bytes

Reading decimal text (`atoi`, `std::from_chars`), and integers written with their lowest byte
first. A string of digits stands for less as a decimal number than as a little-endian one.
-/
namespace Library

/-! ## Decimal text -/

def isDigit (b : UInt8) : Bool := 48 ≤ b && b ≤ 57

/-- The decimal number behind digits that have been read already. -/
def digitsFrom (n : Nat) (ds : Bytes) : Nat := ds.foldl (fun n d => 10 * n + (d.toNat - 48)) n

def digitsValue (ds : Bytes) : Nat := digitsFrom 0 ds

theorem isDigit_iff {b : UInt8} : isDigit b = true ↔ 48 ≤ b.toNat ∧ b.toNat ≤ 57 := by
  simp [isDigit, UInt8.le_iff_toNat_le]

theorem digitsFrom_cons (n : Nat) (d : UInt8) (ds : Bytes) :
    digitsFrom n (d :: ds) = digitsFrom (10 * n + (d.toNat - 48)) ds := by
  rw [digitsFrom, List.foldl_cons, digitsFrom]

theorem digitsFrom_append (n : Nat) (xs ys : Bytes) :
    digitsFrom n (xs ++ ys) = digitsFrom (digitsFrom n xs) ys := List.foldl_append

/-- Zeros in front of a number leave it as it is. -/
theorem digitsValue_zeros (zeros : Nat) (ds : Bytes) :
    digitsValue (List.replicate zeros 48 ++ ds) = digitsValue ds := by
  have none : digitsFrom 0 (List.replicate zeros 48) = 0 := by
    induction zeros with
    | zero => rfl
    | succ zeros ih => exact ih
  rw [digitsValue, digitsFrom_append, none, digitsValue]

theorem isDigit_of_mem_decimalDigits {n : Nat} {b : UInt8} (member : b ∈ decimalDigits n) :
    isDigit b = true := by
  obtain ⟨c, listed, rfl⟩ := List.mem_map.mp member
  have digit := Nat.isDigit_of_mem_toDigits (by decide) (by decide) listed
  simp only [Char.isDigit, ge_iff_le, Bool.and_eq_true, decide_eq_true_eq] at digit
  have low := UInt32.le_iff_toNat_le.mp digit.1
  have high := UInt32.le_iff_toNat_le.mp digit.2
  rw [isDigit_iff, UInt8.toNat_ofNat']
  change 48 ≤ c.toNat at low
  change c.toNat ≤ 57 at high
  omega

theorem decimalDigits_ne_nil (n : Nat) : decimalDigits n ≠ [] := by
  rw [decimalDigits, ne_eq, List.map_eq_nil_iff]
  exact Nat.toDigits_ne_nil

/-- A number is read back from its digits. -/
theorem digitsValue_decimalDigits (n : Nat) : digitsValue (decimalDigits n) = n := by
  have general : ∀ (cs : List Char) (m : Nat), (∀ c ∈ cs, c.isDigit = true) →
      digitsFrom m (cs.map fun c => UInt8.ofNat c.toNat) = Nat.ofDigitChars 10 cs m := by
    intro cs
    induction cs with
    | nil => simp [digitsFrom]
    | cons c cs ih =>
      intro m digits
      have byte : (UInt8.ofNat c.toNat).toNat = c.toNat := by
        have high : c.toNat ≤ 57 := by
          have digit := digits c (by simp)
          simp only [Char.isDigit, ge_iff_le, Bool.and_eq_true, decide_eq_true_eq] at digit
          exact UInt32.le_iff_toNat_le.mp digit.2
        rw [UInt8.toNat_ofNat']
        omega
      rw [List.map_cons, digitsFrom_cons, byte, Nat.ofDigitChars_cons,
        ih _ fun d member => digits d (by simp [member])]
      rfl
  rw [decimalDigits, digitsValue, general _ _ fun c member =>
    Nat.isDigit_of_mem_toDigits (by decide) (by decide) member, Nat.ofDigitChars_ten_toDigits]

/-- `atoi` on a C string: white space, a sign, and digits up to the first other byte. -/
def atoi (text : Bytes) : Int :=
  match text.dropWhile fun b => (9 ≤ b && b ≤ 13) || b = 32 with
  | 45 :: rest => -digitsValue (rest.takeWhile isDigit)
  | 43 :: rest => digitsValue (rest.takeWhile isDigit)
  | rest => digitsValue (rest.takeWhile isDigit)

/-- Text of digits is read to its end. -/
theorem atoi_digits {ds : Bytes} (digits : ∀ d ∈ ds, isDigit d = true) : atoi ds = digitsValue ds := by
  have whole : ds.takeWhile isDigit = ds := List.takeWhile_eq_self_iff.mpr digits
  rcases ds with _ | ⟨d, rest⟩
  · rfl
  · have digit := isDigit_iff.mp (digits d (by simp))
    have kept : (d :: rest).dropWhile (fun b => (9 ≤ b && b ≤ 13) || b = 32) = d :: rest := by
      apply List.dropWhile_cons_of_neg
      simp only [Bool.or_eq_true, Bool.and_eq_true, decide_eq_true_eq, not_or, not_and,
        UInt8.le_iff_toNat_le, ← UInt8.toNat_inj]
      exact ⟨fun _ high => absurd (Nat.le_trans digit.1 high) (by decide), fun space => by
        rw [space] at digit
        exact absurd digit.1 (by decide)⟩
    unfold atoi
    rw [kept]
    split
    next same =>
      rw [(List.cons.inj same).1] at digit
      exact absurd digit.1 (by decide)
    next same =>
      rw [(List.cons.inj same).1] at digit
      exact absurd digit.1 (by decide)
    next => rw [whole]

/-- `std::from_chars` on a 64-bit integer; none where it reports an error. -/
def fromChars (text : Bytes) : Option Int64 :=
  let negative := text.head? = some 45
  let digits := (if negative then text.tail else text).takeWhile isDigit
  let value : Int := if negative then -digitsValue digits else digitsValue digits
  if digits = [] then none
  else if -2 ^ 63 ≤ value ∧ value < 2 ^ 63 then some (Int64.ofInt value)
  else none

/-- `std::from_chars` on a `uint32_t`. -/
def fromChars32 (text : Bytes) : Option UInt32 :=
  let digits := text.takeWhile isDigit
  if digits = [] then none
  else if digitsValue digits < 2 ^ 32 then some (UInt32.ofNat (digitsValue digits))
  else none

/-- Text that is a decimal numeral below 2^32. -/
structure Numeral32 (text : Bytes) : Prop where
  nonempty : text ≠ []
  digits : ∀ d ∈ text, isDigit d = true
  bound : digitsValue text < 2 ^ 32

instance (text : Bytes) : Decidable (Numeral32 text) :=
  decidable_of_iff (text ≠ [] ∧ (∀ d ∈ text, isDigit d = true) ∧ digitsValue text < 2 ^ 32)
    ⟨fun ⟨nonempty, digits, bound⟩ => ⟨nonempty, digits, bound⟩,
      fun ⟨nonempty, digits, bound⟩ => ⟨nonempty, digits, bound⟩⟩

theorem fromChars32_numeral {text : Bytes} (numeral : Numeral32 text) :
    fromChars32 text = some (UInt32.ofNat (digitsValue text)) := by
  have whole : text.takeWhile isDigit = text := List.takeWhile_eq_self_iff.mpr numeral.digits
  simp only [fromChars32, whole, if_neg numeral.nonempty, if_pos numeral.bound]

/-- What is printed is read back, unless it does not fit. -/
theorem fromChars_stdToString (i : Int) :
    fromChars (stdToString i) =
      if -2 ^ 63 ≤ i ∧ i < 2 ^ 63 then some (Int64.ofInt i) else none := by
  have whole : (decimalDigits i.natAbs).takeWhile isDigit = decimalDigits i.natAbs :=
    List.takeWhile_eq_self_iff.mpr fun d => isDigit_of_mem_decimalDigits
  have value := digitsValue_decimalDigits i.natAbs
  by_cases negative : i < 0
  · rw [stdToString, if_pos negative]
    simp only [fromChars, List.head?_cons, if_true, List.tail_cons, whole, value,
      if_neg (decimalDigits_ne_nil _)]
    rw [Int.ofNat_natAbs_of_nonpos negative.le, Int.neg_neg]
  · have plus : (decimalDigits i.natAbs).head? ≠ some 45 := by
      intro minus
      have digit := isDigit_of_mem_decimalDigits (List.mem_of_mem_head? minus)
      cases digit
    rw [stdToString, if_neg negative]
    simp only [fromChars, if_neg plus, whole, value, if_neg (decimalDigits_ne_nil _)]
    rw [Int.natAbs_of_nonneg (Int.not_lt.mp negative)]

/-! ## Lowest byte first -/

/-- The number whose bytes these are, lowest first. -/
def ofLittleEndian (bs : Bytes) : Nat := bs.foldr (fun b n => b.toNat + 256 * n) 0

/-- `n.to_bytes(width, 'little')` -/
def littleEndian : Nat → Nat → Bytes
  | 0, _ => []
  | width + 1, n => UInt8.ofNat n :: littleEndian width (n / 256)

theorem ofLittleEndian_littleEndian {width n : Nat} (bound : n < 256 ^ width) :
    ofLittleEndian (littleEndian width n) = n := by
  induction width generalizing n with
  | zero =>
    rw [pow_zero] at bound
    exact (Nat.lt_one_iff.mp bound).symm
  | succ width ih =>
    have quotient : n / 256 < 256 ^ width := by
      apply (Nat.div_lt_iff_lt_mul (by decide)).mpr
      rwa [← Nat.pow_succ]
    have rest := ih quotient
    rw [ofLittleEndian] at rest ⊢
    rw [littleEndian, List.foldr_cons, rest, UInt8.toNat_ofNat']
    omega

theorem ofLittleEndian_cons (b : UInt8) (bs : Bytes) :
    ofLittleEndian (b :: bs) = b.toNat + 256 * ofLittleEndian bs := rfl

theorem ofLittleEndian_prefix {xs ys : Bytes} (front : xs <+: ys) :
    ofLittleEndian xs ≤ ofLittleEndian ys := by
  obtain ⟨zs, rfl⟩ := front
  induction xs with
  | nil => simp [ofLittleEndian]
  | cons x xs ih =>
    rw [List.cons_append, ofLittleEndian_cons, ofLittleEndian_cons]
    omega

/-- Digits are worth more as bytes of a number than as its decimal text. -/
theorem digitsValue_lt_ofLittleEndian {ds : Bytes} (digits : ∀ d ∈ ds, isDigit d = true)
    (nonempty : ds ≠ []) : digitsValue ds < ofLittleEndian ds := by
  -- The decimal value has a factor of ten for each digit behind it, the other one of 256.
  have upper : ∀ (ds : Bytes) (n : Nat), (∀ d ∈ ds, isDigit d = true) →
      digitsFrom n ds < 10 ^ ds.length * (n + 1) := by
    intro ds
    induction ds with
    | nil => simp [digitsFrom]
    | cons d ds ih =>
      intro n digits
      have digit := isDigit_iff.mp (digits d (by simp))
      have rest := ih (10 * n + (d.toNat - 48)) fun e member => digits e (by simp [member])
      have step : 10 ^ ds.length * (10 * n + (d.toNat - 48) + 1) ≤ 10 ^ ds.length * (10 * (n + 1)) :=
        Nat.mul_le_mul_left _ (by omega)
      rw [digitsFrom_cons, List.length_cons, Nat.pow_succ, Nat.mul_assoc]
      omega
  have lower : ∀ ds : Bytes, (∀ d ∈ ds, isDigit d = true) → ds ≠ [] →
      10 ^ ds.length ≤ ofLittleEndian ds := by
    intro ds
    induction ds with
    | nil => exact fun _ nonempty => absurd rfl nonempty
    | cons d ds ih =>
      intro digits _
      have digit := isDigit_iff.mp (digits d (by simp))
      rw [ofLittleEndian_cons, List.length_cons, Nat.pow_succ]
      by_cases last : ds = []
      · subst last
        simp
        omega
      · have rest := ih (fun e member => digits e (by simp [member])) last
        omega
  have decimal := upper ds 0 digits
  have binary := lower ds digits nonempty
  rw [digitsValue]
  omega

example : fromChars [45, 49, 50, 120] = some (-12) := by decide

end Library
