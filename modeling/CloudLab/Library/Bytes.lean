import Mathlib

/-!
# Byte strings, C strings and decimal text

The two readings of a `char` buffer that C++ programs mix: the whole range of
bytes, and the C string that stops in front of the first zero byte. `cStr` is
the passage from the first reading to the second; it is the identity exactly on
the zero-free strings. The last section is `std::to_string` on integers.
-/
namespace Library

-- A bounded quantifier is decided member by member, also over the bytes and the machine
-- integers, where trying every value of the type would be the other way.
instance (priority := 2000) decidableForallMemList {α : Type} (p : α → Prop) [DecidablePred p]
    (xs : List α) : Decidable (∀ x, x ∈ xs → p x) :=
  List.decidableBAll p xs

instance (priority := 2000) decidableForallMemOption {α : Type} (p : α → Prop) [DecidablePred p]
    (o : Option α) : Decidable (∀ a, a ∈ o → p a) :=
  Option.decidableForallMem o

abbrev Bytes := List UInt8

/-- The bytes in front of the first zero byte, what `std::string(const char *)` reads. -/
def cStr (bs : Bytes) : Bytes := bs.takeWhile (· ≠ 0)

def ZeroFree (bs : Bytes) : Prop := ∀ b ∈ bs, b ≠ 0

instance (bs : Bytes) : Decidable (ZeroFree bs) := inferInstanceAs (Decidable (∀ b ∈ bs, b ≠ 0))

@[simp] theorem zeroFree_nil : ZeroFree [] := by simp [ZeroFree]

@[simp] theorem zeroFree_cons (b : UInt8) (bs : Bytes) :
    ZeroFree (b :: bs) ↔ b ≠ 0 ∧ ZeroFree bs := by simp [ZeroFree]

@[simp] theorem zeroFree_append (xs ys : Bytes) :
    ZeroFree (xs ++ ys) ↔ ZeroFree xs ∧ ZeroFree ys := by
  simp only [ZeroFree, List.mem_append, or_imp, forall_and]

@[simp] theorem cStr_nil : cStr [] = [] := rfl

theorem cStr_zeroFree (bs : Bytes) : ZeroFree (cStr bs) := by
  intro b member
  simpa using List.mem_takeWhile_imp member

theorem cStr_eq_self {bs : Bytes} (free : ZeroFree bs) : cStr bs = bs := by
  apply List.takeWhile_eq_self_iff.mpr
  intro b member
  simpa using free b member

theorem cStr_isPrefix (bs : Bytes) : cStr bs <+: bs := List.takeWhile_prefix _

theorem length_cStr_le (bs : Bytes) : (cStr bs).length ≤ bs.length := (cStr_isPrefix bs).length_le

theorem cStr_append {xs : Bytes} (free : ZeroFree xs) (ys : Bytes) :
    cStr (xs ++ ys) = xs ++ cStr ys := by
  apply List.takeWhile_append_of_pos
  intro b member
  simpa using free b member

/-- Behind a zero byte nothing is read any more. -/
theorem cStr_append_of_not_zeroFree {xs : Bytes} (zero : ¬ZeroFree xs) (ys : Bytes) :
    cStr (xs ++ ys) = cStr xs := by
  induction xs with
  | nil => simp at zero
  | cons b bs ih =>
    by_cases hb : b = 0
    · simp [cStr, hb]
    · have tail : ¬ZeroFree bs := by simpa [hb] using zero
      simpa [cStr, hb] using ih tail

theorem length_cStr_lt {bs : Bytes} (zero : ¬ZeroFree bs) : (cStr bs).length < bs.length := by
  rcases Nat.lt_or_eq_of_le (length_cStr_le bs) with shorter | same
  · exact shorter
  · have whole : cStr bs = bs := (cStr_isPrefix bs).eq_of_length same
    exact absurd (whole ▸ cStr_zeroFree bs) zero

/-! ## Decimal text -/

/-- The decimal digits of `n` as ASCII bytes. -/
def decimalDigits (n : Nat) : Bytes := (Nat.toDigits 10 n).map fun c => UInt8.ofNat c.toNat

/-- `std::to_string` on a signed integer. -/
def stdToString (i : Int) : Bytes :=
  if i < 0 then 45 :: decimalDigits i.natAbs else decimalDigits i.natAbs

private theorem digit_bounds {c : Char} (digit : c.isDigit = true) :
    48 ≤ c.toNat ∧ c.toNat ≤ 57 := by
  simp only [Char.isDigit, ge_iff_le, Bool.and_eq_true, decide_eq_true_eq] at digit
  exact ⟨UInt32.le_iff_toNat_le.mp digit.1, UInt32.le_iff_toNat_le.mp digit.2⟩

/-- The digits can be read back from their bytes. -/
private theorem chars_decimalDigits (n : Nat) :
    (decimalDigits n).map (fun b => Char.ofNat b.toNat) = Nat.toDigits 10 n := by
  rw [decimalDigits, List.map_map]
  conv_rhs => rw [← List.map_id (Nat.toDigits 10 n)]
  apply List.map_congr_left
  intro c member
  have bounds := digit_bounds (Nat.isDigit_of_mem_toDigits (by decide) (by decide) member)
  have byte : (UInt8.ofNat c.toNat).toNat = c.toNat := by
    rw [UInt8.toNat_ofNat']
    omega
  simp only [Function.comp_apply, byte, Char.ofNat_toNat, id_eq]

theorem decimalDigits_injective : Function.Injective decimalDigits := by
  intro m n same
  have digits : Nat.toDigits 10 m = Nat.toDigits 10 n := by
    rw [← chars_decimalDigits, same, chars_decimalDigits]
  rw [← Nat.ofDigitChars_ten_toDigits (n := m), digits, Nat.ofDigitChars_ten_toDigits]

/-- No digit is the byte of the minus sign. -/
private theorem minus_not_mem_decimalDigits (n : Nat) : (45 : UInt8) ∉ decimalDigits n := by
  intro member
  obtain ⟨c, hc, byte⟩ := List.mem_map.mp member
  have bounds := digit_bounds (Nat.isDigit_of_mem_toDigits (by decide) (by decide) hc)
  have value := congrArg UInt8.toNat byte
  rw [UInt8.toNat_ofNat'] at value
  simp at value
  omega

theorem stdToString_injective : Function.Injective stdToString := by
  intro i j same
  unfold stdToString at same
  split at same <;> split at same
  · have abs := decimalDigits_injective (List.cons.inj same).2
    omega
  · have minus : (45 : UInt8) ∈ decimalDigits j.natAbs := by rw [← same]; simp
    exact absurd minus (minus_not_mem_decimalDigits _)
  · have minus : (45 : UInt8) ∈ decimalDigits i.natAbs := by rw [same]; simp
    exact absurd minus (minus_not_mem_decimalDigits _)
  · have abs := decimalDigits_injective same
    omega

@[simp] theorem stdToString_inj {i j : Int} : stdToString i = stdToString j ↔ i = j :=
  stdToString_injective.eq_iff

example : stdToString (-56) = [45, 53, 54] := by decide

end Library
