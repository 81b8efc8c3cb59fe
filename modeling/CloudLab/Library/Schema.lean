import CloudLab.Library.Wire

/-!
# Message types over the wire format

A `Schema` is what the protocol buffer compiler generates for one message type:
the fields a message writes, and how a field that was read is merged into a
message. Its two laws make every schema round trip; the receiver that parses only
the C string of a serialized message is covered for all schemas at once.

The format does not say what a parser makes of input that ends inside a field.
`Schema.parseFromString` keeps every field that was read to its end and nothing of the one
that was not; `Schema.Reads` asks less, and leaves open what becomes of the rest of that field.
-/
namespace Library.Wire

/-- The content of a `string` field, short enough for its length prefix to be read. -/
@[ext] structure WireString where
  bytes : Bytes
  short : bytes.length < sizeLimit
  deriving DecidableEq, Repr

namespace WireString

instance : Inhabited WireString := ⟨⟨[], by decide⟩⟩

/-- What is left of the string behind a `c_str()` conversion. -/
def cStr (s : WireString) : WireString :=
  ⟨Library.cStr s.bytes, Nat.lt_of_le_of_lt (length_cStr_le _) s.short⟩

@[simp] theorem bytes_default : (default : WireString).bytes = [] := rfl

theorem cStr_eq_self {s : WireString} (free : ZeroFree s.bytes) : s.cStr = s :=
  WireString.ext (Library.cStr_eq_self free)

@[simp] theorem cStr_default : (default : WireString).cStr = default := cStr_eq_self (by simp)

theorem zeroFree_cStr (s : WireString) : ZeroFree s.cStr.bytes := cStr_zeroFree s.bytes

theorem bytes_eq_nil_iff {s : WireString} : s.bytes = [] ↔ s = default :=
  ⟨fun empty => WireString.ext empty, fun same => same ▸ rfl⟩

/-- The string read from a length-delimited field. -/
def ofBytes (bs : Bytes) : WireString :=
  if short : bs.length < sizeLimit then ⟨bs, short⟩ else default

@[simp] theorem ofBytes_bytes (s : WireString) : ofBytes s.bytes = s := by
  simp [ofBytes, s.short]

end WireString

/-- The 64-bit value an `int32` is sign-extended to. -/
def signExtend (k : Int32) : Nat := (k.toInt % 2 ^ 64).toNat

def int32 (k : Int32) : Payload := .varint (signExtend k)

theorem int32_valid (k : Int32) : (int32 k).Valid := by
  simp only [int32, signExtend, Payload.Valid]
  omega

/-- The `int32` read from a varint keeps its low 32 bits. -/
@[simp] theorem ofNat_signExtend (k : Int32) : Int32.ofNat (signExtend k) = k := by
  apply Int32.toInt_inj.mp
  have low := k.le_toInt
  have high := k.toInt_lt
  rw [signExtend, Int32.toInt_ofNat', Int.toNat_of_nonneg (by omega)]
  simp only [Int.bmod_def, Int32.size]
  omega

@[simp] theorem survives_int32_iff (k : Int32) : (int32 k).Survives ↔ k ≠ 0 := by
  have low := k.le_toInt
  have high := k.toInt_lt
  have zero : k = 0 ↔ k.toInt = 0 := by rw [← Int32.toInt_inj]; rfl
  simp only [int32, signExtend, Payload.Survives, ne_eq, zero]
  omega

def int64 (k : Int64) : Payload := .varint k.toUInt64.toNat

theorem int64_valid (k : Int64) : (int64 k).Valid := k.toUInt64.toNat_lt

@[simp] theorem ofNat_toUInt64 (k : Int64) : Int64.ofNat k.toUInt64.toNat = k := by
  have word : UInt64.ofNat k.toUInt64.toNat = k.toUInt64 := UInt64.ofNat_toNat
  exact congrArg Int64.ofUInt64 word

/-! ## The length of an encoding -/

theorem length_varintField_le (number n : Nat) : (Field.encode ⟨number, .varint n⟩).length ≤ 20 := by
  have tag := length_encode_le ⟨number, .varint n⟩
  have body := length_varint_le n
  simp only [Payload.encode] at tag
  omega

theorem length_stringField_le (number : Nat) (v : WireString) :
    (Field.encode ⟨number, .bytes v.bytes⟩).length ≤ 20 + sizeLimit := by
  have tag := length_encode_le ⟨number, .bytes v.bytes⟩
  have size := length_varint_le v.bytes.length
  have content := v.short
  simp only [Payload.encode, List.length_append] at tag
  omega

theorem length_varint_le_of_lt {groups n : Nat} (positive : 0 < groups) (bound : n < 128 ^ groups) :
    (varint n).length ≤ groups := by
  have general : ∀ written g m, 0 < g → m < 128 ^ g → (varintGroups written m).length ≤ g := by
    intro written
    -- Each group takes the value down by a factor of 128.
    induction written with
    | zero => simp [varintGroups]
    | succ written ih =>
      intro g m positive bound
      by_cases small : m < 128
      · simpa [varintGroups, small] using Nat.succ_le_of_lt positive
      · obtain ⟨g, rfl⟩ : ∃ h, g = h + 1 := ⟨g - 1, by omega⟩
        have quotient : m / 128 < 128 ^ g := by
          apply (Nat.div_lt_iff_lt_mul (by decide)).mpr
          rwa [← Nat.pow_succ]
        have more : 0 < g := by
          rcases Nat.eq_zero_or_pos g with rfl | h
          · simp at bound; omega
          · exact h
        simpa [varintGroups, small] using ih g (m / 128) more quotient
  exact general 10 groups n positive bound

/-- A varint is no shorter than its value needs. -/
theorem lt_length_varint {groups n : Nat} (fits : groups < 10) (bound : 128 ^ groups ≤ n) :
    groups < (varint n).length := by
  have general : ∀ written g m, g < written → 128 ^ g ≤ m → g < (varintGroups written m).length := by
    intro written
    induction written with
    | zero => omega
    | succ written ih =>
      intro g m room bound
      cases g with
      | zero =>
        unfold varintGroups
        split <;> simp
      | succ g =>
        have quotient : 128 ^ g ≤ m / 128 := by
          apply (Nat.le_div_iff_mul_le (by decide)).mpr
          rwa [← Nat.pow_succ]
        have positive : 0 < 128 ^ g := Nat.pow_pos (by decide)
        have large : ¬m < 128 := by
          rw [Nat.pow_succ] at bound
          omega
        simpa [varintGroups, large] using ih g (m / 128) (by omega) quotient
  exact general 10 groups n fits bound

/-- The tag of a field with a number below 16 is one byte. -/
theorem length_encode_small {f : Field} (small : f.number < 16) :
    f.encode.length ≤ 1 + f.payload.encode.length := by
  have kind : f.payload.wireType < 8 := by cases f.payload <;> simp [Payload.wireType]
  have tag := @length_varint_le_of_lt 1 (f.number * 8 + f.payload.wireType) (by decide) (by omega)
  simp only [Field.encode, Field.tag, List.length_append]
  omega

theorem length_stringField_small {n : Nat} (small : n < 16) (v : WireString) :
    (Field.encode ⟨n, .bytes v.bytes⟩).length ≤ 6 + v.bytes.length := by
  have content := v.short
  have tag := length_encode_small (f := ⟨n, .bytes v.bytes⟩) small
  have size := @length_varint_le_of_lt 5 v.bytes.length (by decide)
    (by unfold sizeLimit at content; omega)
  simp only [Payload.encode, List.length_append] at tag
  omega

theorem length_optional_le {α : Type} {field : α → Field} {bound : Nat}
    (each : ∀ x, (field x).encode.length ≤ bound) (o : Option α) :
    (encodeAll (o.map field).toList).length ≤ bound := by
  cases o with
  | none => simp
  | some x => simpa using each x

/-! ## Message types -/

structure Schema (M : Type) where
  /-- The fields present in a message, in ascending number. -/
  fields : M → List Field
  empty : M
  /-- A known field replaces or extends the member it stands for. -/
  merge : M → Field → M
  /-- What a length-delimited field leaves behind when the input ends inside it. -/
  mergeCut : M → Nat → Bytes → M
  /-- All required fields are present. -/
  initialized : M → Bool
  valid : ∀ m, ∀ f ∈ fields m, f.Valid
  merge_fields : ∀ m, (fields m).foldl merge empty = m

/-- The return value of `ParseFromString` and the message it leaves behind. -/
structure Parsed (M : Type) where
  ok : Bool
  message : M
  deriving DecidableEq

namespace Schema

variable {M : Type} (S : Schema M)

def serializeToString (m : M) : Bytes := encodeAll (S.fields m)

/-- The parser that keeps every completely read field. -/
def parseFromString (bs : Bytes) : Parsed M :=
  let message := (scan bs).fields.foldl S.merge S.empty
  match (scan bs).ending with
  | .complete => ⟨S.initialized message, message⟩
  | .truncated number part => ⟨false, S.mergeCut message number part⟩
  | .malformed => ⟨false, message⟩

theorem parse_complete {bs : Bytes} (ending : (scan bs).ending = .complete) :
    S.parseFromString bs =
      ⟨S.initialized ((scan bs).fields.foldl S.merge S.empty),
        (scan bs).fields.foldl S.merge S.empty⟩ := by
  simp [parseFromString, ending]

theorem parse_incomplete {bs : Bytes} (ending : (scan bs).ending ≠ .complete) :
    (S.parseFromString bs).ok = false := by
  unfold parseFromString
  split
  · contradiction
  · rfl
  · rfl

theorem parse_serialize (m : M) :
    S.parseFromString (S.serializeToString m) = ⟨S.initialized m, m⟩ := by
  have scanned := scan_encodeAll (S.fields m) (S.valid m)
  rw [serializeToString, S.parse_complete (by rw [scanned]), scanned, S.merge_fields]

/-- A message survives the cut at its first zero byte when each of its fields does. -/
def Survives (m : M) : Prop := ∀ f ∈ S.fields m, f.payload.Survives

instance (m : M) : Decidable (S.Survives m) :=
  inferInstanceAs (Decidable (∀ f ∈ S.fields m, f.payload.Survives))

theorem zeroFree_serialize {m : M} (survives : S.Survives m) : ZeroFree (S.serializeToString m) :=
  zeroFree_encodeAll (S.valid m) survives

theorem parse_cStr_of_survives {m : M} (survives : S.Survives m) :
    S.parseFromString (cStr (S.serializeToString m)) = ⟨S.initialized m, m⟩ := by
  rw [cStr_eq_self (S.zeroFree_serialize survives), S.parse_serialize]

theorem parse_cStr_ok_iff (m : M) :
    (S.parseFromString (cStr (S.serializeToString m))).ok = true ↔
      S.Survives m ∧ S.initialized m = true := by
  by_cases survives : S.Survives m
  · simp [S.parse_cStr_of_survives survives, survives]
  -- A field that does not survive leaves an incomplete message.
  · have ending := (scan_cStr (S.fields m) (S.valid m)).2.not.mpr survives
    rw [← Schema.serializeToString] at ending
    simp [S.parse_incomplete ending, survives]

/-- A message that is read successfully has its required fields. -/
theorem initialized_of_ok {bs : Bytes} (ok : (S.parseFromString bs).ok = true) :
    S.initialized (S.parseFromString bs).message = true := by
  by_cases ending : (scan bs).ending = .complete
  · rwa [S.parse_complete ending] at ok ⊢
  · rw [S.parse_incomplete ending] at ok
    cases ok

/-- Without nested messages every complete field is merged, wherever the input ends. -/
theorem message_eq (flat : ∀ m number part, S.mergeCut m number part = m) (bs : Bytes) :
    (S.parseFromString bs).message = (scan bs).fields.foldl S.merge S.empty := by
  unfold parseFromString
  split <;> simp [flat]

/-- Without nested messages the receiver keeps the fields in front of the cut. -/
theorem parse_cStr_message (flat : ∀ m number part, S.mergeCut m number part = m) (m : M) :
    (S.parseFromString (cStr (S.serializeToString m))).message =
      ((S.fields m).takeWhile fun f => f.payload.Survives).foldl S.merge S.empty := by
  rw [S.message_eq flat, serializeToString, (scan_cStr (S.fields m) (S.valid m)).1]

/-! ## Parsers -/

/-- `g` is made of what was there of `f`: a varint may lack its high groups, and a string its
end. -/
def LeftOf (g f : Field) : Prop :=
  g.number = f.number ∧
    match f.payload with
    | .varint n => ∃ r, r ≤ n ∧ g.payload = .varint r
    | .bytes bs => ∃ part, g.payload = .bytes part ∧ cStr part <+: bs
    | .fixed64 _ | .fixed32 _ => True

/-- What a receiver can rely on in a parser: it reads back a whole message, and when the input
ends inside a field (of a one-byte tag), it keeps those in front and has nothing of the others. -/
structure Reads (parse : Bytes → Parsed M) : Prop where
  whole : ∀ m, parse (S.serializeToString m) = ⟨S.initialized m, m⟩
  front : ∀ m pre f post part, S.fields m = pre ++ f :: post → f.number < 16 →
    part <+: f.encode → part ≠ f.encode →
      ∃ left : List Field, (∀ g ∈ left, LeftOf g f) ∧
        (parse (encodeAll pre ++ part)).message = left.foldl S.merge (pre.foldl S.merge S.empty)

/-- Without nested messages `parseFromString` is such a parser, and keeps nothing of the field
that is cut. -/
theorem reads_parseFromString (flat : ∀ m number part, S.mergeCut m number part = m) :
    S.Reads S.parseFromString where
  whole := S.parse_serialize
  front m pre f post part split _ front proper := by
    have valid := S.valid m
    rw [split] at valid
    have whole : ∀ g ∈ pre, g.Valid := fun g member => valid g (by simp [member])
    have scanned := scan_cut whole (valid f (by simp)) front proper
    refine ⟨[], by simp, ?_⟩
    rw [S.message_eq flat, scanned.1]
    rfl

variable {S}

/-- From the C string of a message a parser has the fields in front of the first one with a zero
byte, and perhaps something of that one. -/
theorem Reads.message_cStr {parse : Bytes → Parsed M} (reads : S.Reads parse) (m : M)
    (small : ∀ f ∈ S.fields m, f.number < 16) :
    ∃ left : List Field, (parse (cStr (S.serializeToString m))).message =
        left.foldl S.merge
          (((S.fields m).takeWhile fun f => f.payload.Survives).foldl S.merge S.empty) ∧
      ∀ g ∈ left, ∃ f, ((S.fields m).dropWhile fun f => f.payload.Survives).head? = some f ∧
        LeftOf g f := by
  rcases cStr_encodeAll (S.valid m) with ⟨all, whole⟩ |
    ⟨pre, f, post, split, kept, dead, cut, _, proper⟩
  · refine ⟨[], ?_, by simp⟩
    rw [serializeToString, whole, ← serializeToString, reads.whole, takeWhile_surviving all]
    exact (S.merge_fields m).symm
  · obtain ⟨left, part, read⟩ := reads.front m pre f post _ split (small f (by simp [split]))
      (cStr_isPrefix _) proper
    obtain ⟨taken, dropped⟩ := @span_surviving pre post f kept dead
    refine ⟨left, ?_, fun g member => ⟨f, by rw [split, dropped]; rfl, part g member⟩⟩
    rw [serializeToString, cut, read, split, taken]

end Schema

end Library.Wire
