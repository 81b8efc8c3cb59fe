import CloudLab.Library.Bytes

/-!
# The protocol buffer wire format

Writer and reader of the proto2 wire format, for messages of any schema. A
message is a sequence of fields; `Field.encode` writes one field and `scan`
reads as many complete fields as the input holds and says how the input ended.

The second half is about input that a receiver has cut at the first zero byte.
`scan_cStr` says exactly what is left of a serialized message then: the fields in
front of the first one whose encoding holds a zero byte, and never a message that
ends on a field boundary.
-/
namespace Library.Wire

/-! ## Base-128 varints -/

/-- At most `groups` groups of seven bits, lowest first, every byte but the last
with its high bit set. -/
def varintGroups : Nat → Nat → Bytes
  | 0, _ => []
  | groups + 1, n =>
    if n < 128 then [UInt8.ofNat n]
    else UInt8.ofNat (n % 128 + 128) :: varintGroups groups (n / 128)

/-- Ten groups hold every 64-bit value. -/
def varint (n : Nat) : Bytes := varintGroups 10 n

/-- The reader gives up behind `groups` bytes and at the end of the input. -/
def readVarint : Nat → Bytes → Option (Nat × Bytes)
  | 0, _ => none
  | _ + 1, [] => none
  | groups + 1, b :: rest =>
    if b.toNat < 128 then some (b.toNat, rest)
    else (readVarint groups rest).map fun r => (b.toNat - 128 + 128 * r.1, r.2)

private theorem low_byte {n : Nat} (small : n < 128) : (UInt8.ofNat n).toNat = n := by
  rw [UInt8.toNat_ofNat']
  omega

private theorem high_byte (n : Nat) : (UInt8.ofNat (n % 128 + 128)).toNat = n % 128 + 128 := by
  rw [UInt8.toNat_ofNat']
  omega

theorem readVarint_varintGroups (groups written n : Nat) (rest : Bytes)
    (positive : 0 < groups) (enough : groups ≤ written) (bound : n < 128 ^ groups) :
    readVarint groups (varintGroups written n ++ rest) = some (n, rest) := by
  induction groups generalizing written n with
  | zero => omega
  | succ groups ih =>
    obtain ⟨written, rfl⟩ : ∃ w, written = w + 1 := ⟨written - 1, by omega⟩
    by_cases small : n < 128
    · simp [varintGroups, small, readVarint, low_byte small]
    · have quotient : n / 128 < 128 ^ groups := by
        apply (Nat.div_lt_iff_lt_mul (by decide)).mpr
        rwa [← Nat.pow_succ]
      have more : 0 < groups := by
        rcases Nat.eq_zero_or_pos groups with rfl | h
        · simp at bound; omega
        · exact h
      have byte := high_byte n
      have read := ih written (n / 128) more (by omega) quotient
      simp only [varintGroups, small, ite_false, List.cons_append, readVarint, byte, read]
      rw [if_neg (by omega), Option.map_some, Option.some.injEq, Prod.mk.injEq]
      exact ⟨by omega, rfl⟩

theorem readVarint_varint (groups n : Nat) (rest : Bytes) (positive : 0 < groups)
    (enough : groups ≤ 10) (bound : n < 128 ^ groups) :
    readVarint groups (varint n ++ rest) = some (n, rest) :=
  readVarint_varintGroups groups 10 n rest positive enough bound

/-- Input that ends inside a varint is refused. -/
private theorem readVarint_continued (groups : Nat) (bs : Bytes)
    (continued : ∀ b ∈ bs, 128 ≤ b.toNat) : readVarint groups bs = none := by
  induction groups generalizing bs with
  | zero => rfl
  | succ groups ih =>
    cases bs with
    | nil => rfl
    | cons b rest =>
      have high := continued b (by simp)
      have tail := ih rest (fun c hc => continued c (by simp [hc]))
      simp [readVarint, show ¬b.toNat < 128 by omega, tail]

private theorem varintGroups_dropLast (groups n : Nat) :
    ∀ b ∈ (varintGroups groups n).dropLast, 128 ≤ b.toNat := by
  induction groups generalizing n with
  | zero => simp [varintGroups]
  | succ groups ih =>
    intro b member
    by_cases small : n < 128
    · simp [varintGroups, small] at member
    · simp only [varintGroups, small, ite_false] at member
      cases tail : varintGroups groups (n / 128) with
      | nil => simp [tail] at member
      | cons c cs =>
        rw [tail, List.dropLast_cons_cons, List.mem_cons] at member
        rcases member with rfl | member
        · rw [high_byte]; omega
        · exact ih (n / 128) b (tail ▸ member)

theorem readVarint_cut (groups n : Nat) (part : Bytes) (front : part <+: varint n)
    (proper : part ≠ varint n) : readVarint groups part = none := by
  apply readVarint_continued
  obtain ⟨rest, whole⟩ := front
  have left : rest ≠ [] := by
    rintro rfl
    exact proper (by simpa using whole)
  intro b member
  apply varintGroups_dropLast 10 n
  rw [← varint, ← whole, List.dropLast_append_of_ne_nil left]
  exact List.mem_append_left _ member

theorem varint_ne_nil (n : Nat) : varint n ≠ [] := by
  unfold varint varintGroups
  split <;> simp

theorem length_varint_le (n : Nat) : (varint n).length ≤ 10 := by
  have groups : ∀ g m, (varintGroups g m).length ≤ g := by
    intro g
    induction g with
    | zero => simp [varintGroups]
    | succ g ih =>
      intro m
      have tail := ih (m / 128)
      unfold varintGroups
      split
      · simp
      · simpa using tail
  exact groups 10 n

theorem zeroFree_varint_iff (n : Nat) : ZeroFree (varint n) ↔ n ≠ 0 := by
  have positive : ∀ groups m, m ≠ 0 → ZeroFree (varintGroups groups m) := by
    intro groups
    induction groups with
    | zero => simp [varintGroups]
    | succ groups ih =>
      intro m nonzero
      by_cases small : m < 128
      -- The last group is the number itself.
      · simp only [varintGroups, small, ite_true, zeroFree_cons, zeroFree_nil, and_true]
        intro zero
        have value := congrArg UInt8.toNat zero
        rw [low_byte small] at value
        exact nonzero value
      -- Every group in front of it has its high bit set.
      · simp only [varintGroups, small, ite_false, zeroFree_cons]
        refine ⟨fun zero => ?_, ih _ (by omega)⟩
        have value := congrArg UInt8.toNat zero
        rw [high_byte] at value
        simp at value
  constructor
  · rintro free rfl
    simp [varint, varintGroups] at free
  · exact positive 10 n

/-! ## Fields -/

/-- A length prefix from here on is refused by the reader. -/
def sizeLimit : Nat := 2 ^ 31 - 16

inductive Payload where
  | varint (n : Nat)
  | fixed64 (bs : Bytes)
  | bytes (bs : Bytes)
  | fixed32 (bs : Bytes)
  deriving DecidableEq, Repr

structure Field where
  number : Nat
  payload : Payload
  deriving DecidableEq, Repr

def Payload.wireType : Payload → Nat
  | .varint _ => 0
  | .fixed64 _ => 1
  | .bytes _ => 2
  | .fixed32 _ => 5

def Payload.encode : Payload → Bytes
  | .varint n => Wire.varint n
  | .fixed64 bs => bs
  | .bytes bs => Wire.varint bs.length ++ bs
  | .fixed32 bs => bs

def Field.tag (f : Field) : Bytes := varint (f.number * 8 + f.payload.wireType)

def Field.encode (f : Field) : Bytes := f.tag ++ f.payload.encode

/-- The payloads that fit their wire type. -/
def Payload.Valid : Payload → Prop
  | .varint n => n < 2 ^ 64
  | .fixed64 bs => bs.length = 8
  | .bytes bs => bs.length < sizeLimit
  | .fixed32 bs => bs.length = 4

structure Field.Valid (f : Field) : Prop where
  number_pos : 0 < f.number
  number_lt : f.number < 2 ^ 29
  payload : f.payload.Valid

def readTag (bs : Bytes) : Option ((Nat × Nat) × Bytes) :=
  (readVarint 5 bs).map fun r => ((r.1 % 2 ^ 32 / 8, r.1 % 8), r.2)

/-- The length prefix of a string or a nested message. -/
def readSize (bs : Bytes) : Option (Nat × Bytes) :=
  (readVarint 5 bs).filter fun r => r.1 < sizeLimit

def splitExact (n : Nat) (bs : Bytes) : Option (Bytes × Bytes) :=
  if n ≤ bs.length then some (bs.take n, bs.drop n) else none

def readPayload (wireType : Nat) (bs : Bytes) : Option (Payload × Bytes) :=
  match wireType with
  | 0 => (readVarint 10 bs).map fun r => (.varint (r.1 % 2 ^ 64), r.2)
  | 1 => (splitExact 8 bs).map fun r => (.fixed64 r.1, r.2)
  | 2 => (readSize bs).bind fun s => (splitExact s.1 s.2).map fun r => (.bytes r.1, r.2)
  | 5 => (splitExact 4 bs).map fun r => (.fixed32 r.1, r.2)
  | _ => none

/-- What follows the end tag of group `number`; the group's content is dropped. -/
def skipGroup : Nat → Nat → Bytes → Option Bytes
  | 0, _, _ => none
  | fuel + 1, number, bs =>
    (readTag bs).bind fun t =>
      if t.1.2 = 3 then (skipGroup fuel t.1.1 t.2).bind (skipGroup fuel number)
      else if t.1.2 = 4 then (if t.1.1 = number then some t.2 else none)
      else (readPayload t.1.2 t.2).bind fun r => skipGroup fuel number r.2

inductive ReadResult where
  | field (f : Field) (rest : Bytes)
  | group (rest : Bytes)
  /-- The input ends inside the content of a length-delimited field. -/
  | truncated (number : Nat) (part : Bytes)
  | malformed
  deriving DecidableEq, Repr

def readField (bs : Bytes) : ReadResult :=
  match readTag bs with
  | none => .malformed
  | some ((number, wireType), rest) =>
    if number = 0 then .malformed
    else if wireType = 3 then
      match skipGroup rest.length number rest with
      | some rest => .group rest
      | none => .malformed
    else
      match readPayload wireType rest with
      | some (payload, rest) => .field ⟨number, payload⟩ rest
      | none =>
        match (if wireType = 2 then readSize rest else none) with
        | some (_, part) => .truncated number part
        | none => .malformed

/-- How the input of `scan` ended. -/
inductive Ending where
  | complete
  | truncated (number : Nat) (part : Bytes)
  | malformed
  deriving DecidableEq, Repr

structure Scan where
  fields : List Field
  ending : Ending
  deriving DecidableEq, Repr

def scanFuel : Nat → Bytes → Scan
  | _, [] => ⟨[], .complete⟩
  | 0, _ :: _ => ⟨[], .malformed⟩
  | fuel + 1, b :: bs =>
    match readField (b :: bs) with
    | .field f rest => ⟨f :: (scanFuel fuel rest).fields, (scanFuel fuel rest).ending⟩
    | .group rest => scanFuel fuel rest
    | .truncated number part => ⟨[], .truncated number part⟩
    | .malformed => ⟨[], .malformed⟩

/-- Every complete field of the input. A field takes at least one byte, so the
length of the input is fuel enough. -/
def scan (bs : Bytes) : Scan := scanFuel bs.length bs

example : scan [8, 2, 16, 200, 1] = ⟨[⟨1, .varint 2⟩, ⟨2, .varint 200⟩], .complete⟩ := by decide

/-! ## Reading back what was written -/

theorem tag_bound {f : Field} (valid : f.Valid) :
    f.number * 8 + f.payload.wireType < 2 ^ 32 := by
  have number := valid.number_lt
  have kind : f.payload.wireType < 8 := by cases f.payload <;> simp [Payload.wireType]
  omega

theorem readTag_tag {f : Field} (valid : f.Valid) (rest : Bytes) :
    readTag (f.tag ++ rest) = some ((f.number, f.payload.wireType), rest) := by
  have bound := tag_bound valid
  have kind : f.payload.wireType < 8 := by cases f.payload <;> simp [Payload.wireType]
  rw [readTag, Field.tag, readVarint_varint 5 _ rest (by decide) (by decide) (by omega)]
  simp only [Option.map_some, Option.some.injEq, Prod.mk.injEq, and_true]
  omega

theorem readSize_length {bs : Bytes} (short : bs.length < sizeLimit) (rest : Bytes) :
    readSize (varint bs.length ++ rest) = some (bs.length, rest) := by
  have bound : bs.length < 128 ^ 5 := by unfold sizeLimit at short; omega
  simp [readSize, readVarint_varint 5 _ rest (by decide) (by decide) bound, short]

theorem splitExact_append (xs rest : Bytes) : splitExact xs.length (xs ++ rest) = some (xs, rest) := by
  simp [splitExact]

theorem splitExact_short {n : Nat} {bs : Bytes} (short : bs.length < n) :
    splitExact n bs = none := by
  simp [splitExact, short]

theorem readPayload_encode {p : Payload} (valid : p.Valid) (rest : Bytes) :
    readPayload p.wireType (p.encode ++ rest) = some (p, rest) := by
  cases p with
  | varint n =>
    have bound : n < 128 ^ 10 := Nat.lt_of_lt_of_le valid (by decide)
    simp only [readPayload, Payload.wireType, Payload.encode,
      readVarint_varint 10 n rest (by decide) (by decide) bound, Option.map_some,
      Nat.mod_eq_of_lt valid]
  | fixed64 bs =>
    have split := splitExact_append bs rest
    rw [show bs.length = 8 from valid] at split
    simp only [readPayload, Payload.wireType, Payload.encode, split, Option.map_some]
  | bytes bs =>
    simp only [readPayload, Payload.wireType, Payload.encode, List.append_assoc,
      readSize_length valid, Option.bind_some, splitExact_append, Option.map_some]
  | fixed32 bs =>
    have split := splitExact_append bs rest
    rw [show bs.length = 4 from valid] at split
    simp only [readPayload, Payload.wireType, Payload.encode, split, Option.map_some]

theorem readField_encode {f : Field} (valid : f.Valid) (rest : Bytes) :
    readField (f.encode ++ rest) = .field f rest := by
  have group : f.payload.wireType ≠ 3 := by cases f.payload <;> simp [Payload.wireType]
  have number := valid.number_pos
  simp only [readField, Field.encode, List.append_assoc, readTag_tag valid,
    readPayload_encode valid.payload]
  rw [if_neg (by omega), if_neg group]

theorem encode_ne_nil (f : Field) : f.encode ≠ [] := by
  simp [Field.encode, Field.tag, varint_ne_nil]

/-- A payload cut anywhere is not read. -/
theorem readPayload_cut {p : Payload} (valid : p.Valid) (part : Bytes)
    (front : part <+: p.encode) (proper : part ≠ p.encode) :
    readPayload p.wireType part = none := by
  have shorter : part.length < p.encode.length := by
    rcases Nat.lt_or_eq_of_le front.length_le with h | h
    · exact h
    · exact absurd (front.eq_of_length h) proper
  cases p with
  | varint n =>
    simp only [readPayload, Payload.wireType, readVarint_cut 10 n part front proper, Option.map_none]
  | fixed64 bs =>
    have short : part.length < 8 := by rwa [← show bs.length = 8 from valid]
    simp only [readPayload, Payload.wireType, splitExact_short short, Option.map_none]
  | fixed32 bs =>
    have short : part.length < 4 := by rwa [← show bs.length = 4 from valid]
    simp only [readPayload, Payload.wireType, splitExact_short short, Option.map_none]
  | bytes bs =>
    simp only [readPayload, Payload.wireType]
    rcases List.prefix_or_prefix_of_prefix front (List.prefix_append (varint bs.length) bs) with
      inside | behind
    -- The cut is inside the size, behind it, or inside the content.
    · by_cases whole : part = varint bs.length
      · have size := readSize_length valid []
        simp only [List.append_nil, ← whole] at size
        have content : ([] : Bytes).length < bs.length := by
          simpa [Payload.encode, whole] using shorter
        simp only [size, Option.bind_some, splitExact_short content, Option.map_none]
      · simp [readSize, readVarint_cut 5 _ part inside whole]
    · obtain ⟨content, rfl⟩ := behind
      have short : content.length < bs.length := by simpa [Payload.encode] using shorter
      simp only [readSize_length valid, Option.bind_some, splitExact_short short, Option.map_none]

/-- A field cut anywhere behind its first byte is neither read nor skipped. -/
theorem readField_cut {f : Field} (valid : f.Valid) (part : Bytes)
    (front : part <+: f.encode) (proper : part ≠ f.encode) :
    readField part = .malformed ∨ ∃ content, readField part = .truncated f.number content := by
  have group : f.payload.wireType ≠ 3 := by cases f.payload <;> simp [Payload.wireType]
  have number := valid.number_pos
  rcases List.prefix_or_prefix_of_prefix front (List.prefix_append f.tag f.payload.encode) with
    inside | behind
  -- The cut is inside the tag or right behind it.
  · by_cases whole : part = f.tag
    · have tag := readTag_tag valid []
      simp only [List.append_nil, ← whole] at tag
      have none := readPayload_cut valid.payload [] (List.nil_prefix) (by
        intro empty
        exact proper (by rw [Field.encode, ← empty, whole, List.append_nil]))
      simp only [readField, tag, none]
      rw [if_neg (by omega), if_neg group]
      split <;> simp
    · left
      simp [readField, readTag, readVarint_cut 5 _ part inside whole]
  -- The tag is read, and the payload is not.
  · obtain ⟨body, rfl⟩ := behind
    have none := readPayload_cut valid.payload body
      (by simpa [Field.encode] using front) (by simpa [Field.encode] using proper)
    simp only [readField, readTag_tag valid, none]
    rw [if_neg (by omega), if_neg group]
    split <;> simp

theorem length_encode_le (f : Field) :
    f.encode.length ≤ 10 + f.payload.encode.length := by
  have tag := length_varint_le (f.number * 8 + f.payload.wireType)
  simp only [Field.encode, Field.tag, List.length_append]
  omega

/-! ## Scanning a sequence of fields -/

def encodeAll (fs : List Field) : Bytes := fs.flatMap Field.encode

@[simp] theorem encodeAll_nil : encodeAll [] = [] := rfl

@[simp] theorem encodeAll_cons (f : Field) (fs : List Field) :
    encodeAll (f :: fs) = f.encode ++ encodeAll fs := rfl

theorem encodeAll_append (fs gs : List Field) :
    encodeAll (fs ++ gs) = encodeAll fs ++ encodeAll gs := List.flatMap_append

theorem length_le_encodeAll (fs : List Field) : fs.length ≤ (encodeAll fs).length := by
  induction fs with
  | nil => simp
  | cons f fs ih =>
    have head := List.length_pos_of_ne_nil (encode_ne_nil f)
    simp only [List.length_cons, encodeAll_cons, List.length_append]
    omega

theorem scanFuel_encodeAll (fs : List Field) (valid : ∀ f ∈ fs, f.Valid) (fuel : Nat) (tail : Bytes) :
    scanFuel (fs.length + fuel) (encodeAll fs ++ tail) =
      ⟨fs ++ (scanFuel fuel tail).fields, (scanFuel fuel tail).ending⟩ := by
  induction fs with
  | nil => simp
  | cons f fs ih =>
    have tails := ih (fun g hg => valid g (by simp [hg]))
    have read := readField_encode (valid f (by simp)) (encodeAll fs ++ tail)
    rw [encodeAll_cons, List.append_assoc, List.length_cons,
      show fs.length + 1 + fuel = fs.length + fuel + 1 by omega]
    obtain ⟨b, bs, input⟩ := List.exists_cons_of_ne_nil (encode_ne_nil f)
    rw [input, List.cons_append] at read ⊢
    simp only [scanFuel, read, tails, List.cons_append]

theorem scan_encodeAll_append (fs : List Field) (valid : ∀ f ∈ fs, f.Valid) (tail : Bytes) :
    ∃ fuel, tail.length ≤ fuel ∧ scan (encodeAll fs ++ tail) =
      ⟨fs ++ (scanFuel fuel tail).fields, (scanFuel fuel tail).ending⟩ := by
  have enough := length_le_encodeAll fs
  refine ⟨(encodeAll fs ++ tail).length - fs.length, by simp; omega, ?_⟩
  rw [← scanFuel_encodeAll fs valid, scan]
  congr 1
  simp only [List.length_append]
  omega

theorem scan_encodeAll (fs : List Field) (valid : ∀ f ∈ fs, f.Valid) :
    scan (encodeAll fs) = ⟨fs, .complete⟩ := by
  obtain ⟨fuel, _, scanned⟩ := scan_encodeAll_append fs valid []
  simpa [scanFuel] using scanned

/-! ## Scanning a C string -/

theorem zeroFree_tag {f : Field} (valid : f.Valid) : ZeroFree f.tag := by
  have number := valid.number_pos
  rw [Field.tag, zeroFree_varint_iff]
  omega

/-- The payloads whose encoding holds no zero byte. -/
def Payload.Survives : Payload → Prop
  | .varint n => n ≠ 0
  | .bytes bs => bs ≠ [] ∧ ZeroFree bs
  | .fixed64 bs => ZeroFree bs
  | .fixed32 bs => ZeroFree bs

instance (p : Payload) : Decidable p.Survives := by
  cases p <;> unfold Payload.Survives <;> infer_instance

theorem zeroFree_encode_iff {f : Field} (valid : f.Valid) :
    ZeroFree f.encode ↔ f.payload.Survives := by
  rw [Field.encode, zeroFree_append]
  have tag := zeroFree_tag valid
  cases f.payload <;>
    simp [tag, Payload.encode, Payload.Survives, zeroFree_varint_iff]

theorem zeroFree_encodeAll {fs : List Field} (valid : ∀ f ∈ fs, f.Valid)
    (survive : ∀ f ∈ fs, f.payload.Survives) : ZeroFree (encodeAll fs) := by
  intro b member
  obtain ⟨f, hf, hb⟩ := List.mem_flatMap.mp member
  exact (zeroFree_encode_iff (valid f hf)).mpr (survive f hf) b hb

/-- A nonempty part of one field, cut in front of its end, scans to nothing and is
seen to be incomplete. -/
private theorem scanFuel_cut {f : Field} (valid : f.Valid) (part : Bytes) (front : part <+: f.encode)
    (proper : part ≠ f.encode) (nonempty : part ≠ []) (fuel : Nat) :
    (scanFuel fuel part).fields = [] ∧ (scanFuel fuel part).ending ≠ .complete := by
  obtain ⟨b, bs, rfl⟩ := List.exists_cons_of_ne_nil nonempty
  cases fuel with
  | zero => simp [scanFuel]
  | succ fuel =>
    rcases readField_cut valid _ front proper with read | ⟨content, read⟩ <;>
      simp [scanFuel, read]

/-- Behind complete fields, a part of one more field adds none; unless it is empty, it is seen
to be incomplete. -/
theorem scan_cut {fs : List Field} (valid : ∀ g ∈ fs, g.Valid) {f : Field} (here : f.Valid)
    {part : Bytes} (front : part <+: f.encode) (proper : part ≠ f.encode) :
    (scan (encodeAll fs ++ part)).fields = fs ∧
      (part ≠ [] → (scan (encodeAll fs ++ part)).ending ≠ .complete) := by
  obtain ⟨fuel, _, scanned⟩ := scan_encodeAll_append fs valid part
  rw [scanned]
  by_cases empty : part = []
  · rw [empty]
    simp [scanFuel]
  · have stuck := scanFuel_cut here part front proper empty fuel
    exact ⟨by simp [stuck.1], fun _ => stuck.2⟩

theorem takeWhile_surviving {fs : List Field} (all : ∀ f ∈ fs, f.payload.Survives) :
    fs.takeWhile (fun f => f.payload.Survives) = fs := by
  apply List.takeWhile_eq_self_iff.mpr
  intro f member
  simpa using all f member

theorem span_surviving {pre post : List Field} {f : Field} (kept : ∀ g ∈ pre, g.payload.Survives)
    (dead : ¬f.payload.Survives) :
    (pre ++ f :: post).takeWhile (fun f => f.payload.Survives) = pre ∧
      (pre ++ f :: post).dropWhile (fun f => f.payload.Survives) = f :: post := by
  rw [List.takeWhile_append_of_pos (by simpa using kept),
    List.takeWhile_cons_of_neg (by simpa using dead), List.append_nil,
    List.dropWhile_append_of_pos (by simpa using kept),
    List.dropWhile_cons_of_neg (by simpa using dead)]
  exact ⟨rfl, rfl⟩

/-- The first zero byte of a sequence of fields is in the first field that does not survive,
behind its first byte. -/
theorem cStr_encodeAll {fs : List Field} (valid : ∀ f ∈ fs, f.Valid) :
    ((∀ f ∈ fs, f.payload.Survives) ∧ cStr (encodeAll fs) = encodeAll fs) ∨
    ∃ pre f post, fs = pre ++ f :: post ∧ (∀ g ∈ pre, g.payload.Survives) ∧
      ¬f.payload.Survives ∧ cStr (encodeAll fs) = encodeAll pre ++ cStr f.encode ∧
      cStr f.encode ≠ [] ∧ cStr f.encode ≠ f.encode := by
  by_cases all : ∀ f ∈ fs, f.payload.Survives
  · exact Or.inl ⟨all, cStr_eq_self (zeroFree_encodeAll valid all)⟩
  right
  induction fs with
  | nil => simp at all
  | cons f fs ih =>
    have here := valid f (by simp)
    have there : ∀ g ∈ fs, g.Valid := fun g member => valid g (by simp [member])
    by_cases survives : f.payload.Survives
    -- The field is kept, and the zero byte is further behind.
    · have free := (zeroFree_encode_iff here).mpr survives
      have rest : ¬∀ g ∈ fs, g.payload.Survives := by
        intro holds
        exact all (by simpa [survives] using holds)
      obtain ⟨pre, g, post, split, kept, dead, cut, nonempty, proper⟩ := ih there rest
      refine ⟨f :: pre, g, post, by rw [split]; rfl, by simpa [survives] using kept, dead, ?_,
        nonempty, proper⟩
      rw [encodeAll_cons, cStr_append free, cut, encodeAll_cons, List.append_assoc]
    · have zero : ¬ZeroFree f.encode := by rwa [zeroFree_encode_iff here]
      refine ⟨[], f, fs, rfl, by simp, survives, ?_, ?_, ?_⟩
      · rw [encodeAll_cons, cStr_append_of_not_zeroFree zero]
        rfl
      · rw [Field.encode, cStr_append (zeroFree_tag here)]
        simp [Field.tag, varint_ne_nil]
      · intro same
        have shorter := length_cStr_lt zero
        rw [same] at shorter
        omega

/-- Cutting a sequence of fields at the first zero byte leaves the fields in front
of the first one that does not survive, and a cut inside that field. -/
theorem scan_cStr (fs : List Field) (valid : ∀ f ∈ fs, f.Valid) :
    (scan (cStr (encodeAll fs))).fields = fs.takeWhile (fun f => f.payload.Survives) ∧
      ((scan (cStr (encodeAll fs))).ending = .complete ↔ ∀ f ∈ fs, f.payload.Survives) := by
  rcases cStr_encodeAll valid with ⟨all, whole⟩ |
    ⟨pre, f, post, split, kept, dead, cut, nonempty, proper⟩
  · rw [whole, scan_encodeAll fs valid, takeWhile_surviving all]
    exact ⟨rfl, iff_of_true rfl all⟩
  · have front : ∀ g ∈ pre, g.Valid := fun g member => valid g (by simp [split, member])
    have scanned := scan_cut front (valid f (by simp [split])) (cStr_isPrefix _) proper
    rw [cut, scanned.1, split, (span_surviving kept dead).1]
    exact ⟨rfl, iff_of_false (scanned.2 nonempty) fun all => dead (all f (by simp))⟩

end Library.Wire
