import CloudLab.Library.Schema

/-!
# Input without zero bytes

What a reader can get out of a C string. Everything it reads is a piece of the input, so
no string it reads holds a zero byte; and as a length 0 cannot be written without one,
none is empty. An integer may still be 0: its upper bits are dropped.
-/
namespace Library.Wire

theorem zeroFree_of_suffix {bs rest : Bytes} (back : rest <:+ bs) (free : ZeroFree bs) :
    ZeroFree rest :=
  fun b member => free b (back.subset member)

/-! ## The rest of the input is its end -/

theorem readVarint_suffix {groups n : Nat} {bs rest : Bytes}
    (read : readVarint groups bs = some (n, rest)) : rest <:+ bs := by
  induction groups generalizing bs n with
  | zero => cases read
  | succ groups ih =>
    cases bs with
    | nil => cases read
    | cons b tail =>
      simp only [readVarint] at read
      split at read
      -- The last group: the rest is what follows it.
      · cases read
        exact List.suffix_cons b _
      · obtain ⟨⟨m, rest'⟩, more, same⟩ := Option.map_eq_some_iff.mp read
        cases same
        exact (ih more).trans (List.suffix_cons b tail)

theorem readTag_suffix {t : Nat × Nat} {bs rest : Bytes} (read : readTag bs = some (t, rest)) :
    rest <:+ bs := by
  obtain ⟨⟨n, rest'⟩, varint, same⟩ := Option.map_eq_some_iff.mp read
  cases same
  exact readVarint_suffix varint

theorem splitExact_eq {n : Nat} {bs part rest : Bytes} (split : splitExact n bs = some (part, rest)) :
    bs = part ++ rest ∧ part.length = n := by
  obtain ⟨enough, same⟩ := Option.ite_none_right_eq_some.mp split
  cases same
  exact ⟨(List.take_append_drop n bs).symm, by simpa using enough⟩

theorem splitExact_suffix {n : Nat} {bs part rest : Bytes}
    (split : splitExact n bs = some (part, rest)) : rest <:+ bs := by
  rw [(splitExact_eq split).1]
  exact List.suffix_append part rest

theorem readSize_spec {n : Nat} {bs rest : Bytes} (read : readSize bs = some (n, rest)) :
    readVarint 5 bs = some (n, rest) ∧ n < sizeLimit := by
  obtain ⟨varint, short⟩ := Option.filter_eq_some_iff.mp read
  exact ⟨varint, by simpa using short⟩

theorem readPayload_suffix {wireType : Nat} {p : Payload} {bs rest : Bytes}
    (read : readPayload wireType bs = some (p, rest)) : rest <:+ bs := by
  unfold readPayload at read
  split at read
  · obtain ⟨⟨n, rest'⟩, varint, same⟩ := Option.map_eq_some_iff.mp read
    cases same
    exact readVarint_suffix varint
  · obtain ⟨⟨part, rest'⟩, split, same⟩ := Option.map_eq_some_iff.mp read
    cases same
    exact splitExact_suffix split
  -- A string: its size first, then as many bytes.
  · obtain ⟨⟨n, tail⟩, size, more⟩ := Option.bind_eq_some_iff.mp read
    obtain ⟨⟨part, rest'⟩, split, same⟩ := Option.map_eq_some_iff.mp more
    cases same
    exact (splitExact_suffix split).trans (readVarint_suffix (readSize_spec size).1)
  · obtain ⟨⟨part, rest'⟩, split, same⟩ := Option.map_eq_some_iff.mp read
    cases same
    exact splitExact_suffix split
  · cases read

theorem skipGroup_suffix {fuel number : Nat} {bs rest : Bytes}
    (skipped : skipGroup fuel number bs = some rest) : rest <:+ bs := by
  induction fuel generalizing number bs rest with
  | zero => cases skipped
  | succ fuel ih =>
    obtain ⟨⟨⟨inner, wireType⟩, tail⟩, tag, more⟩ := Option.bind_eq_some_iff.mp skipped
    have behind := readTag_suffix tag
    dsimp only at more
    split at more
    -- A group inside the group.
    · obtain ⟨tail', first, second⟩ := Option.bind_eq_some_iff.mp more
      exact ((ih second).trans (ih first)).trans behind
    · split at more
      · obtain ⟨_, same⟩ := Option.ite_none_right_eq_some.mp more
        cases same
        exact behind
      · obtain ⟨⟨p, tail'⟩, payload, again⟩ := Option.bind_eq_some_iff.mp more
        exact ((ih again).trans (readPayload_suffix payload)).trans behind

/-! ## Nothing read from a C string is empty -/

theorem readVarint_ne_zero {groups n : Nat} {bs rest : Bytes} (free : ZeroFree bs)
    (read : readVarint groups bs = some (n, rest)) : n ≠ 0 := by
  induction groups generalizing bs n with
  | zero => cases read
  | succ groups ih =>
    cases bs with
    | nil => cases read
    | cons b tail =>
      obtain ⟨nonzero, free⟩ := (zeroFree_cons b tail).mp free
      simp only [readVarint] at read
      split at read
      -- A last group of 0 would be a zero byte.
      · cases read
        intro zero
        exact nonzero (UInt8.toNat_inj.mp zero)
      · obtain ⟨⟨m, rest'⟩, more, same⟩ := Option.map_eq_some_iff.mp read
        cases same
        -- The groups behind the first add at least 128.
        have upper := ih free more
        dsimp only
        omega

/-- A string that can stand in a message without a zero byte. -/
structure Plain (content : Bytes) : Prop where
  nonempty : content ≠ []
  free : ZeroFree content
  short : content.length < sizeLimit

theorem readPayload_plain {wireType : Nat} {bs rest content : Bytes} (free : ZeroFree bs)
    (read : readPayload wireType bs = some (.bytes content, rest)) : Plain content := by
  unfold readPayload at read
  split at read
  · simp at read
  · simp at read
  -- Only a length-delimited field is a string, and its size is not 0.
  · obtain ⟨⟨n, tail⟩, size, more⟩ := Option.bind_eq_some_iff.mp read
    obtain ⟨⟨part, rest'⟩, split, same⟩ := Option.map_eq_some_iff.mp more
    cases same
    obtain ⟨varint, short⟩ := readSize_spec size
    obtain ⟨whole, length⟩ := splitExact_eq split
    dsimp only at whole length
    have free' := zeroFree_of_suffix (readVarint_suffix varint) free
    rw [whole, zeroFree_append] at free'
    have positive := readVarint_ne_zero free varint
    constructor
    · rintro rfl
      exact positive length.symm
    · exact free'.1
    · rwa [length]
  · simp at read
  · cases read

theorem readField_zeroFree {bs rest : Bytes} {f : Field} (free : ZeroFree bs)
    (read : readField bs = .field f rest) :
    ZeroFree rest ∧ ∀ content, f.payload = .bytes content → Plain content := by
  unfold readField at read
  split at read
  · cases read
  next number wireType tail tag =>
    have free' := zeroFree_of_suffix (readTag_suffix tag) free
    split at read
    · cases read
    · split at read
      -- A group is skipped, and so no field.
      · split at read <;> cases read
      · split at read
        next p rest' payload =>
          cases read
          constructor
          · exact zeroFree_of_suffix (readPayload_suffix payload) free'
          · rintro content rfl
            exact readPayload_plain free' payload
        next => split at read <;> cases read

theorem readField_group_zeroFree {bs rest : Bytes} (free : ZeroFree bs)
    (read : readField bs = .group rest) : ZeroFree rest := by
  unfold readField at read
  split at read
  · cases read
  next number wireType tail tag =>
    have free' := zeroFree_of_suffix (readTag_suffix tag) free
    split at read
    · cases read
    · split at read
      · split at read
        next rest' skipped =>
          cases read
          exact zeroFree_of_suffix (skipGroup_suffix skipped) free'
        next => cases read
      · split at read
        · cases read
        · split at read <;> cases read

theorem scanFuel_zeroFree {fuel : Nat} {bs : Bytes} (free : ZeroFree bs) :
    ∀ f ∈ (scanFuel fuel bs).fields, ∀ content, f.payload = .bytes content → Plain content := by
  induction fuel generalizing bs with
  | zero => cases bs <;> simp [scanFuel]
  | succ fuel ih =>
    cases bs with
    | nil => simp [scanFuel]
    | cons b tail =>
      unfold scanFuel
      split
      next f rest read =>
        -- What follows a field or a group is free of zero bytes again.
        obtain ⟨free', plain⟩ := readField_zeroFree free read
        intro g member
        rcases List.mem_cons.mp member with rfl | later
        · exact plain
        · exact ih free' g later
      next rest read => exact ih (readField_group_zeroFree free read)
      next => simp
      next => simp

/-- Every string read from a C string is nonempty and free of zero bytes. -/
theorem scan_zeroFree {bs : Bytes} (free : ZeroFree bs) :
    ∀ f ∈ (scan bs).fields, ∀ content, f.payload = .bytes content → Plain content :=
  scanFuel_zeroFree free

theorem Plain.bytes_ofBytes {content : Bytes} (plain : Plain content) :
    (WireString.ofBytes content).bytes = content := by
  simp [WireString.ofBytes, plain.short]

/-! ## Input cut inside a nested message -/

/-- A length-delimited field is cut behind its size. -/
theorem readField_truncated {number : Nat} {content part : Bytes}
    (valid : Field.Valid ⟨number, .bytes content⟩) (short : part.length < content.length) :
    readField (Field.tag ⟨number, .bytes content⟩ ++ (varint content.length ++ part)) =
      .truncated number part := by
  have positive : number ≠ 0 := Nat.pos_iff_ne_zero.mp valid.number_pos
  have size := readSize_length valid.payload part
  simp only [readField, readTag_tag valid, Payload.wireType, readPayload, size, Option.bind_some,
    splitExact_short short, Option.map_none, ite_true]
  rw [if_neg positive, if_neg (by decide)]

/-- The fields in front of it are read, and what there is of its content is handed on. -/
theorem scan_truncated (fs : List Field) (valid : ∀ f ∈ fs, f.Valid) {number : Nat}
    {content part : Bytes} (valid' : Field.Valid ⟨number, .bytes content⟩)
    (short : part.length < content.length) :
    scan (encodeAll fs ++ (Field.tag ⟨number, .bytes content⟩ ++ (varint content.length ++ part))) =
      ⟨fs, .truncated number part⟩ := by
  obtain ⟨fuel, enough, scanned⟩ := scan_encodeAll_append fs valid
    (Field.tag ⟨number, .bytes content⟩ ++ (varint content.length ++ part))
  have read := readField_truncated valid' short
  obtain ⟨b, tail, input⟩ : ∃ b tail,
      Field.tag ⟨number, .bytes content⟩ ++ (varint content.length ++ part) = b :: tail := by
    apply List.exists_cons_of_ne_nil
    exact List.append_ne_nil_of_left_ne_nil (varint_ne_nil _) _
  rw [input] at enough scanned read ⊢
  obtain ⟨more, rfl⟩ : ∃ k, fuel = k + 1 := ⟨fuel - 1, by rw [List.length_cons] at enough; omega⟩
  simpa [scanFuel, read] using scanned

/-- The C string of a message ends inside the first field that holds a zero byte. -/
theorem cStr_encodeAll_bytes {fs : List Field} (valid : ∀ f ∈ fs, f.Valid)
    (survive : ∀ f ∈ fs, f.payload.Survives) {number : Nat} {content : Bytes}
    (valid' : Field.Valid ⟨number, .bytes content⟩) (cut : ¬ZeroFree content) (rest : List Field) :
    cStr (encodeAll (fs ++ ⟨number, .bytes content⟩ :: rest)) =
      encodeAll fs ++ (Field.tag ⟨number, .bytes content⟩ ++
        (varint content.length ++ cStr content)) := by
  have front := zeroFree_encodeAll valid survive
  have some : content ≠ [] := by
    rintro rfl
    exact cut zeroFree_nil
  have size : ZeroFree (varint content.length) :=
    (zeroFree_varint_iff _).mpr fun zero => some (List.eq_nil_of_length_eq_zero zero)
  rw [encodeAll_append, encodeAll_cons, cStr_append front, Field.encode, Payload.encode,
    List.append_assoc, List.append_assoc, cStr_append (zeroFree_tag valid'), cStr_append size,
    cStr_append_of_not_zeroFree cut]

end Library.Wire
