import CloudLab.Library.Bytes

/-!
# Length-prefixed frames

The reference reading of a byte stream as frames: a big-endian size of four
bytes, then as many bytes of payload. A stream may end inside a frame; the frames
in front of it are still read.
-/
namespace Library

def bigEndian (bs : Bytes) : Nat := bs.foldl (fun n b => n * 256 + b.toNat) 0

/-- The size in front of a payload, most significant byte first. -/
def frameHeader (n : Nat) : Bytes :=
  [UInt8.ofNat (n / 2 ^ 24), UInt8.ofNat (n / 2 ^ 16), UInt8.ofNat (n / 2 ^ 8), UInt8.ofNat n]

def frame (payload : Bytes) : Bytes := frameHeader payload.length ++ payload

def framesFuel : Nat → Bytes → List Bytes
  | 0, _ => []
  | fuel + 1, s =>
    if s.length < 4 then []
    else if (s.drop 4).length < bigEndian (s.take 4) then []
    else (s.drop 4).take (bigEndian (s.take 4)) ::
      framesFuel fuel ((s.drop 4).drop (bigEndian (s.take 4)))

/-- The complete frames at the front of a stream. -/
def frames (s : Bytes) : List Bytes := framesFuel s.length s

@[simp] theorem length_frameHeader (n : Nat) : (frameHeader n).length = 4 := rfl

theorem bigEndian_frameHeader {n : Nat} (bound : n < 2 ^ 32) : bigEndian (frameHeader n) = n := by
  simp only [bigEndian, frameHeader, List.foldl_cons, List.foldl_nil, UInt8.toNat_ofNat']
  omega

private theorem framesFuel_eq (fuel : Nat) (s : Bytes) (enough : s.length ≤ fuel) :
    framesFuel fuel s = frames s := by
  -- The two sides may carry different fuel, so both are generalized.
  have agree : ∀ k l (s : Bytes), s.length ≤ k → s.length ≤ l → framesFuel k s = framesFuel l s := by
    intro k
    induction k with
    | zero =>
      intro l s hk _
      have empty : s = [] := List.eq_nil_of_length_eq_zero (by omega)
      cases l <;> simp [framesFuel, empty]
    | succ k ih =>
      intro l s hk hl
      cases l with
      | zero =>
        have empty : s = [] := List.eq_nil_of_length_eq_zero (by omega)
        simp [framesFuel, empty]
      | succ l =>
        simp only [framesFuel]
        split
        · rfl
        · split
          · rfl
          · rw [ih l _ (by simp; omega) (by simp; omega)]
  exact agree fuel s.length s enough (Nat.le_refl _)

theorem frames_short {s : Bytes} (short : s.length < 4) : frames s = [] := by
  rw [← framesFuel_eq (s.length + 1) s (by omega)]
  simp [framesFuel, short]

theorem frames_truncated {s : Bytes} (short : (s.drop 4).length < bigEndian (s.take 4)) :
    frames s = [] := by
  rw [← framesFuel_eq (s.length + 1) s (by omega)]
  simp only [framesFuel, short, ite_true, ite_self]

theorem frames_cons {s : Bytes} (header : ¬s.length < 4)
    (payload : ¬(s.drop 4).length < bigEndian (s.take 4)) :
    frames s = (s.drop 4).take (bigEndian (s.take 4)) ::
      frames ((s.drop 4).drop (bigEndian (s.take 4))) := by
  rw [← framesFuel_eq (s.length + 1) s (by omega)]
  simp only [framesFuel, header, payload, ite_false]
  rw [framesFuel_eq _ _ (by simp)]

@[simp] theorem frames_nil : frames [] = [] := rfl

theorem frames_frame_append {payload : Bytes} (bound : payload.length < 2 ^ 32) (rest : Bytes) :
    frames (frame payload ++ rest) = payload :: frames rest := by
  -- The first four bytes are the length, and the payload follows.
  have header : (frame payload ++ rest).take 4 = frameHeader payload.length := by
    rw [frame, List.append_assoc, List.take_left' (length_frameHeader _)]
  have body : (frame payload ++ rest).drop 4 = payload ++ rest := by
    rw [frame, List.append_assoc, List.drop_left' (length_frameHeader _)]
  rw [frames_cons (by simp [frame]) (by simp [header, body, bigEndian_frameHeader bound]),
    header, body, bigEndian_frameHeader bound]
  simp

/-- Frames written one behind the other are read back one by one. -/
theorem frames_flatMap_frame (payloads : List Bytes)
    (bound : ∀ p ∈ payloads, p.length < 2 ^ 32) : frames (payloads.flatMap frame) = payloads := by
  induction payloads with
  | nil => rfl
  | cons p ps ih =>
    rw [List.flatMap_cons, frames_frame_append (bound p (by simp)),
      ih (fun q hq => bound q (by simp [hq]))]

end Library
