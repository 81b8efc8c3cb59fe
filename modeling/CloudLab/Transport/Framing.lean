import CloudLab.Transport.Socket

/-!
# Framing over a byte stream

`secure_recv` computes the reference parse `Library.frames`, whatever the sizes of
the pieces `recv` hands out. `readLoop` is followed through its three outcomes: a
run of negative results is skipped, an empty result only occurs at end of stream
and uses up one retry, and any other result shortens the stream.
-/
namespace CloudLab.Transport

open Library

/-- How `recv` behaves on a connection: negative results come in finite runs only. -/
structure RecvSchedule where
  choice : Nat → RecvChoice
  fair : ∀ i, ∃ j, i ≤ j ∧ choice j ≠ .error

/-- How `send` behaves on a healthy connection: short sends, no failure. -/
abbrev SendSchedule := Nat → Nat

def SendSchedule.choice (limits : SendSchedule) (i : Nat) : SendChoice := .accept (limits i)

/-! ## `read_n` -/

theorem readLoop_full (choice : Nat → RecvChoice) (n fuel : Nat) (fd : RecvEnd)
    (buffer : Bytes) (retries : Nat) (full : ¬buffer.length < n) :
    readLoop choice n (fuel + 1) fd buffer retries = some (buffer, fd) := by
  simp [readLoop, full]

theorem readLoop_error {choice : Nat → RecvChoice} {n fuel calls retries : Nat} {stream buffer : Bytes}
    (left : buffer.length < n) (failed : choice calls = .error) :
    readLoop choice n (fuel + 1) ⟨stream, calls⟩ buffer retries =
      readLoop choice n fuel ⟨stream, calls + 1⟩ buffer retries := by
  simp [readLoop, left, recv, failed]

/-- A call that hands out some bytes, at least one. -/
theorem readLoop_data {choice : Nat → RecvChoice} {n fuel calls retries limit taken : Nat}
    {stream buffer : Bytes} (left : buffer.length < n) (ok : choice calls = .upTo limit)
    (count : min (n - buffer.length) (limit + 1) = taken) (more : stream ≠ []) :
    readLoop choice n (fuel + 1) ⟨stream, calls⟩ buffer retries =
      readLoop choice n fuel ⟨stream.drop taken, calls + 1⟩ (buffer ++ stream.take taken) 0 := by
  obtain ⟨b, bs, received⟩ : ∃ b bs, stream.take taken = b :: bs := by
    apply List.exists_cons_of_ne_nil
    simp only [ne_eq, List.take_eq_nil_iff, more, or_false]
    omega
  simp [readLoop, left, recv, ok, count, received]

/-- Negative results change nothing but the number of calls. -/
private theorem readLoop_skip (choice : Nat → RecvChoice) (n fuel : Nat) (stream buffer : Bytes)
    (calls retries gap : Nat) (left : buffer.length < n)
    (errors : ∀ i, calls ≤ i → i < calls + gap → choice i = .error) :
    readLoop choice n (fuel + gap) ⟨stream, calls⟩ buffer retries =
      readLoop choice n fuel ⟨stream, calls + gap⟩ buffer retries := by
  induction gap generalizing calls with
  | zero => rfl
  | succ gap ih =>
    have first := errors calls (by omega) (by omega)
    have rest := ih (calls + 1) (fun i low high => errors i (by omega) (by omega))
    rw [show fuel + (gap + 1) = fuel + gap + 1 by omega,
      show calls + (gap + 1) = calls + 1 + gap by omega, ← rest, readLoop_error left first]

/-- The next call that does not fail. -/
private theorem next_call (schedule : RecvSchedule) (calls : Nat) :
    ∃ gap limit, (∀ i, calls ≤ i → i < calls + gap → schedule.choice i = .error) ∧
      schedule.choice (calls + gap) = .upTo limit := by
  classical
  have later : ∃ gap, schedule.choice (calls + gap) ≠ .error := by
    obtain ⟨j, after, ok⟩ := schedule.fair calls
    exact ⟨j - calls, by rwa [show calls + (j - calls) = j by omega]⟩
  refine ⟨Nat.find later, ?_⟩
  have before : ∀ i, calls ≤ i → i < calls + Nat.find later → schedule.choice i = .error := by
    intro i low high
    have failed := Nat.find_min later (m := i - calls) (by omega)
    rw [show calls + (i - calls) = i by omega] at failed
    exact not_not.mp failed
  have ok := Nat.find_spec later
  cases choice : schedule.choice (calls + Nat.find later) with
  | error => exact absurd choice ok
  | upTo limit => exact ⟨limit, before, rfl⟩

/-- At end of stream the loop uses up its retries and stops. -/
private theorem readLoop_end (schedule : RecvSchedule) (n : Nat) (buffer : Bytes)
    (left : buffer.length < n) (budget : Nat) :
    ∀ calls retries, maxRetries ≤ retries + budget →
      ∃ enough calls', ∀ fuel, enough ≤ fuel →
        readLoop schedule.choice n fuel ⟨[], calls⟩ buffer retries =
          some (buffer, ⟨[], calls'⟩) := by
  -- Each call but the last costs a retry; `budget` counts those left.
  induction budget with
  | zero =>
    intro calls retries exhausted
    obtain ⟨gap, limit, errors, ok⟩ := next_call schedule calls
    refine ⟨gap + 1, calls + gap + 1, ?_⟩
    intro fuel enough
    obtain ⟨more, rfl⟩ : ∃ k, fuel = k + 1 + gap := ⟨fuel - 1 - gap, by omega⟩
    rw [readLoop_skip _ _ _ _ _ _ _ _ left errors]
    have stop : maxRetries ≤ retries := by omega
    simp [readLoop, left, recv, ok, stop]
  | succ budget ih =>
    intro calls retries within
    obtain ⟨gap, limit, errors, ok⟩ := next_call schedule calls
    by_cases stop : maxRetries ≤ retries
    · exact ih calls retries (by omega)
    · obtain ⟨enough, calls', rest⟩ := ih (calls + gap + 1) (retries + 1) (by omega)
      refine ⟨enough + 1 + gap, calls', ?_⟩
      intro fuel bound
      obtain ⟨more, rfl⟩ : ∃ k, fuel = k + 1 + gap := ⟨fuel - 1 - gap, by omega⟩
      rw [readLoop_skip _ _ _ _ _ _ _ _ left errors, ← rest more (by omega)]
      simp [readLoop, left, recv, ok, stop]

/-- Reading `taken` bytes first and the rest afterwards reads the same bytes. -/
theorem read_rest (stream buffer : Bytes) (n taken : Nat) (within : taken ≤ n - buffer.length) :
    buffer ++ stream.take taken ++
        (stream.drop taken).take (n - (buffer ++ stream.take taken).length) =
      buffer ++ stream.take (n - buffer.length) ∧
    (stream.drop taken).drop (n - (buffer ++ stream.take taken).length) =
      stream.drop (n - buffer.length) := by
  rcases Nat.le_total taken stream.length with enough | short
  -- The first call is served in full, or empties the stream.
  · have rest : n - (buffer ++ stream.take taken).length = n - buffer.length - taken := by
      simp only [List.length_append, List.length_take]
      omega
    have whole : n - buffer.length = taken + (n - buffer.length - taken) := by omega
    rw [rest, List.append_assoc, ← List.take_add, List.drop_drop, ← whole]
    exact ⟨rfl, rfl⟩
  · have all : stream.take (n - buffer.length) = stream := List.take_of_length_le (by omega)
    have nothing : stream.drop (n - buffer.length) = [] := List.drop_of_length_le (by omega)
    simp [List.take_of_length_le short, List.drop_of_length_le short, all, nothing]

/-- The loop ends with the bytes asked for, or with all there are. -/
private theorem readLoop_total (schedule : RecvSchedule) (n : Nat) :
    ∀ size (stream : Bytes), stream.length ≤ size → ∀ calls (buffer : Bytes) retries,
      ∃ enough calls', ∀ fuel, enough ≤ fuel →
        readLoop schedule.choice n fuel ⟨stream, calls⟩ buffer retries =
          some (buffer ++ stream.take (n - buffer.length),
            ⟨stream.drop (n - buffer.length), calls'⟩) := by
  intro size
  -- Every call that is served makes the stream shorter.
  induction size with
  | zero =>
    intro stream empty calls buffer retries
    obtain rfl : stream = [] := List.eq_nil_of_length_eq_zero (by omega)
    -- At end of stream the retries run out, unless nothing was asked for.
    by_cases left : buffer.length < n
    · obtain ⟨enough, calls', ends⟩ :=
        readLoop_end schedule n buffer left maxRetries calls retries (by omega)
      exact ⟨enough, calls', by simpa using ends⟩
    · refine ⟨1, calls, fun fuel bound => ?_⟩
      obtain ⟨more, rfl⟩ : ∃ k, fuel = k + 1 := ⟨fuel - 1, by omega⟩
      simp [readLoop_full _ _ _ _ _ _ left]
  | succ size ih =>
    intro stream bound calls buffer retries
    by_cases left : buffer.length < n
    · by_cases more : stream = []
      · exact ih stream (by simp [more]) calls buffer retries
      · obtain ⟨gap, limit, errors, ok⟩ := next_call schedule calls
        -- One call hands out `taken` bytes, at least one of them.
        generalize htaken : min (n - buffer.length) (limit + 1) = taken
        have positive : 0 < taken := by omega
        have within : taken ≤ n - buffer.length := by omega
        have shorter : (stream.drop taken).length ≤ size := by
          have some := List.length_pos_of_ne_nil more
          simp only [List.length_drop]
          omega
        obtain ⟨enough, calls', rest⟩ :=
          ih (stream.drop taken) shorter (calls + gap + 1) (buffer ++ stream.take taken) 0
        refine ⟨enough + 1 + gap, calls', fun fuel bound => ?_⟩
        obtain ⟨spare, rfl⟩ : ∃ k, fuel = k + 1 + gap := ⟨fuel - 1 - gap, by omega⟩
        rw [readLoop_skip _ _ _ _ _ _ _ _ left errors]
        have joined := read_rest stream buffer n taken within
        rw [readLoop_data left ok htaken more, rest spare (by omega), joined.1, joined.2]
    · refine ⟨1, calls, fun fuel bound => ?_⟩
      obtain ⟨more, rfl⟩ : ∃ k, fuel = k + 1 := ⟨fuel - 1, by omega⟩
      have done : n - buffer.length = 0 := by omega
      simp [readLoop_full _ _ _ _ _ _ left, done]

theorem readN_total (schedule : RecvSchedule) (fd : RecvEnd) (n : Nat) :
    ∃ enough calls', ∀ fuel, enough ≤ fuel →
      readN schedule.choice fuel fd n = some (fd.stream.take n, ⟨fd.stream.drop n, calls'⟩) := by
  obtain ⟨enough, calls', total⟩ :=
    readLoop_total schedule n fd.stream.length fd.stream (Nat.le_refl _) fd.calls [] 0
  exact ⟨enough, calls', by simpa [readN] using total⟩

/-! ## The length field -/

/-- The digits of a word written to base 256. -/
private theorem word_digits {a b c d : Nat} (h0 : a < 256) (h1 : b < 256) (h2 : c < 256)
    (h3 : d < 256) :
    let x := a + 256 * (b + 256 * (c + 256 * d))
    x < 2 ^ 32 ∧ x % 256 = a ∧ x / 2 ^ 8 % 256 = b ∧ x / 2 ^ 16 % 256 = c ∧ x / 2 ^ 24 = d := by
  intro x
  refine ⟨?_, ?_, ?_, ?_, ?_⟩ <;> omega

private theorem bswap32_toNat {a b c d : Nat} (h0 : a < 256) (h1 : b < 256) (h2 : c < 256)
    (h3 : d < 256) (x : UInt32) (word : x.toNat = a + 256 * (b + 256 * (c + 256 * d))) :
    (bswap32 x).toNat = d + 256 * (c + 256 * (b + 256 * a)) := by
  obtain ⟨_, d0, d1, d2, d3⟩ := word_digits h0 h1 h2 h3
  rw [bswap32, UInt32.toNat_ofNat', word, d0, d1, d2, d3]
  omega

/-- On a little-endian machine the length field is read most significant byte first. -/
theorem convertByteArrayToInt_toNat {b : Bytes} (four : b.length = 4) :
    (convertByteArrayToInt b).toNat = bigEndian b := by
  match b, four with
  | [b0, b1, b2, b3], _ =>
    have bounds := word_digits b0.toNat_lt b1.toNat_lt b2.toNat_lt b3.toNat_lt
    have word : (loadWord [b0, b1, b2, b3]).toNat =
        b0.toNat + 256 * (b1.toNat + 256 * (b2.toNat + 256 * b3.toNat)) := by
      rw [loadWord, UInt32.toNat_ofNat']
      exact Nat.mod_eq_of_lt bounds.1
    rw [convertByteArrayToInt,
      bswap32_toNat b0.toNat_lt b1.toNat_lt b2.toNat_lt b3.toNat_lt _ word]
    simp only [bigEndian, List.foldl_cons, List.foldl_nil]
    omega

theorem convertIntToByteArray_eq (sz : UInt32) :
    convertIntToByteArray sz = frameHeader sz.toNat := by
  have bound := sz.toNat_lt
  have swapped := bswap32_toNat (a := sz.toNat % 256) (b := sz.toNat / 2 ^ 8 % 256)
    (c := sz.toNat / 2 ^ 16 % 256) (d := sz.toNat / 2 ^ 24) (by omega) (by omega) (by omega)
    (by omega) sz (by omega)
  obtain ⟨_, d0, d1, d2, d3⟩ := word_digits (a := sz.toNat / 2 ^ 24)
    (b := sz.toNat / 2 ^ 16 % 256) (c := sz.toNat / 2 ^ 8 % 256) (d := sz.toNat % 256)
    (by omega) (by omega) (by omega) (by omega)
  simp only [convertIntToByteArray, storeWord, frameHeader, swapped, List.cons.injEq, and_true,
    ← UInt8.toNat_inj, UInt8.toNat_ofNat', d3]
  exact ⟨by omega, by omega, by omega, by omega⟩

theorem constructMessage_eq {payload : Bytes} (bound : payload.length < 2 ^ 32) :
    constructMessage payload = frame payload := by
  have size : (UInt32.ofNat payload.length).toNat = payload.length := by
    rw [UInt32.toNat_ofNat']
    omega
  rw [constructMessage, convertIntToByteArray_eq, size, frame]

/-! ## `secure_recv` -/

/-- What `secure_recv` returns on a stream with these frames left. -/
def received : List Bytes → Nat × Option Bytes
  | [] => (0, none)
  | payload :: _ => (payload.length, some payload)

/-- One call takes the first frame, or reports the end and leaves nothing behind. -/
theorem secureRecv_frames (schedule : RecvSchedule) (fd : RecvEnd) :
    ∃ enough fd', frames fd'.stream = (frames fd.stream).tail ∧ ∀ fuel, enough ≤ fuel →
      secureRecv schedule.choice fuel fd = some (received (frames fd.stream), fd') := by
  obtain ⟨enough, calls, header⟩ := readN_total schedule fd 4
  by_cases short : fd.stream.length < 4
  -- Not even a length: nothing is received.
  · have rest : fd.stream.drop 4 = [] := List.drop_of_length_le (by omega)
    refine ⟨enough, ⟨fd.stream.drop 4, calls⟩, by simp [rest, frames_short short], ?_⟩
    intro fuel bound
    simp only [secureRecv, lengthSizeField, header fuel bound, Option.bind_some,
      frames_short short, received, List.length_take]
    split
    · rfl
    · omega
  · have four : (fd.stream.take 4).length = 4 := by simp; omega
    have size := convertByteArrayToInt_toNat four
    obtain ⟨enough', calls', body⟩ :=
      readN_total schedule ⟨fd.stream.drop 4, calls⟩ (bigEndian (fd.stream.take 4))
    by_cases cut : (fd.stream.drop 4).length < bigEndian (fd.stream.take 4)
    -- The length is there, but the stream ends inside the payload.
    · have rest : (fd.stream.drop 4).drop (bigEndian (fd.stream.take 4)) = [] :=
        List.drop_of_length_le (by omega)
      refine ⟨max enough enough', ⟨(fd.stream.drop 4).drop (bigEndian (fd.stream.take 4)), calls'⟩,
        by simp only [rest, frames_truncated cut]; rfl, ?_⟩
      intro fuel bound
      have missing : ((fd.stream.drop 4).take (bigEndian (fd.stream.take 4))).length ≠
          bigEndian (fd.stream.take 4) := by
        rw [List.length_take]
        omega
      simp only [secureRecv, lengthSizeField, header fuel (by omega), Option.bind_some, four,
        destructMessage, size, body fuel (by omega), ne_eq, not_true, ite_false, Nat.lt_irrefl]
      rw [if_pos missing, frames_truncated cut, received]
    -- The frame is complete.
    · have whole := frames_cons short cut
      refine ⟨max enough enough', ⟨(fd.stream.drop 4).drop (bigEndian (fd.stream.take 4)), calls'⟩,
        by rw [whole, List.tail_cons], ?_⟩
      intro fuel bound
      have complete : ((fd.stream.drop 4).take (bigEndian (fd.stream.take 4))).length =
          bigEndian (fd.stream.take 4) := by
        rw [List.length_take]
        omega
      simp only [secureRecv, lengthSizeField, header fuel (by omega), Option.bind_some, four,
        destructMessage, size, body fuel (by omega), ne_eq, not_true, ite_false, Nat.lt_irrefl]
      rw [if_neg (by simp [complete]), whole, received, complete]

/-- The results of `calls` calls on a stream with these frames. -/
def receivedTimes (payloads : List Bytes) : Nat → List (Nat × Option Bytes)
  | 0 => []
  | calls + 1 => received payloads :: receivedTimes payloads.tail calls

theorem secureRecvs_frames (schedule : RecvSchedule) (calls : Nat) (fd : RecvEnd) :
    ∃ enough, ∀ fuel, enough ≤ fuel →
      secureRecvs schedule.choice fuel calls fd = some (receivedTimes (frames fd.stream) calls) := by
  induction calls generalizing fd with
  | zero => exact ⟨0, fun _ _ => rfl⟩
  | succ calls ih =>
    obtain ⟨enough, fd', rest, first⟩ := secureRecv_frames schedule fd
    obtain ⟨enough', others⟩ := ih fd'
    refine ⟨max enough enough', fun fuel bound => ?_⟩
    simp [secureRecvs, first fuel (by omega), others fuel (by omega), rest, receivedTimes]

/-! ## `secure_send` -/

private theorem sendLoop_wire (limits : SendSchedule) (len : Nat) :
    ∀ fuel calls wire (remaining : Bytes), remaining.length ≤ fuel →
      (sendLoop limits.choice len fuel calls wire remaining).wire = wire ++ remaining ∧
        (sendLoop limits.choice len fuel calls wire remaining).result = some len := by
  intro fuel
  induction fuel with
  | zero =>
    intro calls wire remaining bound
    obtain rfl : remaining = [] := List.eq_nil_of_length_eq_zero (by omega)
    simp [sendLoop]
  | succ fuel ih =>
    intro calls wire remaining bound
    by_cases more : remaining.length > 0
    · have rest := ih (calls + 1) (wire ++ remaining.take (limits calls + 1))
        (remaining.drop (limits calls + 1)) (by simp only [List.length_drop]; omega)
      simp only [sendLoop, more, ite_true, SendSchedule.choice]
      simpa [List.append_assoc] using rest
    · obtain rfl : remaining = [] := List.eq_nil_of_length_eq_zero (by omega)
      simp [sendLoop]

/-- Short sends lose nothing. -/
theorem secureSend_wire (limits : SendSchedule) (calls : Nat) (data : Bytes) :
    (secureSend limits.choice calls data).wire = data ∧
      (secureSend limits.choice calls data).result = some data.length := by
  simpa [secureSend] using sendLoop_wire limits data.length data.length calls [] data (Nat.le_refl _)

/-- Whatever `send` does, the front of the data goes out, and `secure_send` fails exactly
when that is not all of it. -/
private theorem sendLoop_front (choice : Nat → SendChoice) (len : Nat) :
    ∀ fuel calls wire (remaining : Bytes), remaining.length ≤ fuel →
      ∃ front, front <+: remaining ∧
        (sendLoop choice len fuel calls wire remaining).wire = wire ++ front ∧
        ((sendLoop choice len fuel calls wire remaining).result = none ↔ front ≠ remaining) := by
  intro fuel
  induction fuel with
  | zero =>
    intro calls wire remaining bound
    obtain rfl : remaining = [] := List.eq_nil_of_length_eq_zero (by omega)
    exact ⟨[], List.nil_prefix, by simp [sendLoop], by simp [sendLoop]⟩
  | succ fuel ih =>
    intro calls wire remaining bound
    by_cases more : remaining.length > 0
    · cases next : choice calls with
      | error =>
        have left : remaining ≠ [] := List.ne_nil_of_length_pos more
        refine ⟨[], List.nil_prefix, ?_, ?_⟩
        · simp [sendLoop, more, next]
        · simpa [sendLoop, more, next] using left.symm
      | accept limit =>
        obtain ⟨front, part, sent, failed⟩ := ih (calls + 1) (wire ++ remaining.take (limit + 1))
          (remaining.drop (limit + 1)) (by simp only [List.length_drop]; omega)
        have whole := List.take_append_drop (limit + 1) remaining
        refine ⟨remaining.take (limit + 1) ++ front, ?_, ?_, ?_⟩
        · obtain ⟨rest, split⟩ := part
          exact ⟨rest, by rw [List.append_assoc, split, whole]⟩
        · simpa [sendLoop, more, next, List.append_assoc] using sent
        · simp only [sendLoop, more, ite_true, next, failed]
          -- The same bytes are in front on both sides.
          rw [not_iff_not]
          conv_rhs => rhs; rw [← whole]
          exact List.append_right_inj _ |>.symm
    · obtain rfl : remaining = [] := List.eq_nil_of_length_eq_zero (by omega)
      exact ⟨[], List.nil_prefix, by simp [sendLoop], by simp [sendLoop]⟩

theorem secureSend_isPrefix (choice : Nat → SendChoice) (calls : Nat) (data : Bytes) :
    (secureSend choice calls data).wire <+: data := by
  obtain ⟨front, part, sent, _⟩ :=
    sendLoop_front choice data.length data.length calls [] data (Nat.le_refl _)
  rwa [secureSend, sent, List.nil_append]

/-- `secure_send` reports a failure exactly when the data did not go out whole. -/
theorem secureSend_failed_iff (choice : Nat → SendChoice) (calls : Nat) (data : Bytes) :
    (secureSend choice calls data).result = none ↔ (secureSend choice calls data).wire ≠ data := by
  obtain ⟨front, _, sent, failed⟩ :=
    sendLoop_front choice data.length data.length calls [] data (Nat.le_refl _)
  rw [secureSend, failed, sent, List.nil_append]

/-- Nothing of the data goes out exactly when the first `send` fails. -/
theorem secureSend_silent_iff (choice : Nat → SendChoice) (calls : Nat) {data : Bytes}
    (some : data ≠ []) : (secureSend choice calls data).wire = [] ↔ choice calls = .error := by
  obtain ⟨b, bs, rfl⟩ := List.exists_cons_of_ne_nil some
  cases next : choice calls with
  | error => simp [secureSend, sendLoop, next]
  | accept limit =>
    obtain ⟨front, _, sent, _⟩ := sendLoop_front choice (b :: bs).length bs.length (calls + 1)
      ([] ++ (b :: bs).take (limit + 1)) ((b :: bs).drop (limit + 1)) (by simp)
    have step : (secureSend choice calls (b :: bs)).wire =
        [] ++ (b :: bs).take (limit + 1) ++ front := by
      rw [← sent]
      simp [secureSend, sendLoop, next]
    simp [step]

theorem sendMessages_wire (limits : SendSchedule) (calls : Nat) (payloads : List Bytes)
    (bound : ∀ p ∈ payloads, p.length < 2 ^ 32) :
    sendMessages limits.choice calls payloads = payloads.flatMap frame := by
  induction payloads generalizing calls with
  | nil => rfl
  | cons p ps ih =>
    simp only [sendMessages, (secureSend_wire limits _ _).1, List.flatMap_cons,
      constructMessage_eq (bound p (by simp))]
    rw [ih _ (fun q hq => bound q (by simp [hq]))]

/-- What was sent is received, in order and byte for byte; behind it `{0, nullptr}`. -/
theorem secureRecvs_sendMessages (schedule : RecvSchedule) (limits : SendSchedule)
    (payloads : List Bytes) (bound : ∀ p ∈ payloads, p.length < 2 ^ 32) (calls : Nat) :
    ∃ enough, ∀ fuel, enough ≤ fuel →
      secureRecvs schedule.choice fuel calls ⟨sendMessages limits.choice 0 payloads, 0⟩ =
        some (receivedTimes payloads calls) := by
  obtain ⟨enough, sent⟩ :=
    secureRecvs_frames schedule calls ⟨sendMessages limits.choice 0 payloads, 0⟩
  refine ⟨enough, fun fuel more => ?_⟩
  rw [sent fuel more, sendMessages_wire limits 0 payloads bound,
    frames_flatMap_frame payloads bound]

/-- `secure_recv` computes the reference parse of every stream under every schedule,
truncated tails included, and is inverse to `secure_send` with `construct_message`. -/
theorem framing_correct (schedule : RecvSchedule) (limits : SendSchedule) (s : Bytes)
    (payloads : List Bytes) (bound : ∀ p ∈ payloads, p.length < 2 ^ 32) (calls : Nat) :
    (∃ enough, ∀ fuel, enough ≤ fuel →
      secureRecvs schedule.choice fuel calls ⟨s, 0⟩ = some (receivedTimes (frames s) calls)) ∧
    (∃ enough, ∀ fuel, enough ≤ fuel →
      secureRecvs schedule.choice fuel calls ⟨sendMessages limits.choice 0 payloads, 0⟩ =
        some (receivedTimes payloads calls)) :=
  ⟨secureRecvs_frames schedule calls ⟨s, 0⟩,
    secureRecvs_sendMessages schedule limits payloads bound calls⟩

/-- Every call hands out a single byte. -/
def bytewise : RecvSchedule := ⟨fun _ => .upTo 0, fun i => ⟨i, Nat.le_refl i, by decide⟩⟩

theorem framing_correct_bytewise :
    (∃ enough, ∀ fuel, enough ≤ fuel →
      secureRecvs bytewise.choice fuel 3 ⟨[0, 0, 0, 1, 7, 0, 0, 0, 2, 9], 0⟩ =
        some [(1, some [7]), (0, none), (0, none)]) ∧
    (∃ enough, ∀ fuel, enough ≤ fuel →
      secureRecvs bytewise.choice fuel 3 ⟨sendMessages (SendSchedule.choice fun _ => 0) 0 [[5], []], 0⟩ =
        some [(1, some [5]), (0, some []), (0, none)]) := by
  have correct := framing_correct bytewise (fun _ => 0) [0, 0, 0, 1, 7, 0, 0, 0, 2, 9] [[5], []]
    (by simp) 3
  have read : receivedTimes (frames [0, 0, 0, 1, 7, 0, 0, 0, 2, 9]) 3 =
      [(1, some [7]), (0, none), (0, none)] := by decide
  have sent : receivedTimes [[5], []] 3 = [(1, some [5]), (0, some []), (0, none)] := by decide
  rwa [read, sent] at correct

end CloudLab.Transport
