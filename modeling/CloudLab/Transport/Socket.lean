import CloudLab.Library.Frames

/-!
# Sockets: `read_n`, `secure_recv`, `secure_send`, `construct_message`

The transport shared by tasks 1 to 3 (`shared.cpp`, `shared.h`, and copied into
`task3/source/server.cpp` and `client.cpp`). A connection is seen from its two
ends: the receiving end holds the bytes that have not been handed out yet, end of
stream behind them; how `recv` hands them out and how much `send` accepts is a
schedule, one choice for each call.
-/
namespace CloudLab.Transport

open Library

/-- One call to `recv`: up to `limit + 1` of the requested bytes, or a negative result. -/
inductive RecvChoice where
  | upTo (limit : Nat)
  | error
  deriving DecidableEq

/-- The receiving end of a connection: what is still to come, and the calls made. -/
structure RecvEnd where
  stream : Bytes
  calls : Nat
  deriving DecidableEq

/-- `data []` is the result 0, possible at end of stream only. -/
inductive RecvResult where
  | error
  | data (bs : Bytes)

def recv (choice : Nat → RecvChoice) (fd : RecvEnd) (n : Nat) : RecvResult × RecvEnd :=
  match choice fd.calls with
  | .error => (.error, ⟨fd.stream, fd.calls + 1⟩)
  | .upTo limit =>
    (.data (fd.stream.take (min n (limit + 1))),
      ⟨fd.stream.drop (min n (limit + 1)), fd.calls + 1⟩)

def maxRetries : Nat := 10000

/-- The loop of `read_n`; the fuel counts its iterations. `buffer` holds the
`bytes_read` bytes received so far. -/
def readLoop (choice : Nat → RecvChoice) (n : Nat) :
    Nat → RecvEnd → Bytes → Nat → Option (Bytes × RecvEnd)
  | 0, _, _, _ => none
  | fuel + 1, fd, buffer, retries =>
    if buffer.length < n then
      match recv choice fd (n - buffer.length) with
      | (.data [], fd) =>
        if retries ≥ maxRetries then some (buffer, fd)
        else readLoop choice n fuel fd buffer (retries + 1)
      | (.data (b :: bs), fd) => readLoop choice n fuel fd (buffer ++ b :: bs) 0
      | (.error, fd) => readLoop choice n fuel fd buffer retries
    else some (buffer, fd)

def readN (choice : Nat → RecvChoice) (fuel : Nat) (fd : RecvEnd) (n : Nat) :
    Option (Bytes × RecvEnd) :=
  readLoop choice n fuel fd [] 0

/-! ## The length field -/

def lengthSizeField : Nat := 4

/-- The bytes of a word in memory on a little-endian machine. -/
def storeWord (x : UInt32) : Bytes :=
  [UInt8.ofNat x.toNat, UInt8.ofNat (x.toNat / 2 ^ 8), UInt8.ofNat (x.toNat / 2 ^ 16),
    UInt8.ofNat (x.toNat / 2 ^ 24)]

/-- `memcpy` of the first four bytes of a buffer into a word. -/
def loadWord (bs : Bytes) : UInt32 :=
  UInt32.ofNat ((bs.take 4).foldr (fun b n => b.toNat + 256 * n) 0)

/-- `__builtin_bswap32` -/
def bswap32 (x : UInt32) : UInt32 :=
  UInt32.ofNat (x.toNat % 256 * 2 ^ 24 + x.toNat / 2 ^ 8 % 256 * 2 ^ 16 +
    x.toNat / 2 ^ 16 % 256 * 2 ^ 8 + x.toNat / 2 ^ 24)

def convertByteArrayToInt (b : Bytes) : UInt32 := bswap32 (loadWord b)

def convertIntToByteArray (sz : UInt32) : Bytes := storeWord (bswap32 sz)

/-- The size is converted to `uint32_t`, so it is kept modulo 2^32. -/
def constructMessage (payload : Bytes) : Bytes :=
  convertIntToByteArray (UInt32.ofNat payload.length) ++ payload

def destructMessage (msg : Bytes) (bytes : Nat) : Option UInt32 :=
  if bytes < 4 then none else some (convertByteArrayToInt msg)

/-- `secure_recv`: the size and the buffer, `none` standing for `nullptr`. -/
def secureRecv (choice : Nat → RecvChoice) (fuel : Nat) (fd : RecvEnd) :
    Option ((Nat × Option Bytes) × RecvEnd) :=
  (readN choice fuel fd lengthSizeField).bind fun (dlen, fd) =>
    if dlen.length ≠ lengthSizeField then some ((0, none), fd)
    else
      match destructMessage dlen lengthSizeField with
      | none => some ((0, none), fd)
      | some size =>
        (readN choice fuel fd size.toNat).bind fun (buf, fd) =>
          if buf.length ≠ size.toNat then some ((0, none), fd)
          else some ((size.toNat, some buf), fd)

/-- `secure_recv` called `calls` times on one descriptor. -/
def secureRecvs (choice : Nat → RecvChoice) (fuel : Nat) :
    Nat → RecvEnd → Option (List (Nat × Option Bytes))
  | 0, _ => some []
  | calls + 1, fd =>
    (secureRecv choice fuel fd).bind fun (result, fd) =>
      (secureRecvs choice fuel calls fd).map (result :: ·)

/-! ## Sending -/

/-- One call to `send`: up to `limit + 1` bytes are accepted, or it fails. -/
inductive SendChoice where
  | accept (limit : Nat)
  | error
  deriving DecidableEq

/-- What has reached the peer, what `secure_send` returned, and the calls made. -/
structure Sent where
  wire : Bytes
  result : Option Nat
  calls : Nat
  deriving DecidableEq

/-- The loop of `secure_send`. Every round accepts at least one byte, so the number
of bytes is fuel enough. -/
def sendLoop (choice : Nat → SendChoice) (len : Nat) : Nat → Nat → Bytes → Bytes → Sent
  | 0, calls, wire, _ => ⟨wire, some len, calls⟩
  | fuel + 1, calls, wire, remaining =>
    if remaining.length > 0 then
      match choice calls with
      | .error => ⟨wire, none, calls + 1⟩
      | .accept limit =>
        sendLoop choice len fuel (calls + 1) (wire ++ remaining.take (limit + 1))
          (remaining.drop (limit + 1))
    else ⟨wire, some len, calls⟩

def secureSend (choice : Nat → SendChoice) (calls : Nat) (data : Bytes) : Sent :=
  sendLoop choice data.length data.length calls [] data

/-- The payloads sent one after the other, each behind `construct_message`. -/
def sendMessages (choice : Nat → SendChoice) : Nat → List Bytes → Bytes
  | _, [] => []
  | calls, payload :: payloads =>
    let sent := secureSend choice calls (constructMessage payload)
    sent.wire ++ sendMessages choice sent.calls payloads

example : constructMessage [1, 2, 3] = [0, 0, 0, 3, 1, 2, 3] := by decide

end CloudLab.Transport
