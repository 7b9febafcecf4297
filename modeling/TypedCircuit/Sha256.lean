/-!
# SHA-256

The hash of FIPS 180-4, on byte arrays. A message is padded to whole blocks of 64 bytes,
each block is expanded to a schedule of 64 words, and 64 rounds stir the schedule into
the eight words of the state.

Everything is arithmetic on 32-bit words, which wraps as the standard asks.

The hash stands for that of the package `sha2`, of which is assumed that it computes what the
standard says. Of the hash itself nothing is assumed, not even that it has no collisions.
-/

namespace TypedCircuit.Sha256

/-- The eight words of the hash state. -/
structure State where
  a : UInt32
  b : UInt32
  c : UInt32
  d : UInt32
  e : UInt32
  f : UInt32
  g : UInt32
  h : UInt32

/-- The state before the first block. -/
def State.start : State :=
  ⟨0x6a09e667, 0xbb67ae85, 0x3c6ef372, 0xa54ff53a,
    0x510e527f, 0x9b05688c, 0x1f83d9ab, 0x5be0cd19⟩

/-- The constants of the 64 rounds. -/
def roundConstants : Array UInt32 := #[
  0x428a2f98, 0x71374491, 0xb5c0fbcf, 0xe9b5dba5, 0x3956c25b, 0x59f111f1, 0x923f82a4, 0xab1c5ed5,
  0xd807aa98, 0x12835b01, 0x243185be, 0x550c7dc3, 0x72be5d74, 0x80deb1fe, 0x9bdc06a7, 0xc19bf174,
  0xe49b69c1, 0xefbe4786, 0x0fc19dc6, 0x240ca1cc, 0x2de92c6f, 0x4a7484aa, 0x5cb0a9dc, 0x76f988da,
  0x983e5152, 0xa831c66d, 0xb00327c8, 0xbf597fc7, 0xc6e00bf3, 0xd5a79147, 0x06ca6351, 0x14292967,
  0x27b70a85, 0x2e1b2138, 0x4d2c6dfc, 0x53380d13, 0x650a7354, 0x766a0abb, 0x81c2c92e, 0x92722c85,
  0xa2bfe8a1, 0xa81a664b, 0xc24b8b70, 0xc76c51a3, 0xd192e819, 0xd6990624, 0xf40e3585, 0x106aa070,
  0x19a4c116, 0x1e376c08, 0x2748774c, 0x34b0bcb5, 0x391c0cb3, 0x4ed8aa4a, 0x5b9cca4f, 0x682e6ff3,
  0x748f82ee, 0x78a5636f, 0x84c87814, 0x8cc70208, 0x90befffa, 0xa4506ceb, 0xbef9a3f7, 0xc67178f2]

/-- Rotation to the right by `n` bits, for `n` between 1 and 31. -/
def rotateRight (x n : UInt32) : UInt32 := (x >>> n) ||| (x <<< (32 - n))

/-- One round with a constant and a word of the schedule. -/
def State.round (s : State) (constant word : UInt32) : State :=
  let sum1 := rotateRight s.e 6 ^^^ rotateRight s.e 11 ^^^ rotateRight s.e 25
  let choice := (s.e &&& s.f) ^^^ (~~~ s.e &&& s.g)
  let t1 := s.h + sum1 + choice + constant + word
  let sum0 := rotateRight s.a 2 ^^^ rotateRight s.a 13 ^^^ rotateRight s.a 22
  let majority := (s.a &&& s.b) ^^^ (s.a &&& s.c) ^^^ (s.b &&& s.c)
  ⟨t1 + (sum0 + majority), s.a, s.b, s.c, s.d + t1, s.e, s.f, s.g⟩

/-- The wordwise sum of two states. -/
def State.add (s t : State) : State :=
  ⟨s.a + t.a, s.b + t.b, s.c + t.c, s.d + t.d, s.e + t.e, s.f + t.f, s.g + t.g, s.h + t.h⟩

/-- The word in big-endian order at a byte position. -/
def wordAt (bytes : ByteArray) (i : Nat) : UInt32 :=
  let byte (k : Nat) : UInt32 := (bytes.get! (i + k)).toUInt32
  (byte 0 <<< 24) ||| (byte 1 <<< 16) ||| (byte 2 <<< 8) ||| byte 3

/-- Extends a schedule by one word. -/
def extendSchedule (words : Array UInt32) (i : Nat) : Array UInt32 :=
  let word (k : Nat) : UInt32 := words.getD (i - k) 0
  let x := word 15
  let y := word 2
  let sigma0 := rotateRight x 7 ^^^ rotateRight x 18 ^^^ (x >>> 3)
  let sigma1 := rotateRight y 17 ^^^ rotateRight y 19 ^^^ (y >>> 10)
  words.push (word 16 + sigma0 + word 7 + sigma1)

/-- The schedule of the block at a byte position. -/
def schedule (bytes : ByteArray) (start : Nat) : Array UInt32 :=
  let first := (List.range 16).foldl
    (fun words k => words.push (wordAt bytes (start + 4 * k))) (Array.mkEmpty 64)
  (List.range 48).foldl (fun words k => extendSchedule words (k + 16)) first

/-- The state after the block at a byte position. -/
def State.block (s : State) (bytes : ByteArray) (start : Nat) : State :=
  let words := schedule bytes start
  let stirred := (List.range 64).foldl
    (fun t k => t.round (roundConstants.getD k 0) (words.getD k 0)) s
  s.add stirred

/-- Appends `count` copies of a byte. -/
def pushBytes (bytes : ByteArray) (byte : UInt8) : Nat → ByteArray
  | 0 => bytes
  | count + 1 => pushBytes (bytes.push byte) byte count

/-- The message, a one bit, zeros, and the length in bits as a 64-bit word. -/
def padded (message : ByteArray) : ByteArray :=
  let length := message.size
  let zeros := (119 - length % 64) % 64
  let body := pushBytes (message.push 0x80) 0 zeros
  (List.range 8).foldl
    (fun out k => out.push (UInt8.ofNat ((8 * length) >>> (8 * (7 - k)) % 256))) body

/-- The state after the whole message. -/
def finalState (message : ByteArray) : State :=
  let bytes := padded message
  (List.range (bytes.size / 64)).foldl (fun s k => s.block bytes (64 * k)) State.start

/-- A word as eight hexadecimal digits. -/
def wordHex (w : UInt32) : String :=
  String.ofList ((List.range 8).map fun k => Nat.digitChar ((w.toNat >>> (4 * (7 - k))) % 16))

/-- The hash of a byte array in lowercase hexadecimal. -/
def hexDigest (message : ByteArray) : String :=
  let s := finalState message
  String.join ([s.a, s.b, s.c, s.d, s.e, s.f, s.g, s.h].map wordHex)

/-- The hash of the UTF-8 form of a text. -/
def ofText (text : String) : String := hexDigest text.toUTF8

end TypedCircuit.Sha256
