/-!
# SHA-256

The message is padded with one set bit, zeros and its length in bits to a multiple of 64 bytes; each
block is expanded to 64 words and folded into the state.
-/

namespace ContentSpaces.Sha256

structure State where
  a : UInt32
  b : UInt32
  c : UInt32
  d : UInt32
  e : UInt32
  f : UInt32
  g : UInt32
  h : UInt32

def initial : State :=
  ⟨0x6a09e667, 0xbb67ae85, 0x3c6ef372, 0xa54ff53a, 0x510e527f, 0x9b05688c, 0x1f83d9ab, 0x5be0cd19⟩

def constants : Array UInt32 := #[
  0x428a2f98, 0x71374491, 0xb5c0fbcf, 0xe9b5dba5, 0x3956c25b, 0x59f111f1, 0x923f82a4, 0xab1c5ed5,
  0xd807aa98, 0x12835b01, 0x243185be, 0x550c7dc3, 0x72be5d74, 0x80deb1fe, 0x9bdc06a7, 0xc19bf174,
  0xe49b69c1, 0xefbe4786, 0x0fc19dc6, 0x240ca1cc, 0x2de92c6f, 0x4a7484aa, 0x5cb0a9dc, 0x76f988da,
  0x983e5152, 0xa831c66d, 0xb00327c8, 0xbf597fc7, 0xc6e00bf3, 0xd5a79147, 0x06ca6351, 0x14292967,
  0x27b70a85, 0x2e1b2138, 0x4d2c6dfc, 0x53380d13, 0x650a7354, 0x766a0abb, 0x81c2c92e, 0x92722c85,
  0xa2bfe8a1, 0xa81a664b, 0xc24b8b70, 0xc76c51a3, 0xd192e819, 0xd6990624, 0xf40e3585, 0x106aa070,
  0x19a4c116, 0x1e376c08, 0x2748774c, 0x34b0bcb5, 0x391c0cb3, 0x4ed8aa4a, 0x5b9cca4f, 0x682e6ff3,
  0x748f82ee, 0x78a5636f, 0x84c87814, 0x8cc70208, 0x90befffa, 0xa4506ceb, 0xbef9a3f7, 0xc67178f2]

def rotateRight (x : UInt32) (n : UInt32) : UInt32 := (x >>> n) ||| (x <<< (32 - n))

def padded (message : ByteArray) : ByteArray :=
  let zeros := (119 - message.size % 64) % 64
  let bits := message.size * 8
  let withBit := message.push 0x80
  let withZeros := (List.replicate zeros (0 : UInt8)).foldl ByteArray.push withBit
  (List.range 8).foldl (fun bytes i => bytes.push (bits >>> (8 * (7 - i))).toUInt8) withZeros

def word (bytes : ByteArray) (i : Nat) : UInt32 :=
  let byte (j : Nat) : UInt32 := (bytes[i + j]?.getD 0).toUInt32
  (byte 0 <<< 24) ||| (byte 1 <<< 16) ||| (byte 2 <<< 8) ||| byte 3

/-- The sixteen words of the block at `start`, expanded to sixty-four. -/
def schedule (bytes : ByteArray) (start : Nat) : Array UInt32 :=
  let first := (Array.range 16).map fun i => word bytes (start + 4 * i)
  (List.range 48).foldl
    (fun words i =>
      let at' (j : Nat) : UInt32 := words[j]?.getD 0
      let s0 := at' (i + 1)
      let s1 := at' (i + 14)
      let low := rotateRight s0 7 ^^^ rotateRight s0 18 ^^^ (s0 >>> 3)
      let high := rotateRight s1 17 ^^^ rotateRight s1 19 ^^^ (s1 >>> 10)
      words.push (at' i + low + at' (i + 9) + high))
    first

def round (s : State) (constant word : UInt32) : State :=
  let big1 := rotateRight s.e 6 ^^^ rotateRight s.e 11 ^^^ rotateRight s.e 25
  let choice := (s.e &&& s.f) ^^^ ((s.e ^^^ 0xffffffff) &&& s.g)
  let t1 := s.h + big1 + choice + constant + word
  let big0 := rotateRight s.a 2 ^^^ rotateRight s.a 13 ^^^ rotateRight s.a 22
  let majority := (s.a &&& s.b) ^^^ (s.a &&& s.c) ^^^ (s.b &&& s.c)
  ⟨t1 + big0 + majority, s.a, s.b, s.c, s.d + t1, s.e, s.f, s.g⟩

def compress (s : State) (words : Array UInt32) : State :=
  let t := (constants.zip words).foldl (fun s kw => round s kw.1 kw.2) s
  ⟨s.a + t.a, s.b + t.b, s.c + t.c, s.d + t.d, s.e + t.e, s.f + t.f, s.g + t.g, s.h + t.h⟩

def finalState (message : ByteArray) : State :=
  let bytes := padded message
  (List.range (bytes.size / 64)).foldl (fun s i => compress s (schedule bytes (64 * i))) initial

def wordHex (w : UInt32) : List Char :=
  (List.range 8).map fun i => Nat.digitChar ((w.toNat >>> (4 * (7 - i))) % 16)

def hex (message : ByteArray) : String :=
  let s := finalState message
  String.ofList ([s.a, s.b, s.c, s.d, s.e, s.f, s.g, s.h].flatMap wordHex)

theorem size_foldl_push {α : Type} (byte : α → UInt8) (xs : List α) (bytes : ByteArray) :
    (xs.foldl (fun bytes x => bytes.push (byte x)) bytes).size = bytes.size + xs.length := by
  induction xs generalizing bytes with
  | nil => rfl
  | cons x xs ih =>
    rw [List.foldl_cons, ih, ByteArray.size_push, List.length_cons]
    omega

/-- The padded message is made of whole blocks. -/
theorem size_padded_mod (message : ByteArray) : (padded message).size % 64 = 0 := by
  have hzeros := size_foldl_push id (List.replicate ((119 - message.size % 64) % 64) 0)
    (message.push 0x80)
  simp only [id, List.length_replicate, ByteArray.size_push] at hzeros
  unfold padded
  rw [size_foldl_push, hzeros, List.length_range]
  omega

theorem length_hex (message : ByteArray) : (hex message).length = 64 := by
  simp [hex, wordHex]

example : hex "abc".toUTF8 = "ba7816bf8f01cfea414140de5dae2223b00361a396177a9cb410ff61f20015ad" := by
  decide +kernel

end ContentSpaces.Sha256
