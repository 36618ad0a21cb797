import Bitlens.Lib.Bytes

namespace Bitlens.Lib.Sha256

/-! The hash function of FIPS 180-4, on words below `2 ^ 32`, so that concrete runs can be evaluated. -/

def rotr (n x : Nat) : Nat := (x >>> n ||| x <<< (32 - n)) % 2 ^ 32

def bigSigma0 (x : Nat) : Nat := rotr 2 x ^^^ rotr 13 x ^^^ rotr 22 x

def bigSigma1 (x : Nat) : Nat := rotr 6 x ^^^ rotr 11 x ^^^ rotr 25 x

def smallSigma0 (x : Nat) : Nat := rotr 7 x ^^^ rotr 18 x ^^^ x >>> 3

def smallSigma1 (x : Nat) : Nat := rotr 17 x ^^^ rotr 19 x ^^^ x >>> 10

def ch (x y z : Nat) : Nat := (x &&& y) ^^^ ((2 ^ 32 - 1 - x) &&& z)

def maj (x y z : Nat) : Nat := (x &&& y) ^^^ (x &&& z) ^^^ (y &&& z)

/-- The first 32 bits of the fractional parts of the cube roots of the first 64 primes. -/
def constants : List Nat :=
  [0x428a2f98, 0x71374491, 0xb5c0fbcf, 0xe9b5dba5, 0x3956c25b, 0x59f111f1, 0x923f82a4, 0xab1c5ed5,
    0xd807aa98, 0x12835b01, 0x243185be, 0x550c7dc3, 0x72be5d74, 0x80deb1fe, 0x9bdc06a7, 0xc19bf174,
    0xe49b69c1, 0xefbe4786, 0x0fc19dc6, 0x240ca1cc, 0x2de92c6f, 0x4a7484aa, 0x5cb0a9dc, 0x76f988da,
    0x983e5152, 0xa831c66d, 0xb00327c8, 0xbf597fc7, 0xc6e00bf3, 0xd5a79147, 0x06ca6351, 0x14292967,
    0x27b70a85, 0x2e1b2138, 0x4d2c6dfc, 0x53380d13, 0x650a7354, 0x766a0abb, 0x81c2c92e, 0x92722c85,
    0xa2bfe8a1, 0xa81a664b, 0xc24b8b70, 0xc76c51a3, 0xd192e819, 0xd6990624, 0xf40e3585, 0x106aa070,
    0x19a4c116, 0x1e376c08, 0x2748774c, 0x34b0bcb5, 0x391c0cb3, 0x4ed8aa4a, 0x5b9cca4f, 0x682e6ff3,
    0x748f82ee, 0x78a5636f, 0x84c87814, 0x8cc70208, 0x90befffa, 0xa4506ceb, 0xbef9a3f7, 0xc67178f2]

structure State where
  a : Nat
  b : Nat
  c : Nat
  d : Nat
  e : Nat
  f : Nat
  g : Nat
  h : Nat

namespace State

/-- The first 32 bits of the fractional parts of the square roots of the first eight primes. -/
def initial : State :=
  ⟨0x6a09e667, 0xbb67ae85, 0x3c6ef372, 0xa54ff53a, 0x510e527f, 0x9b05688c, 0x1f83d9ab, 0x5be0cd19⟩

def add (s t : State) : State :=
  ⟨(s.a + t.a) % 2 ^ 32, (s.b + t.b) % 2 ^ 32, (s.c + t.c) % 2 ^ 32, (s.d + t.d) % 2 ^ 32, (s.e + t.e) % 2 ^ 32,
    (s.f + t.f) % 2 ^ 32, (s.g + t.g) % 2 ^ 32, (s.h + t.h) % 2 ^ 32⟩

def bytes (s : State) : Bytes :=
  beBytes 4 s.a ++ beBytes 4 s.b ++ beBytes 4 s.c ++ beBytes 4 s.d ++ beBytes 4 s.e ++ beBytes 4 s.f ++ beBytes 4 s.g ++
    beBytes 4 s.h

theorem length_bytes (s : State) : s.bytes.length = 32 := by
  simp [bytes]

end State

/-- The word behind sixteen words of the message schedule. -/
def nextWord : List Nat → Nat
  | [w0, w1, _, _, _, _, _, _, _, w9, _, _, _, _, w14, _] => (w0 + smallSigma0 w1 + w9 + smallSigma1 w14) % 2 ^ 32
  | _ => 0

/-- The rounds with these constants, with the next sixteen words of the message schedule. -/
def rounds : List Nat → List Nat → State → State
  | k :: constants, w :: words, s =>
    let t1 := s.h + bigSigma1 s.e + ch s.e s.f s.g + k + w
    let t2 := bigSigma0 s.a + maj s.a s.b s.c
    rounds constants (words ++ [nextWord (w :: words)])
      ⟨(t1 + t2) % 2 ^ 32, s.a, s.b, s.c, (s.d + t1) % 2 ^ 32, s.e, s.f, s.g⟩
  | _, _, s => s

def words : Bytes → List Nat
  | a :: b :: c :: d :: rest => beNat [a, b, c, d] :: words rest
  | _ => []

/-- The message with its padding. -/
def padded (message : Bytes) : Bytes :=
  message ++ [0x80] ++ List.replicate ((119 - message.length % 64) % 64) 0 ++ beBytes 8 (8 * message.length)

def compressAll : Nat → List Nat → State → State
  | 0, _, s => s
  | blocks + 1, words, s => compressAll blocks (words.drop 16) (s.add (rounds constants (words.take 16) s))

def sha256 (message : Bytes) : ByteArr 32 :=
  let bytes := padded message
  let s := compressAll (bytes.length / 64) (words bytes) .initial
  ⟨s.bytes, s.length_bytes⟩

/-- The hash of the empty message. -/
example : sha256 [] = ⟨[0xe3, 0xb0, 0xc4, 0x42, 0x98, 0xfc, 0x1c, 0x14, 0x9a, 0xfb, 0xf4, 0xc8, 0x99, 0x6f, 0xb9, 0x24, 0x27,
    0xae, 0x41, 0xe4, 0x64, 0x9b, 0x93, 0x4c, 0xa4, 0x95, 0x99, 0x1b, 0x78, 0x52, 0xb8, 0x55], rfl⟩ := by
  decide +kernel

end Bitlens.Lib.Sha256
