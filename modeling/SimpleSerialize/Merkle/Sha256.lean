/-
SHA-256, the hash of chunks.

A message is padded to whole blocks of 64 bytes: a one bit, zeros, and the number of its bits.  Each
block is expanded to a schedule of 64 words and stirred into a state of eight words, one word in
each of 64 rounds.  `digest` gives the final state as 32 bytes.
-/
import SimpleSerialize.Merkle.Tree

namespace SimpleSerialize.Sha256

/-- The state between two rounds. -/
structure State where
  a : UInt32
  b : UInt32
  c : UInt32
  d : UInt32
  e : UInt32
  f : UInt32
  g : UInt32
  h : UInt32

/-- The state before the first block: fractional parts of the square roots of the first eight
primes. -/
def initial : State :=
  ⟨0x6a09e667, 0xbb67ae85, 0x3c6ef372, 0xa54ff53a, 0x510e527f, 0x9b05688c, 0x1f83d9ab, 0x5be0cd19⟩

/-- The constant of each round: fractional parts of the cube roots of the first 64 primes. -/
def roundConstants : List UInt32 := [
  0x428a2f98, 0x71374491, 0xb5c0fbcf, 0xe9b5dba5, 0x3956c25b, 0x59f111f1, 0x923f82a4, 0xab1c5ed5,
  0xd807aa98, 0x12835b01, 0x243185be, 0x550c7dc3, 0x72be5d74, 0x80deb1fe, 0x9bdc06a7, 0xc19bf174,
  0xe49b69c1, 0xefbe4786, 0x0fc19dc6, 0x240ca1cc, 0x2de92c6f, 0x4a7484aa, 0x5cb0a9dc, 0x76f988da,
  0x983e5152, 0xa831c66d, 0xb00327c8, 0xbf597fc7, 0xc6e00bf3, 0xd5a79147, 0x06ca6351, 0x14292967,
  0x27b70a85, 0x2e1b2138, 0x4d2c6dfc, 0x53380d13, 0x650a7354, 0x766a0abb, 0x81c2c92e, 0x92722c85,
  0xa2bfe8a1, 0xa81a664b, 0xc24b8b70, 0xc76c51a3, 0xd192e819, 0xd6990624, 0xf40e3585, 0x106aa070,
  0x19a4c116, 0x1e376c08, 0x2748774c, 0x34b0bcb5, 0x391c0cb3, 0x4ed8aa4a, 0x5b9cca4f, 0x682e6ff3,
  0x748f82ee, 0x78a5636f, 0x84c87814, 0x8cc70208, 0x90befffa, 0xa4506ceb, 0xbef9a3f7, 0xc67178f2]

/-- Turns a word to the right. -/
def rotate (n x : UInt32) : UInt32 := (x >>> n) ||| (x <<< (32 - n))

/-- One round. -/
def State.next (s : State) (constant word : UInt32) : State :=
  let choice := (s.e &&& s.f) ^^^ (~~~s.e &&& s.g)
  let majority := (s.a &&& s.b) ^^^ (s.a &&& s.c) ^^^ (s.b &&& s.c)
  let t := s.h + (rotate 6 s.e ^^^ rotate 11 s.e ^^^ rotate 25 s.e) + choice + constant + word
  let u := (rotate 2 s.a ^^^ rotate 13 s.a ^^^ rotate 22 s.a) + majority
  ⟨t + u, s.a, s.b, s.c, s.d + t, s.e, s.f, s.g⟩

def State.add (s t : State) : State :=
  ⟨s.a + t.a, s.b + t.b, s.c + t.c, s.d + t.d, s.e + t.e, s.f + t.f, s.g + t.g, s.h + t.h⟩

/-- The big-endian words of a block. -/
def wordsOf : Bytes → List UInt32
  | a :: b :: c :: d :: rest =>
    ((a.toUInt32 <<< 24) ||| (b.toUInt32 <<< 16) ||| (c.toUInt32 <<< 8) ||| d.toUInt32)
      :: wordsOf rest
  | _ => []

/-- Appends the next word of a schedule. -/
def extend (words : Array UInt32) : Array UInt32 :=
  let back (n : Nat) : UInt32 := words.getD (words.size - n) 0
  let x := back 15
  let y := back 2
  let s := rotate 7 x ^^^ rotate 18 x ^^^ (x >>> 3)
  let t := rotate 17 y ^^^ rotate 19 y ^^^ (y >>> 10)
  words.push (back 16 + s + back 7 + t)

/-- Appends `more` words to a schedule. -/
def extendBy : (more : Nat) → Array UInt32 → Array UInt32
  | 0, words => words
  | more + 1, words => extendBy more (extend words)

/-- The words of the 64 rounds of a block of 16 words. -/
def schedule (block : List UInt32) : List UInt32 := (extendBy 48 block.toArray).toList

/-- Goes through rounds. -/
def State.stir : State → (constants words : List UInt32) → State
  | s, constant :: constants, word :: words => (s.next constant word).stir constants words
  | s, _, _ => s

/-- Stirs a block into the state. -/
def State.absorb (s : State) (block : List UInt32) : State :=
  s.add (s.stir roundConstants (schedule block))

/-- Fills a message up to whole blocks. -/
def padMessage (message : Bytes) : Bytes :=
  let zeros := (119 - message.length % 64) % 64
  let length := (LittleEndian.encode 8 (8 * message.length)).reverse
  message ++ (0x80 :: List.replicate zeros 0 ++ length)

/-- The big-endian bytes of a word. -/
def bytesOf (word : UInt32) : Bytes :=
  [(word >>> 24).toUInt8, (word >>> 16).toUInt8, (word >>> 8).toUInt8, word.toUInt8]

/-- The bytes of a state. -/
def State.root (s : State) : Root :=
  ⟨bytesOf s.a ++ bytesOf s.b ++ bytesOf s.c ++ bytesOf s.d ++ bytesOf s.e ++ bytesOf s.f
    ++ bytesOf s.g ++ bytesOf s.h, by simp [bytesOf]⟩

/-- The digest of a message. -/
def digest (message : Bytes) : Root :=
  let words := wordsOf (padMessage message)
  ((chunks 16 (words.length / 16) words).foldl State.absorb initial).root

end SimpleSerialize.Sha256

namespace SimpleSerialize

/-- Hashes two chunks as one message of 64 bytes. -/
def Hasher.sha256 : Hasher where
  pair left right := Sha256.digest (left.bytes ++ right.bytes)

end SimpleSerialize
