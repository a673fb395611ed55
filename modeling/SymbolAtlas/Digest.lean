/-
# SymbolAtlas.Digest -- a 64-bit digest of a file's content

The digest is XXH3 with the default secret and seed zero.  The length of the
content decides how it is mixed: up to 16 bytes at once, up to 240 bytes in pairs
of words against the secret, and beyond that in stripes of 64 bytes that eight
lanes accumulate.  `hexOf` is the form in which digests are stored.
-/
import SymbolAtlas.Text.Quoted

set_option autoImplicit false

namespace SymbolAtlas.Digest

/-- The bytes that content is mixed with. -/
def secret : ByteArray := ⟨#[
  0xb8, 0xfe, 0x6c, 0x39, 0x23, 0xa4, 0x4b, 0xbe, 0x7c, 0x01, 0x81, 0x2c, 0xf7, 0x21, 0xad, 0x1c,
  0xde, 0xd4, 0x6d, 0xe9, 0x83, 0x90, 0x97, 0xdb, 0x72, 0x40, 0xa4, 0xa4, 0xb7, 0xb3, 0x67, 0x1f,
  0xcb, 0x79, 0xe6, 0x4e, 0xcc, 0xc0, 0xe5, 0x78, 0x82, 0x5a, 0xd0, 0x7d, 0xcc, 0xff, 0x72, 0x21,
  0xb8, 0x08, 0x46, 0x74, 0xf7, 0x43, 0x24, 0x8e, 0xe0, 0x35, 0x90, 0xe6, 0x81, 0x3a, 0x26, 0x4c,
  0x3c, 0x28, 0x52, 0xbb, 0x91, 0xc3, 0x00, 0xcb, 0x88, 0xd0, 0x65, 0x8b, 0x1b, 0x53, 0x2e, 0xa3,
  0x71, 0x64, 0x48, 0x97, 0xa2, 0x0d, 0xf9, 0x4e, 0x38, 0x19, 0xef, 0x46, 0xa9, 0xde, 0xac, 0xd8,
  0xa8, 0xfa, 0x76, 0x3f, 0xe3, 0x9c, 0x34, 0x3f, 0xf9, 0xdc, 0xbb, 0xc7, 0xc7, 0x0b, 0x4f, 0x1d,
  0x8a, 0x51, 0xe0, 0x4b, 0xcd, 0xb4, 0x59, 0x31, 0xc8, 0x9f, 0x7e, 0xc9, 0xd9, 0x78, 0x73, 0x64,
  0xea, 0xc5, 0xac, 0x83, 0x34, 0xd3, 0xeb, 0xc3, 0xc5, 0x81, 0xa0, 0xff, 0xfa, 0x13, 0x63, 0xeb,
  0x17, 0x0d, 0xdd, 0x51, 0xb7, 0xf0, 0xda, 0x49, 0xd3, 0x16, 0x55, 0x26, 0x29, 0xd4, 0x68, 0x9e,
  0x2b, 0x16, 0xbe, 0x58, 0x7d, 0x47, 0xa1, 0xfc, 0x8f, 0xf8, 0xb8, 0xd1, 0x7a, 0xd0, 0x31, 0xce,
  0x45, 0xcb, 0x3a, 0x8f, 0x95, 0x16, 0x04, 0x28, 0xaf, 0xd7, 0xfb, 0xca, 0xbb, 0x4b, 0x40, 0x7e]⟩

/-! The odd constants of the mixing functions. -/

def prime32A : UInt64 := 0x9E3779B1
def prime32B : UInt64 := 0x85EBCA77
def prime32C : UInt64 := 0xC2B2AE3D
def prime64A : UInt64 := 0x9E3779B185EBCA87
def prime64B : UInt64 := 0xC2B2AE3D27D4EB4F
def prime64C : UInt64 := 0x165667B19E3779F9
def prime64D : UInt64 := 0x85EBCA77C2B2AE63
def prime64E : UInt64 := 0x27D4EB2F165667C5
def primeMixA : UInt64 := 0x165667919E3779F9
def primeMixB : UInt64 := 0x9FB21C651E98DF25

/-! ## Words -/

/-- The byte at an offset; past the end there are zeros. -/
def byteAt (bytes : ByteArray) (offset : Nat) : UInt64 :=
  if h : offset < bytes.size then bytes[offset].toUInt64 else 0

/-- The word of four bytes at an offset, the lowest first. -/
def word32 (bytes : ByteArray) (offset : Nat) : UInt64 :=
  byteAt bytes offset ||| byteAt bytes (offset + 1) <<< 8 |||
    byteAt bytes (offset + 2) <<< 16 ||| byteAt bytes (offset + 3) <<< 24

/-- The word of eight bytes at an offset, the lowest first. -/
def word64 (bytes : ByteArray) (offset : Nat) : UInt64 :=
  word32 bytes offset ||| word32 bytes (offset + 4) <<< 32

/-- A word of the secret. -/
def key (offset : Nat) : UInt64 := word64 secret offset

/-- Rotate a word to the left. -/
def rotate (w : UInt64) (n : UInt64) : UInt64 := w <<< n ||| w >>> (64 - n)

/-- A word with its bytes in reverse order. -/
def reverseBytes (w : UInt64) : UInt64 :=
  (List.range 8).foldl (fun (out : UInt64) i => out <<< 8 ||| (w >>> (8 * i.toUInt64)) &&& 0xFF) 0

/-- The two halves of a product of 128 bits, combined. -/
def foldProduct (a b : UInt64) : UInt64 :=
  let product := a.toNat * b.toNat
  product.toUInt64 ^^^ (product / Nat.pow 2 64).toUInt64

/-- The last mixing step of all but the shortest contents. -/
def avalanche (h : UInt64) : UInt64 :=
  let h := (h ^^^ h >>> 37) * primeMixA
  h ^^^ h >>> 32

/-- The last mixing step of the shortest contents. -/
def avalancheShort (h : UInt64) : UInt64 :=
  let h := (h ^^^ h >>> 33) * prime64B
  let h := (h ^^^ h >>> 29) * prime64C
  h ^^^ h >>> 32

/-- Sixteen bytes of content against sixteen bytes of the secret. -/
def mix (bytes : ByteArray) (offset keyOffset : Nat) : UInt64 :=
  foldProduct (word64 bytes offset ^^^ key keyOffset)
    (word64 bytes (offset + 8) ^^^ key (keyOffset + 8))

/-! ## By length -/

/-- One to three bytes. -/
def ofThree (bytes : ByteArray) : UInt64 :=
  let n := bytes.size
  let combined := byteAt bytes 0 <<< 16 ||| byteAt bytes (n / 2) <<< 24 |||
    byteAt bytes (n - 1) ||| n.toUInt64 <<< 8
  avalancheShort (combined ^^^ (word32 secret 0 ^^^ word32 secret 4))

/-- Four to eight bytes. -/
def ofEight (bytes : ByteArray) : UInt64 :=
  let n := bytes.size
  let h := (word32 bytes (n - 4) + word32 bytes 0 <<< 32) ^^^ (key 8 ^^^ key 16)
  let h := (h ^^^ rotate h 49 ^^^ rotate h 24) * primeMixB
  let h := (h ^^^ (h >>> 35 + n.toUInt64)) * primeMixB
  h ^^^ h >>> 28

/-- Nine to sixteen bytes. -/
def ofSixteen (bytes : ByteArray) : UInt64 :=
  let n := bytes.size
  let low := word64 bytes 0 ^^^ (key 24 ^^^ key 32)
  let high := word64 bytes (n - 8) ^^^ (key 40 ^^^ key 48)
  avalanche (n.toUInt64 + reverseBytes low + high + foldProduct low high)

/-- 17 to 128 bytes: pairs from both ends towards the middle. -/
def ofPairs (bytes : ByteArray) : UInt64 :=
  let n := bytes.size
  let pairs := (n - 1) / 32 + 1
  avalanche ((List.range pairs).foldl (fun acc i =>
    acc + mix bytes (16 * i) (32 * i) + mix bytes (n - 16 * (i + 1)) (32 * i + 16))
    (n.toUInt64 * prime64A))

/-- 129 to 240 bytes: eight rounds, a mixing step, and the remaining rounds. -/
def ofRounds (bytes : ByteArray) : UInt64 :=
  let n := bytes.size
  let first := (List.range 8).foldl (fun acc i => acc + mix bytes (16 * i) (16 * i))
    (n.toUInt64 * prime64A)
  let rest := (List.range (n / 16 - 8)).foldl
    (fun acc i => acc + mix bytes (16 * (i + 8)) (16 * i + 3)) (avalanche first)
  avalanche (rest + mix bytes (n - 16) 119)

/-- Eight accumulators. -/
abbrev Lanes := Array UInt64

/-- The lanes before the first stripe. -/
def startLanes : Lanes :=
  #[prime32C, prime64A, prime64B, prime64C, prime64D, prime32B, prime64E, prime32A]

/-- One lane; past the eighth there are zeros. -/
def lane (lanes : Lanes) (i : Nat) : UInt64 := lanes[i]?.getD 0

/-- Take up a stripe of 64 bytes.  The partner of a lane takes the plain word, so that no bit is
lost. -/
def accumulate (bytes : ByteArray) (lanes : Lanes) (offset keyOffset : Nat) : Lanes :=
  lanes.mapIdx fun (i : Nat) (acc : UInt64) =>
    let mixed := word64 bytes (offset + 8 * i) ^^^ key (keyOffset + 8 * i)
    let low : UInt64 := mixed &&& 0xFFFFFFFF
    acc + word64 bytes (offset + 8 * (i ^^^ 1)) + low * (mixed >>> 32)

/-- Mix the lanes after a block of sixteen stripes. -/
def scramble (lanes : Lanes) : Lanes :=
  lanes.mapIdx fun (i : Nat) (acc : UInt64) => (acc ^^^ acc >>> 47 ^^^ key (128 + 8 * i)) * prime32A

/-- Take up stripes one after the other. -/
def stripes (bytes : ByteArray) (lanes : Lanes) (offset count : Nat) : Lanes :=
  (List.range count).foldl (fun lanes i => accumulate bytes lanes (offset + 64 * i) (8 * i)) lanes

/-- More than 240 bytes. -/
def ofStripes (bytes : ByteArray) : UInt64 :=
  let n := bytes.size
  let blocks := (n - 1) / 1024
  let lanes := (List.range blocks).foldl
    (fun lanes i => scramble (stripes bytes lanes (1024 * i) 16)) startLanes
  let lanes := stripes bytes lanes (1024 * blocks) ((n - 1 - 1024 * blocks) / 64)
  let lanes := accumulate bytes lanes (n - 64) 121
  avalanche ((List.range 4).foldl (fun acc i =>
    acc + foldProduct (lane lanes (2 * i) ^^^ key (11 + 16 * i))
      (lane lanes (2 * i + 1) ^^^ key (19 + 16 * i))) (n.toUInt64 * prime64A))

/-- The digest of a content. -/
def ofBytes (bytes : ByteArray) : UInt64 :=
  let n := bytes.size
  if n = 0 then avalancheShort (key 56 ^^^ key 64)
  else if n ≤ 3 then ofThree bytes
  else if n ≤ 8 then ofEight bytes
  else if n ≤ 16 then ofSixteen bytes
  else if n ≤ 128 then ofPairs bytes
  else if n ≤ 240 then ofRounds bytes
  else ofStripes bytes

/-- The digest of a content in sixteen hexadecimal digits. -/
def hexOf (bytes : ByteArray) : String := Text.hex 16 (ofBytes bytes).toNat

end SymbolAtlas.Digest
