import Mathlib.Data.Nat.Bitwise

/-!
# The CRC-32 checksum

The reflected checksum with polynomial `0xEDB88320`: the register starts with all
bits set, takes the bits of every byte from the lowest one and is inverted last.
-/

namespace Py

namespace Crc32

def polynomial : Nat := 0xEDB88320

def mask : Nat := 0xFFFFFFFF

/-- The register after one bit. -/
def shift (c : Nat) : Nat := if c % 2 = 1 then (c / 2) ^^^ polynomial else c / 2

/-- The register after `n` bits. -/
def shifts : Nat → Nat → Nat
  | 0, c => c
  | n + 1, c => shifts n (shift c)

/-- The register after one byte. -/
def feed (c : Nat) (byte : UInt8) : Nat := shifts 8 (c ^^^ byte.toNat)

end Crc32

/-- `zlib.crc32(data)` -/
def crc32 (data : List UInt8) : Nat := data.foldl Crc32.feed Crc32.mask ^^^ Crc32.mask

/-! ## Width -/

namespace Crc32

end Crc32

/-- The checksum of the digits one to nine, a common check value. -/
example : crc32 [49, 50, 51, 52, 53, 54, 55, 56, 57] = 0xCBF43926 := by decide +kernel

end Py
