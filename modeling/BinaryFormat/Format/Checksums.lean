import BinaryFormat.Data.Bytes
import BinaryFormat.Format.Basic

/-!
# Checksums

Digests of byte strings: the sum of the bytes, the reflected cyclic redundancy
check of 32 bits as a number or as bytes, and the bytes in reverse.
-/

namespace BinaryFormat

namespace Checksums

/-- The sum of the bytes, modulo two to the 64. -/
def sum : Hash := fun data => .number (data.foldl (fun acc b => acc + b.toUInt64) 0)

/-- One bit of the division by the reflected polynomial. -/
def crcStep (r : UInt32) : UInt32 :=
  if r &&& 1 = 1 then (r >>> 1) ^^^ 0xedb88320 else r >>> 1

def crcByte (r : UInt32) (b : UInt8) : UInt32 :=
  (List.range 8).foldl (fun r _ => crcStep r) (r ^^^ b.toUInt32)

def crc32 (data : List UInt8) : UInt32 := data.foldl crcByte 0xffffffff ^^^ 0xffffffff

def crc32Number : Hash := fun data => .number (crc32 data).toUInt64

/-- The check in four bytes, highest first. -/
def crc32Bytes : Hash := fun data => .bytes (Bytes.ofNat 4 (crc32 data).toNat)

def reversed : Hash := fun data => .bytes data.reverse

end Checksums

end BinaryFormat
