/-!
# CRC-32C

The checksum that closes a container. It is defined twice. `Checksum.bitSerial` shifts the
remainder by one place for each bit of the message, least significant bit of a byte first,
and takes the polynomial away whenever a one drops out. `Checksum.crc32c` handles a whole
byte in one step, by a table that holds eight such shifts of every byte.
-/

namespace CellCode.Checksum

/-- The Castagnoli polynomial, lowest power first. -/
def polynomial : UInt32 := 0x82F63B78

/-- The remainder shifted by one place. -/
def shift (c : UInt32) : UInt32 :=
  if c &&& 1 = 1 then (c >>> 1) ^^^ polynomial else c >>> 1

/-- The remainder shifted by `n` places. -/
def shifts : Nat → UInt32 → UInt32
  | 0, c => c
  | n + 1, c => shifts n (shift c)

/-! ## Bit by bit -/

/-- The remainder after one more byte, bit by bit. -/
def bitSerialStep (c : UInt32) (b : UInt8) : UInt32 := shifts 8 (c ^^^ b.toUInt32)

/-- The checksum of a message, bit by bit. -/
def bitSerial (message : List UInt8) : UInt32 :=
  message.foldl bitSerialStep 0xFFFFFFFF ^^^ 0xFFFFFFFF

/-! ## Byte by byte -/

/-- Eight shifts of every byte. -/
def table : Array UInt32 := Array.ofFn fun i : Fin 256 => shifts 8 (UInt32.ofNat i)

/-- The remainder after one more byte, by the table. -/
def tableStep (c : UInt32) (b : UInt8) : UInt32 :=
  table.getD ((c ^^^ b.toUInt32) &&& 0xFF).toNat 0 ^^^ (c >>> 8)

/-- The checksum of a message. -/
def crc32c (message : List UInt8) : UInt32 :=
  message.foldl tableStep 0xFFFFFFFF ^^^ 0xFFFFFFFF

end CellCode.Checksum
