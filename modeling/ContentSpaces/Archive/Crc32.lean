/-!
# CRC-32

The cyclic redundancy check of archive entries: the reflected polynomial `0xedb88320`, with all
bits inverted before and after.
-/

namespace ContentSpaces.Archive.Crc32

def shift (crc : UInt32) : UInt32 :=
  if crc &&& 1 == 1 then (crc >>> 1) ^^^ 0xedb88320 else crc >>> 1

def step (crc : UInt32) (byte : UInt8) : UInt32 :=
  (List.range 8).foldl (fun crc _ => shift crc) (crc ^^^ byte.toUInt32)

def ofBytes (bytes : ByteArray) : UInt32 := bytes.foldl step 0xffffffff ^^^ 0xffffffff

end ContentSpaces.Archive.Crc32
