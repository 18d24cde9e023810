import StrikeDB.Bytes

/-!
# StrikeDB: CRC32 (IEEE 802.3)

The checksum of WAL records and of the snapshot file, computed byte by byte
over a table of 256 entries.
-/

namespace StrikeDB
namespace Crc

def POLY : UInt32 := 0xEDB88320

/-- One of the eight rounds that build a table entry. -/
def tableRound (crc : UInt32) : UInt32 :=
  if crc &&& 1 = 1 then (crc >>> 1) ^^^ POLY else crc >>> 1

/-- Entry `i` of `Crc32Table::new`. -/
def table (i : UInt32) : UInt32 :=
  (List.range 8).foldl (fun crc _ => tableRound crc) i

/-- `Crc32Hasher::update` from the running value `crc`. -/
def update (crc : UInt32) (data : Bytes) : UInt32 :=
  data.foldl (fun (crc : UInt32) b =>
    (crc >>> 8) ^^^ table ((crc ^^^ b.toUInt32) &&& 0xFF)) crc

/-- `Crc32Hasher::finish`. -/
def finish (crc : UInt32) : UInt32 := crc ^^^ 0xFFFFFFFF

def crc32 (data : Bytes) : UInt32 := finish (update 0xFFFFFFFF data)

/-- The checksum as the number that a frame header stores. -/
def crcNat (data : Bytes) : Nat := (crc32 data).toNat

theorem crcNat_lt (data : Bytes) : crcNat data < 256 ^ 4 :=
  (crc32 data).toNat_lt

-- the canonical check value of "123456789"
example : crc32 [49, 50, 51, 52, 53, 54, 55, 56, 57] = 0xCBF43926 := by
  decide +kernel

end Crc
end StrikeDB
