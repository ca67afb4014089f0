import Mathlib

/-!
# ReverseRusty.Lib.Checksum

The reflected CRC-32, one byte at a time, and the search for a prefix of a
payload that has a given checksum.
-/

namespace ReverseRusty

def crc32Update (crc : UInt32) (byte : UInt8) : UInt32 :=
  (List.range 8).foldl (fun c _ => if c &&& 1 ≠ 0 then (c >>> 1) ^^^ 0xEDB88320 else c >>> 1)
    (crc ^^^ byte.toUInt32)

def crc32 (data : List UInt8) : UInt32 := ~~~ data.foldl crc32Update 0xFFFFFFFF

/-- Whether the checksum, carried on from a state, passes through a value. -/
def crcReaches (expected : UInt32) : UInt32 → List UInt8 → Bool
  | _, [] => false
  | crc, byte :: bytes =>
    ~~~ crc32Update crc byte == expected || crcReaches expected (crc32Update crc byte) bytes

variable {expected : UInt32} {bytes : List UInt8}

theorem crcReaches_iff {crc : UInt32} :
    crcReaches expected crc bytes = true ↔
      ∃ n, 0 < n ∧ n ≤ bytes.length ∧ ~~~ (bytes.take n).foldl crc32Update crc = expected := by
  induction bytes generalizing crc with
  | nil =>
    simp only [crcReaches, Bool.false_eq_true, List.length_nil, Nat.le_zero, false_iff]
    rintro ⟨n, hpos, rfl, -⟩
    exact Nat.lt_irrefl 0 hpos
  | cons byte bytes ih =>
    rw [crcReaches, Bool.or_eq_true, beq_iff_eq, ih]
    constructor
    · rintro (h | ⟨n, -, hn, h⟩)
      · exact ⟨1, Nat.one_pos, by simp, by simpa using h⟩
      · exact ⟨n + 1, Nat.succ_pos n, by simpa using hn, by simpa using h⟩
    · rintro ⟨_ | n, hpos, hn, h⟩
      · exact absurd hpos (Nat.lt_irrefl 0)
      · cases n with
        | zero => exact .inl (by simpa using h)
        | succ n => exact .inr ⟨n + 1, Nat.succ_pos n, by simpa using hn, by simpa using h⟩

def hasChecksumPrefix (expected : UInt32) (bytes : List UInt8) : Bool :=
  crcReaches expected 0xFFFFFFFF bytes

theorem hasChecksumPrefix_iff :
    hasChecksumPrefix expected bytes = true ↔
      ∃ n, 0 < n ∧ n ≤ bytes.length ∧ crc32 (bytes.take n) = expected :=
  crcReaches_iff

example : crc32 [0x31, 0x32, 0x33, 0x34, 0x35, 0x36, 0x37, 0x38, 0x39] = 0xCBF43926 := by
  decide +kernel

end ReverseRusty
