import P2PTransfer.Lib.Framing
import P2PTransfer.Storage.Bytes

/-!
# Compressed buffers for other languages

`p2ptransfer_compress` returns a buffer whose first four bytes are documented to be the length
of the input, followed by the compressed input. They are the length of what follows. Input that
zstd fails on follows as it is.

## Main definitions

- `Zstd` — the zstd library, and `compress` and `decompress` over it
- `p2ptransferCompress` — the buffer
- `Documented` — what a reader of the documented format obtains

## Main results

- `documented_iff` — when a buffer has the documented format
-/

namespace P2PTransfer.Compress

open Transition.Framing

/-- The compressor of a level, which may fail, and the decoder of a stream. -/
structure Zstd where
  bulkCompress : Int → Bytes → Option Bytes
  readToEnd : Bytes → Option Bytes
  readToEnd_bulkCompress : ∀ level data out,
    bulkCompress level data = some out → readToEnd out = some data

def maxLevel : Int := 22

variable (Z : Zstd)

/-- `zstd::compress`, which takes any level into the range of the library. -/
def compress (data : Bytes) (level : Int32) : Option Bytes :=
  Z.bulkCompress (max 1 (min level.toInt maxLevel)) data

def decompress (data : Bytes) : Option Bytes := Z.readToEnd data

theorem decompress_compress {data out : Bytes} {level : Int32}
    (h : compress Z data level = some out) : decompress Z out = some data :=
  Z.readToEnd_bulkCompress _ data out h

/-- The length is cut to a `u32`. -/
def p2ptransferCompress (data : Bytes) (level : Int32) : Bytes :=
  let compressed := (compress Z data level).getD data
  octets 4 (compressed.length % 2 ^ 32) ++ compressed

/-- The original length that the first bytes of a buffer name. -/
def originalLength (out : Bytes) : Nat := value (out.take 4)

/-- What the rest of a buffer decompresses to. -/
def original (out : Bytes) : Option Bytes := decompress Z (out.drop 4)

/-- A reader obtains as many bytes as the buffer names, and they are the input. -/
def Documented (data : Bytes) (level : Int32) : Prop :=
  ∃ read, original Z (p2ptransferCompress Z data level) = some read ∧
    read.length = originalLength (p2ptransferCompress Z data level) ∧ read = data

section Reader

variable {Z : Zstd} {data out : Bytes} {level : Int32}

/-- The first bytes name the length of the rest. -/
theorem originalLength_p2ptransferCompress :
    originalLength (p2ptransferCompress Z data level) =
      ((compress Z data level).getD data).length % 2 ^ 32 := by
  have hlt : ((compress Z data level).getD data).length % 2 ^ 32 < 256 ^ 4 :=
    Nat.mod_lt _ (by decide)
  rw [originalLength, p2ptransferCompress, List.take_left' (length_octets _ _),
    value_octets hlt]

theorem original_p2ptransferCompress :
    original Z (p2ptransferCompress Z data level) =
      decompress Z ((compress Z data level).getD data) := by
  rw [original, p2ptransferCompress, List.drop_left' (length_octets _ _)]

/-- Both parts of the format: the length, and the bytes. -/
theorem documented_iff_parts :
    Documented Z data level ↔
      decompress Z ((compress Z data level).getD data) = some data ∧
        ((compress Z data level).getD data).length % 2 ^ 32 = data.length := by
  rw [Documented, original_p2ptransferCompress, originalLength_p2ptransferCompress]
  constructor
  · rintro ⟨_, horiginal, hlength, rfl⟩
    exact ⟨horiginal, hlength.symm⟩
  · rintro ⟨horiginal, hlength⟩
    exact ⟨data, horiginal, hlength.symm, rfl⟩

end Reader

/-- **When a buffer has the documented format.** Either the input compresses to as many bytes
as it has, or zstd fails on it and it decompresses to itself. -/
theorem documented_iff {data : Bytes} (hdata : data.length < 2 ^ 32) (level : Int32) :
    Documented Z data level ↔
      (∃ out, compress Z data level = some out ∧ out.length % 2 ^ 32 = data.length) ∨
        (compress Z data level = none ∧ decompress Z data = some data) := by
  rw [documented_iff_parts]
  cases hcompress : compress Z data level with
  | none =>
    rw [Option.getD_none]
    constructor
    · rintro ⟨horiginal, -⟩
      exact .inr ⟨rfl, horiginal⟩
    · rintro (⟨out, hout, -⟩ | ⟨-, horiginal⟩)
      · cases hout
      · exact ⟨horiginal, Nat.mod_eq_of_lt hdata⟩
  | some out =>
    rw [Option.getD_some]
    constructor
    · rintro ⟨-, hlength⟩
      exact .inl ⟨out, rfl, hlength⟩
    · rintro (⟨out', hout, hlength⟩ | ⟨hnone, -⟩)
      · cases hout
        exact ⟨decompress_compress Z hcompress, hlength⟩
      · cases hnone

section Stored

/-- A frame with the length of its content in one byte, up to the first block. -/
def frameStart (data : Bytes) : Bytes :=
  [0x28, 0xB5, 0x2F, 0xFD, 0x20, UInt8.ofNat data.length]

/-- A zstd library that knows frames of one raw block of less than 256 bytes. -/
def stored : Zstd where
  bulkCompress _ data :=
    if data.length < 256 then
      some (frameStart data ++ octets 3 (8 * data.length + 1) ++ data)
    else none
  readToEnd frame :=
    if frame.take 5 = [0x28, 0xB5, 0x2F, 0xFD, 0x20] then some (frame.drop 9) else none
  readToEnd_bulkCompress level data out h := by
    split at h
    · cases h
      exact if_pos rfl
    · cases h

/-- What is returned for no bytes: the length of the frame, and an empty frame. -/
theorem p2ptransferCompress_nil :
    p2ptransferCompress stored [] 3 = [9, 0, 0, 0, 0x28, 0xB5, 0x2F, 0xFD, 0x20, 0, 1, 0, 0] := by
  decide +kernel

/-- A reader of the documented format expects nine bytes, and obtains none. -/
theorem not_documented_nil : ¬ Documented stored [] 3 := by
  rintro ⟨read, -, hlength, rfl⟩
  rw [p2ptransferCompress_nil] at hlength
  exact absurd hlength (by decide)

theorem documented_iff_nil :
    Documented stored [] 3 ↔
      (∃ out, compress stored [] 3 = some out ∧ out.length % 2 ^ 32 = 0) ∨
        (compress stored [] 3 = none ∧ decompress stored [] = some []) :=
  documented_iff stored (show ([] : Bytes).length < 2 ^ 32 by decide) 3

end Stored

end P2PTransfer.Compress
