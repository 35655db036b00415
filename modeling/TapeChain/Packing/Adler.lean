import TapeChain.Text.Utf8

/-! The Adler-32 checksum of a byte string. -/
namespace TapeChain.Packing

def adlerModulus : Nat := 65521

/-- The running sums after one more byte. -/
def adlerStep (sums : Nat × Nat) (b : UInt8) : Nat × Nat :=
  let low := (sums.1 + b.toNat) % adlerModulus
  (low, (sums.2 + low) % adlerModulus)

def adler32 (bytes : Bytes) : Nat :=
  let (low, high) := bytes.foldl adlerStep (1, 0)
  high * 65536 + low

end TapeChain.Packing
