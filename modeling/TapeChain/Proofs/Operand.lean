import TapeChain.Machine.Basic

/-! Operands are integers modulo 2^32: encoding is inverse to reading the value, and what an operand
adds to a cell depends on the encoded integer modulo 256 only. -/
namespace TapeChain.Operand

/-- A quotient is its last hexadecimal digit and the next quotient. -/
theorem quotient_eq (raw k : Nat) : raw / k = 16 * (raw / (k * 16)) + raw / k % 16 := by
  rw [← Nat.div_div_eq_div_mul]
  exact (Nat.div_add_mod (raw / k) 16).symm

theorem unsigned_encode (v : Int) : (encode v).unsigned = (v % 4294967296).toNat := by
  have bound : (v % 4294967296).toNat < 4294967296 := by omega
  simp only [encode, unsigned, Fin.val_ofNat]
  generalize (v % 4294967296).toNat = raw at bound
  have q0 := quotient_eq raw 1
  have q1 := quotient_eq raw 16
  have q2 := quotient_eq raw 256
  have q3 := quotient_eq raw 4096
  have q4 := quotient_eq raw 65536
  have q5 := quotient_eq raw 1048576
  have q6 := quotient_eq raw 16777216
  have top : raw / 268435456 < 16 := by omega
  simp only [Nat.div_one, Nat.one_mul, Nat.reduceMul] at q0 q1 q2 q3 q4 q5 q6
  rw [Nat.mod_eq_of_lt top]
  omega

theorem value_encode_emod (v : Int) : (encode v).value % 4294967296 = v % 4294967296 := by
  have same := unsigned_encode v
  unfold value
  split <;> omega

theorem value_encode {v : Int} (low : least ≤ v) (high : v ≤ greatest) : (encode v).value = v := by
  have congruent := value_encode_emod v
  have bounds := value_bounds (encode v)
  simp only [least, greatest] at low high bounds
  omega

theorem value_emod (o : Operand) : o.value % 4294967296 = o.unsigned := by
  have bound := o.unsigned_lt
  unfold value
  split <;> omega

theorem encode_value (o : Operand) : encode o.value = o := by
  have raw : (o.value % 4294967296).toNat = o.unsigned := by
    rw [value_emod]
    rfl
  obtain ⟨d7, d6, d5, d4, d3, d2, d1, d0⟩ := o
  simp only [encode, raw, unsigned, mk.injEq, Fin.ext_iff, Fin.val_ofNat]
  omega

theorem byte_encode (v : Int) : (encode v).byte = UInt8.ofInt v := by
  have congruent := value_encode_emod v
  have same : (encode v).value % 256 = v % 256 := by omega
  rw [byte, same]
  rfl

end TapeChain.Operand
