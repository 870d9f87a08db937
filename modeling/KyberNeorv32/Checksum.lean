import KyberNeorv32.Lib.Absorb

/-!
# `kyber_niosv_basic`: the checksum of keys and ciphertexts

`checksum32` (`main.c:64-73`) is the only trace of the key and the ciphertext in the report. Its
multiplier is odd, so each step can be undone (`checksumStep_bijective`): no two buffers that differ
in one byte have the same checksum.
-/

namespace KyberNeorv32.KyberNiosv

/-- `acc ^= data[i]; acc *= 0x01000193u;` -/
def checksumStep (acc : BitVec 32) (byte : BitVec 8) : BitVec 32 :=
  (acc ^^^ byte.setWidth 32) * 0x01000193

/-- The loop of `checksum32`, from any accumulator. -/
def checksumFrom (acc : BitVec 32) (data : List (BitVec 8)) : BitVec 32 := data.foldl checksumStep acc

def checksum32 (data : List (BitVec 8)) : BitVec 32 := checksumFrom 0x811c9dc5 data

/-- The inverse of the multiplier modulo `2^32`. -/
def checksumInv : BitVec 32 := 0x359c449b

def checksumUnstep (acc : BitVec 32) (byte : BitVec 8) : BitVec 32 :=
  acc * checksumInv ^^^ byte.setWidth 32

theorem mul_checksumInv : 0x01000193 * checksumInv = 1 := by decide

theorem mul_mul_checksumInv (x : BitVec 32) : x * 0x01000193 * checksumInv = x := by
  rw [mul_assoc, mul_checksumInv, mul_one]

theorem checksumUnstep_checksumStep (acc : BitVec 32) (byte : BitVec 8) :
    checksumUnstep (checksumStep acc byte) byte = acc := by
  rw [checksumUnstep, checksumStep, mul_mul_checksumInv, BitVec.xor_assoc, BitVec.xor_self,
    BitVec.xor_zero]

theorem checksumStep_checksumUnstep (acc : BitVec 32) (byte : BitVec 8) :
    checksumStep (checksumUnstep acc byte) byte = acc := by
  rw [checksumUnstep, checksumStep, BitVec.xor_assoc, BitVec.xor_self, BitVec.xor_zero, mul_assoc,
    mul_comm checksumInv, mul_checksumInv, mul_one]

theorem checksumStep_bijective (byte : BitVec 8) :
    Function.Bijective fun acc => checksumStep acc byte := by
  apply Function.bijective_iff_has_inverse.2
  refine ⟨fun acc => checksumUnstep acc byte, ?_, ?_⟩
  · intro acc
    exact checksumUnstep_checksumStep acc byte
  · intro acc
    exact checksumStep_checksumUnstep acc byte

theorem checksumStep_faithful : Absorb.Faithful checksumStep where
  state byte := (checksumStep_bijective byte).injective
  datum := by
    intro acc a b h
    have hmul := congrArg (· * checksumInv) h
    simp only [checksumStep, mul_mul_checksumInv] at hmul
    have hword : a.setWidth 32 = b.setWidth 32 := (BitVec.xor_right_inj acc).1 hmul
    have hbyte := congrArg (BitVec.setWidth 8) hword
    simpa using hbyte

/-- **`checksum32` detects every single corrupted byte**, in buffers of any length: each step is a
bijection of the accumulator, an equal suffix gives equal checksums only from equal accumulators,
and buffers that differ in exactly one place have different checksums. -/
theorem checksum32_detects :
    (∀ byte, Function.Bijective fun acc => checksumStep acc byte) ∧
    (∀ (as bs suffix : List (BitVec 8)),
      checksum32 (as ++ suffix) = checksum32 (bs ++ suffix) → checksum32 as = checksum32 bs) ∧
    ∀ (as bs : List (BitVec 8)) (i : ℕ), as.length = bs.length → as[i]? ≠ bs[i]? →
      (∀ j, j ≠ i → as[j]? = bs[j]?) → checksum32 as ≠ checksum32 bs := by
  refine ⟨checksumStep_bijective, ?_, ?_⟩
  · intro as bs suffix h
    unfold checksum32 checksumFrom at h
    rw [List.foldl_append, List.foldl_append] at h
    exact Absorb.foldl_injective checksumStep_faithful.state suffix h
  · intro as bs i hlen hi hother
    exact Absorb.foldl_ne_of_differ checksumStep_faithful _ hlen hi hother

theorem checksum32_detects_middle : checksum32 [1, 2, 3] ≠ checksum32 [1, 9, 3] := by
  apply checksum32_detects.2.2 [1, 2, 3] [1, 9, 3] 1 rfl (by decide)
  intro j hj
  match j with
  | 0 | 2 => rfl
  | 1 => exact absurd rfl hj
  | j + 3 => rfl

end KyberNeorv32.KyberNiosv
