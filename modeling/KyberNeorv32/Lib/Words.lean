import Mathlib

/-!
# Fixed-width words and the integers they stand for

What a hardware or C expression on `BitVec w` computes when no bit is lost. `AddExact` and
`SubExact` say that a two's complement adder does not wrap; a product of sign-extended operands
is exact at double width; truncations to the low bits commute with every ring operation.
-/

namespace Words

variable {w : ℕ}

/-- The adder does not wrap. -/
def AddExact (x y : BitVec w) : Prop := (x + y).toInt = x.toInt + y.toInt

def SubExact (x y : BitVec w) : Prop := (x - y).toInt = x.toInt - y.toInt

instance (x y : BitVec w) : Decidable (AddExact x y) := by unfold AddExact; infer_instance

instance (x y : BitVec w) : Decidable (SubExact x y) := by unfold SubExact; infer_instance

/-- A residue modulo `2^w` is the integer itself exactly when that fits in a signed word. -/
theorem bmod_eq_self_iff (a : ℤ) :
    a.bmod (2 ^ w) = a ↔ -2 ^ w ≤ 2 * a ∧ 2 * a < 2 ^ w := by
  have hp : 0 < 2 ^ w := by positivity
  constructor
  · intro h
    have h1 := Int.le_bmod (x := a) hp
    have h2 := Int.bmod_lt (x := a) hp
    rw [h] at h1 h2
    push_cast at h1 h2
    omega
  · rintro ⟨h1, h2⟩
    apply Int.bmod_eq_of_le_mul_two <;> push_cast <;> omega

theorem addExact_iff (x y : BitVec w) :
    AddExact x y ↔ -2 ^ w ≤ 2 * (x.toInt + y.toInt) ∧ 2 * (x.toInt + y.toInt) < 2 ^ w := by
  rw [AddExact, BitVec.toInt_add, bmod_eq_self_iff]

theorem subExact_iff (x y : BitVec w) :
    SubExact x y ↔ -2 ^ w ≤ 2 * (x.toInt - y.toInt) ∧ 2 * (x.toInt - y.toInt) < 2 ^ w := by
  rw [SubExact, BitVec.toInt_sub, bmod_eq_self_iff]

theorem toInt_bounds (x : BitVec w) : -2 ^ w ≤ 2 * x.toInt ∧ 2 * x.toInt < 2 ^ w :=
  ⟨BitVec.le_two_mul_toInt, BitVec.two_mul_toInt_lt⟩

/-! ## Products and truncations -/

/-- Signed operands of `a` and `b` bits multiply exactly in `a + b` bits or more. -/
theorem toInt_mul_signExtend {a b v : ℕ} (ha : 0 < a) (hb : 0 < b) (hv : a + b ≤ v) (x : BitVec a)
    (y : BitVec b) : (x.signExtend v * y.signExtend v).toInt = x.toInt * y.toInt := by
  rw [BitVec.toInt_mul, BitVec.toInt_signExtend_of_le (by omega),
    BitVec.toInt_signExtend_of_le (by omega), bmod_eq_self_iff]
  obtain ⟨x1, x2⟩ := toInt_bounds x
  obtain ⟨y1, y2⟩ := toInt_bounds y
  have hx : |2 * x.toInt| ≤ 2 ^ a := abs_le.2 ⟨by linarith, x2.le⟩
  have hy : |2 * y.toInt| ≤ 2 ^ b := abs_le.2 ⟨by linarith, y2.le⟩
  have hxy : |2 * x.toInt| * |2 * y.toInt| ≤ 2 ^ a * 2 ^ b :=
    mul_le_mul hx hy (abs_nonneg _) (by positivity)
  rw [← abs_mul, ← pow_add, abs_le] at hxy
  have hpow : (2 : ℤ) ^ (a + b) ≤ 2 ^ v := pow_le_pow_right₀ (by norm_num) hv
  have hpos : (0 : ℤ) < 2 ^ (a + b) := by positivity
  constructor <;> linarith [hxy.1, hxy.2]

/-- `{{k{x[w-1]}}, x}` is sign extension. -/
theorem fill_append (x : BitVec w) (k : ℕ) :
    BitVec.fill k (x.getLsbD (w - 1)) ++ x = x.signExtend (k + w) := by
  ext i hi
  rw [BitVec.getElem_append, BitVec.getElem_signExtend, ← BitVec.msb_eq_getLsbD_last]
  by_cases h : i < w
  · simp [h]
  · simp [h]

theorem extractLsb'_zero (x : BitVec w) (v : ℕ) : x.extractLsb' 0 v = x.setWidth v := by
  ext i hi
  simp

/-- Truncating a sign extension back below the original width. -/
theorem setWidth_signExtend {v u : ℕ} (x : BitVec w) (hu : u ≤ w) (hv : u ≤ v) :
    (x.signExtend v).setWidth u = x.setWidth u := by
  ext i hi
  simp [BitVec.getElem_signExtend, show i < v by omega, show i < w by omega]

theorem setWidth_signExtend_self {v : ℕ} (x : BitVec w) (h : w ≤ v) :
    (x.signExtend v).setWidth w = x := by
  rw [setWidth_signExtend x le_rfl h, BitVec.setWidth_eq]

theorem setWidth_sub {v : ℕ} (x y : BitVec w) (h : v ≤ w) :
    (x - y).setWidth v = x.setWidth v - y.setWidth v := by
  rw [BitVec.sub_eq_add_neg, BitVec.setWidth_add _ _ h, BitVec.setWidth_neg_of_le h,
    ← BitVec.sub_eq_add_neg]

/-- A truncation keeps the integer modulo the smaller word. -/
theorem toInt_setWidth_of_le {v : ℕ} (x : BitVec w) (h : v ≤ w) :
    (x.setWidth v).toInt = x.toInt.bmod (2 ^ v) := by
  rw [← BitVec.signExtend_eq_setWidth_of_le x h, BitVec.toInt_signExtend_eq_toInt_bmod_of_le x h]

/-- The low bits are zero exactly at the multiples of the smaller word's size. -/
theorem setWidth_eq_zero_iff {v : ℕ} (x : BitVec w) (h : v ≤ w) :
    x.setWidth v = 0 ↔ ((2 ^ v : ℕ) : ℤ) ∣ x.toInt := by
  rw [Int.dvd_iff_bmod_eq_zero, ← toInt_setWidth_of_le x h, ← BitVec.toInt_inj]
  simp

/-- A dividend that wraps always shows in the quotient. -/
theorem mod_div_eq_div_iff {n m d : ℕ} (hd : 0 < d) (hm : d ≤ m) : n % m / d = n / d ↔ n < m := by
  constructor
  · intro h
    by_contra hn
    have hsum : n % m + d ≤ n := by
      have hquot : m * 1 ≤ m * (n / m) := Nat.mul_le_mul_left m (Nat.div_pos (by omega) (by omega))
      have hsplit := Nat.mod_add_div n m
      omega
    have hlt : n % m / d + 1 ≤ n / d := by
      rw [← Nat.add_div_right _ hd]
      exact Nat.div_le_div_right hsum
    omega
  · intro h
    rw [Nat.mod_eq_of_lt h]

/-! ## Fields behind masks -/

/-- A one-bit mask picks its bit. -/
theorem and_twoPow_eq_zero {w i : ℕ} (x : BitVec w) (hi : i < w) :
    x &&& BitVec.twoPow w i = 0 ↔ x.getLsbD i = false := by
  rw [BitVec.and_twoPow]
  cases h : x.getLsbD i with
  | false => simp
  | true =>
    simp only [if_true, Bool.true_eq_false, iff_false]
    intro h0
    have hbit := congrArg (fun v : BitVec w => v.getLsbD i) h0
    simp [hi] at hbit

theorem append_and_high {m n : ℕ} (x : BitVec m) (y : BitVec n) :
    (x ++ y) &&& (BitVec.allOnes m ++ 0#n) = x ++ 0#n := by
  rw [BitVec.and_append, BitVec.and_allOnes, BitVec.and_zero]

theorem toNat_append_zero_ushiftRight {m n : ℕ} (x : BitVec m) :
    ((x ++ 0#n) >>> n).toNat = x.toNat := by
  rw [BitVec.toNat_ushiftRight, BitVec.toNat_append]
  simp

/-- The lowest of three fields. -/
theorem setWidth_and_low {k m n : ℕ} (x : BitVec k) (y : BitVec m) (z : BitVec n) :
    ((x ++ (y ++ z)) &&& (0#k ++ (0#m ++ BitVec.allOnes n))).setWidth n = z := by
  rw [BitVec.and_append, BitVec.and_append, BitVec.and_allOnes, BitVec.and_zero, BitVec.and_zero,
    BitVec.setWidth_append, dif_pos (Nat.le_add_left n m)]
  exact BitVec.setWidth_append_eq_right

end Words
