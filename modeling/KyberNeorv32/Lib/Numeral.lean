import Mathlib

/-!
# Numerals read back

Two ways of writing a number in base `b ≤ 16` with the lower-case digits of `Nat.digitChar`: the
canonical numeral `Nat.toDigits b n`, and `fixed b k n` with exactly `k` digits. `read b` reads a
digit string, refuses anything else, and inverts both (`read_toDigits`, `read_fixed`).
-/

namespace Numeral

def digitVal (c : Char) : Option ℕ :=
  if '0' ≤ c ∧ c ≤ '9' then some (c.toNat - 48)
  else if 'a' ≤ c ∧ c ≤ 'f' then some (c.toNat - 87)
  else none

/-- Read on after a prefix of value `acc`. -/
def readFrom (b acc : ℕ) : List Char → Option ℕ
  | [] => some acc
  | c :: cs => match digitVal c with
    | some d => if d < b then readFrom b (acc * b + d) cs else none
    | none => none

/-- The value of a nonempty string of base-`b` digits, most significant digit first. -/
def read (b : ℕ) (s : List Char) : Option ℕ := if s = [] then none else readFrom b 0 s

/-- The last `k` digits of `n`, with leading zeros. -/
def fixed (b : ℕ) : ℕ → ℕ → List Char
  | 0, _ => []
  | k + 1, n => (n / b ^ k % b).digitChar :: fixed b k n

theorem digitVal_digitChar {d : ℕ} (h : d < 16) : digitVal d.digitChar = some d := by
  have hall : ∀ d : Fin 16, digitVal (d : ℕ).digitChar = some (d : ℕ) := by decide
  exact hall ⟨d, h⟩

variable {b : ℕ}

theorem readFrom_digitChar {d : ℕ} (hb : b ≤ 16) (h : d < b) (acc : ℕ) (cs : List Char) :
    readFrom b acc (d.digitChar :: cs) = readFrom b (acc * b + d) cs := by
  rw [readFrom, digitVal_digitChar (by omega)]
  simp [h]

theorem readFrom_append {acc m : ℕ} {s : List Char} (h : readFrom b acc s = some m) (t : List Char) :
    readFrom b acc (s ++ t) = readFrom b m t := by
  induction s generalizing acc with
  | nil =>
    cases h
    rfl
  | cons c s ih =>
    rw [List.cons_append, readFrom]
    rw [readFrom] at h
    cases hd : digitVal c with
    | none => simp [hd] at h
    | some d =>
      by_cases hlt : d < b
      · simp only [hd, hlt, if_true] at h ⊢
        exact ih h
      · simp [hd, hlt] at h

/-! ## Canonical numerals -/

theorem readFrom_toDigits (hb : 1 < b) (hb' : b ≤ 16) (n : ℕ) :
    readFrom b 0 (Nat.toDigits b n) = some n := by
  induction n using Nat.strong_induction_on with
  | _ n ih =>
    by_cases h : n < b
    · rw [Nat.toDigits_of_lt_base h, readFrom_digitChar hb' h, readFrom]
      simp
    · have hmod : n % b < b := Nat.mod_lt n (by omega)
      rw [Nat.toDigits_of_base_le hb (by omega),
        readFrom_append (ih (n / b) (Nat.div_lt_self (by omega) hb)), readFrom_digitChar hb' hmod,
        readFrom, Nat.mul_comm, Nat.div_add_mod]

theorem read_toDigits (hb : 1 < b) (hb' : b ≤ 16) (n : ℕ) : read b (Nat.toDigits b n) = some n := by
  rw [read, if_neg Nat.toDigits_ne_nil, readFrom_toDigits hb hb']

/-- No leading zero, but for zero itself. -/
theorem head?_toDigits (hb : 1 < b) {n : ℕ} (h : (Nat.toDigits b n).head? = some '0') : n = 0 := by
  induction n using Nat.strong_induction_on with
  | _ n ih =>
    by_cases hn : n < b
    · rw [Nat.toDigits_of_lt_base hn] at h
      simpa using h
    · rw [Nat.toDigits_of_base_le hb (by omega), List.head?_append_of_ne_nil _ Nat.toDigits_ne_nil] at h
      have hzero := ih (n / b) (Nat.div_lt_self (by omega) hb) h
      have hpos : 0 < n / b := Nat.div_pos (by omega) (by omega)
      omega

/-! ## Numerals of fixed width -/

@[simp] theorem length_fixed (b k n : ℕ) : (fixed b k n).length = k := by
  induction k with
  | zero => rfl
  | succ k ih => rw [fixed, List.length_cons, ih]

theorem mem_fixed (hb : 0 < b) {k n : ℕ} {c : Char} (h : c ∈ fixed b k n) :
    ∃ d, d < b ∧ c = d.digitChar := by
  induction k with
  | zero => simp [fixed] at h
  | succ k ih =>
    rcases List.mem_cons.1 h with h | h
    · exact ⟨_, Nat.mod_lt _ hb, h⟩
    · exact ih h

theorem readFrom_fixed (hb : 0 < b) (hb' : b ≤ 16) (acc k n : ℕ) :
    readFrom b acc (fixed b k n) = some (acc * b ^ k + n % b ^ k) := by
  induction k generalizing acc with
  | zero => simp [fixed, readFrom, Nat.mod_one]
  | succ k ih =>
    rw [fixed, readFrom_digitChar hb' (Nat.mod_lt _ hb), ih, Nat.mod_pow_succ]
    congr 1
    ring

theorem read_fixed (hb : 0 < b) (hb' : b ≤ 16) {k n : ℕ} (hk : 0 < k) (hn : n < b ^ k) :
    read b (fixed b k n) = some n := by
  have hne : fixed b k n ≠ [] := by
    intro h
    have hlen := length_fixed b k n
    rw [h] at hlen
    exact absurd hlen hk.ne
  rw [read, if_neg hne, readFrom_fixed hb hb', Nat.mod_eq_of_lt hn, Nat.zero_mul, Nat.zero_add]

end Numeral
