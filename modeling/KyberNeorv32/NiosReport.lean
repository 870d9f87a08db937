import KyberNeorv32.Lib.Numeral

/-!
# `kyber_niosv_basic`: printing numbers

The firmware has no `printf`: `put_u64`, `put_hex32` and `put_metric` (`main.c:24-52`) write numbers
themselves. A `char` is a `Char` here, a C string ends at the first `nul`, and output is a list of
characters. `put_u64` fills a local buffer from its end; what the buffer holds before is arbitrary,
and `none` means that the index would leave it or that the string has no end.

`putU64Loop_eq` is the loop invariant: after the loop the buffer holds the numeral of the value in
front of what it held from the first index on.
-/

namespace KyberNeorv32.KyberNiosv

def nul : Char := Char.ofNat 0

/-- `(char)` of an unsigned value: its low eight bits. -/
def toChar (value : BitVec 64) : Char := Char.ofNat (value.setWidth 8).toNat

/-- What `alt_putstr` prints for a pointer to these characters. -/
def cString : List Char → Option (List Char)
  | [] => none
  | c :: cs => if c = nul then some [] else (cString cs).map (c :: ·)

/-- The `do`-loop of `put_u64`, entered at the index `pos`: one digit for each round. -/
def putU64Loop (buffer : Vector Char 21) (value : BitVec 64) : ℕ → Option (Vector Char 21 × ℕ)
  | 0 => none
  | pos + 1 =>
    let buffer := buffer.setIfInBounds pos (toChar (48 + value % 10))
    let value := value / 10
    if value ≠ 0 then putU64Loop buffer value pos else some (buffer, pos)

/-- `main.c:24-36`. -/
def putU64 (buffer : Vector Char 21) (value : BitVec 64) : Option (List Char) := do
  let buffer := buffer.setIfInBounds 20 nul
  let (buffer, pos) ← putU64Loop buffer value 20
  cString (buffer.toList.drop pos)

def hex : List Char := "0123456789abcdef".toList ++ [nul]

/-- The values of `shift`. -/
def hexShifts : List ℕ := [28, 24, 20, 16, 12, 8, 4, 0]

/-- `main.c:38-45`. -/
def putHex32 (value : BitVec 32) : List Char :=
  "0x".toList ++ hexShifts.map fun shift => hex.getD ((value >>> shift) &&& 0x0f).toNat nul

/-- `main.c:47-52`. -/
def putMetric (buffer : Vector Char 21) (label : String) (start stop : BitVec 64) :
    Option (List Char) := do
  let number ← putU64 buffer (stop - start)
  some (label.toList ++ ": ".toList ++ number ++ " ticks\r\n".toList)

/-! ## Decimal -/

theorem toChar_digit (value : BitVec 64) :
    toChar (48 + value % 10) = (value.toNat % 10).digitChar := by
  have hall : ∀ d : Fin 10, Char.ofNat (48 + d) = (d : ℕ).digitChar := by decide
  have hnat : ((48 + value % 10).setWidth 8).toNat = 48 + value.toNat % 10 := by
    rw [BitVec.toNat_setWidth, BitVec.toNat_add, BitVec.toNat_umod]
    change (48 + value.toNat % 10) % 2 ^ 64 % 2 ^ 8 = 48 + value.toNat % 10
    omega
  rw [toChar, hnat]
  exact hall ⟨value.toNat % 10, Nat.mod_lt _ (by norm_num)⟩

theorem toNat_div_ten (value : BitVec 64) : (value / 10).toNat = value.toNat / 10 :=
  BitVec.toNat_udiv

theorem div_ten_eq_zero_iff (value : BitVec 64) : value / 10 = 0 ↔ value.toNat < 10 := by
  rw [← BitVec.toNat_inj, toNat_div_ten]
  exact Nat.div_eq_zero_iff_lt (by norm_num)

/-- Writing below the index `pos + 1` and reading from there. -/
theorem drop_setIfInBounds (buffer : Vector Char 21) {pos : ℕ} (h : pos < 21) (c : Char) :
    (buffer.setIfInBounds pos c).toList.drop pos = c :: buffer.toList.drop (pos + 1) := by
  have hlen : pos < (buffer.toList.set pos c).length := by simpa using h
  rw [Vector.toList_setIfInBounds, List.drop_eq_getElem_cons hlen, List.drop_set]
  simp

/-- **The loop invariant of `put_u64`.** With room for the digits of the value, the loop ends and
has written its numeral just before the index where it was entered. -/
theorem putU64Loop_eq (buffer : Vector Char 21) (value : BitVec 64) {pos : ℕ} (hpos : pos ≤ 21)
    (hv : value.toNat < 10 ^ pos) (h0 : 0 < pos) :
    ∃ buffer' pos', putU64Loop buffer value pos = some (buffer', pos') ∧
      buffer'.toList.drop pos' = Nat.toDigits 10 value.toNat ++ buffer.toList.drop pos := by
  induction pos generalizing buffer value with
  | zero => exact absurd h0 (lt_irrefl 0)
  | succ pos ih =>
    have hstep : putU64Loop buffer value (pos + 1) =
        if value / 10 ≠ 0 then
          putU64Loop (buffer.setIfInBounds pos (toChar (48 + value % 10))) (value / 10) pos
        else some (buffer.setIfInBounds pos (toChar (48 + value % 10)), pos) := rfl
    have hdrop := drop_setIfInBounds buffer (by omega : pos < 21) (toChar (48 + value % 10))
    by_cases hz : value / 10 = 0
    · -- the last digit
      have hlt := (div_ten_eq_zero_iff value).1 hz
      rw [if_neg (not_not.2 hz)] at hstep
      refine ⟨_, pos, hstep, ?_⟩
      rw [hdrop, toChar_digit, Nat.mod_eq_of_lt hlt, Nat.toDigits_of_lt_base hlt]
      rfl
    · have hge : 10 ≤ value.toNat := Nat.le_of_not_lt ((div_ten_eq_zero_iff value).not.1 hz)
      have hv' : (value / 10).toNat < 10 ^ pos := by
        rw [toNat_div_ten, Nat.div_lt_iff_lt_mul (by norm_num), ← Nat.pow_succ]
        exact hv
      have hpos' : 0 < pos := by
        rcases Nat.eq_zero_or_pos pos with h | h
        · rw [h] at hv
          omega
        · exact h
      obtain ⟨buffer', pos', heq, hout⟩ := ih (buffer.setIfInBounds pos (toChar (48 + value % 10)))
        (value / 10) (by omega) hv' hpos'
      rw [if_pos hz, heq] at hstep
      refine ⟨buffer', pos', hstep, ?_⟩
      rw [hout, hdrop, toNat_div_ten, toChar_digit, Nat.toDigits_of_base_le (by norm_num) hge,
        List.append_assoc, List.singleton_append]

theorem cString_append_nul {s : List Char} (h : nul ∉ s) (t : List Char) :
    cString (s ++ nul :: t) = some s := by
  induction s with
  | nil => simp [cString]
  | cons c s ih =>
    rw [List.mem_cons, not_or] at h
    simp [cString, Ne.symm h.1, ih h.2]

theorem nul_notMem_toDigits (n : ℕ) : nul ∉ Nat.toDigits 10 n := by
  intro h
  have hdigit := Nat.isDigit_of_mem_toDigits (by norm_num) (by norm_num) h
  exact absurd hdigit (by decide)

/-- `put_u64` prints the canonical numeral, whatever was in its buffer. -/
theorem putU64_eq (buffer : Vector Char 21) (value : BitVec 64) :
    putU64 buffer value = some (Nat.toDigits 10 value.toNat) := by
  have hlt := value.isLt
  obtain ⟨buffer', pos', heq, hout⟩ := putU64Loop_eq (buffer.setIfInBounds 20 nul) value
    (by norm_num : 20 ≤ 21) (by omega) (by norm_num)
  have hnul : (buffer.setIfInBounds 20 nul).toList.drop 20 = [nul] := by
    rw [drop_setIfInBounds buffer (by norm_num), List.drop_eq_nil_of_le (by simp)]
  simp only [putU64, heq, Option.bind_eq_bind, Option.bind_some, hout, hnul]
  exact cString_append_nul (nul_notMem_toDigits _) []

/-- The canonical decimal numeral of `n`, in at most 20 digits. -/
structure IsDecimal (s : List Char) (n : ℕ) : Prop where
  digits : ∀ c ∈ s, c.isDigit = true
  canonical : s.head? = some '0' → n = 0 ∧ s = ['0']
  length : s.length ≤ 20
  read : Numeral.read 10 s = some n

theorem isDecimal_toDigits (value : BitVec 64) :
    IsDecimal (Nat.toDigits 10 value.toNat) value.toNat where
  digits _ hc := Nat.isDigit_of_mem_toDigits (by norm_num) (by norm_num) hc
  canonical := by
    intro h
    have hzero := Numeral.head?_toDigits (by norm_num) h
    rw [hzero]
    exact ⟨rfl, rfl⟩
  length := by
    have hlt := value.isLt
    rw [Nat.length_toDigits_le_iff (by norm_num) (by norm_num)]
    omega
  read := Numeral.read_toDigits (by norm_num) (by norm_num) _

/-! ## Hexadecimal -/

theorem hex_getD {d : ℕ} (h : d < 16) : hex.getD d nul = d.digitChar := by
  have hall : ∀ d : Fin 16, hex.getD d nul = (d : ℕ).digitChar := by decide
  exact hall ⟨d, h⟩

/-- One nibble of the value. -/
theorem hex_nibble (value : BitVec 32) (k : ℕ) :
    hex.getD ((value >>> (4 * k)) &&& 0x0f).toNat nul = (value.toNat / 16 ^ k % 16).digitChar := by
  have hnat : ((value >>> (4 * k)) &&& 0x0f).toNat = value.toNat / 16 ^ k % 16 := by
    rw [BitVec.toNat_and, BitVec.toNat_ushiftRight, Nat.shiftRight_eq_div_pow, Nat.pow_mul]
    exact Nat.and_two_pow_sub_one_eq_mod _ 4
  rw [hnat]
  exact hex_getD (Nat.mod_lt _ (by norm_num))

theorem putHex32_eq (value : BitVec 32) :
    putHex32 value = "0x".toList ++ Numeral.fixed 16 8 value.toNat := by
  have hnibble := hex_nibble value
  simp only [putHex32, hexShifts, Numeral.fixed, List.map_cons, List.map_nil, ← hnibble]

/-! ## The report -/

/-- **The report's numbers are exact.** For every 64-bit value `put_u64` stays in its buffer and
prints the canonical decimal numeral; for every 32-bit value `put_hex32` prints `0x` and eight
lower-case hexadecimal digits that read back to it; and `put_metric` prints the difference of its
timestamps modulo `2^64`. -/
theorem numbers_exact :
    (∀ (buffer : Vector Char 21) (value : BitVec 64),
      ∃ s, putU64 buffer value = some s ∧ IsDecimal s value.toNat) ∧
    (∀ value : BitVec 32, ∃ s, putHex32 value = "0x".toList ++ s ∧ s.length = 8 ∧
      (∀ c ∈ s, c ∈ "0123456789abcdef".toList) ∧ Numeral.read 16 s = some value.toNat) ∧
    ∀ (buffer : Vector Char 21) (label : String) (start stop : BitVec 64),
      ∃ s n, putMetric buffer label start stop =
          some (label.toList ++ ": ".toList ++ s ++ " ticks\r\n".toList) ∧
        IsDecimal s n ∧ (n : ℤ) = ((stop.toNat : ℤ) - start.toNat) % 2 ^ 64 := by
  refine ⟨?_, ?_, ?_⟩
  · intro buffer value
    exact ⟨_, putU64_eq buffer value, isDecimal_toDigits value⟩
  · intro value
    refine ⟨_, putHex32_eq value, Numeral.length_fixed 16 8 _, ?_, ?_⟩
    · intro c hc
      obtain ⟨d, hd, rfl⟩ := Numeral.mem_fixed (by norm_num) hc
      have hall : ∀ d : Fin 16, (d : ℕ).digitChar ∈ "0123456789abcdef".toList := by decide
      exact hall ⟨d, hd⟩
    · exact Numeral.read_fixed (by norm_num) (by norm_num) (by norm_num) value.isLt
  · intro buffer label start stop
    refine ⟨_, _, ?_, isDecimal_toDigits (stop - start), ?_⟩
    · simp only [putMetric, putU64_eq, Option.bind_eq_bind, Option.bind_some]
    · have hstart := start.isLt
      have hstop := stop.isLt
      rw [BitVec.toNat_sub]
      omega

end KyberNeorv32.KyberNiosv
