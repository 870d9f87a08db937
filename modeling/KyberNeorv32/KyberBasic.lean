import Mathlib

/-!
# `kyber_neorv32_basic`: the firmware's `main`

`main` runs key generation, encapsulation and decapsulation, compares the two shared secrets and
reports its progress on the GPIO port. The three calls are third-party code: `Kem` holds what they
return and what they leave in `ss_enc` and `ss_dec`, of any length `CRYPTO_BYTES`. The result of
`main` is the list of its `Action`s in order, the writes to the port and the pieces of work in
between, with its return value.

The enumeration of port values is complete (`main.c:9-24`); `main` writes two of the thirteen.
-/

namespace KyberNeorv32.KyberBasic

inductive GpioCode
  | init
  | entropyReady
  | rngReady
  | keypairStart
  | keypairDone
  | encDone
  | decDone
  | compare
  | success
  | errKeypair
  | errEnc
  | errDec
  | errCompare
deriving DecidableEq, Repr

def GpioCode.value : GpioCode → BitVec 32
  | .init => 0x01
  | .entropyReady => 0x02
  | .rngReady => 0x03
  | .keypairStart => 0x04
  | .keypairDone => 0x05
  | .encDone => 0x06
  | .decDone => 0x07
  | .compare => 0x08
  | .success => 0x09
  | .errKeypair => 0x0A
  | .errEnc => 0x0B
  | .errDec => 0x0C
  | .errCompare => 0x0D

/-- What the calls of `crypto_kem_keypair`, `crypto_kem_enc` and `crypto_kem_dec` return and leave
behind. `int` is `ℤ`: return codes are only compared with 0. -/
structure Kem (cryptoBytes : ℕ) where
  rcKeypair : ℤ
  rcEnc : ℤ
  rcDec : ℤ
  ssEnc : Vector (BitVec 8) cryptoBytes
  ssDec : Vector (BitVec 8) cryptoBytes
deriving DecidableEq

/-- The pieces of work between the events of `main`. -/
inductive Stage
  | startup
  | setup
  | keypair
  | enc
  | dec
  | compare
  | report
deriving DecidableEq, Repr

inductive Action
  | gpioSet (code : GpioCode)
  | work (stage : Stage)
deriving DecidableEq, Repr

structure Run where
  actions : List Action
  rc : ℤ
deriving DecidableEq, Repr

/-- The loop over the two buffers (`main.c:92-97`), from `rc = 0`: it stops at the first byte that
differs. -/
def compareLoop : List (BitVec 8) → List (BitVec 8) → ℤ
  | a :: as, b :: bs => if a ≠ b then 1 else compareLoop as bs
  | _, _ => 0

variable {n : ℕ}

/-- `main.c:26-139`, with its four early returns. -/
def main (k : Kem n) : Run :=
  let toKeypair : List Action :=
    [.work .startup, .gpioSet .init, .work .setup, .work .keypair]
  if k.rcKeypair ≠ 0 then ⟨toKeypair, 1⟩
  else
    let toEnc := toKeypair ++ [.work .enc]
    if k.rcEnc ≠ 0 then ⟨toEnc, 1⟩
    else
      let toDec := toEnc ++ [.work .dec]
      if k.rcDec ≠ 0 then ⟨toDec ++ [.gpioSet .errDec], 1⟩
      else
        let toCompare := toDec ++ [.work .compare]
        let rc := compareLoop k.ssEnc.toList k.ssDec.toList
        if rc ≠ 0 then ⟨toCompare, rc⟩ else ⟨toCompare ++ [.work .report], 0⟩

/-- All three calls succeed and the shared secrets agree in every byte. -/
def AllOk (k : Kem n) : Prop :=
  k.rcKeypair = 0 ∧ k.rcEnc = 0 ∧ k.rcDec = 0 ∧ ∀ i : Fin n, k.ssEnc.get i = k.ssDec.get i

/-! ## Return value -/

theorem compareLoop_eq_zero {as bs : List (BitVec 8)} (h : as.length = bs.length) :
    compareLoop as bs = 0 ↔ as = bs := by
  induction as generalizing bs with
  | nil =>
    cases bs with
    | nil => simp [compareLoop]
    | cons b bs => simp at h
  | cons a as ih =>
    cases bs with
    | nil => simp at h
    | cons b bs =>
      have h' : as.length = bs.length := by simpa using h
      by_cases hab : a = b
      · rw [compareLoop, if_neg (not_not.2 hab), ih h', hab, List.cons.injEq]
        simp
      · simp [compareLoop, hab]

theorem compareLoop_vector (as bs : Vector (BitVec 8) n) :
    compareLoop as.toList bs.toList = 0 ↔ ∀ i : Fin n, as.get i = bs.get i := by
  rw [compareLoop_eq_zero (by simp)]
  constructor
  · intro h i
    rw [Vector.toList_inj.1 h]
  · intro h
    apply Vector.toList_inj.2
    apply Vector.ext
    intro i hi
    exact h ⟨i, hi⟩

/-- The five ways through `main`. -/
theorem main_cases (k : Kem n) :
    (k.rcKeypair ≠ 0 ∧
      main k = ⟨[.work .startup, .gpioSet .init, .work .setup, .work .keypair], 1⟩) ∨
    (k.rcKeypair = 0 ∧ k.rcEnc ≠ 0 ∧
      main k = ⟨[.work .startup, .gpioSet .init, .work .setup, .work .keypair, .work .enc], 1⟩) ∨
    (k.rcKeypair = 0 ∧ k.rcEnc = 0 ∧ k.rcDec ≠ 0 ∧
      main k = ⟨[.work .startup, .gpioSet .init, .work .setup, .work .keypair, .work .enc,
        .work .dec, .gpioSet .errDec], 1⟩) ∨
    (k.rcKeypair = 0 ∧ k.rcEnc = 0 ∧ k.rcDec = 0 ∧ (¬ ∀ i : Fin n, k.ssEnc.get i = k.ssDec.get i) ∧
      (main k).actions = [.work .startup, .gpioSet .init, .work .setup, .work .keypair, .work .enc,
        .work .dec, .work .compare] ∧ (main k).rc ≠ 0) ∨
    (AllOk k ∧
      main k = ⟨[.work .startup, .gpioSet .init, .work .setup, .work .keypair, .work .enc,
        .work .dec, .work .compare, .work .report], 0⟩) := by
  by_cases h1 : k.rcKeypair = 0
  · by_cases h2 : k.rcEnc = 0
    · by_cases h3 : k.rcDec = 0
      · by_cases h4 : ∀ i : Fin n, k.ssEnc.get i = k.ssDec.get i
        · have hrc := (compareLoop_vector k.ssEnc k.ssDec).2 h4
          refine Or.inr (Or.inr (Or.inr (Or.inr ⟨⟨h1, h2, h3, h4⟩, ?_⟩)))
          simp [main, h1, h2, h3, hrc]
        · have hrc := (compareLoop_vector k.ssEnc k.ssDec).not.2 h4
          refine Or.inr (Or.inr (Or.inr (Or.inl ⟨h1, h2, h3, h4, ?_, ?_⟩)))
          · simp [main, h1, h2, h3, hrc]
          · simp [main, h1, h2, h3, hrc]
      · exact Or.inr (Or.inr (Or.inl ⟨h1, h2, h3, by simp [main, h1, h2, h3]⟩))
    · exact Or.inr (Or.inl ⟨h1, h2, by simp [main, h1, h2]⟩)
  · exact Or.inl ⟨h1, by simp [main, h1]⟩

/-- `main` returns 0 exactly when everything went well. -/
theorem main_rc_eq_zero (k : Kem n) : (main k).rc = 0 ↔ AllOk k := by
  rcases main_cases k with ⟨h, hm⟩ | ⟨-, h, hm⟩ | ⟨-, -, h, hm⟩ | ⟨-, -, -, h, -, hm⟩ | ⟨h, hm⟩
  · simp [hm, AllOk, h]
  · simp [hm, AllOk, h]
  · simp [hm, AllOk, h]
  · exact iff_of_false hm fun hok => h hok.2.2.2
  · simp [hm, h]

/-! ## The port -/

def gpioAfter (g : BitVec 32) (actions : List Action) : BitVec 32 :=
  actions.foldl (fun g a => match a with
    | .gpioSet code => code.value
    | .work _ => g) g

/-- Every outcome but one leaves `KYBER_GPIO_INIT` on the port. -/
theorem gpioAfter_main (g : BitVec 32) (k : Kem n) : gpioAfter g (main k).actions =
    if k.rcKeypair = 0 ∧ k.rcEnc = 0 ∧ k.rcDec ≠ 0 then GpioCode.errDec.value
    else GpioCode.init.value := by
  rcases main_cases k with ⟨h, hm⟩ | ⟨-, h, hm⟩ | ⟨h1, h2, h, hm⟩ | ⟨-, -, h, -, hm, -⟩ | ⟨h, hm⟩
  · simp [hm, gpioAfter, h]
  · simp [hm, gpioAfter, h]
  · simp [hm, gpioAfter, h1, h2, h]
  · simp [hm, gpioAfter, h]
  · simp [hm, gpioAfter, h.2.2.1]

end KyberNeorv32.KyberBasic
