import KyberNeorv32.Schedule
import KyberNeorv32.Ranges
import KyberNeorv32.Lib.PolySplit

/-!
# `ntt_k` with the ROM computes the Kyber transform

The induction runs over levels. Before level `l` the array is cut into `2^l` blocks, and block
`i` holds the remainder of the input polynomial modulo `X^(2^(8-l)) - 17^(modExp l i)` (`LevelOk`).
One level of `ntt_k` splits every block (`level_step`): its zeta is a square root of the block's
constant, and the sign of the two outputs decides which half gets which root. After seven levels
the blocks are pairs, and block `m` has exponent `2 * brv7 m + 1`.
-/

namespace KyberNeorv32.Verilog

open Words PairNet PolySplit Polynomial

/-- Coefficients modulo `q`. -/
abbrev Zq := ZMod 3329

/-- Coefficient `j` modulo `q`, as a function of a plain index. -/
def coeff (x : Vector (BitVec 16) 256) (j : ℕ) : Zq := ((x.get (pos j)).toInt : Zq)

theorem coeff_of_lt (x : Vector (BitVec 16) 256) {j : ℕ} (hj : j < 256) :
    coeff x j = (x[j].toInt : Zq) := by
  simp [coeff, pos, Vector.get_eq_getElem, Nat.mod_eq_of_lt hj]

instance : Nontrivial Zq := ZMod.nontrivial_iff.2 (by norm_num)

/-- The constant of block `i` before level `l` is `17` to this power. -/
def modExp (l i : ℕ) : ℕ := if l = 7 then 2 * brv7 (BitVec.ofNat 7 i) + 1 else 2 * brv7 (addr l i)

/-- The two halves of a block: the block's zeta and its negative, `17^128` times it. -/
theorem modExp_succ : ∀ l < 7, ∀ i < 2 ^ l, modExp (l + 1) (2 * i) = brv7 (addr l i) ∧
    modExp (l + 1) (2 * i + 1) = brv7 (addr l i) + 128 := by decide +kernel

theorem modExp_of_lt {l : ℕ} (hl : l ≤ 6) (i : ℕ) : modExp l i = 2 * brv7 (addr l i) :=
  if_neg (by omega)

theorem pow_17_128_zq : (17 : Zq) ^ 128 = -1 := by
  have h := (ZMod.intCast_eq_intCast_iff (17 ^ 128) (-1) 3329).2 pow_17_128
  simpa only [Int.cast_pow, Int.cast_neg, Int.cast_one, Int.cast_ofNat] using h

/-! ## One level -/

/-- The Montgomery factors of ROM and multiplier cancel: `ntt_k` multiplies by a power of 17. -/
theorem nttT_zq (k : BitVec 7) (b : BitVec 16) :
    ((nttT k b).toInt : Zq) = 17 ^ brv7 k * (b.toInt : Zq) := by
  have h1 : 65536 * (nttT k b).toInt ≡ 65536 * (17 ^ brv7 k * b.toInt) [ZMOD 3329] := by
    refine (nttT_modEq k b).trans (((zetaLut_root k).mul_right _).trans ?_)
    rw [show (17 : ℤ) ^ brv7 k * 65536 * b.toInt = 65536 * (17 ^ brv7 k * b.toInt) by ring]
  have h2 := (ZMod.intCast_eq_intCast_iff _ _ 3329).2 (mont_cancel h1)
  push_cast at h2
  exact h2

/-- What an exact level does to the coefficients of block `i`. -/
theorem level_coeff {l : ℕ} (hl : l ≤ 6) {x : Vector (BitVec 16) 256}
    (hx : Along nttBlock (fun t => NttExact t.addr) (kyberLayer l hl).pairs x) {i j : ℕ}
    (hi : i < 2 ^ l) (hj : j < 2 ^ (7 - l)) :
    let x' := run nttBlock (kyberLayer l hl).pairs x
    let p := 2 * 2 ^ (7 - l) * i + j
    let z : Zq := 17 ^ brv7 (addr l i)
    coeff x' p = coeff x p + z * coeff x (p + 2 ^ (7 - l)) ∧
      coeff x' (p + 2 ^ (7 - l)) = coeff x p - z * coeff x (p + 2 ^ (7 - l)) := by
  intro x' p z
  have hmem : _ ∈ (kyberLayer l hl).pairs := mem_kyberPairs hl hi hj
  obtain ⟨hadd, hsub⟩ := start_of_along (kyberLayer l hl).disjoint hx _ hmem
  have hp := run_p (f := nttBlock) (kyberLayer l hl).disjoint hmem x
  have hq := run_q (f := nttBlock) (kyberLayer l hl).disjoint hmem x
  simp only [nttBlock, nttK_eq] at hp hq
  have ht := nttT_zq (addr l i) (x.get (highPos l i j))
  refine ⟨?_, ?_⟩
  · have h : (x'.get (lowPos l i j)).toInt = _ := (congrArg BitVec.toInt hp).trans hadd
    change ((x'.get (lowPos l i j)).toInt : Zq) = _
    rw [h, Int.cast_add]
    exact congrArg (_ + ·) ht
  · have h : (x'.get (highPos l i j)).toInt = _ := (congrArg BitVec.toInt hq).trans hsub
    change ((x'.get (highPos l i j)).toInt : Zq) = _
    rw [h, Int.cast_sub]
    exact congrArg (_ - ·) ht

/-- Before level `l`, block `i` holds the remainder of `P` modulo its factor. -/
def LevelOk (P : Zq[X]) (l : ℕ) (x : Vector (BitVec 16) 256) : Prop :=
  ∀ i < 2 ^ l, Holds P (coeff x) (i * 2 ^ (8 - l)) (2 ^ (8 - l)) (17 ^ modExp l i)

/-- **One level splits every block.** -/
theorem level_step {P : Zq[X]} {l : ℕ} (hl : l ≤ 6) {x : Vector (BitVec 16) 256}
    (hP : LevelOk P l x)
    (hx : Along nttBlock (fun t => NttExact t.addr) (kyberLayer l hl).pairs x) :
    LevelOk P (l + 1) (run nttBlock (kyberLayer l hl).pairs x) := by
  have hlen : 2 ^ (8 - l) = 2 ^ (7 - l) + 2 ^ (7 - l) := by
    rw [show 8 - l = 7 - l + 1 by omega, pow_succ, mul_two]
  have hsplit : ∀ i < 2 ^ l,
      Holds P (coeff (run nttBlock (kyberLayer l hl).pairs x)) (2 * i * 2 ^ (7 - l)) (2 ^ (7 - l))
        (17 ^ modExp (l + 1) (2 * i)) ∧
      Holds P (coeff (run nttBlock (kyberLayer l hl).pairs x)) ((2 * i + 1) * 2 ^ (7 - l))
        (2 ^ (7 - l)) (17 ^ modExp (l + 1) (2 * i + 1)) := by
    intro i hi
    have h := hP i hi
    have hs : i * (2 ^ (7 - l) + 2 ^ (7 - l)) = 2 * 2 ^ (7 - l) * i := by ring
    rw [hlen, hs] at h
    obtain ⟨e0, e1⟩ := modExp_succ l (by omega) i hi
    have hz : ((17 : Zq) ^ brv7 (addr l i)) ^ 2 = 17 ^ modExp l i := by
      rw [modExp_of_lt hl, ← pow_mul, mul_comm]
    have hlow : ∀ j < 2 ^ (7 - l), coeff (run nttBlock (kyberLayer l hl).pairs x)
        (2 * 2 ^ (7 - l) * i + j) = coeff x (2 * 2 ^ (7 - l) * i + j) +
          17 ^ brv7 (addr l i) * coeff x (2 * 2 ^ (7 - l) * i + 2 ^ (7 - l) + j) := by
      intro j hj
      have := (level_coeff hl hx hi hj).1
      rwa [add_right_comm _ j] at this
    have hhigh : ∀ j < 2 ^ (7 - l), coeff (run nttBlock (kyberLayer l hl).pairs x)
        (2 * 2 ^ (7 - l) * i + 2 ^ (7 - l) + j) = coeff x (2 * 2 ^ (7 - l) * i + j) -
          17 ^ brv7 (addr l i) * coeff x (2 * 2 ^ (7 - l) * i + 2 ^ (7 - l) + j) := by
      intro j hj
      have := (level_coeff hl hx hi hj).2
      rwa [add_right_comm _ j] at this
    rw [e0, e1, pow_add, pow_17_128_zq, mul_neg_one,
      show 2 * i * 2 ^ (7 - l) = 2 * 2 ^ (7 - l) * i by ring,
      show (2 * i + 1) * 2 ^ (7 - l) = 2 * 2 ^ (7 - l) * i + 2 ^ (7 - l) by ring]
    exact h.split hz hlow hhigh
  intro i hi
  rw [show 8 - (l + 1) = 7 - l by omega]
  rw [pow_succ] at hi
  rcases Nat.even_or_odd' i with ⟨k, rfl | rfl⟩
  · exact (hsplit k (by omega)).1
  · exact (hsplit k (by omega)).2

/-! ## All levels -/

/-- The layers from level `l` on. -/
def levelsFrom (l : ℕ) : List (Layer 256 Block) := (kyberNet.map Pairing.toLayer).drop l

theorem levelsFrom_eq {l : ℕ} (hl : l ≤ 6) :
    levelsFrom l = (kyberLayer l hl).toLayer :: levelsFrom (l + 1) := by
  interval_cases l <;> rfl

/-- The run lemma: `d` exact levels from level `l` on lead to level 7. -/
theorem levels_run {P : Zq[X]} : ∀ (d l : ℕ), l + d = 7 → ∀ x : Vector (BitVec 16) 256,
    LevelOk P l x → AlongLayers nttBlock (fun t => NttExact t.addr) (levelsFrom l) x →
      LevelOk P 7 (runLayers nttBlock (levelsFrom l) x)
  | 0, l, h, x, hP, _ => by
    obtain rfl : l = 7 := h
    exact hP
  | d + 1, l, h, x, hP, hx => by
    rw [levelsFrom_eq (show l ≤ 6 by omega)] at hx ⊢
    have hstep := level_step (show l ≤ 6 by omega) hP hx.1
    exact levels_run d (l + 1) (by omega) _ hstep hx.2

/-- The polynomial with coefficients `r[0], …, r[255]` modulo `q`. -/
noncomputable def poly (r : Vector (BitVec 16) 256) : Zq[X] :=
  ∑ j : Fin 256, C ((r.get j).toInt : Zq) * X ^ (j : ℕ)

/-- Level 0 is one block, the input itself. -/
theorem levelOk_zero (r : Vector (BitVec 16) 256) : LevelOk (poly r) 0 r := by
  have hblock : poly r = block (coeff r) 0 256 := by
    rw [poly, block, ← Fin.sum_univ_eq_sum_range fun j => C (coeff r (0 + j)) * X ^ j]
    refine Finset.sum_congr rfl fun j _ => ?_
    rw [zero_add, coeff_of_lt r j.2]
    rfl
  intro i hi
  obtain rfl : i = 0 := by simpa using hi
  rw [hblock, zero_mul]
  exact Holds.self _ _ _ _

/-- **The ROM and `ntt_k` compute the Kyber transform.** For every input within 9471, the output
pair `m` is the remainder of the input polynomial modulo `X^2 - 17^(2 * brv7 m + 1)`, and no adder
wraps in any of the 896 butterflies. -/
theorem ntt_is_kyber_transform (r : Vector (BitVec 16) 256)
    (hr : ∀ j : Fin 256, |(r.get j).toInt| ≤ 9471) :
    (∀ m : Fin 128, poly r %ₘ (X ^ 2 - C (17 ^ (2 * brv7 (BitVec.ofNat 7 m) + 1))) =
      C ((ntt r)[2 * m.val].toInt : Zq) + C ((ntt r)[2 * m.val + 1].toInt : Zq) * X) ∧
    Along nttK NttExact (schedule.map TraceLine.cell) r := by
  have hx : AlongLayers nttBlock (fun t => NttExact t.addr) (kyberNet.map Pairing.toLayer) r :=
    (forward_cells Block.addr (kyberNet.map Pairing.toLayer) r (B := 9471) (by decide) hr).1
  constructor
  · intro m
    have h := levels_run 7 0 rfl r (levelOk_zero r) hx m m.2
    have hm := Holds.modByMonic h
    have hexp : modExp 7 m = 2 * brv7 (BitVec.ofNat 7 m) + 1 := if_pos rfl
    have e : m.val * 2 ^ (8 - 7) = 2 * m.val := mul_comm _ _
    rw [show levelsFrom 0 = kyberNet.map Pairing.toLayer from rfl, ← ntt_eq, hexp, e,
      coeff_of_lt _ (by omega), coeff_of_lt _ (by omega)] at hm
    exact hm
  · rw [schedule_eq, along_retag, ← alongLayers_iff]
    exact hx

/-- Every coefficient at the limit 9471. -/
theorem ntt_is_kyber_transform_limit :
    (∀ m : Fin 128, poly (Vector.replicate 256 9471) %ₘ
        (X ^ 2 - C (17 ^ (2 * brv7 (BitVec.ofNat 7 m) + 1))) =
      C ((ntt (Vector.replicate 256 9471))[2 * m.val].toInt : Zq) +
        C ((ntt (Vector.replicate 256 9471))[2 * m.val + 1].toInt : Zq) * X) ∧
    Along nttK NttExact (schedule.map TraceLine.cell) (Vector.replicate 256 9471) := by
  refine ntt_is_kyber_transform (Vector.replicate 256 9471) fun j => ?_
  have h : (Vector.replicate 256 (9471 : BitVec 16)).get j = 9471 := Vector.getElem_replicate j.2
  rw [h]
  decide

end KyberNeorv32.Verilog
