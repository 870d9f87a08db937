import KyberNeorv32.Butterfly

/-!
# The schedule of the Kyber transform

The order in which the reference `ntt` visits its butterflies, as `ntt_c/main.c` traces it:
`schedule` lists the `(len, start, j, k)` of every `kyber_trace_butterfly` call, and `ntt` runs
`ntt_k` on `(r[j], r[j + len])` with `zeta_lut[k]` along it.

`kyberNet` is the same list cut into seven layers, each a perfect pairing of the 256 positions,
with every cell tagged by its level and block instead of `k` (`schedule_eq`, `ntt_eq`).
-/

namespace KyberNeorv32.Verilog

open PairNet

/-- The fields of a trace line (`ntt_c/main.c:29-32`). -/
structure TraceLine where
  len : ℕ
  start : ℕ
  j : ℕ
  k : ℕ
deriving DecidableEq, Repr

/-- `len = 128, 64, …, 2` and, for each, `start = 0, 2 * len, 4 * len, …` below 256. -/
def starts : List (ℕ × ℕ) :=
  [128, 64, 32, 16, 8, 4, 2].flatMap fun len =>
    (List.range (128 / len)).map fun i => (len, 2 * len * i)

/-- `k` counts the `(len, start)` pairs from 1; `j` runs over `len` positions from `start`. -/
def schedule : List TraceLine :=
  (starts.zipIdx 1).flatMap fun ((len, start), k) =>
    (List.range' start len).map fun j => ⟨len, start, j, k⟩

/-- A position of `r[256]`. -/
def pos (j : ℕ) : Fin 256 := Fin.ofNat 256 j

def TraceLine.cell (s : TraceLine) : Pair 256 (BitVec 7) :=
  ⟨pos s.j, pos (s.j + s.len), BitVec.ofNat 7 s.k⟩

/-- The forward transform on the ALU, in place. -/
def ntt (r : Vector (BitVec 16) 256) : Vector (BitVec 16) 256 :=
  run nttK (schedule.map TraceLine.cell) r

/-! ## Levels and blocks -/

/-- Level `l` in `0..6` and block `i < 2^l` of a butterfly. -/
structure Block where
  l : ℕ
  i : ℕ
  hl : l ≤ 6
  hi : i < 2 ^ l
deriving DecidableEq, Repr

def Block.addr (t : Block) : BitVec 7 := Verilog.addr t.l t.i

/-- `ntt_k` with ROM index `2^l + i`. -/
def nttBlock (t : Block) (a b : BitVec 16) : BitVec 16 × BitVec 16 := nttK t.addr a b

/-- `intt_k` with ROM index `2^(l+1) - 1 - i`. -/
def inttBlock (t : Block) (a b : BitVec 16) : BitVec 16 × BitVec 16 := inttK (addrInv t.l t.i) a b

/-! ## The seven layers -/

/-- Lower position of butterfly `j` of block `i` at a level with `len = 2^(7-l)`. -/
def lowPos (l i j : ℕ) : Fin 256 := pos (2 * 2 ^ (7 - l) * i + j)
def highPos (l i j : ℕ) : Fin 256 := pos (2 * 2 ^ (7 - l) * i + j + 2 ^ (7 - l))

def kyberPairs (l : ℕ) (hl : l ≤ 6) : List (Pair 256 Block) :=
  (List.finRange (2 ^ l)).flatMap fun (i : Fin (2 ^ l)) =>
    (List.range (2 ^ (7 - l))).map fun j => ⟨lowPos l i j, highPos l i j, ⟨l, i, hl, i.2⟩⟩

theorem mem_kyberPairs {l : ℕ} (hl : l ≤ 6) {i j : ℕ} (hi : i < 2 ^ l) (hj : j < 2 ^ (7 - l)) :
    ⟨lowPos l i j, highPos l i j, ⟨l, i, hl, hi⟩⟩ ∈ kyberPairs l hl :=
  List.mem_flatMap.2 ⟨⟨i, hi⟩, List.mem_finRange _, List.mem_map.2 ⟨j, List.mem_range.2 hj, rfl⟩⟩

/-- Block and offset of a position. -/
theorem mem_positions_kyberPairs {l : ℕ} (hl : l ≤ 6) (p : Fin 256) :
    p ∈ positions (kyberPairs l hl) := by
  obtain ⟨i, j, hi, hj, h⟩ : ∃ i j, i < 2 ^ l ∧ j < 2 ^ (7 - l) ∧
      (p = lowPos l i j ∨ p = highPos l i j) := by
    have hp := p.2
    have hlen : 2 * 2 ^ (7 - l) * 2 ^ l = 256 := by interval_cases l <;> rfl
    refine ⟨p / (2 * 2 ^ (7 - l)), p % 2 ^ (7 - l), ?_, Nat.mod_lt _ (by positivity), ?_⟩
    · exact Nat.div_lt_of_lt_mul (by omega)
    · simp only [lowPos, highPos, pos, Fin.ext_iff, Fin.val_ofNat]
      interval_cases l <;> simp only [Nat.reduceSub, Nat.reducePow, Nat.reduceMul] <;> omega
  exact mem_positions.2 ⟨_, mem_kyberPairs hl hi hj, h⟩

theorem length_positions_kyberPairs {l : ℕ} (hl : l ≤ 6) :
    (positions (kyberPairs l hl)).length = 256 := by
  simp [positions, kyberPairs, List.length_flatMap]
  interval_cases l <;> rfl

/-- 256 entries that reach all 256 positions do not repeat. -/
theorem nodup_positions_kyberPairs {l : ℕ} (hl : l ≤ 6) :
    (positions (kyberPairs l hl)).Nodup := by
  have huniv : (positions (kyberPairs l hl)).toFinset = Finset.univ :=
    Finset.eq_univ_of_forall fun p => List.mem_toFinset.2 (mem_positions_kyberPairs hl p)
  apply Multiset.coe_nodup.1
  rw [← Multiset.toFinset_card_eq_card_iff_nodup, List.toFinset_coe, huniv, Finset.card_univ,
    Fintype.card_fin, Multiset.coe_card, length_positions_kyberPairs]

def kyberLayer (l : ℕ) (hl : l ≤ 6) : Pairing 256 Block where
  pairs := kyberPairs l hl
  disjoint := nodup_positions_kyberPairs hl
  cover := mem_positions_kyberPairs hl

def kyberNet : List (Pairing 256 Block) :=
  (List.finRange 7).map fun (l : Fin 7) => kyberLayer l (by omega)

theorem schedule_eq : schedule.map TraceLine.cell =
    ((kyberNet.map Pairing.toLayer).flatMap (·.pairs)).map (Pair.retag Block.addr) := by
  decide +kernel

theorem ntt_eq (r : Vector (BitVec 16) 256) :
    ntt r = runLayers nttBlock (kyberNet.map Pairing.toLayer) r := by
  rw [ntt, schedule_eq, run_retag, runLayers_eq_run]
  rfl

end KyberNeorv32.Verilog
