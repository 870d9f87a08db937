import KyberNeorv32.Ranges
import KyberNeorv32.Schedule

/-!
# Forward and inverse networks are a round trip

`roundTrip` runs a network of `ntt_k` butterflies, applies `reduce_k` to every coefficient and runs
the layers backwards through `intt_k`, which reads the same ROM at the mirrored index. Undoing one
butterfly doubles both coefficients modulo `q` (`undo_cell`), and the mirror law of `PairNet` lifts
this to whole networks: `L` layers leave `2^L` times the input, which `fqmul_k` by 1441 turns into
the Montgomery form when `L = 7` (`montScale`).

None of the operand adders wraps. The subtraction inside `reduce_k`'s Barrett block can: the
forward network may leave coefficients below -29960, and there it does (`reduce_wraps`).
-/

namespace KyberNeorv32.Verilog

open Words PairNet

variable {n : ℕ}

def forward (net : List (Pairing n Block)) (x : Vector (BitVec 16) n) : Vector (BitVec 16) n :=
  runLayers nttBlock (net.map Pairing.toLayer) x

/-- `reduce_k` on every coefficient. -/
def reduceAll (x : Vector (BitVec 16) n) : Vector (BitVec 16) n := x.map fun a => low (reduceK a)

def inverse (net : List (Pairing n Block)) (y : Vector (BitVec 16) n) : Vector (BitVec 16) n :=
  runLayers inttBlock (net.map Pairing.toLayer).reverse y

def roundTrip (net : List (Pairing n Block)) (x : Vector (BitVec 16) n) : Vector (BitVec 16) n :=
  inverse net (reduceAll (forward net x))

/-! ## One butterfly and its mirror image -/

/-- `v` stands for `a` after `s` butterflies on it are undone. -/
def Undone (s : ℕ) (a v : BitVec 16) : Prop :=
  (-3328 ≤ v.toInt ∧ v.toInt ≤ 3329) ∧ v.toInt ≡ 2 ^ s * a.toInt [ZMOD 3329]

/-- What `intt_k` makes of the two outputs of `ntt_k`, up to factors, modulo `q`: the first output
sums to twice `a`, and the second, whose ROM entry is minus the inverse of the first one's, to
twice `b`. -/
theorem undo_modEq {z z' a b t u v r : ℤ} {s : ℕ}
    (hz : z * z' ≡ -(65536 * 65536) [ZMOD 3329]) (ht : 65536 * t ≡ z * b [ZMOD 3329])
    (hu : u ≡ 2 ^ s * (a + t) [ZMOD 3329]) (hv : v ≡ 2 ^ s * (a - t) [ZMOD 3329])
    (hr : 65536 * r ≡ (v - u) * z' [ZMOD 3329]) :
    u + v ≡ 2 ^ (s + 1) * a [ZMOD 3329] ∧ r ≡ 2 ^ (s + 1) * b [ZMOD 3329] := by
  constructor
  · calc u + v ≡ 2 ^ s * (a + t) + 2 ^ s * (a - t) [ZMOD 3329] := hu.add hv
      _ = 2 ^ (s + 1) * a := by ring
  · apply mont_cancel
    apply mont_cancel
    have hdiff : v - u ≡ 2 ^ s * (a - t) - 2 ^ s * (a + t) [ZMOD 3329] := hv.sub hu
    calc 65536 * (65536 * r) ≡ 65536 * ((v - u) * z') [ZMOD 3329] := hr.mul_left _
      _ ≡ 65536 * ((2 ^ s * (a - t) - 2 ^ s * (a + t)) * z') [ZMOD 3329] :=
        (hdiff.mul_right _).mul_left _
      _ = -(2 ^ (s + 1) * z') * (65536 * t) := by ring
      _ ≡ -(2 ^ (s + 1) * z') * (z * b) [ZMOD 3329] := ht.mul_left _
      _ = -(2 ^ (s + 1) * b) * (z * z') := by ring
      _ ≡ -(2 ^ (s + 1) * b) * -(65536 * 65536) [ZMOD 3329] := hz.mul_left _
      _ = 65536 * (65536 * (2 ^ (s + 1) * b)) := by ring

/-- Undoing one butterfly: no adder of `intt_k` wraps, and both outputs advance by one. -/
theorem undo_cell (s : ℕ) (t : Block) (a b u v : BitVec 16) (h : NttExact t.addr a b)
    (hu : Undone s (nttBlock t a b).1 u) (hv : Undone s (nttBlock t a b).2 v) :
    InttExact u v ∧ Undone (s + 1) a (inttBlock t u v).1 ∧
      Undone (s + 1) b (inttBlock t u v).2 := by
  obtain ⟨⟨u1, u2⟩, hu⟩ := hu
  obtain ⟨⟨v1, v2⟩, hv⟩ := hv
  have hop : InttOperandsExact u v := by
    apply inttOperandsExact_of_le
    · rw [abs_le]; omega
    · rw [abs_le]; omega
  obtain ⟨_, hbar, ⟨r1, r2, hr, _⟩, w1, w2, hw⟩ :=
    inttStores_of_exact (k := addrInv t.l t.i) hop
  obtain ⟨h1, h2, _, _, ht⟩ := nttStores_of_exact h
  change u.toInt ≡ 2 ^ s * (nttK t.addr a b).1.toInt [ZMOD 3329] at hu
  change v.toInt ≡ 2 ^ s * (nttK t.addr a b).2.toInt [ZMOD 3329] at hv
  rw [h1] at hu
  rw [h2] at hv
  obtain ⟨hsum, hdiff⟩ := undo_modEq (zeta_mirror t.l (Nat.lt_succ_of_le t.hl) t.i t.hi) ht hu hv hw
  refine ⟨⟨hop, hbar.2 (by omega)⟩, ⟨⟨?_, r2⟩, hr.trans hsum⟩, ⟨⟨?_, ?_⟩, hdiff⟩⟩
  · change -3328 ≤ (inttK (addrInv t.l t.i) u v).1.toInt
    omega
  · change -3328 ≤ (inttK (addrInv t.l t.i) u v).2.toInt
    omega
  · change (inttK (addrInv t.l t.i) u v).2.toInt ≤ 3329
    omega

/-! ## Whole networks -/

theorem reduceAll_get (y : Vector (BitVec 16) n) (j : Fin n) :
    (reduceAll y).get j = barrettResult (y.get j) := by
  simp [reduceAll, low_reduceK]

theorem undone_reduceAll (y : Vector (BitVec 16) n) (j : Fin n) :
    Undone 0 (y.get j) ((reduceAll y).get j) := by
  have h := barrettResult_bounds (y.get j)
  rw [reduceAll_get]
  refine ⟨by omega, ?_⟩
  rw [pow_zero, one_mul]
  exact barrettResult_modEq _

/-- The room that the input leaves is the growth of the forward network. -/
theorem forward_exact (net : List (Pairing n Block)) (x : Vector (BitVec 16) n)
    (hx : ∀ j : Fin n, |(x.get j).toInt| + 3328 * net.length ≤ 32767) :
    AlongLayers nttBlock (fun t => NttExact t.addr) (net.map Pairing.toLayer) x := by
  have hlen : ((net.map Pairing.toLayer).length : ℤ) = net.length := by simp
  have hx' : ∀ j : Fin n, |(x.get j).toInt| ≤ 32767 - 3328 * net.length := by
    intro j
    have := hx j
    omega
  exact (forward_cells Block.addr (net.map Pairing.toLayer) x (by rw [hlen]; omega) hx').1

theorem inverse_undoes (net : List (Pairing n Block)) (x : Vector (BitVec 16) n)
    (h : AlongLayers nttBlock (fun t => NttExact t.addr) (net.map Pairing.toLayer) x) :
    AlongLayers inttBlock (fun _ a b => InttExact a b) (net.map Pairing.toLayer).reverse
        (reduceAll (forward net x)) ∧
      ∀ j : Fin n, Undone net.length (x.get j) ((roundTrip net x).get j) :=
  mirror undo_cell net x _ h fun j => undone_reduceAll (forward net x) j

/-- The factor `f` of the reference `invntt`, `2^32 / 2^7` modulo `q`. -/
def montScale : BitVec 16 := 1441

/-- After seven layers `fqmul_k` by `montScale` leaves the Montgomery form of the input. -/
theorem fqmulK_montScale {a v : BitVec 16} (h : Undone 7 a v) :
    -3329 < (fqmulK v montScale).toInt ∧ (fqmulK v montScale).toInt < 3329 ∧
      (fqmulK v montScale).toInt ≡ 2 ^ 16 * a.toInt [ZMOD 3329] := by
  obtain ⟨f1, f2⟩ := fqResult_lt_of_lt v (b := montScale) (by decide) (by decide)
  rw [fqmulK_toInt]
  refine ⟨f1, f2, mont_cancel ?_⟩
  have hscale : (2 : ℤ) ^ 7 * 1441 ≡ 65536 * 2 ^ 16 [ZMOD 3329] := by decide
  calc 65536 * (fqResult v montScale).toInt ≡ v.toInt * 1441 [ZMOD 3329] := fqResult_modEq v _
    _ ≡ 2 ^ 7 * a.toInt * 1441 [ZMOD 3329] := h.2.mul_right _
    _ = 2 ^ 7 * 1441 * a.toInt := by ring
    _ ≡ 65536 * 2 ^ 16 * a.toInt [ZMOD 3329] := hscale.mul_right _
    _ = 65536 * (2 ^ 16 * a.toInt) := by ring

/-- **The round trip.** For every network of `L` layers and every input that leaves `3328 * L` of
room: no 16-bit adder of any `ntt_k` or `intt_k` wraps, and the Barrett subtraction of `reduce_k`
wraps just on the coefficients below -29960; the result is within `[-3328, 3329]` and `2^L` times
the input modulo `q`; and after seven layers `fqmul_k` by 1441 gives its Montgomery form. -/
theorem round_trip (net : List (Pairing n Block)) (x : Vector (BitVec 16) n)
    (hx : ∀ j : Fin n, |(x.get j).toInt| + 3328 * net.length ≤ 32767) :
    AlongLayers nttBlock (fun t => NttExact t.addr) (net.map Pairing.toLayer) x ∧
    (∀ j : Fin n, SubExact ((forward net x).get j) (barrettMultiple ((forward net x).get j)) ↔
      -29961 < ((forward net x).get j).toInt) ∧
    AlongLayers inttBlock (fun _ a b => InttExact a b) (net.map Pairing.toLayer).reverse
      (reduceAll (forward net x)) ∧
    (∀ j : Fin n, -3328 ≤ ((roundTrip net x).get j).toInt ∧ ((roundTrip net x).get j).toInt ≤ 3329 ∧
      ((roundTrip net x).get j).toInt ≡ 2 ^ net.length * (x.get j).toInt [ZMOD 3329]) ∧
    (net.length = 7 → ∀ j : Fin n,
      -3329 < (fqmulK ((roundTrip net x).get j) 1441).toInt ∧
      (fqmulK ((roundTrip net x).get j) 1441).toInt < 3329 ∧
      (fqmulK ((roundTrip net x).get j) 1441).toInt ≡ 2 ^ 16 * (x.get j).toInt [ZMOD 3329]) := by
  have hfwd := forward_exact net x hx
  obtain ⟨hinv, hundone⟩ := inverse_undoes net x hfwd
  refine ⟨hfwd, fun j => barrett_subExact_iff _, hinv, ?_, ?_⟩
  · intro j
    obtain ⟨⟨h1, h2⟩, h3⟩ := hundone j
    exact ⟨h1, h2, h3⟩
  · intro hlen j
    have h := hundone j
    rw [hlen] at h
    exact fqmulK_montScale h

/-- Two coefficients, paired by the one block of level 0. -/
def onePairing : Pairing 2 Block where
  toLayer := oneCell ⟨0, 0, by decide, by decide⟩
  cover := by decide

theorem round_trip_seven :
    AlongLayers inttBlock (fun _ a b => InttExact a b)
      ((List.replicate 7 onePairing).map Pairing.toLayer).reverse
      (reduceAll (forward (List.replicate 7 onePairing) #v[9471, -9471])) ∧
    (fqmulK ((roundTrip (List.replicate 7 onePairing) #v[9471, -9471]).get 0) 1441).toInt ≡
      2 ^ 16 * 9471 [ZMOD 3329] := by
  have hx : ∀ j : Fin 2, |((#v[9471, -9471] : Vector (BitVec 16) 2).get j).toInt| +
      3328 * (List.replicate 7 onePairing).length ≤ 32767 := by decide
  obtain ⟨_, _, hinv, _, hscale⟩ :=
    round_trip (List.replicate 7 onePairing) #v[9471, -9471] hx
  exact ⟨hinv, (hscale (by simp) 0).2.2⟩

/-- One layer takes -29439 to -30500, in exact arithmetic, and `reduce_k` of that wraps. -/
theorem reduce_wraps :
    (∀ j : Fin 2, |((#v[-29439, 190] : Vector (BitVec 16) 2).get j).toInt| + 3328 * 1 ≤ 32767) ∧
      (forward [onePairing] #v[-29439, 190]).get 0 = -30500 ∧
      ¬ SubExact ((forward [onePairing] #v[-29439, 190]).get 0)
        (barrettMultiple ((forward [onePairing] #v[-29439, 190]).get 0)) := by
  refine ⟨by decide, by decide +kernel, by decide +kernel⟩

/-! ## The Kyber transform

The reference `invntt` is the inverse of `kyberNet`: `k` counts down from 127 while
`len = 2, 4, …, 128`. -/

def invStarts : List (ℕ × ℕ) :=
  [2, 4, 8, 16, 32, 64, 128].flatMap fun len =>
    (List.range (128 / len)).map fun i => (len, 2 * len * i)

def invSchedule : List TraceLine :=
  invStarts.zipIdx.flatMap fun ((len, start), m) =>
    (List.range' start len).map fun j => ⟨len, start, j, 127 - m⟩

/-- The inverse transform on the ALU, with its final `fqmul_k`. -/
def invntt (r : Vector (BitVec 16) 256) : Vector (BitVec 16) 256 :=
  (run inttK (invSchedule.map TraceLine.cell) r).map fun a => low (fqmulK a montScale)

theorem invSchedule_eq : invSchedule.map TraceLine.cell =
    ((kyberNet.map Pairing.toLayer).reverse.flatMap (·.pairs)).map
      (Pair.retag fun t => addrInv t.l t.i) := by
  decide +kernel

theorem low_fqmulK (a b : BitVec 16) : low (fqmulK a b) = fqResult a b := by
  rw [fqmulK, exec_eq]
  exact operand_signExtend _

/-- **`invntt` undoes `ntt`**, up to the Montgomery factor, when the coefficients are reduced in
between: for every input within 9471. -/
theorem invntt_ntt (r : Vector (BitVec 16) 256) (hr : ∀ j : Fin 256, |(r.get j).toInt| ≤ 9471)
    (j : Fin 256) :
    ((invntt (reduceAll (ntt r))).get j).toInt ≡ 2 ^ 16 * (r.get j).toInt [ZMOD 3329] := by
  have hrun : run inttK (invSchedule.map TraceLine.cell) (reduceAll (ntt r)) =
      roundTrip kyberNet r := by
    rw [invSchedule_eq, run_retag, ← runLayers_eq_run, ntt_eq]
    unfold roundTrip inverse forward
    rfl
  have hroom : ∀ i : Fin 256, |(r.get i).toInt| + 3328 * kyberNet.length ≤ 32767 := by
    intro i
    rw [show kyberNet.length = 7 from rfl]
    push_cast
    linarith [hr i]
  have hx := forward_exact kyberNet r hroom
  have h := fqmulK_montScale ((inverse_undoes kyberNet r hx).2 j)
  have hj : (invntt (reduceAll (ntt r))).get j =
      fqResult ((roundTrip kyberNet r).get j) montScale := by
    simp [invntt, hrun, low_fqmulK]
  rw [hj, ← fqmulK_toInt]
  exact h.2.2

end KyberNeorv32.Verilog
