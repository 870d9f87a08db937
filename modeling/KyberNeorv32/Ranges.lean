import KyberNeorv32.Butterfly

/-!
# Coefficient ranges of butterfly networks on `pq_alu.v`

`ntt_k` reduces nothing, so a layer can add up to 3328 to every coefficient: `forward_in_range`
is an induction over layers with the bound `B + 3328 * s`. `intt_k` reduces both outputs, so its
range `|x| ≤ 16383` is kept by every single butterfly, for ever: `inverse_in_range`.

The operand adders of `intt_k` never wrap in that range. The subtraction inside the Barrett block
does, for sums from -29961 down (`inverse_barrett_wraps`): there the 16-bit multiple has wrapped
as well, the two cancel, and the output is exact all the same.
-/

namespace KyberNeorv32.Verilog

open Words PairNet

/-! ## Forward -/

/-- What one `ntt_k` stores: the exact sum and difference with a small multiple of `zeta * b`. -/
def NttStores (k : BitVec 7) (a b : BitVec 16) : Prop :=
  let t := (nttT k b).toInt
  (nttK k a b).1.toInt = a.toInt + t ∧ (nttK k a b).2.toInt = a.toInt - t ∧
    -3329 < t ∧ t < 3329 ∧ 2 ^ 16 * t ≡ (zetaLut k).toInt * b.toInt [ZMOD 3329]

theorem nttStores_of_exact {k : BitVec 7} {a b : BitVec 16} (h : NttExact k a b) :
    NttStores k a b := by
  unfold NttStores
  rw [nttK_eq]
  exact ⟨h.1, h.2, (nttT_bounds k b).1, (nttT_bounds k b).2, nttT_modEq k b⟩

/-- One butterfly on coefficients that leave room for 3328 more. -/
theorem ntt_step {C : ℤ} (hC : C + 3328 ≤ 32767) (k : BitVec 7) {a b : BitVec 16}
    (ha : |a.toInt| ≤ C) : NttExact k a b ∧
      |(nttK k a b).1.toInt| ≤ C + 3328 ∧ |(nttK k a b).2.toInt| ≤ C + 3328 := by
  obtain ⟨a1, a2⟩ := abs_le.1 ha
  have hx : NttExact k a b := nttExact_of_le k b (by omega) (by omega)
  obtain ⟨h1, h2, t1, t2, _⟩ := nttStores_of_exact hx
  refine ⟨hx, ?_, ?_⟩
  · rw [h1, abs_le]; omega
  · rw [h2, abs_le]; omega

/-- The growth bound, for networks whose cells carry their ROM index `g t` in any form. -/
theorem forward_cells {n : ℕ} {τ : Type} (g : τ → BitVec 7) {B : ℤ} (net : List (Layer n τ))
    (x : Vector (BitVec 16) n) (hB : B + 3328 * net.length ≤ 32767)
    (hx : ∀ j : Fin n, |(x.get j).toInt| ≤ B) :
    AlongLayers (fun t => nttK (g t)) (fun t => NttExact (g t)) net x ∧
      ∀ s ≤ net.length, ∀ j : Fin n,
        |((runLayers (fun t => nttK (g t)) (net.take s) x).get j).toInt| ≤ B + 3328 * s := by
  let P : ℕ → BitVec 16 → Prop := fun s a => |a.toInt| ≤ B + 3328 * (s : ℤ)
  have hpass : ∀ k, k < 0 + net.length → ∀ a, P k a → P (k + 1) a := by
    intro k _ a ha
    simp only [P] at ha ⊢
    push_cast
    linarith
  have hcell : ∀ k, k < 0 + net.length → ∀ t a b, P k a → P k b →
      NttExact (g t) a b ∧ P (k + 1) (nttK (g t) a b).1 ∧ P (k + 1) (nttK (g t) a b).2 := by
    intro k hk t a b ha _
    have hk' : (k : ℤ) + 1 ≤ net.length := by omega
    obtain ⟨hexact, h1, h2⟩ := ntt_step (C := B + 3328 * k) (by linarith) (g t) (b := b) ha
    simp only [P]
    push_cast
    refine ⟨hexact, ?_, ?_⟩
    · linarith
    · linarith
  obtain ⟨halong, hrange⟩ := runLayers_cells net 0 x hpass hcell (by simpa [P] using hx)
  refine ⟨halong, ?_⟩
  intro s hs j
  have h := hrange s hs j
  rwa [Nat.zero_add] at h

/-- **Forward butterflies never overflow, on any schedule.** For every bound `B`, every network
of `L` layers with `B + 3328 * L ≤ 32767` and every array within `B`, every butterfly stores exact
sums and differences, and after `s` layers the array is within `B + 3328 * s`. In particular eight
layers are safe on inputs below `q`. -/
theorem forward_in_range :
    (∀ (n : ℕ) (B : ℤ) (net : List (Layer n (BitVec 7))) (x : Vector (BitVec 16) n),
      B + 3328 * net.length ≤ 32767 → (∀ j : Fin n, |(x.get j).toInt| ≤ B) →
        AlongLayers nttK NttStores net x ∧ ∀ s ≤ net.length, ∀ j : Fin n,
          |((runLayers nttK (net.take s) x).get j).toInt| ≤ B + 3328 * s) ∧
    (∀ (n : ℕ) (net : List (Layer n (BitVec 7))) (x : Vector (BitVec 16) n),
      net.length = 8 → (∀ j : Fin n, |(x.get j).toInt| < 3329) →
        AlongLayers nttK NttStores net x) := by
  have stores : ∀ k a b, NttExact k a b → NttStores k a b := by
    intro k a b h
    exact nttStores_of_exact h
  constructor
  · intro n B net x hB hx
    obtain ⟨h1, h2⟩ := forward_cells id net x hB hx
    exact ⟨h1.mono stores, h2⟩
  · intro n net x hlen hx
    have hB : (3328 : ℤ) + 3328 * net.length ≤ 32767 := by rw [hlen]; norm_num
    have hx' : ∀ j : Fin n, |(x.get j).toInt| ≤ 3328 := by
      intro j
      exact Int.lt_add_one_iff.1 (hx j)
    exact (forward_cells id net x hB hx').1.mono stores

/-- The layer of one butterfly on two coefficients, with tag `t`. -/
def oneCell {τ : Type} (t : τ) : Layer 2 τ := ⟨[⟨0, 1, t⟩], by simp⟩

/-- The tightest case: `|x| ≤ 29439` and one layer reach the limit 32767. -/
theorem forward_in_range_limit :
    AlongLayers nttK NttStores [oneCell 1] #v[29439, -29439] ∧
      AlongLayers nttK NttStores (List.replicate 8 (oneCell 1)) #v[3328, -3328] :=
  ⟨(forward_in_range.1 2 29439 [oneCell 1] #v[29439, -29439] (by decide) (by decide)).1,
    forward_in_range.2 2 (List.replicate 8 (oneCell 1)) #v[3328, -3328] (by simp) (by decide)⟩

/-! ## Inverse -/

/-- What one `intt_k` does. The operand adders are exact; the Barrett block's own subtraction is
exact just for sums above -29961; both outputs are exact residues. -/
def InttStores (k : BitVec 7) (a b : BitVec 16) : Prop :=
  let u := (inttK k a b).1.toInt
  let v := (inttK k a b).2.toInt
  InttOperandsExact a b ∧
    (SubExact (a + b) (barrettMultiple (a + b)) ↔ -29961 < a.toInt + b.toInt) ∧
    (0 ≤ u ∧ u ≤ 3329 ∧ u ≡ a.toInt + b.toInt [ZMOD 3329] ∧
      (u = 3329 ↔ a.toInt + b.toInt < 0 ∧ 3329 ∣ a.toInt + b.toInt)) ∧
    (-3329 < v ∧ v < 3329 ∧ 2 ^ 16 * v ≡ (b.toInt - a.toInt) * (zetaLut k).toInt [ZMOD 3329])

theorem inttStores_of_exact {k : BitVec 7} {a b : BitVec 16} (h : InttOperandsExact a b) :
    InttStores k a b := by
  obtain ⟨z1, z2⟩ := zetaLut_bounds k
  have hadd : (a + b).toInt = a.toInt + b.toInt := h.1
  have hsub : (b - a).toInt = b.toInt - a.toInt := h.2
  unfold InttStores
  rw [inttK_eq, ← hadd, ← hsub]
  refine ⟨h, barrett_subExact_iff _, ⟨?_, ?_, barrettResult_modEq _, barrettResult_eq_q_iff _⟩,
    ?_, ?_, fqResult_modEq _ _⟩
  · exact (barrettResult_bounds _).1
  · exact (barrettResult_bounds _).2
  · exact (fqResult_lt_of_lt _ (by omega) z2).1
  · exact (fqResult_lt_of_lt _ (by omega) z2).2

theorem intt_step (k : BitVec 7) {a b : BitVec 16} (ha : |a.toInt| ≤ 16383)
    (hb : |b.toInt| ≤ 16383) : InttStores k a b ∧
      |(inttK k a b).1.toInt| ≤ 16383 ∧ |(inttK k a b).2.toInt| ≤ 16383 := by
  have hs := inttStores_of_exact (k := k) (inttOperandsExact_of_le ha hb)
  have ⟨_, _, ⟨u1, u2, _⟩, v1, v2, _⟩ := hs
  refine ⟨hs, ?_, ?_⟩
  · rw [abs_le]; omega
  · rw [abs_le]; omega

/-- **Inverse butterflies stay in range for ever.** On every array within 16383 and every network
of any number of layers, every `intt_k` computes what `InttStores` says, and after every single
butterfly the whole array is within 16383 again. -/
theorem inverse_in_range {n : ℕ} (net : List (Layer n (BitVec 7))) (x : Vector (BitVec 16) n)
    (hx : ∀ j : Fin n, |(x.get j).toInt| ≤ 16383) :
    Along inttK InttStores (net.flatMap (·.pairs)) x ∧ ∀ m, ∀ j : Fin n,
      |((run inttK ((net.flatMap (·.pairs)).take m) x).get j).toInt| ≤ 16383 := by
  have hne : ∀ o ∈ net.flatMap (·.pairs), o.p ≠ o.q := by
    intro o ho
    obtain ⟨l, _, hol⟩ := List.mem_flatMap.1 ho
    exact l.ne hol
  have hcell : ∀ t (a b : BitVec 16), |a.toInt| ≤ 16383 → |b.toInt| ≤ 16383 →
      InttStores t a b ∧ |(inttK t a b).1.toInt| ≤ 16383 ∧ |(inttK t a b).2.toInt| ≤ 16383 := by
    intro t a b ha hb
    exact intt_step t ha hb
  exact run_invariant (P := fun a => |a.toInt| ≤ 16383) hcell _ x hne hx

theorem inverse_in_range_extremes :
    Along inttK InttStores [⟨0, 1, 5⟩] (#v[16383, -16383] : Vector (BitVec 16) 2) :=
  (inverse_in_range [oneCell 5] #v[16383, -16383] (by decide)).1

/-- Both coefficients at -16383: the sum -32766 is exact, its multiple -33290 does not fit in 16
bits, and the Barrett block subtracts 32246 instead and wraps. -/
theorem inverse_barrett_wraps :
    (∀ j : Fin 2, |((#v[-16383, -16383] : Vector (BitVec 16) 2).get j).toInt| ≤ 16383) ∧
      ¬ Along inttK (fun _ a b => InttExact a b) ([oneCell 1].flatMap (·.pairs))
        (#v[-16383, -16383] : Vector (BitVec 16) 2) := by
  constructor
  · decide
  · intro h
    have h1 : InttExact (-16383) (-16383) := h.1
    exact absurd h1 (by decide)

end KyberNeorv32.Verilog
