import KyberNeorv32.IbexMult
import KyberNeorv32.Lib.LongDivision

/-!
# Ibex: every division is right

The divider takes the absolute values of the operands, divides them bit by bit (`LongDivision`) and
changes the sign of the result, in 37 executing cycles; a zero divisor ends it after two, unless
timing must not depend on data. The borrowed adder computes every difference on the way
(`adder_sub`).

`mdProgram_correct` puts multiplications and divisions together: any sequence of them, with any
stalls, from reset.
-/

namespace KyberNeorv32.Ibex

open LongDivision (Divided shifted)

section Unit
variable {σ : Type} {m : Multiplier σ} {o : Operands} {s : State σ} {c : Cycle}

/-- The multiplier does not answer for a division. -/
def Multiplier.Silent (m : Multiplier σ) : Prop := ∀ o ready imd, o.divSel = true →
  (m.comb o false ready m.reset imd).multValid = false

theorem multSel_of_divSel (h : o.divSel = true) : o.multSel = false := by
  unfold Operands.divSel at h
  simpa using h

theorem edge_of_div (h : o.divSel = true) (hexec : c.executing = true) :
    edge m o s c =
      let d := divComb s o c.ready
      if d.divHold then s
      else
        { s with
          divCounterQ := d.divCounterD
          opNumeratorQ := d.opNumeratorD
          opQuotientQ := d.opQuotientD
          mdStateQ := d.mdStateD
          divByZeroQ := d.divByZeroD
          imdVal0 := d.opRemainderD
          imdVal1 := 0#2 ++ d.opDenominatorD } := by
  have hmult : multEnInternal m o s c = false := by
    simp [multEnInternal, multEn, multSel_of_divSel h]
  have hdiv : divEnInternal o s c = !(divComb s o c.ready).divHold := by
    simp [divEnInternal, divEn, h, hexec]
  unfold edge
  rw [hdiv, hmult, h]
  generalize divComb s o c.ready = d
  cases hhold : d.divHold <;> simp [hhold]

theorem validO_of_div (hm : m.Silent) (h : o.divSel = true) (hreset : s.multStateQ = m.reset) :
    validO m o s c = (divComb s o c.ready).divValid := by
  have hen : multEn o c = false := by simp [multEn, multSel_of_divSel h]
  have hmult : (multComb m o s c).multValid = false := by
    unfold multComb
    rw [hen, hreset]
    exact hm o c.ready s.imdVal0 h
  rw [validO, hmult, Bool.false_or]

theorem multdivResultO_of_div (h : o.divSel = true) : multdivResultO m o s c = s.remainder := by
  simp [multdivResultO, h]

end Unit

/-! ## The adder -/

/-- With a one below each operand and the second inverted, the adder subtracts. -/
theorem sub_of_ones (x y : BitVec 32) :
    ((x ++ 1#1).setWidth 34 + (~~~y ++ 1#1).setWidth 34).extractLsb' 1 32 = x - y := by
  have hx := x.isLt
  have hy := y.isLt
  have hx1 : (x ++ 1#1).toNat = 2 * x.toNat + 1 := by
    rw [BitVec.toNat_append, Nat.shiftLeft_eq, Nat.mul_comm,
      ← Nat.two_pow_add_eq_or_of_lt (BitVec.isLt _)]
    simp
  have hy1 : (~~~y ++ 1#1).toNat = 2 * (2 ^ 32 - 1 - y.toNat) + 1 := by
    rw [BitVec.toNat_append, Nat.shiftLeft_eq, Nat.mul_comm,
      ← Nat.two_pow_add_eq_or_of_lt (BitVec.isLt _), BitVec.toNat_not]
    simp
  apply BitVec.eq_of_toNat_eq
  rw [BitVec.extractLsb'_toNat, BitVec.toNat_add, BitVec.toNat_setWidth, BitVec.toNat_setWidth, hx1,
    hy1, BitVec.toNat_sub, Nat.shiftRight_eq_div_pow]
  omega

/-- What the adder subtracts in each state. -/
theorem adder_sub {σ : Type} (s : State σ) (o : Operands) : adder s o =
    match s.mdStateQ with
    | .absA => 0 - o.opA
    | .comp | .last => s.remainder - s.opDenominatorQ
    | .changeSign => 0 - s.remainder
    | _ => 0 - o.opB := by
  have hone : (1 : BitVec 33) = 0#32 ++ 1#1 := by decide
  unfold adder aluOperandA aluOperandB
  cases s.mdStateQ <;> simp only [hone, sub_of_ones] <;> rfl

/-- The comparison looks at the top bits first, so that the difference cannot mislead it. -/
theorem isGreaterEqual_eq {σ : Type} {s : State σ} {o : Operands}
    (h : adder s o = s.remainder - s.opDenominatorQ) :
    isGreaterEqual s o = decide (s.opDenominatorQ.toNat ≤ s.remainder.toNat) := by
  unfold isGreaterEqual
  rw [h]
  generalize s.remainder = x
  generalize s.opDenominatorQ = y
  have hx := x.isLt
  have hy := y.isLt
  have hsub := BitVec.toNat_sub x y
  rw [getLsbD_top x, getLsbD_top y, getLsbD_top (x - y), hsub]
  rw [Bool.eq_iff_iff, decide_eq_true_iff]
  by_cases hxt : 2 ^ 31 ≤ x.toNat
  · by_cases hyt : 2 ^ 31 ≤ y.toNat
    · rw [decide_eq_true hxt, decide_eq_true hyt, if_pos (Bool.xor_self true), decide_eq_true_iff,
        decide_eq_false_iff_not]
      omega
    · rw [decide_eq_true hxt, decide_eq_false hyt, if_neg (by simp)]
      exact iff_of_true rfl (by omega)
  · by_cases hyt : 2 ^ 31 ≤ y.toNat
    · rw [decide_eq_false hxt, decide_eq_true hyt, if_neg (by simp)]
      exact iff_of_false Bool.false_ne_true (by omega)
    · rw [decide_eq_false hxt, decide_eq_false hyt, if_pos (Bool.xor_self false), decide_eq_true_iff,
        decide_eq_false_iff_not]
      omega

/-! ## One bit of the quotient -/

section Bit
variable {σ : Type} {s : State σ} {o : Operands}

theorem toNat_nextRemainder (h : adder s o = s.remainder - s.opDenominatorQ) :
    (nextRemainder s o).toNat =
      LongDivision.nextRemainder s.opDenominatorQ.toNat s.remainder.toNat := by
  unfold nextRemainder LongDivision.nextRemainder
  rw [isGreaterEqual_eq h, h]
  by_cases hle : s.opDenominatorQ.toNat ≤ s.remainder.toNat
  · rw [if_pos (decide_eq_true hle), if_pos hle, BitVec.toNat_sub_of_le (BitVec.le_def.2 hle)]
  · rw [if_neg (by rw [decide_eq_false hle]; exact Bool.false_ne_true), if_neg hle]

/-- Setting the bit of the counter in a quotient that has none below it. -/
theorem toNat_nextQuotient (h : adder s o = s.remainder - s.opDenominatorQ) {q : ℕ}
    (hq : s.opQuotientQ.toNat = q * 2 ^ (s.divCounterQ.toNat + 1)) :
    (nextQuotient s o).toNat = LongDivision.nextQuotient s.opDenominatorQ.toNat q s.remainder.toNat *
      2 ^ s.divCounterQ.toNat := by
  have hc := s.divCounterQ.isLt
  have hone : (oneShift s).toNat = 2 ^ s.divCounterQ.toNat := by
    rw [oneShift, BitVec.toNat_shiftLeft, Nat.shiftLeft_eq, show (1#32).toNat = 1 from rfl, one_mul]
    exact Nat.mod_eq_of_lt (Nat.pow_lt_pow_right (by norm_num) hc)
  have hset : q * 2 ^ (s.divCounterQ.toNat + 1) ||| 2 ^ s.divCounterQ.toNat =
      (2 * q + 1) * 2 ^ s.divCounterQ.toNat := by
    rw [mul_comm q, ← Nat.two_pow_add_eq_or_of_lt (Nat.pow_lt_pow_right (by norm_num) (by omega))]
    ring
  unfold nextQuotient LongDivision.nextQuotient
  rw [isGreaterEqual_eq h]
  by_cases hle : s.opDenominatorQ.toNat ≤ s.remainder.toNat
  · rw [if_pos (decide_eq_true hle), if_pos hle, BitVec.toNat_or, BitVec.toNat_setWidth_of_le,
      BitVec.toNat_setWidth_of_le, hone, hq, hset]
    all_goals norm_num
  · rw [if_neg (by rw [decide_eq_false hle]; exact Bool.false_ne_true), if_neg hle,
      BitVec.toNat_setWidth_of_le (by norm_num), hq]
    ring

/-- The next bit of the numerator below a remainder, cut to 32 bits. -/
theorem toNat_shift_in (x : BitVec 32) (n : BitVec 32) (k : ℕ) :
    ((0#1 ++ x ++ BitVec.ofBool (n.getLsbD k)).extractLsb' 0 32).toNat =
      (2 * x.toNat + n.toNat / 2 ^ k % 2) % 2 ^ 32 := by
  have hbit : (BitVec.ofBool (n.getLsbD k)).toNat = n.toNat / 2 ^ k % 2 := by
    rw [BitVec.toNat_ofBool, BitVec.getLsbD, Nat.toNat_testBit]
  rw [BitVec.extractLsb'_toNat, Nat.shiftRight_zero, BitVec.toNat_append, Nat.shiftLeft_eq,
    Nat.mul_comm, ← Nat.two_pow_add_eq_or_of_lt (BitVec.isLt _), hbit, BitVec.toNat_append]
  simp

end Bit

/-! ## The states of a division -/

def absA (o : Operands) : BitVec 32 := if divSignA o then 0 - o.opA else o.opA
def absB (o : Operands) : BitVec 32 := if divSignB o then 0 - o.opB else o.opB

/-- What a division leaves: quotient or remainder of the absolute values, with its sign. -/
def divResult (o : Operands) : BitVec 32 :=
  if o.operator = .div then
    if o.opB = 0 then -1
    else if divSignA o ^^ divSignB o then 0 - absA o / absB o else absA o / absB o
  else if o.opB = 0 then o.opA
  else if divSignA o then 0 - absA o % absB o else absA o % absB o

section States
variable {σ : Type}

/-- `div_by_zero_q`, which only `DIV` sets. -/
def Flagged (o : Operands) (s : State σ) : Prop :=
  o.operator = .div → s.divByZeroQ = decide (o.opB = 0)

/-- Before the comparison for bit `c`. -/
structure Comparing (o : Operands) (s : State σ) (c q r : ℕ) : Prop where
  flag : Flagged o s
  numerator : s.opNumeratorQ = absA o
  denominator : s.opDenominatorQ = absB o
  counter : s.divCounterQ.toNat = c
  divided : Divided 32 (absA o).toNat (absB o).toNat (c + 1) q r
  remainder : s.remainder.toNat = shifted (absA o).toNat c r
  quotient : s.opQuotientQ.toNat = q * 2 ^ (c + 1)

/-- The states of a division, with the executing cycles left before `finish`. -/
inductive Dividing (o : Operands) (s : State σ) : ℕ → Prop
  | idle {k} (hk : k = 36) (state : s.mdStateQ = .idle)
      (slow : ¬ (o.dataIndTiming = false ∧ o.opB = 0)) : Dividing o s k
  | zero {k} (hk : k = 1) (state : s.mdStateQ = .idle)
      (fast : o.dataIndTiming = false ∧ o.opB = 0) : Dividing o s k
  | absA {k} (hk : k = 35) (state : s.mdStateQ = .absA) (flag : Flagged o s) : Dividing o s k
  | absB {k} (hk : k = 34) (state : s.mdStateQ = .absB) (flag : Flagged o s)
      (numerator : s.opNumeratorQ = absA o) (quotient : s.opQuotientQ = 0) : Dividing o s k
  | comp {k c q r} (hk : k = c + 2) (hc : 1 ≤ c) (state : s.mdStateQ = .comp)
      (cmp : Comparing o s c q r) : Dividing o s k
  | last {k q r} (hk : k = 2) (state : s.mdStateQ = .last) (cmp : Comparing o s 0 q r) :
      Dividing o s k
  | changeSign {k q r} (hk : k = 1) (state : s.mdStateQ = .changeSign) (flag : Flagged o s)
      (divided : Divided 32 (absA o).toNat (absB o).toNat 0 q r)
      (remainder : s.remainder.toNat = if o.operator = .div then q else r) : Dividing o s k
  | finish {k} (hk : k = 0) (state : s.mdStateQ = .finish) (result : s.remainder = divResult o) :
      Dividing o s k

variable {m : Multiplier σ} {o : Operands} {s : State σ} {c : Cycle}

theorem remainder_eq {x : BitVec 2} {y : BitVec 32} (h : s.imdVal0 = x ++ y) : s.remainder = y := by
  rw [State.remainder, h]
  exact BitVec.extractLsb'_append_eq_right

theorem opDenominatorQ_eq {x : BitVec 2} {y : BitVec 32} (h : s.imdVal1 = x ++ y) :
    s.opDenominatorQ = y := by
  rw [State.opDenominatorQ, h]
  exact BitVec.extractLsb'_append_eq_right

theorem equalToZero_of_idle (h : s.mdStateQ = .idle) : equalToZero s o = decide (o.opB = 0) := by
  have hadd := adder_sub s o
  rw [h] at hadd
  simp only at hadd
  unfold equalToZero
  rw [hadd]
  simp

/-- The difference that a comparison starts with. -/
theorem adder_comparing (hs : s.mdStateQ = .comp ∨ s.mdStateQ = .last) :
    adder s o = s.remainder - s.opDenominatorQ := by
  have hadd := adder_sub s o
  rcases hs with hs | hs
  · rw [hs] at hadd
    exact hadd
  · rw [hs] at hadd
    exact hadd

/-- The invariant of long division goes on. -/
theorem divided_comparing {d q r : ℕ} (hcmp : Comparing o s d q r) (hd : d < 32) :
    Divided 32 (absA o).toNat (absB o).toNat d
      (LongDivision.nextQuotient s.opDenominatorQ.toNat q s.remainder.toNat)
      (LongDivision.nextRemainder s.opDenominatorQ.toNat s.remainder.toNat) := by
  rw [hcmp.denominator, hcmp.remainder]
  exact hcmp.divided.step hd

theorem absB_eq_zero (o : Operands) : absB o = 0 ↔ o.opB = 0 := by
  unfold absB
  split_ifs
  · simp
  · rfl

/-- Quotient or remainder of the absolute values, with its sign, is the result. -/
theorem signed_result {q r : ℕ} (hflag : Flagged o s)
    (hdiv : Divided 32 (absA o).toNat (absB o).toNat 0 q r)
    (hrem : s.remainder.toNat = if o.operator = .div then q else r) :
    (if (if o.operator = .div then divChangeSign s o else remChangeSign o) then 0 - s.remainder
      else s.remainder) = divResult o := by
  unfold divResult
  by_cases hop : o.operator = .div
  · rw [if_pos hop] at hrem
    rw [if_pos hop, if_pos hop, divChangeSign, hflag hop]
    by_cases hb : o.opB = 0
    · -- every comparison succeeds, and the sign stays
      have hzero : (absB o).toNat = 0 := by rw [(absB_eq_zero o).2 hb]; rfl
      have hones : s.remainder = -1 := by
        apply BitVec.eq_of_toNat_eq
        rw [hrem, (hdiv.of_zero hzero).1]
        rfl
      rw [if_pos hb, decide_eq_true hb, Bool.not_true, Bool.and_false, if_neg Bool.false_ne_true, hones]
    · have hpos : 0 < (absB o).toNat := by
        rw [Nat.pos_iff_ne_zero]
        intro h0
        exact hb ((absB_eq_zero o).1 (BitVec.eq_of_toNat_eq h0))
      have hquot : s.remainder = absA o / absB o := by
        apply BitVec.eq_of_toNat_eq
        rw [hrem, hdiv.quotient_eq hpos, BitVec.toNat_udiv]
      rw [if_neg hb, decide_eq_false hb, Bool.not_false, Bool.and_true, hquot]
  · rw [if_neg hop, hdiv.remainder_eq, ← BitVec.toNat_umod] at hrem
    rw [if_neg hop, if_neg hop, BitVec.eq_of_toNat_eq hrem, remChangeSign]
    by_cases hb : o.opB = 0
    · have hmod : absA o % absB o = absA o := by
        rw [(absB_eq_zero o).2 hb]
        exact BitVec.umod_zero
      rw [if_pos hb, hmod, absA]
      split_ifs
      · simp
      · rfl
    · rw [if_neg hb]

section Step
variable (h : o.divSel = true) (hexec : c.executing = true)
include h hexec

theorem step_idle (hs : s.mdStateQ = .idle) (hslow : ¬ (o.dataIndTiming = false ∧ o.opB = 0)) :
    (divComb s o c.ready).divValid = false ∧ Dividing o (edge m o s c) 35 := by
  have hstay : (!o.dataIndTiming && decide (o.opB = 0)) = false := by
    simpa using hslow
  rw [edge_of_div h hexec]
  unfold divComb
  rw [hs, equalToZero_of_idle hs, hstay]
  by_cases hop : o.operator = .div
  · simp only [if_pos hop, divDefault, Bool.false_eq_true, if_false]
    exact ⟨trivial, .absA rfl rfl fun _ => rfl⟩
  · simp only [if_neg hop, divDefault, Bool.false_eq_true, if_false]
    exact ⟨trivial, .absA rfl rfl fun hdiv => absurd hdiv hop⟩

theorem step_zero (hs : s.mdStateQ = .idle) (hfast : o.dataIndTiming = false ∧ o.opB = 0) :
    (divComb s o c.ready).divValid = false ∧ Dividing o (edge m o s c) 0 := by
  rw [edge_of_div h hexec]
  unfold divComb
  rw [hs, equalToZero_of_idle hs, hfast.1, decide_eq_true hfast.2]
  by_cases hop : o.operator = .div
  · simp only [if_pos hop, divDefault, Bool.not_false, Bool.and_self, if_true, Bool.false_eq_true,
      if_false]
    refine ⟨trivial, .finish rfl rfl ?_⟩
    rw [divResult, if_pos hop, if_pos hfast.2]
    exact remainder_eq (x := -1) (show (-1 : BitVec 34) = (-1 : BitVec 2) ++ (-1 : BitVec 32) by decide)
  · simp only [if_neg hop, divDefault, Bool.not_false, Bool.and_self, if_true, Bool.false_eq_true,
      if_false]
    refine ⟨trivial, .finish rfl rfl ?_⟩
    rw [divResult, if_neg hop, if_pos hfast.2]
    exact remainder_eq rfl

theorem step_absA (hs : s.mdStateQ = .absA) (hflag : Flagged o s) :
    (divComb s o c.ready).divValid = false ∧ Dividing o (edge m o s c) 34 := by
  have hadd := adder_sub s o
  rw [hs] at hadd
  simp only at hadd
  rw [edge_of_div h hexec]
  unfold divComb
  rw [hs]
  simp only [divDefault, hadd, Bool.false_eq_true, if_false]
  exact ⟨trivial, .absB rfl rfl hflag rfl rfl⟩

theorem step_absB (hs : s.mdStateQ = .absB) (hflag : Flagged o s)
    (hnum : s.opNumeratorQ = absA o) (hquot : s.opQuotientQ = 0) :
    (divComb s o c.ready).divValid = false ∧ Dividing o (edge m o s c) 33 := by
  have hadd := adder_sub s o
  rw [hs] at hadd
  simp only at hadd
  rw [edge_of_div h hexec]
  unfold divComb
  rw [hs]
  simp only [divDefault, hadd, Bool.false_eq_true, if_false]
  refine ⟨trivial, .comp (c := 31) (q := 0) (r := 0) rfl (by norm_num) rfl
    ⟨hflag, hnum, opDenominatorQ_eq rfl, rfl, Divided.start _ (absA o).isLt, ?_, ?_⟩⟩
  · have hbit : (BitVec.ofBool ((absA o).getLsbD 31)).toNat = (absA o).toNat / 2 ^ 31 % 2 := by
      rw [BitVec.toNat_ofBool, BitVec.getLsbD, Nat.toNat_testBit]
    unfold State.remainder shifted
    simp only
    rw [BitVec.extractLsb'_toNat, Nat.shiftRight_zero, hnum, BitVec.toNat_append, hbit]
    simp
    omega
  · rw [hquot]
    rfl

theorem step_comp {d q r : ℕ} (hd : 1 ≤ d) (hs : s.mdStateQ = .comp)
    (hcmp : Comparing o s d q r) :
    (divComb s o c.ready).divValid = false ∧ Dividing o (edge m o s c) (d + 1) := by
  have hadd := adder_comparing (o := o) (Or.inl hs)
  have hlt : d < 32 := by rw [← hcmp.counter]; exact s.divCounterQ.isLt
  have hnext := divided_comparing hcmp hlt
  have hcount : (s.divCounterQ - 1).toNat = d - 1 := by
    have hc := hcmp.counter
    rw [BitVec.toNat_sub, show (1 : BitVec 5).toNat = 1 from rfl]
    omega
  have hone : s.divCounterQ = 1 ↔ d = 1 := by
    rw [← BitVec.toNat_inj, hcmp.counter]
    rfl
  have hsucc : d - 1 + 1 = d := by omega
  have hcmp' : Comparing o (edge m o s c) (d - 1)
      (LongDivision.nextQuotient s.opDenominatorQ.toNat q s.remainder.toNat)
      (LongDivision.nextRemainder s.opDenominatorQ.toNat s.remainder.toNat) := by
    rw [edge_of_div h hexec]
    unfold divComb
    rw [hs]
    simp only [divDefault, Bool.false_eq_true, if_false]
    refine ⟨hcmp.flag, hcmp.numerator, ?_, hcount, by rwa [hsucc], ?_, ?_⟩
    · exact (opDenominatorQ_eq rfl).trans hcmp.denominator
    · rw [← hsucc] at hnext
      have hle := hnext.shifted_le
      have hN := (absA o).isLt
      have hdiv : (absA o).toNat / 2 ^ (d - 1) ≤ (absA o).toNat := Nat.div_le_self _ _
      unfold State.remainder
      simp only
      rw [hcount, toNat_shift_in, toNat_nextRemainder hadd, hcmp.numerator]
      exact Nat.mod_eq_of_lt (by unfold shifted at hle; omega)
    · have hq := hnext.quotient_lt (absA o).isLt (by omega)
      have hbound := Nat.mul_lt_mul_of_pos_right hq (Nat.two_pow_pos d)
      rw [← pow_add, Nat.sub_add_cancel hlt.le] at hbound
      rw [hsucc, BitVec.extractLsb'_toNat, Nat.shiftRight_zero,
        toNat_nextQuotient hadd (by rw [hcmp.counter]; exact hcmp.quotient), hcmp.counter]
      exact Nat.mod_eq_of_lt hbound
  have hstate : (edge m o s c).mdStateQ = if s.divCounterQ = 1 then .last else .comp := by
    rw [edge_of_div h hexec]
    unfold divComb
    rw [hs]
    rfl
  refine ⟨by unfold divComb; rw [hs]; rfl, ?_⟩
  by_cases hd1 : d = 1
  · rw [if_pos (hone.2 hd1)] at hstate
    subst hd1
    exact .last rfl hstate hcmp'
  · rw [if_neg (mt hone.1 hd1)] at hstate
    exact .comp (by omega) (by omega) hstate hcmp'

theorem step_last {q r : ℕ} (hs : s.mdStateQ = .last) (hcmp : Comparing o s 0 q r) :
    (divComb s o c.ready).divValid = false ∧ Dividing o (edge m o s c) 1 := by
  have hadd := adder_comparing (o := o) (Or.inr hs)
  have hnext := divided_comparing hcmp (by norm_num)
  rw [edge_of_div h hexec]
  unfold divComb
  rw [hs]
  simp only [divDefault, Bool.false_eq_true, if_false]
  refine ⟨trivial, .changeSign rfl rfl hcmp.flag hnext ?_⟩
  by_cases hop : o.operator = .div
  · have hq := hnext.quotient_lt (absA o).isLt (by norm_num)
    have hnat := toNat_nextQuotient hadd (q := q) (by rw [hcmp.counter]; exact hcmp.quotient)
    rw [hcmp.counter, pow_zero, mul_one] at hnat
    simp only [if_pos hop]
    change ((0#1 ++ nextQuotient s o).extractLsb' 0 32).toNat = _
    rw [BitVec.extractLsb'_toNat, Nat.shiftRight_zero, BitVec.toNat_append, hnat]
    simp
    exact hq
  · simp only [if_neg hop]
    rw [remainder_eq rfl, toNat_nextRemainder hadd]

theorem step_changeSign {q r : ℕ} (hs : s.mdStateQ = .changeSign) (hflag : Flagged o s)
    (hdiv : Divided 32 (absA o).toNat (absB o).toNat 0 q r)
    (hrem : s.remainder.toNat = if o.operator = .div then q else r) :
    (divComb s o c.ready).divValid = false ∧ Dividing o (edge m o s c) 0 := by
  have hadd := adder_sub s o
  rw [hs] at hadd
  simp only at hadd
  have hsign := signed_result hflag hdiv hrem
  have hnew : (edge m o s c).remainder =
      if (if o.operator = .div then divChangeSign s o else remChangeSign o) then 0 - s.remainder
      else s.remainder := by
    rw [edge_of_div h hexec]
    unfold divComb
    rw [hs]
    simp only [divDefault, hadd, Bool.false_eq_true, if_false]
    by_cases hop : o.operator = .div
    · simp only [if_pos hop]
      cases divChangeSign s o with
      | true => exact remainder_eq rfl
      | false => rfl
    · simp only [if_neg hop]
      cases remChangeSign o with
      | true => exact remainder_eq rfl
      | false => rfl
  have hstate : (edge m o s c).mdStateQ = .finish := by
    rw [edge_of_div h hexec]
    unfold divComb
    rw [hs]
    rfl
  exact ⟨by unfold divComb; rw [hs]; rfl, .finish rfl hstate (hnew.trans hsign)⟩

end Step

/-- **A division counts down to its result.** -/
theorem counts_div (hm : m.Silent) (h : o.divSel = true) :
    Counts m o (divResult o) fun k s => s.multStateQ = m.reset ∧ Dividing o s k where
  step := by
    rintro k s c ⟨hreset, hdiv⟩ hexec
    rw [validO_of_div hm h hreset]
    have hstay : (edge m o s c).multStateQ = m.reset := by
      rw [← hreset, edge_of_div h hexec]
      simp only
      split_ifs <;> rfl
    suffices hnext : (divComb s o c.ready).divValid = false ∧ Dividing o (edge m o s c) k from
      ⟨hnext.1, hstay, hnext.2⟩
    cases hdiv with
    | idle hk state slow =>
      obtain rfl : k = 35 := by omega
      exact step_idle h hexec state slow
    | zero hk state fast =>
      obtain rfl : k = 0 := by omega
      exact step_zero h hexec state fast
    | absA hk state flag =>
      obtain rfl : k = 34 := by omega
      exact step_absA h hexec state flag
    | absB hk state flag numerator quotient =>
      obtain rfl : k = 33 := by omega
      exact step_absB h hexec state flag numerator quotient
    | comp hk hc state cmp =>
      rename_i d q r
      obtain rfl : k = d + 1 := by omega
      exact step_comp h hexec hc state cmp
    | last hk state cmp =>
      obtain rfl : k = 1 := by omega
      exact step_last h hexec state cmp
    | changeSign hk state flag divided remainder =>
      obtain rfl : k = 0 := by omega
      exact step_changeSign h hexec state flag divided remainder
    | finish hk => omega
  wait := by
    rintro s c ⟨hreset, hdiv⟩ hexec hready
    have hhold : edge m o s c = s := by
      cases hdiv with
      | finish hk state result =>
        rw [edge_of_div h hexec]
        unfold divComb
        rw [state, hready]
        rfl
      | _ => omega
    rw [hhold]
    exact ⟨hreset, hdiv⟩
  last := by
    rintro s c ⟨hreset, hdiv⟩ hexec hready
    rw [validO_of_div hm h hreset, multdivResultO_of_div h, edge_of_div h hexec]
    cases hdiv with
    | finish hk state result =>
      unfold divComb
      rw [state, hready]
      exact ⟨rfl, result, rfl, hreset⟩
    | _ => omega

end States

/-! ## The instructions -/

/-- Cycles that an instruction executes before its last, with a multiplier that takes `low` and
`high` for the low and the high word of a product. -/
def Instr.waits (low high : ℕ) (i : Instr) (b : BitVec 32) (dataIndTiming : Bool) : ℕ :=
  match i with
  | .mul => low
  | .mulh | .mulhsu | .mulhu => high
  | .div | .divu | .rem | .remu => if dataIndTiming = false ∧ b = 0 then 1 else 36

/-- A multiplier that counts down to the words of the product. -/
structure Multiplier.Correct {σ : Type} (m : Multiplier σ) (low high : ℕ) : Prop where
  silent : m.Silent
  mull : ∀ o : Operands, o.operator = .mull → ∃ Inv : ℕ → State σ → Prop,
    Counts m o (BitVec.ofInt 32 (valA o * valB o)) Inv ∧ ∀ s, s.Idle m → Inv low s
  mulh : ∀ o : Operands, o.operator = .mulh → ∃ Inv : ℕ → State σ → Prop,
    Counts m o (BitVec.ofInt 32 (valA o * valB o / 2 ^ 32)) Inv ∧ ∀ s, s.Idle m → Inv high s

theorem multFast_correct : multFast.Correct 2 3 where
  silent _ _ _ _ := rfl
  mull _ ho := ⟨_, counts_fast_low ho, fun _ hs => ⟨hs.mdStateQ, hs.multStateQ⟩⟩
  mulh _ ho := ⟨_, counts_fast_high ho, fun _ hs => ⟨hs.mdStateQ, hs.multStateQ⟩⟩

theorem multSingleCycle_correct : multSingleCycle.Correct 0 1 where
  silent o ready imd h := by
    have hne : o.operator ≠ .mull := by
      intro ho
      simp [Operands.divSel, Operands.multSel, ho] at h
    simp only [multSingleCycle, genMultSingleCycle, if_pos hne]
  mull _ ho := ⟨_, counts_single_low ho, fun _ hs => ⟨hs.mdStateQ, hs.multStateQ⟩⟩
  mulh _ ho := ⟨_, counts_single_high ho, fun _ hs => ⟨hs.mdStateQ, hs.multStateQ⟩⟩

section Values
variable (a b : BitVec 32)

theorem ofInt_tdiv : BitVec.ofInt 32 (a.toInt.tdiv b.toInt) = a.sdiv b := by
  apply BitVec.eq_of_toInt_eq
  rw [BitVec.toInt_ofInt, BitVec.toInt_sdiv]

theorem ofInt_tmod : BitVec.ofInt 32 (a.toInt.tmod b.toInt) = a.srem b := by
  rw [← BitVec.toInt_srem, BitVec.ofInt_toInt]

theorem divResult_eq (i : Instr) (hi : i.operator = .div ∨ i.operator = .rem) (dit : Bool) :
    divResult (i.operands a b dit) = i.value a b := by
  have hmsb : ∀ x : BitVec 32, x.getLsbD 31 = x.msb := fun x => (BitVec.msb_eq_getLsbD_last x).symm
  cases i with
  | mul | mulh | mulhsu | mulhu => simp [Instr.operator] at hi
  | div =>
    simp only [divResult, absA, absB, divSignA, divSignB, Instr.operands, Instr.operator,
      Instr.signedMode, Instr.value, hmsb, ofInt_tdiv, BitVec.sdiv_eq]
    by_cases hb : b = 0
    · simp [hb]
    · simp only [if_neg hb]
      cases a.msb <;> cases b.msb <;> simp
  | divu =>
    simp [divResult, absA, absB, divSignA, divSignB, Instr.operands, Instr.operator,
      Instr.signedMode, Instr.value]
  | rem =>
    simp only [divResult, absA, absB, divSignA, divSignB, Instr.operands, Instr.operator,
      Instr.signedMode, Instr.value, hmsb, ofInt_tmod, BitVec.srem_eq]
    by_cases hb : b = 0
    · simp [hb]
    · simp only [if_neg hb]
      cases a.msb <;> cases b.msb <;> simp
  | remu =>
    simp [divResult, absA, absB, divSignA, divSignB, Instr.operands, Instr.operator,
      Instr.signedMode, Instr.value]

theorem mul_value (dit : Bool) : let o := Instr.mul.operands a b dit
    BitVec.ofInt 32 (valA o * valB o) = Instr.mul.value a b := by
  apply BitVec.eq_of_toNat_eq
  simp only [valA, valB, Instr.operands, Instr.signedMode, Instr.value]
  rw [BitVec.toNat_mul, BitVec.toNat_ofInt]
  simp
  omega

theorem mulh_value (i : Instr) (hi : i.operator = .mulh) (dit : Bool) : let o := i.operands a b dit
    BitVec.ofInt 32 (valA o * valB o / 2 ^ 32) = i.value a b := by
  cases i with
  | mulh | mulhsu | mulhu => simp [valA, valB, Instr.operands, Instr.signedMode, Instr.value]
  | _ => simp [Instr.operator] at hi

end Values

section Program
variable {σ : Type} {m : Multiplier σ} {low high : ℕ}

/-- One instruction from an idle unit, under any stalls. -/
theorem complete_instr (hm : m.Correct low high) (i : Instr) (a b : BitVec 32) (dit : Bool)
    {s : State σ} (hs : s.Idle m) (cs : List Cycle) :
    match finishes (i.waits low high b dit) cs with
    | none => complete m (i.operands a b dit) s cs = none
    | some rest => ∃ s', s'.Idle m ∧
        complete m (i.operands a b dit) s cs = some (i.value a b, s', rest) := by
  have hdiv : ∀ i : Instr, i.operator = .div ∨ i.operator = .rem →
      ∃ Inv, Counts m (i.operands a b dit) (i.value a b) Inv ∧
        Inv (if dit = false ∧ b = 0 then 1 else 36) s := by
    intro i hi
    have hsel : (i.operands a b dit).divSel = true := by
      rcases hi with hi | hi <;> simp [Operands.divSel, Operands.multSel, Instr.operands, hi]
    refine ⟨_, divResult_eq a b i hi dit ▸ counts_div hm.silent hsel, hs.multStateQ, ?_⟩
    by_cases hfast : dit = false ∧ b = 0
    · rw [if_pos hfast]
      exact .zero rfl hs.mdStateQ hfast
    · rw [if_neg hfast]
      exact .idle rfl hs.mdStateQ hfast
  have hmulh : ∀ i : Instr, i.operator = .mulh →
      ∃ Inv, Counts m (i.operands a b dit) (i.value a b) Inv ∧ Inv high s := by
    intro i hi
    obtain ⟨Inv, hcounts, hstart⟩ := hm.mulh (i.operands a b dit) hi
    exact ⟨Inv, mulh_value a b i hi dit ▸ hcounts, hstart s hs⟩
  obtain ⟨Inv, hcounts, hstart⟩ : ∃ Inv, Counts m (i.operands a b dit) (i.value a b) Inv ∧
      Inv (i.waits low high b dit) s := by
    cases i with
    | mul =>
      obtain ⟨Inv, hcounts, hstart⟩ := hm.mull (Instr.mul.operands a b dit) rfl
      exact ⟨Inv, mul_value a b dit ▸ hcounts, hstart s hs⟩
    | mulh | mulhsu | mulhu => exact hmulh _ rfl
    | div | divu => exact hdiv _ (Or.inl rfl)
    | rem | remu => exact hdiv _ (Or.inr rfl)
  exact complete_of_counts hcounts cs hstart

/-- An instruction of a program, and what other instructions have left in the intermediate-value
registers before it. -/
structure Item where
  instr : Instr
  a : BitVec 32
  b : BitVec 32
  dataIndTiming : Bool
  imdVal0 : BitVec 34
  imdVal1 : BitVec 34
deriving DecidableEq, Repr

def Item.value (x : Item) : BitVec 32 := x.instr.value x.a x.b

/-- The results of a program, as long as the cycles last. -/
def execute (m : Multiplier σ) : State σ → List Item → List Cycle → List (BitVec 32)
  | _, [], _ => []
  | s, x :: xs, cs =>
    match complete m (x.instr.operands x.a x.b x.dataIndTiming)
        { s with imdVal0 := x.imdVal0, imdVal1 := x.imdVal1 } cs with
    | none => []
    | some (r, s', rest) => r :: execute m s' xs rest

/-- How many of its instructions complete. -/
def retired (low high : ℕ) : List Item → List Cycle → ℕ
  | [], _ => 0
  | x :: xs, cs =>
    match finishes (x.instr.waits low high x.b x.dataIndTiming) cs with
    | none => 0
    | some rest => retired low high xs rest + 1

theorem execute_eq (hm : m.Correct low high) (xs : List Item) {s : State σ} (hs : s.Idle m)
    (cs : List Cycle) :
    execute m s xs cs = (xs.map Item.value).take (retired low high xs cs) := by
  induction xs generalizing s cs with
  | nil => simp [execute, retired]
  | cons x xs ih =>
    have hidle : ({ s with imdVal0 := x.imdVal0, imdVal1 := x.imdVal1 } : State σ).Idle m :=
      ⟨hs.mdStateQ, hs.multStateQ⟩
    have hone := complete_instr hm x.instr x.a x.b x.dataIndTiming hidle cs
    unfold execute retired
    cases hfin : finishes (x.instr.waits low high x.b x.dataIndTiming) cs with
    | none =>
      rw [hfin] at hone
      simp only at hone
      simp [hone]
    | some rest =>
      rw [hfin] at hone
      obtain ⟨s', hs', hcomplete⟩ := hone
      simp only [hcomplete, List.map_cons, List.take_succ_cons]
      rw [ih hs' rest]
      rfl

theorem idle_reset (m : Multiplier σ) : (State.reset m).Idle m := ⟨rfl, rfl⟩

end Program

/-- **Every sequence of M-extension instructions**, from reset and with any stalls, gives the
results the extension asks for, in 3 executing cycles for `mul`, 4 for the other products and 37 for
a division (2 where a zero divisor ends it early); with the single-cycle multiplier in 1 and 2 for
the products. -/
theorem mdProgram_correct (xs : List Item) (cs : List Cycle) :
    execute multFast (State.reset multFast) xs cs = (xs.map Item.value).take (retired 2 3 xs cs) ∧
      execute multSingleCycle (State.reset multSingleCycle) xs cs =
        (xs.map Item.value).take (retired 0 1 xs cs) :=
  ⟨execute_eq multFast_correct xs (idle_reset multFast) cs,
    execute_eq multSingleCycle_correct xs (idle_reset multSingleCycle) cs⟩

end KyberNeorv32.Ibex
