import Mathlib

/-!
# Lap timers

A lap timer watches a stream of labelled samples and credits what passes to stages. Each sample lets
`u` pass before its label is looked at and an amount of its own afterwards. When the label changes,
all that has passed since the last change goes to the stage of the old label, and a new lap begins.

The two amounts lie on different sides of the comparison, but what one block of equal labels lets
pass is credited at its end and nothing else is: `InLap.next` and `InLap.credit`. Times are elements
of any additive monoid; for the credit, its subtraction must undo addition.
-/

namespace Laps

/-- Which labels stand for a stage, which stages add up their laps instead of keeping the last one,
and the label that restarts the overall time. -/
structure Stages (κ σ : Type) where
  stageOf : κ → Option σ
  adds : σ → Bool
  first : κ

@[ext]
structure Timer (κ σ T : Type) where
  now : T
  start : T
  mark : T
  last : κ
  total : σ → T

variable {κ σ T : Type} [AddCommMonoid T]

/-- What a block of samples lets pass. -/
def weight (u : T) (tr : List (κ × T)) : T := (tr.map fun x => u + x.2).sum

@[simp] theorem weight_nil (u : T) : weight u ([] : List (κ × T)) = 0 := rfl

@[simp] theorem weight_cons (u : T) (x : κ × T) (tr : List (κ × T)) :
    weight u (x :: tr) = u + x.2 + weight u tr := List.sum_cons

variable [DecidableEq κ] [DecidableEq σ] [Sub T]

namespace Timer
variable (w : Stages κ σ) (u : T) (t : Timer κ σ T)

/-- The totals after the current lap has been credited. -/
def credit : σ → T :=
  match w.stageOf t.last with
  | none => t.total
  | some s => Function.update t.total s
      (if w.adds s then t.total s + (t.now - t.mark) else t.now - t.mark)

def close : Timer κ σ T := { t with total := t.credit w }

/-- A new lap with label `k`. -/
def change (k : κ) : Timer κ σ T where
  now := t.now
  start := if k = w.first then t.now else t.start
  mark := t.now
  last := k
  total := t.credit w

def tick (d : T) : Timer κ σ T := { t with now := t.now + d }

def step (x : κ × T) : Timer κ σ T :=
  let t := t.tick u
  (if x.1 = t.last then t else t.change w x.1).tick x.2

def run (tr : List (κ × T)) : Timer κ σ T := tr.foldl (step w u) t

theorem run_append (as bs : List (κ × T)) : t.run w u (as ++ bs) = (t.run w u as).run w u bs :=
  List.foldl_append

variable {w u t}

/-- Samples of the current lap only let time pass. -/
theorem run_same {tr : List (κ × T)} (h : ∀ x ∈ tr, x.1 = t.last) :
    t.run w u tr = t.tick (weight u tr) := by
  induction tr generalizing t with
  | nil => simp [run, tick]
  | cons x tr ih =>
    have hx : x.1 = t.last := h x (by simp)
    have hstep : step w u t x = t.tick (u + x.2) := by
      simp [step, tick, hx, add_assoc]
    have htail : ∀ y ∈ tr, y.1 = (t.tick (u + x.2)).last := fun y hy => h y (by simp [hy])
    change (step w u t x).run w u tr = _
    rw [hstep, ih htail]
    simp [tick, add_assoc]

/-- **A block with a new label** closes the lap before it and is a lap of its own. -/
theorem run_lap {tr : List (κ × T)} {k : κ} (hne : tr ≠ []) (h : ∀ x ∈ tr, x.1 = k)
    (hk : k ≠ t.last) :
    t.run w u tr = { (t.tick u).change w k with now := t.now + weight u tr } := by
  cases tr with
  | nil => exact absurd rfl hne
  | cons x tr =>
    have hx : x.1 = k := h x (by simp)
    have hstep : step w u t x = ((t.tick u).change w k).tick x.2 := by
      simp [step, tick, hx, hk]
    change (step w u t x).run w u tr = _
    rw [hstep, run_same fun y hy => h y (by simp [hy])]
    simp [tick, change, add_assoc]

/-- Labels of no stage, after a label of no stage, change no total. -/
theorem run_quiet {tr : List (κ × T)} (ht : w.stageOf t.last = none)
    (h : ∀ x ∈ tr, w.stageOf x.1 = none ∧ x.1 ≠ w.first) :
    (t.run w u tr).now = t.now + weight u tr ∧ (t.run w u tr).start = t.start ∧
      (t.run w u tr).total = t.total ∧ w.stageOf (t.run w u tr).last = none := by
  induction tr generalizing t with
  | nil => simp [run, ht]
  | cons x tr ih =>
    obtain ⟨hx, hfirst⟩ := h x (by simp)
    have hstep : (step w u t x).now = t.now + (u + x.2) ∧ (step w u t x).start = t.start ∧
        (step w u t x).total = t.total ∧ w.stageOf (step w u t x).last = none := by
      by_cases hlast : x.1 = t.last
      · simp [step, tick, hlast, ht, add_assoc]
      · simp [step, tick, change, credit, hlast, hfirst, ht, hx, add_assoc]
    obtain ⟨h1, h2, h3, h4⟩ := hstep
    obtain ⟨i1, i2, i3, i4⟩ := ih h4 fun y hy => h y (by simp [hy])
    change ((step w u t x).run w u tr).now = _ ∧ ((step w u t x).run w u tr).start = _ ∧
      ((step w u t x).run w u tr).total = _ ∧ w.stageOf ((step w u t x).run w u tr).last = none
    refine ⟨?_, i2.trans h2, i3.trans h3, i4⟩
    rw [i1, h1, weight_cons]
    abel

/-- After a lap, labels of no stage credit it once, at the first of them. -/
theorem run_tail {tr : List (κ × T)} (hne : tr ≠ []) (hlast : w.stageOf t.last ≠ none)
    (h : ∀ x ∈ tr, w.stageOf x.1 = none ∧ x.1 ≠ w.first) :
    (t.run w u tr).now = t.now + weight u tr ∧ (t.run w u tr).start = t.start ∧
      (t.run w u tr).total = (t.tick u).credit w ∧ w.stageOf (t.run w u tr).last = none := by
  cases tr with
  | nil => exact absurd rfl hne
  | cons x tr =>
    obtain ⟨hx, hfirst⟩ := h x (by simp)
    have hchange : x.1 ≠ t.last := by
      intro heq
      rw [heq] at hx
      exact hlast hx
    have hstep : step w u t x = ((t.tick u).change w x.1).tick x.2 := by
      simp [step, tick, hchange]
    have hquiet : w.stageOf (step w u t x).last = none := by
      rw [hstep]
      exact hx
    have htail : ∀ y ∈ tr, w.stageOf y.1 = none ∧ y.1 ≠ w.first := fun y hy => h y (by simp [hy])
    obtain ⟨i1, i2, i3, i4⟩ := run_quiet hquiet htail
    change ((step w u t x).run w u tr).now = _ ∧ ((step w u t x).run w u tr).start = _ ∧
      ((step w u t x).run w u tr).total = _ ∧ w.stageOf ((step w u t x).run w u tr).last = none
    rw [i1, i2, i3, hstep]
    refine ⟨?_, ?_, rfl, ?_⟩
    · rw [weight_cons]
      simp only [tick, change]
      abel
    · simp [tick, change, hfirst]
    · rw [hstep] at i4
      exact i4

/-- The current lap has label `k`, began when `n` had passed, and has let `d` pass. -/
structure InLap (u : T) (t : Timer κ σ T) (n d : T) (k : κ) : Prop where
  now : t.now = n + d
  mark : t.mark = n + u
  last : t.last = k

/-- A block with a new label is a lap of its own. -/
theorem inLap_of_run_lap {tr : List (κ × T)} {k : κ} (hne : tr ≠ []) (h : ∀ x ∈ tr, x.1 = k)
    (hk : k ≠ t.last) : (t.run w u tr).InLap u t.now (weight u tr) k := by
  rw [run_lap hne h hk]
  exact ⟨rfl, rfl, rfl⟩

/-- The first lap, after labels of no stage, restarts the overall time. -/
theorem inLap_first {tr : List (κ × T)} (ht : w.stageOf t.last = none) (hne : tr ≠ [])
    (h : ∀ x ∈ tr, x.1 = w.first) (hfirst : w.stageOf w.first ≠ none) :
    (t.run w u tr).InLap u t.now (weight u tr) w.first ∧ (t.run w u tr).start = t.now + u ∧
      (t.run w u tr).total = t.total := by
  have hk : w.first ≠ t.last := by
    intro heq
    rw [← heq] at ht
    exact hfirst ht
  refine ⟨inLap_of_run_lap hne h hk, ?_, ?_⟩
  · rw [run_lap hne h hk]
    simp [change, tick]
  · rw [run_lap hne h hk]
    simp [change, tick, Timer.credit, ht]

section
variable {n d : T} {k : κ}

omit [DecidableEq κ] in
/-- The next change credits what the lap has let pass. -/
theorem InLap.credit (hsub : ∀ a b : T, a + b - a = b) (hl : t.InLap u n d k) {s : σ}
    (hs : w.stageOf k = some s) : (t.tick u).credit w =
      Function.update t.total s (if w.adds s then t.total s + d else d) := by
  have hlap : t.now + u - t.mark = d := by
    rw [hl.now, hl.mark, add_right_comm, hsub]
  simp [Timer.credit, tick, hl.last, hs, hlap]

/-- From one lap to the next. -/
theorem InLap.next (hsub : ∀ a b : T, a + b - a = b) (hl : t.InLap u n d k) {s : σ}
    (hs : w.stageOf k = some s) {tr : List (κ × T)} {k' : κ} (hne : tr ≠ [])
    (h : ∀ x ∈ tr, x.1 = k') (hk : k' ≠ k) (hfirst : k' ≠ w.first) :
    (t.run w u tr).InLap u (n + d) (weight u tr) k' ∧ (t.run w u tr).start = t.start ∧
      (t.run w u tr).total =
        Function.update t.total s (if w.adds s then t.total s + d else d) := by
  have hk' : k' ≠ t.last := by rwa [hl.last]
  refine ⟨?_, ?_, ?_⟩
  · rw [← hl.now]
    exact inLap_of_run_lap hne h hk'
  · rw [run_lap hne h hk']
    simp [change, tick, hfirst]
  · rw [run_lap hne h hk', ← hl.credit hsub hs]
    rfl

end

end Timer

end Laps
