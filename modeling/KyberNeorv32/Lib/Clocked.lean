import Mathlib

/-!
# Clocked machines

A machine has combinational outputs (`out`, a function of the state and of this cycle's inputs)
and one clock edge per cycle (`next`). A trace is a list of inputs, oldest first.

`latch` is the commonest piece of state: a register with a reset that wins over an enabled load.
`foldl_latch` says what it holds after any trace.
-/

namespace Clocked

variable {ι κ σ ο : Type}

structure Machine (ι σ ο : Type) where
  next : σ → ι → σ
  out : σ → ι → ο

namespace Machine
variable (m : Machine ι σ ο)

/-- The state after the edges of `tr`. -/
def run (s : σ) (tr : List ι) : σ := tr.foldl m.next s

/-- The outputs of each cycle, seen before that cycle's edge. -/
def outs : σ → List ι → List ο
  | _, [] => []
  | s, i :: tr => m.out s i :: outs (m.next s i) tr

/-- The outputs of the marked cycles only. -/
def outsAt : σ → List (ι × Bool) → List ο
  | _, [] => []
  | s, (i, true) :: tr => m.out s i :: outsAt (m.next s i) tr
  | s, (i, false) :: tr => outsAt (m.next s i) tr

end Machine

/-! ## Registers -/

/-- A register that `rst` sets to `init`, else `ld` sets to `val`, else keeps its value. -/
def latch (rst ld : ι → Bool) (init : σ) (val : ι → σ) (s : σ) (i : ι) : σ :=
  if rst i then init else if ld i then val i else s

/-- What the newest `ld` input since the last `rst` input loads, if there is one. -/
def lastLoad (rst ld : ι → Bool) (val : ι → σ) (tr : List ι) : Option σ :=
  ((tr.reverse.takeWhile fun i => !rst i).find? ld).map val

section
variable {rst ld : ι → Bool} {init : σ} {val : ι → σ}

@[simp] theorem lastLoad_nil : lastLoad rst ld val [] = none := rfl

theorem lastLoad_concat (tr : List ι) (i : ι) :
    lastLoad rst ld val (tr ++ [i]) =
      if rst i then none else if ld i then some (val i) else lastLoad rst ld val tr := by
  unfold lastLoad
  cases hr : rst i <;> cases hl : ld i <;> simp [hr, hl]

theorem lastLoad_map (f : κ → ι) (tr : List κ) :
    lastLoad rst ld val (tr.map f) = lastLoad (fun k => rst (f k)) (fun k => ld (f k))
      (fun k => val (f k)) tr := by
  simp only [lastLoad, ← List.map_reverse, List.takeWhile_map, List.find?_map, Option.map_map]
  rfl

/-- A load with neither reset nor load after it is the one that counts. -/
theorem lastLoad_append_load (tr post : List ι) {i : ι} (hi : rst i = false ∧ ld i = true)
    (hpost : ∀ j ∈ post, rst j = false ∧ ld j = false) :
    lastLoad rst ld val (tr ++ i :: post) = some (val i) := by
  induction post using List.reverseRecOn with
  | nil => simp [lastLoad_concat, hi]
  | append_singleton post j ih =>
    have hj := hpost j (by simp)
    rw [← List.cons_append, ← List.append_assoc, lastLoad_concat, hj.1, hj.2]
    exact ih fun k hk => hpost k (by simp [hk])

/-- After a reset with no load since, nothing counts. -/
theorem lastLoad_append_reset (tr post : List ι) {i : ι} (hi : rst i = true)
    (hpost : ∀ j ∈ post, rst j = false ∧ ld j = false) :
    lastLoad rst ld val (tr ++ i :: post) = none := by
  induction post using List.reverseRecOn with
  | nil => simp [lastLoad_concat, hi]
  | append_singleton post j ih =>
    have hj := hpost j (by simp)
    rw [← List.cons_append, ← List.append_assoc, lastLoad_concat, hj.1, hj.2]
    exact ih fun k hk => hpost k (by simp [hk])

/-- **What a register holds**: the newest load since the last reset, else the reset value, else,
before any reset, what it held to begin with. -/
theorem foldl_latch (s : σ) (tr : List ι) :
    tr.foldl (latch rst ld init val) s =
      (lastLoad rst ld val tr).getD (if tr.any rst then init else s) := by
  induction tr using List.reverseRecOn with
  | nil => simp
  | append_singleton tr i ih =>
    rw [List.foldl_append, List.foldl_cons, List.foldl_nil, ih, lastLoad_concat, latch]
    cases hr : rst i <;> cases hl : ld i <;> simp [hr]

theorem foldl_latch_of_reset (s : σ) {tr : List ι} (h : ∃ i ∈ tr, rst i = true) :
    tr.foldl (latch rst ld init val) s = (lastLoad rst ld val tr).getD init := by
  rw [foldl_latch, if_pos (List.any_eq_true.2 h)]

/-- Nothing was loaded since the last reset exactly when no input after it asks for a load. -/
theorem lastLoad_eq_none {tr : List ι} :
    lastLoad rst ld val tr = none ↔ ∀ i ∈ tr.reverse.takeWhile fun i => !rst i, ld i = false := by
  simp [lastLoad]

theorem lastLoad_eq_some {tr : List ι} {v : σ} (h : lastLoad rst ld val tr = some v) :
    ∃ i ∈ tr.reverse.takeWhile fun i => !rst i, ld i = true ∧ val i = v := by
  obtain ⟨i, hi, hv⟩ := Option.map_eq_some_iff.1 h
  exact ⟨i, List.mem_of_find?_eq_some hi, List.find?_some hi, hv⟩

end

/-! ## Inputs that change nothing -/

/-- `tr` is `prog` with any number of `quiet` inputs inserted anywhere; the inputs of `prog` are
the marked ones. -/
inductive Padded (quiet : ι → Prop) : List ι → List (ι × Bool) → Prop
  | nil : Padded quiet [] []
  | instr {i prog tr} : Padded quiet prog tr → Padded quiet (i :: prog) ((i, true) :: tr)
  | insert {i prog tr} : quiet i → Padded quiet prog tr → Padded quiet prog ((i, false) :: tr)

/-- Inputs that keep the state can be inserted without changing any output of the program. -/
theorem outsAt_padded {m : Machine ι σ ο} {quiet : ι → Prop}
    (hq : ∀ i, quiet i → ∀ s, m.next s i = s) {prog : List ι} {tr : List (ι × Bool)}
    (h : Padded quiet prog tr) (s : σ) : m.outsAt s tr = m.outs s prog := by
  induction h generalizing s with
  | nil => rfl
  | instr _ ih => simp only [Machine.outsAt, Machine.outs, ih]
  | insert hi _ ih => simp only [Machine.outsAt, hq _ hi, ih]

/-! ## Refinement -/

/-- `m` implements `a` on decoded inputs, with its state read through `abs`. -/
structure Refines {υ : Type} (m : Machine ι σ ο) (a : Machine κ υ ο) (abs : σ → υ) (dec : ι → κ) :
    Prop where
  next : ∀ s i, abs (m.next s i) = a.next (abs s) (dec i)
  out : ∀ s i, m.out s i = a.out (abs s) (dec i)

namespace Refines
variable {υ : Type} {m : Machine ι σ ο} {a : Machine κ υ ο} {abs : σ → υ} {dec : ι → κ}

theorem run (h : Refines m a abs dec) (s : σ) (tr : List ι) :
    abs (m.run s tr) = a.run (abs s) (tr.map dec) := by
  induction tr generalizing s with
  | nil => rfl
  | cons i tr ih =>
    change abs (m.run (m.next s i) tr) = a.run (a.next (abs s) (dec i)) (tr.map dec)
    rw [ih, h.next]

/-- Equal outputs in every cycle of every trace. -/
theorem outs (h : Refines m a abs dec) (s : σ) (tr : List ι) :
    m.outs s tr = a.outs (abs s) (tr.map dec) := by
  induction tr generalizing s with
  | nil => rfl
  | cons i tr ih => simp only [Machine.outs, List.map_cons, h.out, ih, h.next]

end Refines

end Clocked
