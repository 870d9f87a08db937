import Mathlib

/-!
# Folds that absorb data one piece at a time

A checksum is a fold of a step function over its data. When the step loses neither the state
(`state`) nor the datum (`datum`), a difference at one place can be carried to the end but never
undone: `foldl_injective` for what comes after the place, `foldl_ne_of_differ` for the place itself.
-/

namespace Absorb

variable {σ α : Type}

/-- One step can be undone when the datum is known, and the datum read off when the state is. -/
structure Faithful (step : σ → α → σ) : Prop where
  state : ∀ a, Function.Injective fun s => step s a
  datum : ∀ s, Function.Injective (step s)

variable {step : σ → α → σ}

/-- A common suffix hides nothing. -/
theorem foldl_injective (h : ∀ a, Function.Injective fun s => step s a) (suffix : List α) :
    Function.Injective fun s => suffix.foldl step s := by
  induction suffix with
  | nil => exact Function.injective_id
  | cons a suffix ih =>
    intro s t hst
    exact h a (ih hst)

/-- Lists of one length that differ just at `i` have everything around `i` in common. -/
theorem exists_common_of_differ {as bs : List α} {i : ℕ} (hlen : as.length = bs.length)
    (hi : as[i]? ≠ bs[i]?) (hother : ∀ j, j ≠ i → as[j]? = bs[j]?) :
    ∃ pre post a b, as = pre ++ a :: post ∧ bs = pre ++ b :: post ∧ a ≠ b := by
  induction as generalizing bs i with
  | nil =>
    have hbs : bs = [] := List.eq_nil_of_length_eq_zero hlen.symm
    simp [hbs] at hi
  | cons a as ih =>
    cases bs with
    | nil => simp at hlen
    | cons b bs =>
      cases i with
      | zero =>
        have htail : as = bs := by
          apply List.ext_getElem?
          intro j
          simpa using hother (j + 1) (by omega)
        exact ⟨[], bs, a, b, by rw [htail, List.nil_append], rfl, by simpa using hi⟩
      | succ i =>
        have hab : a = b := by simpa using hother 0 (by omega)
        have hlen' : as.length = bs.length := by simpa using hlen
        have hi' : as[i]? ≠ bs[i]? := by simpa using hi
        have hother' : ∀ j, j ≠ i → as[j]? = bs[j]? := by
          intro j hj
          simpa using hother (j + 1) (by omega)
        obtain ⟨pre, post, x, y, rfl, rfl, hxy⟩ := ih hlen' hi' hother'
        exact ⟨a :: pre, post, x, y, rfl, by rw [hab, List.cons_append], hxy⟩

/-- One differing datum always shows in the result. -/
theorem foldl_ne_of_differ (h : Faithful step) (s : σ) {as bs : List α} {i : ℕ}
    (hlen : as.length = bs.length) (hi : as[i]? ≠ bs[i]?)
    (hother : ∀ j, j ≠ i → as[j]? = bs[j]?) : as.foldl step s ≠ bs.foldl step s := by
  obtain ⟨pre, post, a, b, rfl, rfl, hab⟩ := exists_common_of_differ hlen hi hother
  intro heq
  rw [List.foldl_append, List.foldl_append] at heq
  exact hab (h.datum _ (foldl_injective h.state post heq))

end Absorb
