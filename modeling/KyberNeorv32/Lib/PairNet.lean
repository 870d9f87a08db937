import Mathlib

/-!
# In-place networks of two-input cells

A cell reads two positions of a vector and writes both back; a layer is a list of cells on
pairwise disjoint positions, run one after the other; a network is a list of layers. The rules
below say what a layer does to each position (`run_p`, `run_q`, `run_of_not_mem`), carry a
predicate on values through a layer or a network (`run_cells`, `runLayers_cells`), and give the
law of two mirrored networks that undo each other up to a relation (`mirror`).

`Along C` says that every cell of a run is entered with values satisfying `C`. It speaks about
the values the cell really finds when its turn comes, in the middle of a layer.
-/

namespace PairNet

variable {n : ℕ} {α β τ : Type}

/-- One cell: it works on positions `p` and `q`, with a parameter `tag`. -/
structure Pair (n : ℕ) (τ : Type) where
  p : Fin n
  q : Fin n
  tag : τ
deriving DecidableEq, Repr

def positions (ops : List (Pair n τ)) : List (Fin n) := ops.flatMap fun o => [o.p, o.q]

/-- Cells on pairwise disjoint positions. -/
structure Layer (n : ℕ) (τ : Type) where
  pairs : List (Pair n τ)
  disjoint : (positions pairs).Nodup

/-- A layer that pairs every position with another one. -/
structure Pairing (n : ℕ) (τ : Type) extends Layer n τ where
  cover : ∀ j, j ∈ positions pairs

section Run
variable (f : τ → α → α → α × α)

def step (x : Vector α n) (o : Pair n τ) : Vector α n :=
  let y := f o.tag (x.get o.p) (x.get o.q)
  (x.set o.p y.1).set o.q y.2

def run (ops : List (Pair n τ)) (x : Vector α n) : Vector α n := ops.foldl (step f) x

def runLayers (net : List (Layer n τ)) (x : Vector α n) : Vector α n :=
  net.foldl (fun x l => run f l.pairs x) x

/-- Every cell, when its turn comes, finds values satisfying `C`. -/
def Along (C : τ → α → α → Prop) : List (Pair n τ) → Vector α n → Prop
  | [], _ => True
  | o :: os, x => C o.tag (x.get o.p) (x.get o.q) ∧ Along C os (step f x o)

def AlongLayers (C : τ → α → α → Prop) : List (Layer n τ) → Vector α n → Prop
  | [], _ => True
  | l :: net, x => Along f C l.pairs x ∧ AlongLayers C net (run f l.pairs x)

end Run

/-! ## Positions -/

@[simp] theorem positions_nil : positions ([] : List (Pair n τ)) = [] := rfl

@[simp] theorem positions_cons (o : Pair n τ) (os : List (Pair n τ)) :
    positions (o :: os) = o.p :: o.q :: positions os := rfl

theorem mem_positions {ops : List (Pair n τ)} {j : Fin n} :
    j ∈ positions ops ↔ ∃ o ∈ ops, j = o.p ∨ j = o.q := by
  simp [positions]

theorem Layer.ne (l : Layer n τ) {o : Pair n τ} (ho : o ∈ l.pairs) : o.p ≠ o.q := by
  have h := (List.nodup_flatMap.1 l.disjoint).1 o ho
  simpa using h

/-! ## One cell -/

section
variable {f : τ → α → α → α × α}

theorem step_of_ne (x : Vector α n) (o : Pair n τ) (j : Fin n) (hp : j ≠ o.p) (hq : j ≠ o.q) :
    (step f x o).get j = x.get j := by
  have hp' := Fin.val_ne_of_ne hp
  have hq' := Fin.val_ne_of_ne hq
  simp [step, Vector.get_eq_getElem, hp'.symm, hq'.symm]

theorem step_p (x : Vector α n) (o : Pair n τ) (h : o.p ≠ o.q) :
    (step f x o).get o.p = (f o.tag (x.get o.p) (x.get o.q)).1 := by
  have h' := Fin.val_ne_of_ne h
  simp [step, Vector.get_eq_getElem, h'.symm]

theorem step_q (x : Vector α n) (o : Pair n τ) :
    (step f x o).get o.q = (f o.tag (x.get o.p) (x.get o.q)).2 := by
  simp [step, Vector.get_eq_getElem]

/-- A cell leaves alone every position of a list it is disjoint from. -/
theorem step_of_disjoint (x : Vector α n) {o : Pair n τ} {ps : List (Fin n)} (hp : o.p ∉ ps)
    (hq : o.q ∉ ps) (j : Fin n) (hj : j ∈ ps) : (step f x o).get j = x.get j :=
  step_of_ne x o j (fun e => hp (e ▸ hj)) (fun e => hq (e ▸ hj))

/-! ## A list of disjoint cells -/

@[simp] theorem run_nil (x : Vector α n) : run f [] x = x := rfl

@[simp] theorem run_cons (o : Pair n τ) (os : List (Pair n τ)) (x : Vector α n) :
    run f (o :: os) x = run f os (step f x o) := rfl

theorem run_append (as bs : List (Pair n τ)) (x : Vector α n) :
    run f (as ++ bs) x = run f bs (run f as x) := List.foldl_append ..

theorem run_of_not_mem {ops : List (Pair n τ)} {j : Fin n} (hj : j ∉ positions ops)
    (x : Vector α n) : (run f ops x).get j = x.get j := by
  induction ops generalizing x with
  | nil => rfl
  | cons o os ih =>
    simp only [positions_cons, List.mem_cons, not_or] at hj
    rw [run_cons, ih hj.2.2, step_of_ne x o j hj.1 hj.2.1]

/-- A cell of a disjoint list sees the original values, and nobody touches what it wrote. -/
theorem run_cell {ops : List (Pair n τ)} (hnd : (positions ops).Nodup) {o : Pair n τ}
    (ho : o ∈ ops) (x : Vector α n) :
    ((run f ops x).get o.p, (run f ops x).get o.q) = f o.tag (x.get o.p) (x.get o.q) := by
  induction ops generalizing x with
  | nil => cases ho
  | cons a os ih =>
    simp only [positions_cons, List.nodup_cons, List.mem_cons, not_or] at hnd
    obtain ⟨⟨hpq, hap⟩, haq, hos⟩ := hnd
    rw [run_cons]
    rcases List.mem_cons.1 ho with rfl | ho
    · rw [run_of_not_mem hap, run_of_not_mem haq, step_p x o hpq, step_q]
    · have hmem := step_of_disjoint (f := f) x hap haq
      rw [ih hos ho, hmem o.p (mem_positions.2 ⟨o, ho, Or.inl rfl⟩),
        hmem o.q (mem_positions.2 ⟨o, ho, Or.inr rfl⟩)]

theorem run_p {ops : List (Pair n τ)} (hnd : (positions ops).Nodup) {o : Pair n τ} (ho : o ∈ ops)
    (x : Vector α n) : (run f ops x).get o.p = (f o.tag (x.get o.p) (x.get o.q)).1 :=
  congrArg Prod.fst (run_cell hnd ho x)

theorem run_q {ops : List (Pair n τ)} (hnd : (positions ops).Nodup) {o : Pair n τ} (ho : o ∈ ops)
    (x : Vector α n) : (run f ops x).get o.q = (f o.tag (x.get o.p) (x.get o.q)).2 :=
  congrArg Prod.snd (run_cell hnd ho x)

/-- Disjoint cells satisfy `C` in the run if they satisfy it on the values the run starts from. -/
theorem along_of_start {C : τ → α → α → Prop} {ops : List (Pair n τ)}
    (hnd : (positions ops).Nodup) (x : Vector α n)
    (h : ∀ o ∈ ops, C o.tag (x.get o.p) (x.get o.q)) :
    Along f C ops x := by
  induction ops generalizing x with
  | nil => trivial
  | cons a os ih =>
    simp only [positions_cons, List.nodup_cons, List.mem_cons, not_or] at hnd
    obtain ⟨⟨_, hap⟩, haq, hos⟩ := hnd
    refine ⟨h a (by simp), ih hos _ ?_⟩
    intro o ho
    have hmem := step_of_disjoint (f := f) x hap haq
    rw [hmem o.p (mem_positions.2 ⟨o, ho, Or.inl rfl⟩),
      hmem o.q (mem_positions.2 ⟨o, ho, Or.inr rfl⟩)]
    exact h o (by simp [ho])

/-- Conversely, what holds along a disjoint run holds on the values it starts from. -/
theorem start_of_along {C : τ → α → α → Prop} {ops : List (Pair n τ)}
    (hnd : (positions ops).Nodup) {x : Vector α n} (h : Along f C ops x) :
    ∀ o ∈ ops, C o.tag (x.get o.p) (x.get o.q) := by
  induction ops generalizing x with
  | nil => simp
  | cons a os ih =>
    simp only [positions_cons, List.nodup_cons, List.mem_cons, not_or] at hnd
    obtain ⟨⟨_, hap⟩, haq, hos⟩ := hnd
    intro o ho
    rcases List.mem_cons.1 ho with rfl | ho
    · exact h.1
    · have hmem := step_of_disjoint (f := f) x hap haq
      have := ih hos h.2 o ho
      rwa [hmem o.p (mem_positions.2 ⟨o, ho, Or.inl rfl⟩),
        hmem o.q (mem_positions.2 ⟨o, ho, Or.inr rfl⟩)] at this

theorem Along.mono {C D : τ → α → α → Prop} (h : ∀ t a b, C t a b → D t a b) :
    ∀ {ops : List (Pair n τ)} {x : Vector α n}, Along f C ops x → Along f D ops x
  | [], _, _ => trivial
  | _ :: _, _, hc => ⟨h _ _ _ hc.1, Along.mono h hc.2⟩

theorem AlongLayers.mono {C D : τ → α → α → Prop} (h : ∀ t a b, C t a b → D t a b) :
    ∀ {net : List (Layer n τ)} {x : Vector α n}, AlongLayers f C net x → AlongLayers f D net x
  | [], _, _ => trivial
  | _ :: _, _, hc => ⟨hc.1.mono h, AlongLayers.mono h hc.2⟩

/-! ## Predicates on values through a layer -/

/-- If the cell takes `P` to `P'` and untouched values may pass, a layer takes `P` to `P'`. -/
theorem run_cells {P P' : α → Prop} (hpass : ∀ a, P a → P' a)
    (hf : ∀ t a b, P a → P b → P' (f t a b).1 ∧ P' (f t a b).2) (l : Layer n τ) {x : Vector α n}
    (hx : ∀ j : Fin n, P (x.get j)) (j : Fin n) : P' ((run f l.pairs x).get j) := by
  by_cases hj : j ∈ positions l.pairs
  · obtain ⟨o, ho, rfl | rfl⟩ := mem_positions.1 hj
    · rw [run_p l.disjoint ho]; exact (hf _ _ _ (hx _) (hx _)).1
    · rw [run_q l.disjoint ho]; exact (hf _ _ _ (hx _) (hx _)).2
  · rw [run_of_not_mem hj]; exact hpass _ (hx j)

/-- A family of predicates that each layer advances by one: it holds after every number of
layers, and every cell is entered with values satisfying its layer's predicate. -/
theorem runLayers_cells {P : ℕ → α → Prop} {C : τ → α → α → Prop} :
    ∀ (net : List (Layer n τ)) (s : ℕ) (x : Vector α n),
      (∀ k, k < s + net.length → ∀ a, P k a → P (k + 1) a) →
      (∀ k, k < s + net.length → ∀ t a b, P k a → P k b →
        C t a b ∧ P (k + 1) (f t a b).1 ∧ P (k + 1) (f t a b).2) →
      (∀ j : Fin n, P s (x.get j)) →
      AlongLayers f C net x ∧
        ∀ m ≤ net.length, ∀ j : Fin n, P (s + m) ((runLayers f (net.take m) x).get j)
  | [], s, x, _, _, hx => by
    refine ⟨trivial, ?_⟩
    intro m hm j
    obtain rfl : m = 0 := by simpa using hm
    exact hx j
  | l :: net, s, x, hpass, hf, hx => by
    have hs : s < s + (l :: net).length := by simp
    have e : s + 1 + net.length = s + (l :: net).length := by simp; omega
    have hx' : ∀ j : Fin n, P (s + 1) ((run f l.pairs x).get j) := by
      intro j
      exact run_cells (hpass s hs) (fun t a b ha hb => (hf s hs t a b ha hb).2) l hx j
    obtain ⟨h1, h2⟩ := runLayers_cells net (s + 1) _ (e ▸ hpass) (e ▸ hf) hx'
    have hC : Along f C l.pairs x := by
      apply along_of_start l.disjoint
      intro o _
      exact (hf s hs o.tag _ _ (hx _) (hx _)).1
    refine ⟨⟨hC, h1⟩, ?_⟩
    intro m hm j
    cases m with
    | zero => exact hx j
    | succ m =>
      have h := h2 m (by simpa using hm) j
      rw [show s + (m + 1) = s + 1 + m by omega]
      exact h

/-! ## Predicates on values through any run

An invariant that the cell keeps needs no disjoint layers, only that the two positions of each
cell differ. -/

theorem run_invariant {P : α → Prop} {C : τ → α → α → Prop}
    (hf : ∀ t a b, P a → P b → C t a b ∧ P (f t a b).1 ∧ P (f t a b).2) :
    ∀ (ops : List (Pair n τ)) (x : Vector α n), (∀ o ∈ ops, o.p ≠ o.q) →
      (∀ j : Fin n, P (x.get j)) →
      Along f C ops x ∧ ∀ m, ∀ j : Fin n, P ((run f (ops.take m) x).get j)
  | [], x, _, hx => by
    refine ⟨trivial, ?_⟩
    intro m j
    simpa using hx j
  | o :: os, x, hne, hx => by
    have ho := hf o.tag _ _ (hx o.p) (hx o.q)
    have hx' : ∀ j : Fin n, P ((step f x o).get j) := by
      intro j
      by_cases hp : j = o.p
      · subst hp; rw [step_p x o (hne o (by simp))]; exact ho.2.1
      · by_cases hq : j = o.q
        · subst hq; rw [step_q]; exact ho.2.2
        · rw [step_of_ne x o j hp hq]; exact hx j
    obtain ⟨h1, h2⟩ := run_invariant hf os _ (fun a ha => hne a (by simp [ha])) hx'
    refine ⟨⟨ho.1, h1⟩, ?_⟩
    intro m j
    cases m with
    | zero => exact hx j
    | succ m => exact h2 m j

/-! ## Networks as lists of cells -/

theorem runLayers_eq_run : ∀ (net : List (Layer n τ)) (x : Vector α n),
    runLayers f net x = run f (net.flatMap (·.pairs)) x
  | [], _ => rfl
  | l :: net, x => by
    rw [List.flatMap_cons, run_append, ← runLayers_eq_run net]
    rfl

theorem along_append {C : τ → α → α → Prop} : ∀ (as bs : List (Pair n τ)) (x : Vector α n),
    Along f C (as ++ bs) x ↔ Along f C as x ∧ Along f C bs (run f as x)
  | [], _, _ => by simp [Along]
  | a :: as, bs, x => by
    simp only [List.cons_append, Along, along_append as bs, run_cons, and_assoc]

theorem alongLayers_iff {C : τ → α → α → Prop} : ∀ (net : List (Layer n τ)) (x : Vector α n),
    AlongLayers f C net x ↔ Along f C (net.flatMap (·.pairs)) x
  | [], _ => by simp [AlongLayers, Along]
  | l :: net, x => by
    rw [List.flatMap_cons, along_append, AlongLayers, alongLayers_iff net]

/-- The same cell under another name for its parameter. -/
def Pair.retag {υ : Type} (g : υ → τ) (o : Pair n υ) : Pair n τ := ⟨o.p, o.q, g o.tag⟩

theorem run_retag {υ : Type} (g : υ → τ) : ∀ (ops : List (Pair n υ)) (x : Vector α n),
    run f (ops.map (Pair.retag g)) x = run (fun t => f (g t)) ops x
  | [], _ => rfl
  | o :: os, x => run_retag g os (step (fun t => f (g t)) x o)

theorem along_retag {υ : Type} (g : υ → τ) {C : τ → α → α → Prop} :
    ∀ (ops : List (Pair n υ)) (x : Vector α n),
      Along f C (ops.map (Pair.retag g)) x ↔ Along (fun t => f (g t)) (fun t => C (g t)) ops x
  | [], _ => Iff.rfl
  | o :: os, x => and_congr Iff.rfl (along_retag g os (step (fun t => f (g t)) x o))

/-! ## Mirrored networks -/

theorem runLayers_append (as bs : List (Layer n τ)) (x : Vector α n) :
    runLayers f (as ++ bs) x = runLayers f bs (runLayers f as x) := List.foldl_append ..

theorem alongLayers_append {C : τ → α → α → Prop} :
    ∀ (as bs : List (Layer n τ)) (x : Vector α n),
      AlongLayers f C (as ++ bs) x ↔ AlongLayers f C as x ∧ AlongLayers f C bs (runLayers f as x)
  | [], _, _ => by simp [AlongLayers, runLayers]
  | l :: as, bs, x => by
    simp only [List.cons_append, AlongLayers, alongLayers_append as bs, and_assoc]
    rfl

end

section Mirror
variable {f : τ → α → α → α × α} {g : τ → β → β → β × β} {C : τ → α → α → Prop}
  {D : τ → β → β → Prop} {R : ℕ → α → β → Prop}

/-- **Mirror law.** `R s a v` reads "`v` stands for `a` once `s` layers are undone". If undoing one
cell advances `R`, then running the layers of `net` backwards through `g` undoes all of them. -/
theorem mirror
    (hcell : ∀ s t a b u v, C t a b → R s (f t a b).1 u → R s (f t a b).2 v →
      D t u v ∧ R (s + 1) a (g t u v).1 ∧ R (s + 1) b (g t u v).2) :
    ∀ (net : List (Pairing n τ)) (x : Vector α n) (z : Vector β n),
      AlongLayers f C (net.map Pairing.toLayer) x →
      (∀ j : Fin n, R 0 ((runLayers f (net.map Pairing.toLayer) x).get j) (z.get j)) →
      AlongLayers g D (net.map Pairing.toLayer).reverse z ∧
        ∀ j : Fin n,
          R net.length (x.get j) ((runLayers g (net.map Pairing.toLayer).reverse z).get j)
  | [], x, z, _, hz => ⟨trivial, hz⟩
  | l :: net, x, z, hC, hz => by
    obtain ⟨h1, h2⟩ := mirror hcell net (run f l.pairs x) z hC.2 hz
    generalize hw : runLayers g (net.map Pairing.toLayer).reverse z = w at h1 h2
    have key : ∀ o ∈ l.pairs, D o.tag (w.get o.p) (w.get o.q) ∧
        R (net.length + 1) (x.get o.p) (g o.tag (w.get o.p) (w.get o.q)).1 ∧
        R (net.length + 1) (x.get o.q) (g o.tag (w.get o.p) (w.get o.q)).2 := by
      intro o ho
      have hp := h2 o.p
      have hq := h2 o.q
      rw [run_p l.disjoint ho] at hp
      rw [run_q l.disjoint ho] at hq
      exact hcell _ _ _ _ _ _ (start_of_along l.disjoint hC.1 o ho) hp hq
    have hD : Along g D l.pairs w := along_of_start l.disjoint w fun o ho => (key o ho).1
    rw [List.map_cons, List.reverse_cons, alongLayers_append, runLayers_append, hw]
    refine ⟨⟨h1, hD, trivial⟩, ?_⟩
    intro j
    obtain ⟨o, ho, rfl | rfl⟩ := mem_positions.1 (l.cover j)
    · change R _ _ ((run g l.pairs w).get o.p)
      rw [run_p l.disjoint ho]; exact (key o ho).2.1
    · change R _ _ ((run g l.pairs w).get o.q)
      rw [run_q l.disjoint ho]; exact (key o ho).2.2

end Mirror

end PairNet
