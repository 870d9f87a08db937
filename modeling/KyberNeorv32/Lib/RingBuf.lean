import Mathlib

/-!
# Ring buffers with one producer and one consumer

A ring of `len` cells holds the values from `outPos` up to `inPos`, at most `len - 1` of them. The
producer stores into free cells and then publishes them by moving `inPos`; the consumer reads from
`outPos` on and then frees what it has read by moving `outPos`. The two never write the same field,
so they may run interleaved: stores into free cells do not change the contents
(`contents_store`), publishing appends (`contents_publish`), freeing drops (`contents_free`).
-/

structure RingBuf (α : Type) where
  buf : ℕ → α
  inPos : ℕ
  outPos : ℕ

namespace RingBuf

variable {α : Type} (len : ℕ) (r : RingBuf α)

structure Ok : Prop where
  inPos_lt : r.inPos < len
  outPos_lt : r.outPos < len

/-- The number of values in the ring. -/
def used : ℕ := (r.inPos + len - r.outPos) % len

/-- The values in the ring, oldest first. -/
def contents : List α := (List.range (r.used len)).map fun k => r.buf ((r.outPos + k) % len)

def store (pos : ℕ) (v : α) : RingBuf α := { r with buf := Function.update r.buf pos v }

def publish (n : ℕ) : RingBuf α := { r with inPos := (r.inPos + n) % len }

def free (n : ℕ) : RingBuf α := { r with outPos := (r.outPos + n) % len }

@[simp] theorem store_inPos (pos : ℕ) (v : α) : (r.store pos v).inPos = r.inPos := rfl
@[simp] theorem store_outPos (pos : ℕ) (v : α) : (r.store pos v).outPos = r.outPos := rfl
@[simp] theorem publish_outPos (n : ℕ) : (r.publish len n).outPos = r.outPos := rfl
@[simp] theorem publish_buf (n : ℕ) : (r.publish len n).buf = r.buf := rfl
@[simp] theorem free_inPos (n : ℕ) : (r.free len n).inPos = r.inPos := rfl
@[simp] theorem free_buf (n : ℕ) : (r.free len n).buf = r.buf := rfl
@[simp] theorem used_store (pos : ℕ) (v : α) : (r.store pos v).used len = r.used len := rfl

variable {len r}

theorem Ok.store (h : r.Ok len) (pos : ℕ) (v : α) : (r.store pos v).Ok len :=
  ⟨h.inPos_lt, h.outPos_lt⟩

theorem Ok.publish (h : r.Ok len) (n : ℕ) : (r.publish len n).Ok len :=
  ⟨Nat.mod_lt _ (Nat.zero_lt_of_lt h.inPos_lt), h.outPos_lt⟩

theorem Ok.free (h : r.Ok len) (n : ℕ) : (r.free len n).Ok len :=
  ⟨h.inPos_lt, Nat.mod_lt _ (Nat.zero_lt_of_lt h.inPos_lt)⟩

theorem used_cases (h : r.Ok len) :
    (r.outPos ≤ r.inPos ∧ r.used len = r.inPos - r.outPos) ∨
      (r.inPos < r.outPos ∧ r.used len = r.inPos + len - r.outPos) := by
  obtain ⟨hin, hout⟩ := h
  unfold used
  rcases Nat.lt_or_ge r.inPos r.outPos with hlt | hge
  · exact Or.inr ⟨hlt, Nat.mod_eq_of_lt (by omega)⟩
  · refine Or.inl ⟨hge, ?_⟩
    rw [show r.inPos + len - r.outPos = r.inPos - r.outPos + len by omega, Nat.add_mod_right,
      Nat.mod_eq_of_lt (by omega)]

theorem used_lt (h : r.Ok len) : r.used len < len := Nat.mod_lt _ (Nat.zero_lt_of_lt h.inPos_lt)

theorem used_eq_zero_iff (h : r.Ok len) : r.used len = 0 ↔ r.outPos = r.inPos := by
  have hu := used_cases h
  obtain ⟨hin, hout⟩ := h
  omega

theorem length_contents : (r.contents len).length = r.used len := by simp [contents]

theorem contents_eq_nil_iff (h : r.Ok len) : r.contents len = [] ↔ r.outPos = r.inPos := by
  rw [← used_eq_zero_iff h, ← length_contents, List.length_eq_zero_iff]

/-- A position that is reached by going at most once around. -/
theorem mod_cases {p m : ℕ} (h : p < 2 * m) :
    (p < m ∧ p % m = p) ∨ (m ≤ p ∧ p % m = p - m) := by
  rcases Nat.lt_or_ge p m with hlt | hge
  · exact Or.inl ⟨hlt, Nat.mod_eq_of_lt hlt⟩
  · exact Or.inr ⟨hge, by rw [Nat.mod_eq_sub_mod hge, Nat.mod_eq_of_lt (by omega)]⟩

theorem used_publish (h : r.Ok len) {n : ℕ} (hn : r.used len + n < len) :
    (r.publish len n).used len = r.used len + n := by
  have hu := used_cases h
  have hu' := used_cases (h.publish n)
  have hpos : (r.publish len n).inPos = (r.inPos + n) % len := rfl
  obtain ⟨hin, hout⟩ := h
  have hmod := mod_cases (m := len) (p := r.inPos + n) (by omega)
  rw [hpos, publish_outPos] at hu'
  omega

theorem used_free (h : r.Ok len) {n : ℕ} (hn : n ≤ r.used len) :
    (r.free len n).used len = r.used len - n := by
  have hu := used_cases h
  have hu' := used_cases (h.free n)
  have hpos : (r.free len n).outPos = (r.outPos + n) % len := rfl
  have hlt := used_lt h
  obtain ⟨hin, hout⟩ := h
  have hmod := mod_cases (m := len) (p := r.outPos + n) (by omega)
  rw [hpos, free_inPos] at hu'
  omega

/-! ## The producer -/

/-- The `j`-th free cell is none of those in use. -/
theorem free_cell_ne (h : r.Ok len) {j k : ℕ} (hj : r.used len + j < len) (hk : k < r.used len) :
    (r.outPos + k) % len ≠ (r.inPos + j) % len := by
  have hu := used_cases h
  obtain ⟨hin, hout⟩ := h
  have h1 := mod_cases (m := len) (p := r.outPos + k) (by omega)
  have h2 := mod_cases (m := len) (p := r.inPos + j) (by omega)
  omega

/-- Stores into free cells are not seen by the consumer. -/
theorem contents_store (h : r.Ok len) {j : ℕ} (hj : r.used len + j < len) (v : α) :
    (r.store ((r.inPos + j) % len) v).contents len = r.contents len := by
  unfold contents
  rw [used_store]
  apply List.map_congr_left
  intro k hk
  exact Function.update_of_ne (free_cell_ne h hj (List.mem_range.1 hk)) v r.buf

/-- Publishing appends the stored cells. -/
theorem contents_publish (h : r.Ok len) {n : ℕ} (hn : r.used len + n < len) :
    (r.publish len n).contents len =
      r.contents len ++ (List.range n).map fun j => r.buf ((r.inPos + j) % len) := by
  unfold contents
  rw [used_publish h hn, List.range_add, List.map_append, List.map_map]
  congr 1
  apply List.map_congr_left
  intro j hj
  have hcell : (r.outPos + (r.used len + j)) % len = (r.inPos + j) % len := by
    have hout := h.outPos_lt
    rcases used_cases h with ⟨hle, hu⟩ | ⟨hlt, hu⟩
    · rw [show r.outPos + (r.used len + j) = r.inPos + j by omega]
    · rw [show r.outPos + (r.used len + j) = r.inPos + j + len by omega, Nat.add_mod_right]
  exact congrArg r.buf hcell

/-- The producer's test for a full ring. -/
theorem full_iff (h : r.Ok len) : (r.inPos + 1) % len = r.outPos ↔ r.used len + 1 = len := by
  have hu := used_cases h
  have hlt := used_lt h
  obtain ⟨hin, hout⟩ := h
  have hmod := mod_cases (m := len) (p := r.inPos + 1) (by omega)
  omega

/-- One value stored and published. -/
theorem contents_push (h : r.Ok len) (hn : r.used len + 1 < len) (v : α) :
    ((r.store r.inPos v).publish len 1).contents len = r.contents len ++ [v] := by
  have hstore := contents_store h (j := 0) (by omega) v
  rw [Nat.add_zero, Nat.mod_eq_of_lt h.inPos_lt] at hstore
  rw [contents_publish (h.store _ _) hn, hstore]
  have hcell : (r.store r.inPos v).buf (r.inPos % len) = v := by
    rw [Nat.mod_eq_of_lt h.inPos_lt]
    exact Function.update_self ..
  simpa using hcell

/-! ## The consumer -/

/-- Freeing drops the oldest values. -/
theorem contents_free (h : r.Ok len) {n : ℕ} (hn : n ≤ r.used len) :
    (r.free len n).contents len = (r.contents len).drop n := by
  unfold contents
  rw [used_free h hn]
  apply List.ext_getElem
  · simp
  · intro k h1 h2
    simp only [List.getElem_map, List.getElem_range, List.getElem_drop, free]
    rw [Nat.mod_add_mod, Nat.add_assoc]

theorem contents_getElem? {k : ℕ} (hk : k < r.used len) :
    (r.contents len)[k]? = some (r.buf ((r.outPos + k) % len)) := by
  simp [contents, hk]

/-- The oldest value lies at `outPos`. -/
theorem contents_eq_cons (h : r.Ok len) (hne : r.outPos ≠ r.inPos) :
    r.contents len = r.buf r.outPos :: (r.contents len).drop 1 := by
  have hpos : 0 < r.used len := Nat.pos_of_ne_zero fun h0 => hne ((used_eq_zero_iff h).1 h0)
  have hhead := contents_getElem? hpos
  rw [Nat.add_zero, Nat.mod_eq_of_lt h.outPos_lt] at hhead
  cases hc : r.contents len with
  | nil => simp [hc] at hhead
  | cons a as =>
    have ha : a = r.buf r.outPos := by simpa [hc] using hhead
    rw [ha, List.drop_one, List.tail_cons]

end RingBuf
