import Mathlib

/-! A region cut into cells, each a free range followed by a block. -/

namespace Tiling
open List
variable {p q x n free off block : ℕ} {cells pre post : List (ℕ × ℕ)}

def length (cells : List (ℕ × ℕ)) : ℕ := (cells.map fun c => c.1 + c.2).sum

def ranges : ℕ → List (ℕ × ℕ) → List (ℕ × ℕ)
  | _, [] => []
  | p, (free, block) :: cells => (p, free) :: ranges (p + free + block) cells

def blocks : ℕ → List (ℕ × ℕ) → List (ℕ × ℕ)
  | _, [] => []
  | p, (free, block) :: cells => (p + free, block) :: blocks (p + free + block) cells

@[simp] lemma length_nil : length [] = 0 := rfl

@[simp] lemma length_cons (c : ℕ × ℕ) (cells : List (ℕ × ℕ)) : length (c :: cells) = c.1 + c.2 + length cells := rfl

@[simp] lemma length_append (xs ys : List (ℕ × ℕ)) : length (xs ++ ys) = length xs + length ys := by
  simp [length]

lemma ranges_append (p : ℕ) (xs ys : List (ℕ × ℕ)) :
    ranges p (xs ++ ys) = ranges p xs ++ ranges (p + length xs) ys := by
  induction xs generalizing p with
  | nil => rfl
  | cons c xs ih =>
    rw [cons_append, ranges, ranges, ih, length_cons]
    congr 3
    omega

lemma blocks_append (p : ℕ) (xs ys : List (ℕ × ℕ)) :
    blocks p (xs ++ ys) = blocks p xs ++ blocks (p + length xs) ys := by
  induction xs generalizing p with
  | nil => rfl
  | cons c xs ih =>
    rw [cons_append, blocks, blocks, ih, length_cons]
    congr 3
    omega

lemma exists_of_mem_ranges (h : (q, free) ∈ ranges p cells) :
    ∃ pre block post, cells = pre ++ (free, block) :: post ∧ q = p + length pre := by
  induction cells generalizing p with
  | nil => cases h
  | cons c cells ih =>
    rcases mem_cons.mp h with heq | h
    · obtain ⟨rfl, rfl⟩ := Prod.mk.inj heq
      exact ⟨[], c.2, cells, rfl, rfl⟩
    · obtain ⟨pre, block, post, rfl, rfl⟩ := ih h
      exact ⟨c :: pre, block, post, rfl, by rw [length_cons]; omega⟩

lemma exists_of_mem_blocks (h : (x, n) ∈ blocks p cells) :
    ∃ pre free post, cells = pre ++ (free, n) :: post ∧ x = p + length pre + free := by
  induction cells generalizing p with
  | nil => cases h
  | cons c cells ih =>
    rcases mem_cons.mp h with heq | h
    · obtain ⟨rfl, rfl⟩ := Prod.mk.inj heq
      exact ⟨[], c.1, cells, rfl, rfl⟩
    · obtain ⟨pre, free, post, rfl, rfl⟩ := ih h
      exact ⟨c :: pre, free, post, rfl, by rw [length_cons]; omega⟩

lemma ranges_bounds (h : (q, free) ∈ ranges p cells) : p ≤ q ∧ q + free ≤ p + length cells := by
  obtain ⟨_, _, _, rfl, rfl⟩ := exists_of_mem_ranges h
  rw [length_append, length_cons]
  omega

lemma blocks_bounds (h : (x, n) ∈ blocks p cells) : p ≤ x ∧ x + n ≤ p + length cells := by
  obtain ⟨_, _, _, rfl, rfl⟩ := exists_of_mem_blocks h
  rw [length_append, length_cons]
  omega

lemma nodup_blocks (h : ∀ c ∈ cells, 0 < c.2) : (blocks p cells).Nodup := by
  induction cells generalizing p with
  | nil => exact nodup_nil
  | cons c cells ih =>
    refine nodup_cons.mpr ⟨fun hmem => ?_, ih fun c hc => h c (mem_cons_of_mem _ hc)⟩
    have hpos := h c mem_cons_self
    have hle := (blocks_bounds hmem).1
    omega

lemma disjoint (hq : (q, free) ∈ ranges p cells) (hx : (x, n) ∈ blocks p cells) : x + n ≤ q ∨ q + free ≤ x := by
  obtain ⟨_, _, _, rfl, rfl⟩ := exists_of_mem_ranges hq
  rw [blocks_append] at hx
  rcases mem_append.mp hx with hx | hx
  · exact .inl (blocks_bounds hx).2
  · rcases mem_cons.mp hx with heq | hx
    · obtain ⟨rfl, rfl⟩ := Prod.mk.inj heq
      exact .inr le_rfl
    · have := (blocks_bounds hx).1
      omega

lemma lt_of_mem_ranges (hblock : 0 < block) {r : ℕ × ℕ} (h : r ∈ ranges (p + free + block) cells) : p + free < r.1 := by
  have := (ranges_bounds h).1
  omega

def covers (x : ℕ) (r : ℕ × ℕ) : Bool := decide (r.1 ≤ x ∧ x < r.1 + r.2)

lemma countP_covers (x : ℕ) : (ranges p cells).countP (covers x) + (blocks p cells).countP (covers x) =
    if covers x (p, length cells) then 1 else 0 := by
  induction cells generalizing p with
  | nil => simp [ranges, blocks, covers]
  | cons c cells ih =>
    have hrest := ih (p := p + c.1 + c.2)
    rw [ranges, blocks, countP_cons, countP_cons, length_cons]
    simp only [covers, decide_eq_true_eq] at hrest ⊢
    split_ifs at hrest ⊢ <;> omega

lemma pairwise_ranges (h : ∀ c ∈ cells, 0 < c.2) : (ranges p cells).Pairwise fun r r' => r.1 + r.2 < r'.1 := by
  induction cells generalizing p with
  | nil => exact List.Pairwise.nil
  | cons c cells ih =>
    refine pairwise_cons.mpr ⟨fun r hr => ?_, ih fun c hc => h c (mem_cons_of_mem _ hc)⟩
    exact lt_of_mem_ranges (h c mem_cons_self) hr

/-! ## Splitting a range and merging two -/

lemma ranges_split (hfit : off + n ≤ free) : ranges p (pre ++ (off, n) :: (free - off - n, block) :: post) =
      ranges p pre ++ (p + length pre, off) :: (p + length pre + off + n, free - off - n) ::
        ranges (p + length pre + free + block) post := by
  rw [ranges_append, ranges, ranges]
  congr 4
  omega

lemma blocks_split (hfit : off + n ≤ free) : blocks p (pre ++ (off, n) :: (free - off - n, block) :: post) =
      blocks p pre ++ (p + length pre + off, n) :: (p + length pre + free, block) ::
        blocks (p + length pre + free + block) post := by
  have hnext : p + length pre + off + n + (free - off - n) = p + length pre + free := by omega
  rw [blocks_append, blocks, blocks, hnext]

lemma ranges_at : ranges p (pre ++ (free, block) :: post) =
    ranges p pre ++ (p + length pre, free) :: ranges (p + length pre + free + block) post := by
  rw [ranges_append, ranges]

lemma blocks_at : blocks p (pre ++ (free, block) :: post) =
    blocks p pre ++ (p + length pre + free, block) :: blocks (p + length pre + free + block) post := by
  rw [blocks_append, blocks]

end Tiling
