import Mathlib

/-! Worklist algorithms: elements are taken from the front of a list until it is empty.
What one step keeps true holds at the end, and a measure that each step lowers bounds the
number of steps. -/

namespace Worklist
open List
variable {α σ : Type*}

/-- `step` takes the next element and the rest of the list; `none` if the fuel does not suffice. -/
def run (step : α → List α → σ → List α × σ) : ℕ → List α → σ → Option σ
  | _, [], s => some s
  | 0, _ :: _, _ => none
  | n + 1, w :: W, s => run step n (step w W s).1 (step w W s).2

variable {step : α → List α → σ → List α × σ} {I : List α → σ → Prop} {W : List α} {s s' : σ} {n : ℕ}

lemma run_invariant (hstep : ∀ w W s, I (w :: W) s → I (step w W s).1 (step w W s).2)
    (h : I W s) (hrun : run step n W s = some s') : I [] s' := by
  induction n generalizing W s with
  | zero =>
    cases W with
    | nil => exact Option.some.inj hrun ▸ h
    | cons w W => simp [run] at hrun
  | succ n ih =>
    cases W with
    | nil => exact Option.some.inj hrun ▸ h
    | cons w W => exact ih (hstep w W s h) hrun

lemma map_run {τ : Type*} {step' : α → List α → τ → List α × τ} (f : σ → τ)
    (h : ∀ w W s, step' w W (f s) = ((step w W s).1, f (step w W s).2)) (n : ℕ) (W : List α) (s : σ) :
    (run step n W s).map f = run step' n W (f s) := by
  induction n generalizing W s with
  | zero => cases W <;> rfl
  | succ n ih =>
    cases W with
    | nil => rfl
    | cons w W => rw [run, run, ih, h]

lemma run_isSome {m : List α → σ → ℕ} (hstep : ∀ w W s, I (w :: W) s → I (step w W s).1 (step w W s).2)
    (hm : ∀ w W s, I (w :: W) s → m (step w W s).1 (step w W s).2 < m (w :: W) s) (h : I W s) (hn : m W s ≤ n) :
    (run step n W s).isSome = true := by
  induction n generalizing W s with
  | zero =>
    cases W with
    | nil => rfl
    | cons w W =>
      have := hm w W s h
      omega
  | succ n ih =>
    cases W with
    | nil => rfl
    | cons w W =>
      have := hm w W s h
      exact ih (hstep w W s h) (by omega)

lemma sum_pow_lt {b k : ℕ} {L : List α} {r : α → ℕ} (hb : L.length ≤ b) (hr : ∀ z ∈ L, r z < k) :
    (L.map fun z => (b + 1) ^ r z).sum < (b + 1) ^ k := by
  cases k with
  | zero =>
    have hnil : L = [] := eq_nil_iff_forall_not_mem.mpr fun z hz => Nat.not_lt_zero _ (hr z hz)
    rw [hnil]
    exact Nat.pow_pos (Nat.succ_pos b)
  | succ k =>
    have hle : ∀ n ∈ L.map fun z => (b + 1) ^ r z, n ≤ (b + 1) ^ k := by
      intro n hn
      obtain ⟨z, hz, rfl⟩ := mem_map.mp hn
      exact Nat.pow_le_pow_right (Nat.succ_pos b) (Nat.lt_succ_iff.mp (hr z hz))
    calc (L.map fun z => (b + 1) ^ r z).sum
        ≤ L.length * (b + 1) ^ k := by simpa using sum_le_card_nsmul _ _ hle
      _ ≤ b * (b + 1) ^ k := Nat.mul_le_mul_right _ hb
      _ < (b + 1) ^ (k + 1) := by
        rw [Nat.mul_comm]
        exact Nat.mul_lt_mul_of_pos_left (Nat.lt_succ_self b) (Nat.pow_pos (Nat.succ_pos b))

/-- A search that replaces elements by at most `b` ones of smaller rank, if by any, ends. -/
lemma run_isSome_of_rank {b : ℕ} {r : α → ℕ} {w : α} {f : α → List α} {P : α → Prop}
    (hstep : ∀ w W s, ((step w W s).1).Sublist ((f w).reverse ++ W))
    (hb : ∀ w, P w → (f w).length ≤ b) (hr : ∀ w, P w → ∀ z ∈ f w, P z ∧ r z < r w) (hw : P w)
    (hn : (b + 1) ^ r w ≤ n) : (run step n [w] s).isSome = true := by
  refine run_isSome (I := fun W _ => ∀ z ∈ W, P z) (m := fun W _ => (W.map fun z => (b + 1) ^ r z).sum) ?_ ?_
    (by simpa using hw) (by simpa using hn)
  · intro w W s hW z hz
    rcases mem_append.mp ((hstep w W s).subset hz) with hz | hz
    · exact (hr w (hW w mem_cons_self) z (mem_reverse.mp hz)).1
    · exact hW z (mem_cons_of_mem w hz)
  · intro w W s hW
    have hPw := hW w mem_cons_self
    have hlt := sum_pow_lt (hb w hPw) fun z hz => (hr w hPw z hz).2
    have hle := ((hstep w W s).map fun z => (b + 1) ^ r z).sum_le_sum fun _ _ => Nat.zero_le _
    simp only [map_append, map_reverse, sum_append, sum_reverse] at hle
    simp only [map_cons, sum_cons]
    omega

end Worklist
