import PorSe.Lib.Worklist

/-! Backward may-analyses: a value moves along the edges from a node to its predecessors, from
the nodes that generate it on and up to those that kill it. The worklist algorithm ends with
exactly the values that arrive. -/

namespace Dataflow
open List Function Finset
variable {N V : Type*}

structure Problem (N V : Type*) where
  edges : N → List (N × N)
  gen : N → Finset V
  kill : N → Finset V
  fst_eq : ∀ n, ∀ e ∈ edges n, e.1 = n

namespace Problem
variable (P : Problem N V)

inductive Live : N → V → Prop
  | gen {i n : N} {v : V} : (i, n) ∈ P.edges i → v ∈ P.gen i → Live n v
  | keep {i n : N} {v : V} : (i, n) ∈ P.edges i → Live i v → v ∉ P.kill i → Live n v

variable [DecidableEq V]

def transition (i : N) (set : Finset V) : Finset V := (set \ P.kill i) ∪ P.gen i

lemma mem_transition {i : N} {set : Finset V} {v : V} :
    v ∈ P.transition i set ↔ (v ∈ set ∧ v ∉ P.kill i) ∨ v ∈ P.gen i := by
  rw [transition, mem_union, mem_sdiff]

/-- What is on the list are edges, what is not on it is done, and what is in a set is live. -/
structure Invariant (W : List (N × N)) (live : N → Finset V) : Prop where
  edge : ∀ e ∈ W, e ∈ P.edges e.1
  done : ∀ e, e ∈ P.edges e.1 → e ∈ W ∨ P.transition e.1 (live e.1) ⊆ live e.2
  live : ∀ n, ∀ v ∈ live n, P.Live n v

def step [DecidableEq N] (e : N × N) (W : List (N × N)) (live : N → Finset V) : List (N × N) × (N → Finset V) :=
  if P.transition e.1 (live e.1) ⊆ live e.2 then (W, live)
  else ((P.edges e.2).reverse ++ W, update live e.2 (live e.2 ∪ P.transition e.1 (live e.1)))

variable {P} {e : N × N} {W : List (N × N)} {live : N → Finset V}

lemma Invariant.transition_live (h : P.Invariant (e :: W) live) {v : V} (hv : v ∈ P.transition e.1 (live e.1)) :
    P.Live e.2 v := by
  have he := h.edge e mem_cons_self
  obtain ⟨hv, hkill⟩ | hv := P.mem_transition.mp hv
  · exact .keep he (h.live e.1 v hv) hkill
  · exact .gen he hv

lemma Invariant.step [DecidableEq N] (h : P.Invariant (e :: W) live) :
    P.Invariant (P.step e W live).1 (P.step e W live).2 := by
  rw [Problem.step]
  split_ifs with hsub
  · refine ⟨fun e' he' => h.edge e' (mem_cons_of_mem e he'), fun e' he' => ?_, h.live⟩
    obtain hmem | hdone := h.done e' he'
    · rcases mem_cons.mp hmem with rfl | hmem
      · exact .inr hsub
      · exact .inl hmem
    · exact .inr hdone
  · refine ⟨?_, ?_, ?_⟩
    · intro e' he'
      rcases mem_append.mp he' with he' | he'
      · rw [mem_reverse] at he'
        rwa [P.fst_eq e.2 e' he']
      · exact h.edge e' (mem_cons_of_mem e he')
    · intro e' he'
      by_cases hfst : e'.1 = e.2
      · -- its set has changed, so that it is on the list again
        rw [hfst] at he'
        exact .inl (mem_append_left W (mem_reverse.mpr he'))
      · have hmono : live e'.2 ⊆ update live e.2 (live e.2 ∪ P.transition e.1 (live e.1)) e'.2 := by
          by_cases hsnd : e'.2 = e.2
          · rw [hsnd, update_self]
            exact subset_union_left
          · rw [update_of_ne hsnd]
        simp only [update_of_ne hfst]
        obtain hmem | hdone := h.done e' he'
        · rcases mem_cons.mp hmem with rfl | hmem
          · refine .inr ?_
            rw [update_self]
            exact subset_union_right
          · exact .inl (mem_append_right _ hmem)
        · exact .inr (hdone.trans hmono)
    · intro n v hv
      change v ∈ update live e.2 (live e.2 ∪ P.transition e.1 (live e.1)) n at hv
      by_cases hn : n = e.2
      · rw [hn, update_self, mem_union] at hv
        rw [hn]
        exact hv.elim (h.live e.2 v) h.transition_live
      · rw [update_of_ne hn] at hv
        exact h.live n v hv

lemma Invariant.mem_iff (h : P.Invariant [] live) {n : N} {v : V} : v ∈ live n ↔ P.Live n v := by
  refine ⟨h.live n v, fun hv => ?_⟩
  have hdone : ∀ {i n}, (i, n) ∈ P.edges i → P.transition i (live i) ⊆ live n := fun he =>
    (h.done _ he).resolve_left not_mem_nil
  induction hv with
  | gen he hgen => exact hdone he (P.mem_transition.mpr (.inr hgen))
  | keep he _ hkill ih => exact hdone he (P.mem_transition.mpr (.inl ⟨ih, hkill⟩))

/-! ## Termination -/

section
variable [DecidableEq N] {nodes : Finset N} {values : Finset V} {b : ℕ}
  (hnodes : ∀ e, e ∈ P.edges e.1 → e.2 ∈ nodes) (hvalues : ∀ e, e ∈ P.edges e.1 → P.gen e.1 ⊆ values)
  (hb : ∀ n ∈ nodes, (P.edges n).length ≤ b)

omit [DecidableEq V] [DecidableEq N] in
include hvalues in
lemma Live.mem_values {n : N} {v : V} (h : P.Live n v) : v ∈ values := by
  induction h with
  | gen he hgen => exact hvalues _ he hgen
  | keep _ _ _ ih => exact ih

def remaining (nodes : Finset N) (values : Finset V) (b : ℕ) (W : List (N × N)) (live : N → Finset V) : ℕ :=
  W.length + (b + 1) * ∑ n ∈ nodes, (values \ live n).card

include hnodes hvalues hb in
lemma Invariant.remaining_step (h : P.Invariant (e :: W) live) :
    remaining nodes values b (P.step e W live).1 (P.step e W live).2 < remaining nodes values b (e :: W) live := by
  have he := h.edge e mem_cons_self
  rw [Problem.step]
  split_ifs with hsub
  · exact Nat.add_lt_add_right (Nat.lt_succ_self W.length) _
  · obtain ⟨v, hv, hnew⟩ := not_subset.mp hsub
    set live' := update live e.2 (live e.2 ∪ P.transition e.1 (live e.1)) with hlive'
    have hle : ∀ n ∈ nodes, (values \ live' n).card ≤ (values \ live n).card := by
      intro n _
      refine card_le_card (sdiff_subset_sdiff le_rfl ?_)
      by_cases hn : n = e.2
      · rw [hlive', hn, update_self]
        exact subset_union_left
      · rw [hlive', update_of_ne hn]
    have hlt : (values \ live' e.2).card < (values \ live e.2).card := by
      refine Finset.card_lt_card (Finset.ssubset_iff_subset_ne.mpr ⟨?_, fun heq => ?_⟩)
      · refine Finset.sdiff_subset_sdiff le_rfl ?_
        rw [hlive', update_self]
        exact subset_union_left
      · have hmem : v ∈ values \ live e.2 :=
          mem_sdiff.mpr ⟨(h.transition_live hv).mem_values hvalues, hnew⟩
        rw [← heq, mem_sdiff, hlive', update_self] at hmem
        exact hmem.2 (mem_union_right _ hv)
    have hsum : ∑ n ∈ nodes, (values \ live' n).card < ∑ n ∈ nodes, (values \ live n).card :=
      sum_lt_sum hle ⟨e.2, hnodes e he, hlt⟩
    have hlength := hb e.2 (hnodes e he)
    have hmul := Nat.mul_le_mul_left (b + 1) (Nat.succ_le_of_lt hsum)
    rw [Nat.mul_succ] at hmul
    simp only [remaining, length_append, length_reverse, length_cons]
    omega

include hnodes hvalues hb in
lemma run_exact (hW : ∀ e, e ∈ W ↔ e ∈ P.edges e.1) {fuel : ℕ}
    (hfuel : W.length + (b + 1) * (nodes.card * values.card) ≤ fuel) :
    ∃ live, Worklist.run P.step fuel W (fun _ => ∅) = some live ∧ ∀ n v, v ∈ live n ↔ P.Live n v := by
  have hinit : P.Invariant W fun _ => ∅ :=
    ⟨fun e he => (hW e).mp he, fun e he => .inl ((hW e).mpr he), fun n v hv => absurd hv (notMem_empty v)⟩
  have hremaining : remaining nodes values b W (fun _ => ∅) ≤ fuel := by
    have hsum : ∑ n ∈ nodes, (values \ ∅).card = nodes.card * values.card := by
      apply Finset.sum_const_nat
      intro n _
      rw [sdiff_empty]
    rwa [remaining, hsum]
  have hsome := Worklist.run_isSome (fun _ _ _ h => h.step)
    (fun _ _ _ h => h.remaining_step hnodes hvalues hb) hinit hremaining
  obtain ⟨live, hlive⟩ := Option.isSome_iff_exists.mp hsome
  have hend : P.Invariant [] live := Worklist.run_invariant (fun _ _ _ h => h.step) hinit hlive
  exact ⟨live, hlive, fun n v => hend.mem_iff⟩

end

end Problem

end Dataflow
