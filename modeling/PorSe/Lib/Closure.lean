import Mathlib

/-! Closing a set under a relation level by level: each round visits what is next to the
elements that the last round found. -/

namespace Closure
open List
variable {α : Type*} [DecidableEq α]

def visit (state : List α × List α) (xs : List α) : List α × List α :=
  xs.foldl (fun s b => if b ∈ s.1 then s else (s.1 ++ [b], s.2 ++ [b])) state

variable (next : α → List α)

def round (seen frontier : List α) : List α × List α := frontier.foldl (fun s a => visit s (next a)) (seen, [])

/-- Rounds until one finds nothing new; `none` if the fuel does not suffice. -/
def rounds : ℕ → List α → List α → Option (List α)
  | 0, _, _ => none
  | n + 1, seen, frontier =>
    if (round next seen frontier).2.isEmpty then some (round next seen frontier).1
    else rounds n (round next seen frontier).1 (round next seen frontier).2

variable {next} {seen frontier seen' : List α} {n : ℕ}

lemma visit_spec (state : List α × List α) (xs : List α) :
    ∃ added, visit state xs = (state.1 ++ added, state.2 ++ added) ∧ added.Nodup ∧
      (∀ x ∈ added, x ∉ state.1 ∧ x ∈ xs) ∧ ∀ x ∈ xs, x ∈ state.1 ++ added := by
  induction xs generalizing state with
  | nil => exact ⟨[], by simp [visit], nodup_nil, by simp, by simp⟩
  | cons b xs ih =>
    by_cases hb : b ∈ state.1
    · obtain ⟨added, heq, hnodup, hnew, hall⟩ := ih state
      refine ⟨added, ?_, hnodup, fun x hx => ⟨(hnew x hx).1, mem_cons_of_mem b (hnew x hx).2⟩, ?_⟩
      · rw [← heq, visit, foldl_cons, if_pos hb, visit]
      · exact forall_mem_cons.mpr ⟨mem_append_left added hb, hall⟩
    · obtain ⟨added, heq, hnodup, hnew, hall⟩ := ih (state.1 ++ [b], state.2 ++ [b])
      have hnotin : b ∉ added := fun h => (hnew b h).1 (by simp)
      refine ⟨b :: added, ?_, nodup_cons.mpr ⟨hnotin, hnodup⟩, ?_, ?_⟩
      · rw [visit, foldl_cons, if_neg hb]
        refine heq.trans ?_
        simp
      · refine forall_mem_cons.mpr ⟨⟨hb, mem_cons_self⟩, fun x hx => ?_⟩
        exact ⟨fun h => (hnew x hx).1 (mem_append_left _ h), mem_cons_of_mem b (hnew x hx).2⟩
      · exact forall_mem_cons.mpr ⟨by simp, by simpa using hall⟩

lemma round_spec (next : α → List α) (seen frontier : List α) :
    ∃ added, round next seen frontier = (seen ++ added, added) ∧ added.Nodup ∧
      (∀ x ∈ added, x ∉ seen ∧ ∃ a ∈ frontier, x ∈ next a) ∧ ∀ a ∈ frontier, ∀ x ∈ next a, x ∈ seen ++ added := by
  have hflat : round next seen frontier = visit (seen, []) (frontier.flatMap next) := by
    rw [visit, foldl_flatMap]
    rfl
  obtain ⟨added, heq, hnodup, hnew, hall⟩ := visit_spec (seen, []) (frontier.flatMap next)
  refine ⟨added, by rw [hflat, heq, nil_append], hnodup, fun x hx => ⟨(hnew x hx).1, ?_⟩, ?_⟩
  · exact mem_flatMap.mp (hnew x hx).2
  · exact fun a ha x hx => hall x (mem_flatMap.mpr ⟨a, ha, hx⟩)

lemma rounds_spec (hrun : rounds next n seen frontier = some seen')
    (hclosed : ∀ a ∈ seen, a ∉ frontier → ∀ b ∈ next a, b ∈ seen) (hfrontier : ∀ a ∈ frontier, a ∈ seen)
    (hnodup : seen.Nodup) :
    seen'.Nodup ∧ ∀ x, x ∈ seen' ↔ ∃ a ∈ seen, Relation.ReflTransGen (fun a b => b ∈ next a) a x := by
  induction n generalizing seen frontier with
  | zero => cases hrun
  | succ n ih =>
    obtain ⟨added, heq, hadded, hnew, hall⟩ := round_spec next seen frontier
    have hnodup' : (seen ++ added).Nodup :=
      nodup_append.mpr ⟨hnodup, hadded, fun a ha b hb hab => (hnew b hb).1 (hab ▸ ha)⟩
    have hclosed' : ∀ a ∈ seen ++ added, a ∉ added → ∀ b ∈ next a, b ∈ seen ++ added := by
      intro a ha hna b hb
      have ha : a ∈ seen := (mem_append.mp ha).resolve_right hna
      by_cases hf : a ∈ frontier
      · exact hall a hf b hb
      · exact mem_append_left added (hclosed a ha hf b hb)
    rw [rounds, heq] at hrun
    split_ifs at hrun with hempty
    · cases hrun
      obtain rfl := isEmpty_iff.mp hempty
      rw [append_nil] at hclosed' hnodup' ⊢
      refine ⟨hnodup', fun x => ⟨fun hx => ⟨x, hx, .refl⟩, ?_⟩⟩
      rintro ⟨a, ha, hax⟩
      induction hax with
      | refl => exact ha
      | tail _ hstep ih => exact hclosed' _ ih (not_mem_nil) _ hstep
    · obtain ⟨hseen', hmem⟩ := ih hrun hclosed' (fun a ha => mem_append_right seen ha) hnodup'
      refine ⟨hseen', fun x => (hmem x).trans ⟨?_, ?_⟩⟩
      · rintro ⟨a, ha, hax⟩
        rcases mem_append.mp ha with ha | ha
        · exact ⟨a, ha, hax⟩
        · obtain ⟨-, c, hc, hca⟩ := hnew a ha
          exact ⟨c, hfrontier c hc, .head hca hax⟩
      · rintro ⟨a, ha, hax⟩
        exact ⟨a, mem_append_left added ha, hax⟩

lemma rounds_isSome (frontier : List α) {U : List α} (hU : ∀ a, ∀ b ∈ next a, b ∈ U)
    (hn : (U.filter fun x => decide (x ∉ seen)).length < n) : (rounds next n seen frontier).isSome = true := by
  induction n generalizing seen frontier with
  | zero => omega
  | succ n ih =>
    obtain ⟨added, heq, -, hnew, -⟩ := round_spec next seen frontier
    rw [rounds, heq]
    split_ifs with hempty
    · rfl
    · refine ih _ (Nat.lt_of_lt_of_le ?_ (Nat.le_of_lt_succ hn))
      obtain ⟨x, hx⟩ := exists_mem_of_ne_nil added (fun hnil => hempty (by simp [hnil]))
      obtain ⟨hxseen, a, -, hxa⟩ := hnew x hx
      have hsub : (U.filter fun x => decide (x ∉ seen ++ added)) =
          (U.filter fun x => decide (x ∉ seen)).filter fun x => decide (x ∉ added) := by
        rw [filter_filter]
        refine filter_congr fun y _ => ?_
        simp [Bool.and_comm]
      rw [hsub]
      refine length_filter_lt_length_iff_exists.mpr ⟨x, ?_, by simpa using hx⟩
      exact mem_filter.mpr ⟨hU a x hxa, by simpa using hxseen⟩

end Closure
