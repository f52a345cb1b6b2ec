import Mathlib

/-! Schedules of finitely many threads, each with a sequence of steps, and the number of
context switches they need. Where a step that is enabled stays enabled while the other
threads go on, running a thread as far as possible is never worse than stopping it early. -/

/-- Each thread has `length` steps; `enabled a t` says that `t` can go on when each `u` has taken `a u` steps. -/
structure Threads (T : Type*) where
  threads : Finset T
  length : T → ℕ
  enabled : (T → ℕ) → T → Bool
  length_of_not_mem : ∀ t ∉ threads, length t = 0

namespace Threads
open List Nat Finset
variable {T : Type*} [DecidableEq T] (S : Threads T)

/-! ## Schedules -/

variable (a : T → ℕ)

def bump (t : T) : T → ℕ := Function.update a t (a t + 1)

def CanStep (t : T) : Prop := a t < S.length t ∧ S.enabled a t = true

instance (a : T → ℕ) (t : T) : Decidable (S.CanStep a t) := inferInstanceAs (Decidable (_ ∧ _))

inductive Run : (T → ℕ) → List T → (T → ℕ) → Prop
  | nil (a : T → ℕ) : Run a [] a
  | cons {a b : T → ℕ} {t : T} {w : List T} (ht : S.CanStep a t) (h : Run (bump a t) w b) : Run a (t :: w) b

def Monotone : Prop :=
  ∀ ⦃a b : T → ℕ⦄ ⦃t : T⦄, a ≤ b → b ≤ S.length → a t = b t → S.enabled a t = true → S.enabled b t = true

def Live : Prop := ∀ a ≤ S.length, a ≠ S.length → ∃ t, S.CanStep a t

variable {S}

lemma bump_self (t : T) : bump a t t = a t + 1 := Function.update_self ..

variable {t c : T} {a b : T → ℕ} {w : List T}

lemma bump_of_ne (a : T → ℕ) {u : T} (h : u ≠ t) : bump a t u = a u := Function.update_of_ne h ..

lemma le_bump (a : T → ℕ) (t : T) : a ≤ bump a t := by
  intro u
  by_cases h : u = t
  · rw [h, bump_self]
    exact le_succ _
  · rw [bump_of_ne a h]

lemma bump_le (h : a ≤ b) (ht : a t < b t) : bump a t ≤ b := by
  intro u
  by_cases hu : u = t
  · rw [hu, bump_self]
    exact ht
  · rw [bump_of_ne a hu]
    exact h u

lemma CanStep.bump_le (h : S.CanStep a t) (ha : a ≤ S.length) : bump a t ≤ S.length :=
  Threads.bump_le ha h.1

lemma CanStep.mem_threads (h : S.CanStep a t) : t ∈ S.threads := by
  by_contra hmem
  have := h.1
  rw [S.length_of_not_mem t hmem] at this
  omega

lemma Run.mem_of_lt (h : S.Run a w b) (ht : a t < b t) : t ∈ w := by
  induction h with
  | nil => exact absurd ht (lt_irrefl _)
  | @cons a b u w hu _ ih =>
    by_cases htu : t = u
    · exact htu ▸ mem_cons_self
    · exact mem_cons_of_mem u (ih (by rwa [bump_of_ne a htu]))

def remaining (S : Threads T) (a : T → ℕ) : ℕ := ∑ t ∈ S.threads, (S.length t - a t)

lemma CanStep.remaining_lt (h : S.CanStep a t) : S.remaining (bump a t) < S.remaining a := by
  refine Finset.sum_lt_sum (fun u _ => Nat.sub_le_sub_left (le_bump a t u) _) ⟨t, h.mem_threads, ?_⟩
  have := h.1
  rw [bump_self]
  omega

lemma Run.length_le (h : S.Run a w b) : w.length ≤ S.remaining a := by
  induction h with
  | nil => exact zero_le _
  | cons ht _ ih => exact succ_le_of_lt (ih.trans_lt ht.remaining_lt)

lemma exists_run (hlive : S.Live) (ha : a ≤ S.length) : ∃ w, S.Run a w S.length := by
  induction hn : S.remaining a using Nat.strong_induction_on generalizing a with
  | _ n ih =>
    by_cases hend : a = S.length
    · exact ⟨[], hend ▸ .nil a⟩
    · obtain ⟨t, ht⟩ := hlive a ha hend
      obtain ⟨w, hw⟩ := ih _ (hn ▸ ht.remaining_lt) (ht.bump_le ha) rfl
      exact ⟨t :: w, .cons ht hw⟩

/-- A state that is further on completes the schedule without the steps already taken. -/
lemma Run.catch_up (hmono : S.Monotone) (h : S.Run a w S.length) (hab : a ≤ b) (hb : b ≤ S.length) :
    ∃ w', w'.Sublist w ∧ S.Run b w' S.length := by
  generalize hn : S.length = n at h
  induction h generalizing b with
  | nil a =>
    obtain rfl : b = a := le_antisymm (hn ▸ hb) hab
    exact ⟨[], nil_sublist _, .nil b⟩
  | @cons a n t w ht _ ih =>
    rcases lt_or_eq_of_le (hab t) with hlt | heq
    · obtain ⟨w', hsub, hrun⟩ := ih (bump_le hab hlt) hb hn
      exact ⟨w', hsub.cons t, hrun⟩
    · have htb : S.CanStep b t := ⟨heq ▸ ht.1, hmono hab hb heq ht.2⟩
      have hle : bump a t ≤ bump b t := by
        intro u
        by_cases hu : u = t
        · rw [hu, bump_self, bump_self, heq]
        · rw [bump_of_ne a hu, bump_of_ne b hu]
          exact hab u
      obtain ⟨w', hsub, hrun⟩ := ih hle (htb.bump_le hb) hn
      exact ⟨t :: w', hsub.cons_cons t, .cons htb hrun⟩

/-! ## Context switches -/

def switchesFrom (c : T) : List T → ℕ
  | [] => 0
  | t :: w => (if t = c then 0 else 1) + switchesFrom t w

def switches : List T → ℕ
  | [] => 0
  | t :: w => switchesFrom t w

lemma switchesFrom_self (c : T) (w : List T) : switchesFrom c (c :: w) = switchesFrom c w := by
  simp [switchesFrom]

lemma switchesFrom_of_ne (h : t ≠ c) (w : List T) : switchesFrom c (t :: w) = 1 + switchesFrom t w := by
  simp [switchesFrom, h]

lemma switchesFrom_le_succ (c t : T) (w : List T) : switchesFrom c w ≤ (if t = c then 0 else 1) + switchesFrom t w := by
  cases w with
  | nil => exact zero_le _
  | cons u w =>
    simp only [switchesFrom]
    split_ifs <;> grind

lemma switchesFrom_le_of_sublist {w' : List T} (h : w'.Sublist w) (c : T) : switchesFrom c w' ≤ switchesFrom c w := by
  induction h generalizing c with
  | slnil => exact le_rfl
  | cons t _ ih => exact (switchesFrom_le_succ c t _).trans (Nat.add_le_add_left (ih t) _)
  | cons_cons t _ ih => exact Nat.add_le_add_left (ih t) _

lemma switchesFrom_le_length (c : T) (w : List T) : switchesFrom c w ≤ w.length := by
  induction w generalizing c with
  | nil => exact le_rfl
  | cons t w ih =>
    have := ih t
    rw [switchesFrom, length_cons]
    split_ifs <;> omega

lemma card_le_switches (c : T) (w : List T) : (insert c w.toFinset).card ≤ switchesFrom c w + 1 := by
  induction w generalizing c with
  | nil => simp
  | cons t w ih =>
    rw [toFinset_cons, switchesFrom]
    split_ifs with h
    · have := ih c
      rwa [h, insert_idem, zero_add]
    · have := card_insert_le c (insert t w.toFinset)
      have := ih t
      omega

/-- A schedule visits each thread with steps left, and has to leave a blocked one. -/
lemma Run.card_le_switchesFrom (h : S.Run a w S.length) (hc : ¬ S.CanStep a c) :
    (S.threads.filter fun t => a t < S.length t).card ≤ switchesFrom c w := by
  have hsub : (S.threads.filter fun t => a t < S.length t) ⊆ w.toFinset := fun t ht =>
    mem_toFinset.mpr (h.mem_of_lt (mem_filter.mp ht).2)
  cases h with
  | nil => simp
  | @cons _ _ t w ht _ =>
    have hne : t ≠ c := fun h => hc (h ▸ ht)
    rw [switchesFrom_of_ne hne, add_comm]
    refine (card_le_card hsub).trans ?_
    rw [toFinset_cons]
    exact card_le_switches t w

/-! ## The least number of switches -/

/-- The least number of switches to complete all threads while `c` is running. -/
noncomputable def best (S : Threads T) (c : T) (a : T → ℕ) : ℕ := sInf
    {k | ∃ w, S.Run a w S.length ∧ switchesFrom c w = k}

section
variable (hmono : S.Monotone) (hlive : S.Live) (ha : a ≤ S.length)

lemma best_le (h : S.Run a w S.length) : S.best c a ≤ switchesFrom c w := Nat.sInf_le ⟨w, h, rfl⟩

include hlive ha in
lemma exists_best (c : T) : ∃ w, S.Run a w S.length ∧ switchesFrom c w = S.best c a := by
  obtain ⟨w, hw⟩ := exists_run hlive ha
  exact sInf_mem (s := {k | ∃ w, S.Run a w S.length ∧ switchesFrom c w = k}) ⟨_, w, hw, rfl⟩

include hlive ha in
lemma best_le_remaining (c : T) : S.best c a ≤ S.remaining a := by
  obtain ⟨w, hw⟩ := exists_run hlive ha
  exact (best_le hw).trans ((switchesFrom_le_length c w).trans hw.length_le)

lemma best_length (c : T) : S.best c S.length = 0 := le_zero.mp (best_le (.nil S.length))

include hmono hlive ha

lemma best_bump (hc : S.CanStep a c) : S.best c (bump a c) = S.best c a := by
  refine le_antisymm ?_ ?_
  · obtain ⟨w, hw, hbest⟩ := exists_best hlive ha c
    obtain ⟨w', hsub, hrun⟩ := hw.catch_up hmono (le_bump a c) (hc.bump_le ha)
    rw [← hbest]
    exact (best_le hrun).trans (switchesFrom_le_of_sublist hsub c)
  · obtain ⟨w, hw, hbest⟩ := exists_best hlive (hc.bump_le ha) c
    rw [← hbest, ← switchesFrom_self]
    exact best_le (.cons hc hw)

lemma best_le_succ (ht : S.CanStep a t) : S.best c a ≤ S.best t a + 1 := by
  obtain ⟨w, hw, _⟩ := exists_best hlive (ht.bump_le ha) t
  rw [← best_bump hmono hlive ha ht]
  refine (best_le (.cons ht hw)).trans ?_
  rw [switchesFrom]
  split_ifs <;> omega

lemma exists_best_eq_succ (hc : ¬ S.CanStep a c) (hend : a ≠ S.length) :
    ∃ t, t ≠ c ∧ S.CanStep a t ∧ S.best c a = S.best t a + 1 := by
  obtain ⟨w, hw, hbest⟩ := exists_best hlive ha c
  cases hw with
  | nil => exact absurd rfl hend
  | @cons _ _ t w ht hw =>
    have hne : t ≠ c := fun h => hc (h ▸ ht)
    refine ⟨t, hne, ht, le_antisymm (best_le_succ hmono hlive ha ht) ?_⟩
    rw [← hbest, switchesFrom_of_ne hne, add_comm 1, ← switchesFrom_self]
    exact Nat.add_le_add_right (best_le (.cons ht hw)) 1

lemma exists_best_cons (hc : S.CanStep a c) : ∃ w, S.Run a (c :: w) S.length ∧ switchesFrom c w = S.best c a := by
  obtain ⟨w, hw, hbest⟩ := exists_best hlive (hc.bump_le ha) c
  exact ⟨w, .cons hc hw, hbest.trans (best_bump hmono hlive ha hc)⟩

omit hmono in
lemma card_le_best (hc : ¬ S.CanStep a c) : (S.threads.filter fun t => a t < S.length t).card ≤ S.best c a := by
  obtain ⟨w, hw, hbest⟩ := exists_best hlive ha c
  exact hbest ▸ hw.card_le_switchesFrom hc

end

/-! ## Running a thread as far as possible -/

def advance (S : Threads T) (t : T) : ℕ → (T → ℕ) → (T → ℕ)
  | 0, a => a
  | fuel + 1, a => if S.CanStep a t then S.advance t fuel (bump a t) else a

lemma advance_spec (t : T) {fuel : ℕ} (ha : a ≤ S.length) (hfuel : S.length t ≤ a t + fuel) :
    S.advance t fuel a ≤ S.length ∧ ¬ S.CanStep (S.advance t fuel a) t ∧
      S.remaining (S.advance t fuel a) ≤ S.remaining a ∧
      (S.Monotone → S.Live → S.best t (S.advance t fuel a) = S.best t a) := by
  induction fuel generalizing a with
  | zero => exact ⟨ha, fun h => absurd h.1 (not_lt.mpr hfuel), le_rfl, fun _ _ => rfl⟩
  | succ fuel ih =>
    rw [advance]
    split_ifs with ht
    · obtain ⟨h1, h2, h3, h4⟩ := ih (ht.bump_le ha) (by rw [bump_self]; omega)
      exact ⟨h1, h2, h3.trans ht.remaining_lt.le, fun hm hl => (h4 hm hl).trans (best_bump hm hl ha ht)⟩
    · exact ⟨ha, ht, le_rfl, fun _ _ => rfl⟩

end Threads
