import PorSe.Expr.CreateSound

/-! Path conditions, and the solver interface that the executor asks. -/

namespace Klee

def Satisfies (σ : Valuation) (constraints : List Expr) : Prop := ∀ c ∈ constraints, Denotes σ c (1 : BitVec 1)

def HasValue (constraints : List Expr) (e : Expr) (w : ℕ) : Prop :=
  ∀ σ, Satisfies σ constraints → ∃ v : BitVec w, Denotes σ e v

def MayBe (constraints : List Expr) (e : Expr) {w : ℕ} (v : BitVec w) : Prop :=
  ∃ σ, Satisfies σ constraints ∧ Denotes σ e v

/-- The answers to queries with the constraints of a state; none if the solver fails. -/
structure TimingSolver where
  mustBeTrue : List Expr → Expr → Option Bool
  getValue : List Expr → Expr → Option (Σ w, BitVec w)

namespace TimingSolver
variable (constArrayOpt : Bool) (solver : TimingSolver) (constraints : List Expr)

def mustBeFalse (e : Expr) : Option Bool := solver.mustBeTrue constraints (Expr.createIsZero constArrayOpt e)

def mayBeTrue (e : Expr) : Option Bool := (solver.mustBeFalse constArrayOpt constraints e).map (!·)

/-- Correct, and never failing, on expressions that have a value under satisfiable constraints. -/
structure Correct (solver : TimingSolver) : Prop where
  mustBeTrue : ∀ constraints e, (∃ σ, Satisfies σ constraints) → HasValue constraints e 1 →
    ∃ answer, solver.mustBeTrue constraints e = some answer ∧
      (answer = true ↔ ∀ σ, Satisfies σ constraints → Denotes σ e (1 : BitVec 1))
  getValue : ∀ constraints e w, (∃ σ, Satisfies σ constraints) → HasValue constraints e w →
    ∃ v : BitVec w, solver.getValue constraints e = some ⟨w, v⟩ ∧ MayBe constraints e v

open Classical in
lemma exists_correct : ∃ solver : TimingSolver, solver.Correct := by
  refine ⟨⟨fun constraints e => some (decide (∀ σ, Satisfies σ constraints → Denotes σ e (1 : BitVec 1))),
    fun constraints e => if h : ∃ c : Σ w, BitVec w, MayBe constraints e c.2 then some h.choose else none⟩, ?_, ?_⟩
  · intro constraints e _ _
    exact ⟨_, rfl, decide_eq_true_iff⟩
  · intro constraints e w hsat hvalue
    obtain ⟨σ, hσ⟩ := hsat
    obtain ⟨v, hv⟩ := hvalue σ hσ
    have h : ∃ c : Σ w, BitVec w, MayBe constraints e c.2 := ⟨⟨w, v⟩, σ, hσ, hv⟩
    have hchoose := h.choose_spec
    rcases hc : h.choose with ⟨u, c⟩
    rw [hc] at hchoose
    obtain ⟨τ, hτ, hcτ⟩ := hchoose
    obtain rfl : u = w := hcτ.width.symm.trans hv.width
    refine ⟨c, ?_, τ, hτ, hcτ⟩
    simp only [dif_pos h, hc]

end TimingSolver

lemma Denotes.value_eq {σ : Valuation} {e : Expr} {w : ℕ} {v v' : BitVec w} (h : Denotes σ e v) (h' : Denotes σ e v') :
    v = v' := h.value.symm.trans h'.value

namespace TimingSolver.Correct
variable {solver : TimingSolver} {constraints : List Expr} {e p : Expr} {w : ℕ} {P : BitVec w → Prop}
  [DecidablePred P] (hsolver : solver.Correct) (hsat : ∃ σ, Satisfies σ constraints) (hp : HasValue constraints p w)
include hsolver hsat hp

section
variable (he : ∀ σ v, Denotes σ p v → Denotes σ e (BitVec.ofBool (decide (P v))))
include he

lemma mustBeTrue_test :
    ∃ answer, solver.mustBeTrue constraints e = some answer ∧ (answer = true ↔ ∀ v, MayBe constraints p v → P v) := by
  obtain ⟨answer, hanswer, hiff⟩ := hsolver.mustBeTrue constraints e hsat fun σ hσ =>
    (hp σ hσ).elim fun v hv => ⟨_, he σ v hv⟩
  refine ⟨answer, hanswer, hiff.trans ⟨?_, ?_⟩⟩
  · rintro h v ⟨σ, hσ, hv⟩
    have htrue := (he σ v hv).value_eq (h σ hσ)
    by_contra hnot
    rw [decide_eq_false hnot] at htrue
    exact absurd htrue (by decide)
  · intro h σ hσ
    obtain ⟨v, hv⟩ := hp σ hσ
    refine (he σ v hv).congr ?_
    rw [decide_eq_true (h v ⟨σ, hσ, hv⟩)]
    rfl

lemma mayBeTrue_test {opt : Bool} :
    ∃ answer, solver.mayBeTrue opt constraints e = some answer ∧
      (answer = true ↔ ∃ v, MayBe constraints p v ∧ P v) := by
  have hnot : ∀ σ v, Denotes σ p v → Denotes σ (Expr.createIsZero opt e) (BitVec.ofBool (decide ¬P v)) := by
    intro σ v hv
    refine (he σ v hv).createIsZero_bit.congr ?_
    by_cases h : P v <;> simp
  obtain ⟨answer, hanswer, hiff⟩ := hsolver.mustBeTrue_test hsat hp hnot
  refine ⟨!answer, ?_, ?_⟩
  · rw [mayBeTrue, mustBeFalse, hanswer, Option.map_some]
  · rw [Bool.not_eq_true', ← Bool.not_eq_true, hiff]
    push Not
    rfl

end

end TimingSolver.Correct

end Klee
