import PorSe.Expr.Syntax

/-! A linear order on arrays and on expressions, through a serialisation in which no code is
the beginning of another one. -/

namespace Klee
open Term List

def listCode (xs : List ℕ) : List ℕ := xs.length :: xs

lemma listCode_append_inj {xs ys s t : List ℕ} (h : listCode xs ++ s = listCode ys ++ t) : xs = ys ∧ s = t := by
  obtain ⟨hlength, happend⟩ := cons.inj h
  exact append_inj happend hlength

namespace Array

def code (a : Array) : List ℕ :=
  [a.address, a.size, a.domain, a.range] ++ (listCode (a.name.toList.map Char.toNat) ++
    listCode (a.constantValues.map BitVec.toNat))

lemma code_append_inj {a b : Array} {s t : List ℕ} (h : a.code ++ s = b.code ++ t) : a = b ∧ s = t := by
  obtain ⟨_, name, _, _, _, values, _, _, _, _⟩ := a
  obtain ⟨_, name', _, _, _, values', _, _, _, _⟩ := b
  simp only [code, cons_append, append_assoc, cons.injEq] at h
  obtain ⟨rfl, rfl, rfl, rfl, h⟩ := h
  obtain ⟨hname, h⟩ := listCode_append_inj h
  obtain ⟨hvalues, hst⟩ := listCode_append_inj h
  obtain rfl : name = name' := by
    rw [← String.toList_inj]
    exact map_injective_iff.mpr (fun c d => Char.toNat_inj.mp) hname
  obtain rfl : values = values' := map_injective_iff.mpr (fun c d => BitVec.eq_of_toNat_eq) hvalues
  exact ⟨rfl, hst⟩

lemma code_injective : Function.Injective code := by
  intro a b h
  refine (code_append_inj (s := []) (t := []) ?_).1
  rw [h]

instance : LinearOrder Array := LinearOrder.lift' code code_injective

end Array

def BinaryKind.code : BinaryKind → ℕ := BinaryKind.ctorIdx

lemma BinaryKind.code_injective : Function.Injective BinaryKind.code := by
  intro k k' h
  rw [← BinaryKind.ofNat_ctorIdx k, ← BinaryKind.ofNat_ctorIdx k']
  exact congrArg BinaryKind.ofNat h

mutual

def Term.code : Expr → List ℕ
  | .constant width value => [0, width, value.toNat]
  | .notOptimized src => 1 :: src.code
  | .read root head index => 2 :: (root.code ++ (head.code ++ index.code))
  | .select cond trueExpr falseExpr => 3 :: (cond.code ++ (trueExpr.code ++ falseExpr.code))
  | .concat left right => 4 :: (left.code ++ right.code)
  | .extract expr offset width => 5 :: offset :: width :: expr.code
  | .zext src width => 6 :: width :: src.code
  | .sext src width => 7 :: width :: src.code
  | .not expr => 8 :: expr.code
  | .binary kind left right => 9 :: kind.code :: (left.code ++ right.code)

def UpdateNodes.code : UpdateNodes Unit → List ℕ
  | .nil => [0]
  | .node _ index value next => 1 :: (index.code ++ (value.code ++ next.code))

end

mutual

lemma Term.code_append_inj : ∀ (e e' : Expr) {s t : List ℕ}, e.code ++ s = e'.code ++ t → e = e' ∧ s = t
  | .constant width value, e', s, t, h => by
    cases e' <;> simp [Term.code] at h
    obtain ⟨rfl, hvalue, rfl⟩ := h
    exact ⟨by rw [BitVec.eq_of_toNat_eq hvalue], rfl⟩
  | .notOptimized src, e', s, t, h => by
    cases e' <;> simp [code] at h
    obtain ⟨rfl, rfl⟩ := Term.code_append_inj _ _ h
    exact ⟨rfl, rfl⟩
  | .read root head index, e', s, t, h => by
    cases e' <;> simp [code] at h
    obtain ⟨rfl, h1⟩ := Array.code_append_inj h
    obtain ⟨rfl, h2⟩ := UpdateNodes.code_append_inj _ _ h1
    obtain ⟨rfl, rfl⟩ := Term.code_append_inj _ _ h2
    exact ⟨rfl, rfl⟩
  | .select cond trueExpr falseExpr, e', s, t, h => by
    cases e' <;> simp [code] at h
    obtain ⟨rfl, h1⟩ := Term.code_append_inj _ _ h
    obtain ⟨rfl, h2⟩ := Term.code_append_inj _ _ h1
    obtain ⟨rfl, rfl⟩ := Term.code_append_inj _ _ h2
    exact ⟨rfl, rfl⟩
  | .concat left right, e', s, t, h => by
    cases e' <;> simp [code] at h
    obtain ⟨rfl, h1⟩ := Term.code_append_inj _ _ h
    obtain ⟨rfl, rfl⟩ := Term.code_append_inj _ _ h1
    exact ⟨rfl, rfl⟩
  | .extract expr offset width, e', s, t, h => by
    cases e' <;> simp [code] at h
    obtain ⟨rfl, rfl, h⟩ := h
    obtain ⟨rfl, rfl⟩ := Term.code_append_inj _ _ h
    exact ⟨rfl, rfl⟩
  | .zext src width, e', s, t, h | .sext src width, e', s, t, h => by
    cases e' <;> simp [code] at h
    obtain ⟨rfl, h⟩ := h
    obtain ⟨rfl, rfl⟩ := Term.code_append_inj _ _ h
    exact ⟨rfl, rfl⟩
  | .not expr, e', s, t, h => by
    cases e' <;> simp [code] at h
    obtain ⟨rfl, rfl⟩ := Term.code_append_inj _ _ h
    exact ⟨rfl, rfl⟩
  | .binary kind left right, e', s, t, h => by
    cases e' <;> simp [code] at h
    obtain ⟨hkind, h⟩ := h
    obtain rfl := BinaryKind.code_injective hkind
    obtain ⟨rfl, h1⟩ := Term.code_append_inj _ _ h
    obtain ⟨rfl, rfl⟩ := Term.code_append_inj _ _ h1
    exact ⟨rfl, rfl⟩

lemma UpdateNodes.code_append_inj : ∀ (un un' : UpdateNodes Unit) {s t : List ℕ}, un.code ++ s = un'.code ++ t →
    un = un' ∧ s = t
  | .nil, un', s, t, h => by
    cases un' <;> simp [UpdateNodes.code] at h
    exact ⟨rfl, h⟩
  | .node _ index value next, un', s, t, h => by
    cases un' <;> simp [UpdateNodes.code] at h
    obtain ⟨rfl, h1⟩ := Term.code_append_inj _ _ h
    obtain ⟨rfl, h2⟩ := Term.code_append_inj _ _ h1
    obtain ⟨rfl, rfl⟩ := UpdateNodes.code_append_inj _ _ h2
    exact ⟨rfl, rfl⟩

end

lemma Term.code_injective : Function.Injective Term.code := by
  intro e e' h
  refine (code_append_inj e e' (s := []) (t := []) ?_).1
  rw [h]

instance : LinearOrder Expr := LinearOrder.lift' Term.code Term.code_injective

end Klee
