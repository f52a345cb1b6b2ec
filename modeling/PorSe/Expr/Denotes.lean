import PorSe.Expr.Create

/-! Expressions that denote a value: what the constructors are given and what they return. -/

namespace Klee
open Term BitVec

lemma Term.getWidth_pos {N : Type} : ∀ e : Term N, e.WellTyped → 0 < e.getWidth
  | .constant _ _, h => h
  | .notOptimized src, h => getWidth_pos src h
  | .read root _ _, _ => root.range_pos
  | .select _ trueExpr _, h => getWidth_pos trueExpr h.2.1
  | .concat left _, h => Nat.add_pos_left (getWidth_pos left h.1) _
  | .extract _ _ _, h => h.2.1
  | .zext src _, h | .sext src _, h => (getWidth_pos src h.1).trans_le h.2
  | .not expr, h => getWidth_pos expr h
  | .binary kind left _, h => by
    rw [getWidth, BinaryKind.width]
    split_ifs
    · exact one_pos
    · exact getWidth_pos left h.1

lemma Term.size_pos {N : Type} (e : Term N) : 0 < e.size := by
  cases e <;> simp only [size] <;> omega

/-- The expression is well typed and defined, and has the width and the value. -/
structure Denotes (σ : Valuation) (e : Expr) {w : ℕ} (v : BitVec w) : Prop where
  wellTyped : e.WellTyped
  width : e.getWidth = w
  defined : e.Defined σ
  value : e.eval σ w = v

namespace Denotes
variable {σ : Valuation} {e l r : Expr} {w u : ℕ} {v v' a b : BitVec w} {k : BinaryKind}

lemma of_expr (ht : e.WellTyped) (hd : e.Defined σ) : Denotes σ e (e.eval σ e.getWidth) := ⟨ht, rfl, hd, rfl⟩

lemma congr (h : Denotes σ e v) (hv : v = v') : Denotes σ e v' := hv ▸ h

lemma pos (h : Denotes σ e v) : 0 < w := h.width ▸ e.getWidth_pos h.wellTyped

/-! ## Each kind of expression -/

lemma constant (hw : 0 < w) (v : BitVec w) : Denotes σ (.constant w v) v where
  wellTyped := hw
  width := rfl
  defined := trivial
  value := setWidth_eq v

lemma of_constant? {c : Σ width, BitVec width} (h : Denotes σ e v) (hc : e.constant? = some c) : c = ⟨w, v⟩ := by
  cases e <;> simp only [constant?, Option.some.injEq, reduceCtorEq] at hc
  case constant u value =>
    obtain rfl : u = w := h.width
    rw [← hc, ← h.value, eval, setWidth_eq]

lemma of_constant {c : BitVec u} (h : Denotes σ (.constant u c) v) : u = w ∧ c.setWidth w = v :=
  ⟨h.width, h.value⟩

lemma binary (hl : Denotes σ l a) (hr : Denotes σ r b) (hdiv : k.isDivision = true → b ≠ 0) :
    Denotes σ (.binary k l r) (k.denote a b (k.width w)) where
  wellTyped := ⟨hl.wellTyped, hr.wellTyped, hr.width.trans hl.width.symm⟩
  width := congrArg k.width hl.width
  defined := by
    refine ⟨hl.defined, hr.defined, fun h => ?_⟩
    rw [hl.width, hr.value]
    exact hdiv h
  value := by rw [eval, hl.width, hl.value, hr.value]

lemma of_binary {v : BitVec u} (h : Denotes σ (.binary k l r) v) :
    ∃ (w : ℕ) (a b : BitVec w), k.width w = u ∧ Denotes σ l a ∧ Denotes σ r b ∧ v = k.denote a b u ∧
      (k.isDivision = true → b ≠ 0) := by
  obtain ⟨⟨hl, hr, hw⟩, hwidth, ⟨hl', hr', hdiv⟩, hvalue⟩ := h
  refine ⟨l.getWidth, l.eval σ l.getWidth, r.eval σ l.getWidth, hwidth, .of_expr hl hl', ⟨hr, hw, hr', rfl⟩, ?_, hdiv⟩
  rw [← hvalue, eval]

lemma of_arithmetic (hk : k.isCmp = false) (h : Denotes σ (.binary k l r) v) :
    ∃ a b : BitVec w, Denotes σ l a ∧ Denotes σ r b ∧ v = k.denote a b w ∧ (k.isDivision = true → b ≠ 0) := by
  obtain ⟨w', a, b, hw, h⟩ := h.of_binary
  obtain rfl : w' = w := by rwa [BinaryKind.width, if_neg (by simp [hk])] at hw
  exact ⟨a, b, h⟩

lemma of_add (h : Denotes σ (.binary .add l r) v) : ∃ a b : BitVec w, Denotes σ l a ∧ Denotes σ r b ∧ v = a + b := by
  obtain ⟨a, b, ha, hb, hv, -⟩ := h.of_arithmetic rfl
  exact ⟨a, b, ha, hb, hv.trans (setWidth_eq _)⟩

lemma of_sub (h : Denotes σ (.binary .sub l r) v) : ∃ a b : BitVec w, Denotes σ l a ∧ Denotes σ r b ∧ v = a - b := by
  obtain ⟨a, b, ha, hb, hv, -⟩ := h.of_arithmetic rfl
  exact ⟨a, b, ha, hb, hv.trans (setWidth_eq _)⟩

lemma of_or (h : Denotes σ (.binary .or l r) v) : ∃ a b : BitVec w, Denotes σ l a ∧ Denotes σ r b ∧ v = a ||| b := by
  obtain ⟨a, b, ha, hb, hv, -⟩ := h.of_arithmetic rfl
  exact ⟨a, b, ha, hb, hv.trans (setWidth_eq _)⟩

lemma not (h : Denotes σ e v) : Denotes σ (.not e) (~~~v) where
  wellTyped := h.wellTyped
  width := h.width
  defined := h.defined
  value := by rw [eval, h.value]

lemma zext (h : Denotes σ e v) (hu : w ≤ u) : Denotes σ (.zext e u) (v.setWidth u) where
  wellTyped := ⟨h.wellTyped, h.width ▸ hu⟩
  width := rfl
  defined := h.defined
  value := by rw [eval, h.width, h.value]

lemma of_zext {v : BitVec u} (h : Denotes σ (.zext e w) v) :
    w = u ∧ e.getWidth ≤ u ∧ v = (e.eval σ e.getWidth).setWidth u ∧ Denotes σ e (e.eval σ e.getWidth) := by
  obtain ⟨⟨ht, hle⟩, hwidth, hd, hvalue⟩ := h
  exact ⟨hwidth, hwidth ▸ hle, hvalue.symm, .of_expr ht hd⟩

lemma sext (h : Denotes σ e v) (hu : w ≤ u) : Denotes σ (.sext e u) (v.signExtend u) where
  wellTyped := ⟨h.wellTyped, h.width ▸ hu⟩
  width := rfl
  defined := h.defined
  value := by rw [eval, h.width, h.value]

lemma of_sext {v : BitVec u} (h : Denotes σ (.sext e w) v) :
    w = u ∧ e.getWidth ≤ u ∧ v = (e.eval σ e.getWidth).signExtend u ∧ Denotes σ e (e.eval σ e.getWidth) := by
  obtain ⟨⟨ht, hle⟩, hwidth, hd, hvalue⟩ := h
  exact ⟨hwidth, hwidth ▸ hle, hvalue.symm, .of_expr ht hd⟩

lemma concat {b : BitVec u} (hl : Denotes σ l a) (hr : Denotes σ r b) : Denotes σ (.concat l r) (a ++ b) where
  wellTyped := ⟨hl.wellTyped, hr.wellTyped⟩
  width := by rw [getWidth, hl.width, hr.width]
  defined := ⟨hl.defined, hr.defined⟩
  value := by rw [eval, hl.width, hr.width, hl.value, hr.value, setWidth_eq]

lemma extract {off : ℕ} (h : Denotes σ e v) (hu : 0 < u) (hle : off + u ≤ w) :
    Denotes σ (.extract e off u) (v.extractLsb' off u) where
  wellTyped := ⟨h.wellTyped, hu, h.width ▸ hle⟩
  width := rfl
  defined := h.defined
  value := by rw [eval, h.width, h.value]

lemma of_extract {v : BitVec u} {off : ℕ} (h : Denotes σ (.extract e off w) v) :
    w = u ∧ 0 < u ∧ off + u ≤ e.getWidth ∧ v = (e.eval σ e.getWidth).extractLsb' off u ∧
      Denotes σ e (e.eval σ e.getWidth) := by
  obtain ⟨⟨ht, hpos, hle⟩, hwidth, hd, hvalue⟩ := h
  obtain rfl : w = u := hwidth
  exact ⟨rfl, hpos, hle, hvalue.symm, .of_expr ht hd⟩

lemma of_concat {v : BitVec u} (h : Denotes σ (.concat l r) v) :
    ∃ (m n : ℕ) (a : BitVec m) (b : BitVec n), m + n = u ∧ Denotes σ l a ∧ Denotes σ r b ∧ v = (a ++ b).setWidth u := by
  obtain ⟨⟨hl, hr⟩, hwidth, ⟨hl', hr'⟩, hvalue⟩ := h
  exact ⟨_, _, _, _, hwidth, .of_expr hl hl', .of_expr hr hr', hvalue.symm⟩

lemma setWidth (h : Denotes σ e v) (hw : w = u) : Denotes σ e (v.setWidth u) := by
  subst hw
  rwa [setWidth_eq]

lemma select {c : Expr} {x : BitVec 1} (hc : Denotes σ c x) (hl : Denotes σ l a) (hr : Denotes σ r b) :
    Denotes σ (.select c l r) (if x = 1#1 then a else b) where
  wellTyped := ⟨hc.wellTyped, hl.wellTyped, hr.wellTyped, hc.width, hr.width.trans hl.width.symm⟩
  width := hl.width
  defined := ⟨hc.defined, hl.defined, hr.defined⟩
  value := by rw [eval, hc.value, hl.value, hr.value]

lemma read {root : Array} {head : UpdateNodes Unit} {i : BitVec root.domain} (h : Denotes σ e i)
    (hhead : head.WellTyped root) (hd : head.Defined σ root i) : Denotes σ (.read root head e)
      (head.eval σ root i) where
  wellTyped := ⟨hhead, h.wellTyped, h.width⟩
  width := rfl
  defined := ⟨h.defined, h.value ▸ hd⟩
  value := by rw [eval, h.value, setWidth_eq]

end Denotes

end Klee
