import PorSe.Expr.Syntax

/-! The values of expressions. -/

namespace Klee

abbrev Valuation := (a : Array) → ℕ → BitVec a.range

def Array.contents (σ : Valuation) (a : Array) (i : ℕ) : BitVec a.range :=
  if a.isSymbolicArray then σ a i else a.constantValues.getD i 0

/-- The operator, on operands of any width; comparisons give one bit. -/
def BinaryKind.denote (k : BinaryKind) {v : ℕ} (a b : BitVec v) (w : ℕ) : BitVec w :=
  match k with
  | add => (a + b).setWidth w
  | sub => (a - b).setWidth w
  | mul => (a * b).setWidth w
  | uDiv => (a / b).setWidth w
  | sDiv => (a.sdiv b).setWidth w
  | uRem => (a % b).setWidth w
  | sRem => (a.srem b).setWidth w
  | and => (a &&& b).setWidth w
  | or => (a ||| b).setWidth w
  | xor => (a ^^^ b).setWidth w
  | shl => (a <<< b).setWidth w
  | lShr => (a >>> b).setWidth w
  | aShr => (a.sshiftRight' b).setWidth w
  | eq => (BitVec.ofBool (a == b)).setWidth w
  | ne => (BitVec.ofBool (a != b)).setWidth w
  | ult => (BitVec.ofBool (a.ult b)).setWidth w
  | ule => (BitVec.ofBool (a.ule b)).setWidth w
  | ugt => (BitVec.ofBool (b.ult a)).setWidth w
  | uge => (BitVec.ofBool (b.ule a)).setWidth w
  | slt => (BitVec.ofBool (a.slt b)).setWidth w
  | sle => (BitVec.ofBool (a.sle b)).setWidth w
  | sgt => (BitVec.ofBool (b.slt a)).setWidth w
  | sge => (BitVec.ofBool (b.sle a)).setWidth w

mutual

/-- The value of an expression, as a bit vector of the width asked for. -/
def Term.eval {N : Type} (σ : Valuation) : Term N → (w : ℕ) → BitVec w
  | .constant _ value, w => value.setWidth w
  | .notOptimized src, w => src.eval σ w
  | .read root head index, w => (head.eval σ root (index.eval σ root.domain)).setWidth w
  | .select cond trueExpr falseExpr, w => if cond.eval σ 1 = 1#1 then trueExpr.eval σ w else falseExpr.eval σ w
  | .concat left right, w => (left.eval σ left.getWidth ++ right.eval σ right.getWidth).setWidth w
  | .extract expr offset _, w => (expr.eval σ expr.getWidth).extractLsb' offset w
  | .zext src _, w => (src.eval σ src.getWidth).setWidth w
  | .sext src _, w => (src.eval σ src.getWidth).signExtend w
  | .not expr, w => ~~~expr.eval σ w
  | .binary kind left right, w => kind.denote (left.eval σ left.getWidth) (right.eval σ left.getWidth) w

/-- The element at an index: the most recent update there, or what the array holds. -/
def UpdateNodes.eval {N : Type} (σ : Valuation) : UpdateNodes N → (root : Array) →
    BitVec root.domain → BitVec root.range
  | .nil, root, i => root.contents σ i.toNat
  | .node _ index value next, root, i =>
    if index.eval σ root.domain = i then value.eval σ root.range else next.eval σ root i

end

mutual

/-- The evaluation divides by no zero and reads no array out of its range. -/
def Term.Defined {N : Type} (σ : Valuation) : Term N → Prop
  | .constant _ _ => True
  | .notOptimized src => src.Defined σ
  | .read root head index => index.Defined σ ∧ head.Defined σ root (index.eval σ root.domain)
  | .select cond trueExpr falseExpr => cond.Defined σ ∧ trueExpr.Defined σ ∧ falseExpr.Defined σ
  | .concat left right => left.Defined σ ∧ right.Defined σ
  | .extract expr _ _ => expr.Defined σ
  | .zext src _ => src.Defined σ
  | .sext src _ => src.Defined σ
  | .not expr => expr.Defined σ
  | .binary kind left right =>
    left.Defined σ ∧ right.Defined σ ∧ (kind.isDivision = true → right.eval σ left.getWidth ≠ 0)

def UpdateNodes.Defined {N : Type} (σ : Valuation) : UpdateNodes N → (root : Array) → BitVec root.domain → Prop
  | .nil, root, i => i.toNat < root.size
  | .node _ index value next, root, i =>
    index.Defined σ ∧ if index.eval σ root.domain = i then value.Defined σ else next.Defined σ root i

end

attribute [simp] Term.eval UpdateNodes.eval Term.Defined UpdateNodes.Defined

end Klee
