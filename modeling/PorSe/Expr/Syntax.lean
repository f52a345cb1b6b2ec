import Mathlib

/-! Expressions over arrays of bit vectors. -/

namespace Klee

/-- Arrays are compared by address and symbolic without constant values. Indices reach every element. -/
structure Array where
  address : ℕ
  name : String
  size : ℕ
  domain : ℕ
  range : ℕ
  constantValues : List (BitVec range)
  size_eq : constantValues = [] ∨ constantValues.length = size
  range_pos : 0 < range
  domain_le : domain ≤ 64
  size_le : size ≤ 2 ^ domain
  deriving DecidableEq

namespace Array

def isSymbolicArray (a : Array) : Bool := a.constantValues.isEmpty

def isConstantArray (a : Array) : Bool := !a.isSymbolicArray

end Array

inductive BinaryKind
  | add | sub | mul | uDiv | sDiv | uRem | sRem
  | and | or | xor | shl | lShr | aShr
  | eq | ne | ult | ule | ugt | uge | slt | sle | sgt | sge
  deriving DecidableEq

namespace BinaryKind

def isCmp : BinaryKind → Bool
  | eq | ne | ult | ule | ugt | uge | slt | sle | sgt | sge => true
  | _ => false

def isDivision : BinaryKind → Bool
  | uDiv | sDiv | uRem | sRem => true
  | _ => false

def width (k : BinaryKind) (w : ℕ) : ℕ := if k.isCmp then 1 else w

end BinaryKind

mutual

/-- Expressions in which each update node of an array has an identity from `N`. -/
inductive Term (N : Type)
  | constant (width : ℕ) (value : BitVec width)
  | notOptimized (src : Term N)
  | read (root : Array) (head : UpdateNodes N) (index : Term N)
  | select (cond trueExpr falseExpr : Term N)
  | concat (left right : Term N)
  | extract (expr : Term N) (offset width : ℕ)
  | zext (src : Term N) (width : ℕ)
  | sext (src : Term N) (width : ℕ)
  | not (expr : Term N)
  | binary (kind : BinaryKind) (left right : Term N)
  deriving DecidableEq

/-- The updates of an array, the most recent one first. -/
inductive UpdateNodes (N : Type)
  | nil
  | node (id : N) (index value : Term N) (next : UpdateNodes N)
  deriving DecidableEq

end

/-- Expressions up to the sharing of update nodes: references are equal exactly if their structures are. -/
abbrev Expr := Term Unit

instance : LawfulBEq Expr := inferInstance

namespace Term
variable {N : Type}

def getWidth : Term N → ℕ
  | constant width _ => width
  | notOptimized src => src.getWidth
  | read root _ _ => root.range
  | select _ trueExpr _ => trueExpr.getWidth
  | concat left right => left.getWidth + right.getWidth
  | extract _ _ width => width
  | zext _ width => width
  | sext _ width => width
  | not expr => expr.getWidth
  | binary kind left _ => kind.width left.getWidth

def constant? : Term N → Option (Σ width, BitVec width)
  | constant width value => some ⟨width, value⟩
  | _ => none

end Term

mutual

def Term.size {N : Type} : Term N → ℕ
  | .constant _ _ => 1
  | .notOptimized src => src.size + 1
  | .read _ head index => head.size + index.size + 1
  | .select cond trueExpr falseExpr => cond.size + trueExpr.size + falseExpr.size + 1
  | .concat left right => left.size + right.size + 1
  | .extract expr _ _ => expr.size + 1
  | .zext src _ => src.size + 1
  | .sext src _ => src.size + 1
  | .not expr => expr.size + 1
  | .binary _ left right => left.size + right.size + 1

def UpdateNodes.size {N : Type} : UpdateNodes N → ℕ
  | .nil => 0
  | .node _ index value next => index.size + value.size + next.size + 1

end

mutual

def Term.erase {N : Type} : Term N → Expr
  | .constant width value => .constant width value
  | .notOptimized src => .notOptimized src.erase
  | .read root head index => .read root head.erase index.erase
  | .select cond trueExpr falseExpr => .select cond.erase trueExpr.erase falseExpr.erase
  | .concat left right => .concat left.erase right.erase
  | .extract expr offset width => .extract expr.erase offset width
  | .zext src width => .zext src.erase width
  | .sext src width => .sext src.erase width
  | .not expr => .not expr.erase
  | .binary kind left right => .binary kind left.erase right.erase

def UpdateNodes.erase {N : Type} : UpdateNodes N → UpdateNodes Unit
  | .nil => .nil
  | .node _ index value next => .node () index.erase value.erase next.erase

end

mutual

/-- Operands have matching widths, casts do not narrow, and extracts stay inside. -/
def Term.WellTyped {N : Type} : Term N → Prop
  | .constant width _ => 0 < width
  | .notOptimized src => src.WellTyped
  | .read root head index => head.WellTyped root ∧ index.WellTyped ∧ index.getWidth = root.domain
  | .select cond trueExpr falseExpr =>
    cond.WellTyped ∧ trueExpr.WellTyped ∧ falseExpr.WellTyped ∧ cond.getWidth = 1 ∧
      falseExpr.getWidth = trueExpr.getWidth
  | .concat left right => left.WellTyped ∧ right.WellTyped
  | .extract expr offset width => expr.WellTyped ∧ 0 < width ∧ offset + width ≤ expr.getWidth
  | .zext src width => src.WellTyped ∧ src.getWidth ≤ width
  | .sext src width => src.WellTyped ∧ src.getWidth ≤ width
  | .not expr => expr.WellTyped
  | .binary _ left right => left.WellTyped ∧ right.WellTyped ∧ right.getWidth = left.getWidth

def UpdateNodes.WellTyped {N : Type} : UpdateNodes N → Array → Prop
  | .nil, _ => True
  | .node _ index value next, root =>
    index.WellTyped ∧ index.getWidth = root.domain ∧ value.WellTyped ∧ value.getWidth = root.range ∧ next.WellTyped root

end

attribute [simp] Term.getWidth Term.constant? Term.size UpdateNodes.size Term.erase UpdateNodes.erase
  Term.WellTyped UpdateNodes.WellTyped

end Klee
