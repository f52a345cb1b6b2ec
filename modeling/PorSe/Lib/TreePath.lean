import Mathlib

/-! Binary trees whose nodes are addressed by the path that leads to them from the root. -/

namespace TreePath

inductive Direction
  | left
  | right
deriving DecidableEq

abbrev Path := List Direction

variable {α : Type*}

def subtree : BinaryTree α → Path → BinaryTree α
  | t, [] => t
  | .nil, _ :: _ => .nil
  | .node _ l _, .left :: p => subtree l p
  | .node _ _ r, .right :: p => subtree r p

def updateAt (f : BinaryTree α → Option (BinaryTree α)) : Path → BinaryTree α → Option (BinaryTree α)
  | [], t => f t
  | _ :: _, .nil => none
  | .left :: p, .node a l r => (updateAt f p l).map fun l' => .node a l' r
  | .right :: p, .node a l r => (updateAt f p r).map fun r' => .node a l r'

def updateLeftmost (g : α → α) : BinaryTree α → BinaryTree α
  | .nil => .nil
  | .node a .nil r => .node (g a) .nil r
  | .node a (.node b l r') r => .node a (updateLeftmost g (.node b l r')) r

@[simp] lemma subtree_self (t : BinaryTree α) : subtree t [] = t := by
  cases t <;> rfl

@[simp] lemma subtree_nil (p : Path) : subtree (.nil : BinaryTree α) p = .nil := by
  cases p <;> rfl

lemma updateAt_induction {f : BinaryTree α → Option (BinaryTree α)} {R : BinaryTree α → BinaryTree α → Prop}
    {p : Path} {t t' : BinaryTree α} (hf : ∀ s, f (subtree t p) = some s → R (subtree t p) s)
    (hleft : ∀ a l l' r, R l l' → R (.node a l r) (.node a l' r))
    (hright : ∀ a l r r', R r r' → R (.node a l r) (.node a l r')) (h : updateAt f p t = some t') : R t t' := by
  induction p generalizing t t' with
  | nil =>
    rw [subtree_self] at hf
    exact hf t' h
  | cons d p ih =>
    cases t with
    | nil => simp [updateAt] at h
    | node a l r =>
      cases d with
      | left =>
        obtain ⟨l', hl, rfl⟩ := Option.map_eq_some_iff.mp h
        exact hleft a l l' r (ih hf hl)
      | right =>
        obtain ⟨r', hr, rfl⟩ := Option.map_eq_some_iff.mp h
        exact hright a l r r' (ih hf hr)

def OnlyLeaf (t : BinaryTree α) (p : Path) : Prop := ∀ q a, subtree t q = .node a .nil .nil → q = p

lemma exists_leaf {t : BinaryTree α} (h : t ≠ .nil) : ∃ q a, subtree t q = .node a .nil .nil := by
  induction t with
  | nil => exact absurd rfl h
  | node a l r ihl ihr =>
    by_cases hl : l = .nil
    · by_cases hr : r = .nil
      · exact ⟨[], a, by rw [hl, hr, subtree]⟩
      · obtain ⟨q, b, hq⟩ := ihr hr
        exact ⟨.right :: q, b, hq⟩
    · obtain ⟨q, b, hq⟩ := ihl hl
      exact ⟨.left :: q, b, hq⟩

lemma onlyLeaf_leaf {a : α} : OnlyLeaf (.node a .nil .nil) [] := by
  intro q b hq
  match q, hq with
  | [], _ => rfl
  | .left :: q, hq | .right :: q, hq => simp [subtree] at hq

lemma onlyLeaf_left {a : α} {l r : BinaryTree α} {p : Path} (hl : l ≠ .nil) :
    OnlyLeaf (.node a l r) (.left :: p) ↔ OnlyLeaf l p ∧ r = .nil := by
  constructor
  · intro h
    refine ⟨fun q b hq => (List.cons.inj (h (.left :: q) b hq)).2, ?_⟩
    by_cases hr : r = .nil
    · exact hr
    · obtain ⟨q, b, hq⟩ := exists_leaf hr
      simpa using h (.right :: q) b hq
  · rintro ⟨h, rfl⟩ q b hq
    match q, hq with
    | [], hq => exact absurd (BinaryTree.node.inj hq).2.1 hl
    | .left :: q, hq => rw [h q b hq]
    | .right :: q, hq => simp [subtree] at hq

lemma onlyLeaf_right {a : α} {r : BinaryTree α} {p : Path} (hr : r ≠ .nil) :
    OnlyLeaf (.node a .nil r) (.right :: p) ↔ OnlyLeaf r p := by
  constructor
  · intro h q b hq
    exact (List.cons.inj (h (.right :: q) b hq)).2
  · intro h q b hq
    match q, hq with
    | [], hq => exact absurd (BinaryTree.node.inj hq).2.2 hr
    | .left :: q, hq => simp [subtree] at hq
    | .right :: q, hq => rw [h q b hq]

end TreePath
