import Mathlib

/-! Ownership by epochs. Holders bind cells; each holder has a key and each cell the key under
which it was bound. A cell that several holders bind is older than the key of each of them, so
that a cell of a holder's current key is its own. -/

structure Exclusive {ι R : Type*} (bound : ι → R → Prop) (key : ι → ℕ) (owner : R → ℕ) : Prop where
  owner_le : ∀ i r, bound i r → owner r ≤ key i
  shared_lt : ∀ i j r, i ≠ j → bound i r → bound j r → owner r < key i

namespace Exclusive
variable {ι R : Type*} {bound bound' : ι → R → Prop} {key key' : ι → ℕ} {owner owner' : R → ℕ} {i n : ι} {r : R}

section
variable (h : Exclusive bound key owner)
include h

lemma eq_of_bound (hi : bound i r) (howner : owner r = key i) {j : ι} (hj : bound j r) : j = i := by
  by_contra hne
  exact absurd howner (h.shared_lt i j r (Ne.symm hne) hi hj).ne

lemma mono (hbound : ∀ j c, bound' j c → bound j c)
    (hkey : ∀ j c, bound' j c → key j ≤ key' j) : Exclusive bound' key' owner where
  owner_le j c hj := (h.owner_le j c (hbound j c hj)).trans (hkey j c hj)
  shared_lt j k c hne hj hk := (h.shared_lt j k c hne (hbound j c hj) (hbound k c hk)).trans_le (hkey j c hj)

lemma fork (hn : ∀ c, ¬bound n c)
    (hbound : ∀ j c, bound' j c → bound j c ∨ j = n ∧ bound i c) (hi : key i < key' i) (hnew : key i < key' n)
    (hkey : ∀ j, j ≠ n → key j ≤ key' j) : Exclusive bound' key' owner := by
  have hold : ∀ j c, bound' j c → j ≠ n → bound j c := fun j c hj hne =>
    (hbound j c hj).resolve_right fun hn => hne hn.1
  have hlt : ∀ c, bound' n c → owner c < key' n ∧ bound i c := by
    intro c hc
    have hic : bound i c := ((hbound n c hc).resolve_left (hn c)).2
    exact ⟨(h.owner_le i c hic).trans_lt hnew, hic⟩
  constructor
  · intro j c hj
    by_cases hjn : j = n
    · subst hjn
      exact (hlt c hj).1.le
    · exact (h.owner_le j c (hold j c hj hjn)).trans (hkey j hjn)
  · intro j k c hne hj hk
    by_cases hjn : j = n
    · subst hjn
      exact (hlt c hj).1
    have hjc := hold j c hj hjn
    by_cases hkn : k = n
    · -- the new holder shares the cell with the one it was copied from, and with those that shared it before
      subst hkn
      by_cases hji : j = i
      · subst hji
        exact (h.owner_le j c hjc).trans_lt hi
      · exact (h.shared_lt j i c hji hjc (hlt c hk).2).trans_le (hkey j hjn)
    · exact (h.shared_lt j k c hne hjc (hold k c hk hkn)).trans_le (hkey j hjn)

lemma bind (hfresh : ∀ j, ¬bound j r)
    (hbound : ∀ j c, bound' j c → bound j c ∨ j = i ∧ c = r) (hr : owner' r = key i)
    (howner : ∀ c, c ≠ r → owner' c = owner c) : Exclusive bound' key owner' := by
  have hne : ∀ {j c}, bound j c → c ≠ r := fun hj hc => hfresh _ (hc ▸ hj)
  constructor
  · intro j c hj
    obtain hj | ⟨rfl, rfl⟩ := hbound j c hj
    · rw [howner c (hne hj)]
      exact h.owner_le j c hj
    · exact hr.le
  · intro j k c hjk hj hk
    obtain hj | ⟨rfl, rfl⟩ := hbound j c hj
    · obtain hk | ⟨rfl, rfl⟩ := hbound k c hk
      · rw [howner c (hne hj)]
        exact h.shared_lt j k c hjk hj hk
      · exact absurd rfl (hne hj)
    · obtain hk | ⟨rfl, -⟩ := hbound k c hk
      · exact absurd rfl (hne hk)
      · exact absurd rfl hjk

end

end Exclusive
