import Mathlib

/-! Event structures whose conflicts stem from a dependency relation. Two dependent events
that causality does not order clash, and conflict is inherited along causality. -/

namespace EventStructure
variable {α : Type*} [PartialOrder α]

variable (dep : α → α → Prop)

def Clash (a b : α) : Prop := dep a b ∧ ¬ a ≤ b ∧ ¬ b ≤ a

def Conflict (a b : α) : Prop := ∃ a' ≤ a, ∃ b' ≤ b, Clash dep a' b'

def ConflictFree (S : Set α) : Prop := ∀ a ∈ S, ∀ b ∈ S, ¬ Conflict dep a b

/-- A clash that is not inherited: without `a` or without `b` there would be no conflict. -/
structure ImmediateConflict (dep : α → α → Prop) (a b : α) : Prop where
  clash : Clash dep a b
  left : ConflictFree dep (Set.Iic a ∪ Set.Iio b)
  right : ConflictFree dep (Set.Iio a ∪ Set.Iic b)

variable {dep : α → α → Prop} {S T : Set α} {a b : α}

lemma Clash.conflict (h : Clash dep a b) : Conflict dep a b := ⟨a, le_rfl, b, le_rfl, h⟩

lemma Clash.symm (h : Clash dep a b) (hdep : dep b a) : Clash dep b a := ⟨hdep, h.2.2, h.2.1⟩

lemma ConflictFree.mono (h : ConflictFree dep T) (hST : S ⊆ T) : ConflictFree dep S :=
  fun a ha b hb => h a (hST ha) b (hST hb)

lemma ConflictFree.not_clash (h : ConflictFree dep S) (ha : a ∈ S) (hb : b ∈ S) : ¬ Clash dep a b :=
  fun hab => h a ha b hb hab.conflict

lemma conflictFree_iff (hS : IsLowerSet S) : ConflictFree dep S ↔ ∀ a ∈ S, ∀ b ∈ S, ¬ Clash dep a b := by
  constructor
  · exact fun h a ha b hb => h.not_clash ha hb
  · rintro h a ha b hb ⟨a', ha', b', hb', hab⟩
    exact h a' (hS ha' ha) b' (hS hb' hb) hab

lemma ConflictFree.Iic (h : ConflictFree dep (Set.Iio a)) : ConflictFree dep (Set.Iic a) := by
  refine (conflictFree_iff (isLowerSet_Iic a)).mpr fun b hb c hc hbc => ?_
  rcases eq_or_lt_of_le hb with rfl | hb
  · exact hbc.2.2 hc
  · rcases eq_or_lt_of_le hc with rfl | hc
    · exact hbc.2.1 hb.le
    · exact h.not_clash hb hc hbc

lemma ImmediateConflict.symm (h : ImmediateConflict dep a b) (hdep : dep b a) : ImmediateConflict dep b a where
  clash := h.clash.symm hdep
  left := Set.union_comm (Set.Iio a) (Set.Iic b) ▸ h.right
  right := Set.union_comm (Set.Iic a) (Set.Iio b) ▸ h.left

/-- Between two conflict-free parts in conflict, some conflict is immediate. -/
lemma exists_immConflict [WellFoundedLT α] (hS : IsLowerSet S) (hT : IsLowerSet T)
    (hSfree : ConflictFree dep S) (hTfree : ConflictFree dep T) (hdep : ∀ a ∈ S, ∀ b ∈ T, dep b a → dep a b)
    (h : ¬ ConflictFree dep (S ∪ T)) : ∃ a ∈ S, ∃ b ∈ T, ImmediateConflict dep a b := by
  let clashes : Set (α × α) := {p | p.1 ∈ S ∧ p.2 ∈ T ∧ Clash dep p.1 p.2}
  have hne : clashes.Nonempty := by
    rw [conflictFree_iff (hS.union hT)] at h
    push Not at h
    obtain ⟨c, hc | hc, d, hd | hd, hcd⟩ := h
    · exact absurd hcd (hSfree.not_clash hc hd)
    · exact ⟨(c, d), hc, hd, hcd⟩
    · exact ⟨(d, c), hd, hc, hcd.symm (hdep d hd c hc hcd.1)⟩
    · exact absurd hcd (hTfree.not_clash hc hd)
  obtain ⟨⟨a, b⟩, ⟨ha, hb, hab⟩, hmin⟩ := wellFounded_lt.has_min clashes hne
  -- a clash among smaller events is a smaller pair
  have hsmaller : ∀ {A B : Set α}, IsLowerSet A → IsLowerSet B → A ⊆ S → B ⊆ T →
      (∀ c ∈ A, ∀ d ∈ B, (c, d) < (a, b)) → ConflictFree dep (A ∪ B) := by
    intro A B hA hB hAS hBT hlt
    have hno : ∀ c ∈ A, ∀ d ∈ B, ¬ Clash dep c d := fun c hc d hd hcd =>
      hmin (c, d) ⟨hAS hc, hBT hd, hcd⟩ (hlt c hc d hd)
    refine (conflictFree_iff (hA.union hB)).mpr ?_
    rintro c (hc | hc) d (hd | hd) hcd
    · exact hSfree.not_clash (hAS hc) (hAS hd) hcd
    · exact hno c hc d hd hcd
    · exact hno d hd c hc (hcd.symm (hdep d (hAS hd) c (hBT hc) hcd.1))
    · exact hTfree.not_clash (hBT hc) (hBT hd) hcd
  refine ⟨a, ha, b, hb, hab, ?_, ?_⟩
  · refine hsmaller (isLowerSet_Iic a) (isLowerSet_Iio b) (fun c hc => hS hc ha) (fun d hd => hT (le_of_lt hd) hb) ?_
    exact fun c hc d hd => Prod.mk_lt_mk.mpr (.inr ⟨hc, hd⟩)
  · refine hsmaller (isLowerSet_Iio a) (isLowerSet_Iic b) (fun c hc => hS (le_of_lt hc) ha) (fun d hd => hT hd hb) ?_
    exact fun c hc d hd => Prod.mk_lt_mk.mpr (.inl ⟨hc, hd⟩)

/-- `b` depends on `x`, no cause of `x` explains it, and what is below `b` is concurrent to `x` or below it. -/
lemma immConflict_iff [WellFoundedLT α] {x : α} (hx : ConflictFree dep (Set.Iio x))
    (hb : ConflictFree dep (Set.Iio b)) (hxb : ¬ x ≤ b) (hdep : ∀ c ≤ x, ∀ d ≤ b, dep d c → dep c d) :
    ImmediateConflict dep x b ↔ ¬ b ≤ x ∧ (∀ p < x, ¬ ImmediateConflict dep p b) ∧ dep x b ∧
      ∀ w < b, w < x ∨ (∀ p < x, ¬ ImmediateConflict dep p w) ∧ ¬ dep x w := by
  constructor
  · intro h
    refine ⟨h.clash.2.2, fun p hp hpb => ?_, h.clash.1, fun w hw =>
      or_iff_not_imp_left.mpr fun hwx => ⟨?_, fun hd => ?_⟩⟩
    · exact h.right.not_clash (.inl hp) (.inr le_rfl) hpb.clash
    · exact fun p hp hpw => h.right.not_clash (.inl hp) (.inr hw.le) hpw.clash
    · refine h.left.not_clash (.inl le_rfl) (.inr hw) ⟨hd, fun hxw => hxb (hxw.trans hw.le), fun hle => ?_⟩
      rcases eq_or_lt_of_le hle with rfl | hlt
      · exact hxb hw.le
      · exact hwx hlt
  · rintro ⟨hbx, himm, hd, hfree⟩
    have hbelow : ∀ a ≤ x, ∀ w < b, ¬ ImmediateConflict dep a w := by
      intro a ha w hw haw
      rcases hfree w hw with hwx | ⟨hnone, hind⟩
      · rcases eq_or_lt_of_le ha with rfl | ha
        · exact haw.clash.2.2 hwx.le
        · exact hx.not_clash ha hwx haw.clash
      · rcases eq_or_lt_of_le ha with rfl | ha
        · exact hind haw.clash.1
        · exact hnone a ha haw
    refine ⟨⟨hd, hxb, hbx⟩, ?_, ?_⟩
    · by_contra hnot
      obtain ⟨a, ha, w, hw, haw⟩ := exists_immConflict (isLowerSet_Iic x) (isLowerSet_Iio b) hx.Iic hb
        (fun c hc d hd => hdep c hc d (le_of_lt hd)) hnot
      exact hbelow a ha w hw haw
    · by_contra hnot
      obtain ⟨a, ha, w, hw, haw⟩ := exists_immConflict (isLowerSet_Iio x) (isLowerSet_Iic b) hx hb.Iic
        (fun c hc d hd => hdep c (le_of_lt hc) d hd) hnot
      rcases eq_or_lt_of_le hw with rfl | hw
      · exact himm a ha haw
      · exact hbelow a (le_of_lt ha) w hw haw

end EventStructure
