import PorSe.Por.Reachable

/-! The events on one lock form a chain along `lock_predecessor` until the lock is
destroyed. -/

namespace Por
open Event
namespace Configuration
variable {D : Type} [DecidableEq D]

structure LockOrdered (C : Configuration D) : Prop where
  used : ∀ {e}, e ∈ C → e.lid ≠ 0 → e.lid ∈ C.usedLockIds
  le_head : ∀ {l h e}, C.lastOfLid l = some h → e ∈ C → e.lid = l → e ≤ h
  not_destroyed : ∀ {l h e}, C.lastOfLid l = some h → e ∈ C → e.lid = l → e.kind ≠ .lockDestroy
  le_lockPredecessor : ∀ {e x}, e ∈ C → x ∈ C → e.kind ∈ lockHeadKinds → x.lid = e.lid → x.kind ≠ .lockDestroy →
    e ≤ x ∨ ∃ p, e.lockPredecessor = some p ∧ x ≤ p
  destroy_not_le : ∀ {e x}, e ∈ C → x ∈ C → e.kind ∈ lockHeadKinds → x.lid = e.lid → x.kind = .lockDestroy → ¬ x ≤ e

variable {C : Configuration D} {l : LockId} {op : Op D} {e x : Event D} {P : Configuration D → Op D → Prop}

lemma WellFormed.lid_ne_zero (hW : C.WellFormed) {h : Event D} (hh : C.lastOfLid l = some h) : l ≠ 0 := by
  obtain ⟨hm, hl, hk⟩ := hW.mem_of_lastOfLid hh
  exact hl ▸ Event.lid_ne_zero (hW.checks hm) hk

lemma Extends.lockPred_eq (h : C.Extends op e) (hl : e.lid ≠ 0) : e.lockPredecessor = C.lastOfLid e.lid := by
  cases h with
  | createLock hp hl' _ => simp [lockPredecessor, hl']
  | destroyLock hp hl' | acquireLock hp hl' =>
    rename_i l p
    cases hx : C.lastOfLid l <;> simp [lockPredecessor, hx]
  | releaseLock hp hx | wait1 hp hx | wait2 hw hk hx hn => simp [lockPredecessor, hx]
  | _ => exact absurd rfl hl

lemma Extends.not_used (h : C.Extends op e) (hk : e.kind ∈ lockHeadKinds) (hh : C.lastOfLid e.lid = none) :
    e.lid ∉ C.usedLockIds := by
  cases h with
  | createLock hp hl hunused => exact hunused
  | acquireLock hp hacq =>
    simp only [lid_mk, Label.lid] at hh ⊢
    simpa only [canAcquireLock, hh, decide_eq_true_eq] using hacq
  | releaseLock hp hx | wait1 hp hx | wait2 hw hk' hx hn =>
    simp only [lid_mk, Label.lid] at hh
    simp [hh] at hx
  | _ => simp [lockHeadKinds] at hk

/-- All earlier events on the lock are below the lock predecessor of the extension. -/
lemma LockOrdered.le_lockPred_of_extends (hC : C.LockOrdered) (h : C.Extends op e) (hc : e.checks = true)
    (hk : e.kind ∈ lockHeadKinds) (hx : x ∈ C) (hxl : x.lid = e.lid) :
    ∃ p, e.lockPredecessor = some p ∧ C.lastOfLid e.lid = some p ∧ x ≤ p := by
  have hl := lid_ne_zero hc hk
  rw [h.lockPred_eq hl]
  cases hh : C.lastOfLid e.lid with
  | some p => exact ⟨p, rfl, rfl, hC.le_head hh hx hxl⟩
  | none => exact absurd (hxl ▸ hC.used hx (hxl ▸ hl)) (h.not_used hk hh)

lemma lastOfLid_commit_eq_some (hW : C.WellFormed) {h' : Event D} (h : C.Extends op e)
    (hh : (C.commit e).lastOfLid l = some h') :
    (h' = e ∧ e.lid = l ∧ e.kind ∈ lockHeadKinds) ∨ (C.lastOfLid l = some h' ∧ e.lid ≠ l) := by
  rw [lastOfLid_commit] at hh
  split_ifs at hh with hl
  · subst hl
    by_cases hk : e.kind ∈ lockHeadKinds
    · refine .inl ⟨?_, rfl, hk⟩
      simp only [lockHeadKinds, List.mem_cons, List.not_mem_nil, or_false] at hk
      unfold lockHeadAfter at hh
      rcases hk with hk | hk | hk | hk | hk <;> simp only [hk] at hh <;> exact (Option.some.inj hh).symm
    · -- only a destruction without predecessor keeps the head, and it has none to keep
      have hh' : C.lastOfLid e.lid = some h' ∧ (e.lid ≠ 0 → e.lockPredecessor = none) := by
        unfold lockHeadAfter at hh
        cases hke : e.kind <;> simp only [hke] at hh <;> simp [lockHeadKinds, hke] at hk
        case lockDestroy =>
          split_ifs at hh with hp
          exact ⟨hh, fun _ => Option.isNone_iff_eq_none.mp hp⟩
        all_goals exact ⟨hh, fun hl => absurd (lid_eq_zero (by simp [hke])) hl⟩
      have hl := hW.lid_ne_zero hh'.1
      have := h.lockPred_eq hl
      simp [hh'.1, hh'.2 hl] at this
  · exact .inr ⟨hh, hl⟩

lemma first_of_lockPred_eq_none (hc : e.checks = true) (hl : e.lid ≠ 0) (hp : e.lockPredecessor = none) :
    e.kind = .lockCreate ∨ e.kind ∈ [Kind.lockAcquire, .lockDestroy] ∧ e.lockPredecessor = none := by
  obtain ⟨t, l, ps⟩ := e
  cases l <;> simp [Label.lid, hp] at hl ⊢
  all_goals simp [checks, holdsLockChecks, lockPredecessorChecks, hp] at hc

lemma kind_of_initial (he : e ∈ (initial : Configuration D)) : e.kind = .threadInit ∨ e.kind = .programInit := by
  rcases mem_initial he with rfl | rfl
  · exact .inl rfl
  · exact .inr rfl

lemma lockOrdered_initial : (initial : Configuration D).LockOrdered where
  used {e} he hl := by
    rcases kind_of_initial he with hk | hk <;> exact absurd (lid_eq_zero (by simp [hk])) hl
  le_head h := by simp [lastOfLid, initial] at h
  not_destroyed h := by simp [lastOfLid, initial] at h
  le_lockPredecessor {e x} he _ hk := by
    rcases kind_of_initial he with hk' | hk' <;> simp [lockHeadKinds, hk'] at hk
  destroy_not_le {e x} he _ hk := by
    rcases kind_of_initial he with hk' | hk' <;> simp [lockHeadKinds, hk'] at hk

lemma LockOrdered.commit (hC : C.LockOrdered) (hW : C.WellFormed) (h : C.Extends op e) (hc : e.checks = true) :
    (C.commit e).LockOrdered := by
  have hmem {x} := h.mem_commit (x := x)
  have hbefore : ∀ {x}, x ∈ C → e.kind ∈ lockHeadKinds → x.lid = e.lid →
      ∃ p, e.lockPredecessor = some p ∧ C.lastOfLid e.lid = some p ∧ x ≤ p :=
    fun hx hk => hC.le_lockPred_of_extends h hc hk hx
  have hlt : ∀ {p}, e.lockPredecessor = some p → p < e := fun hp =>
    lockPred_lt hp
  have hhead : ∀ {l h'}, (C.commit e).lastOfLid l = some h' →
      (h' = e ∧ e.lid = l ∧ e.kind ∈ lockHeadKinds) ∨ (C.lastOfLid l = some h' ∧ e.lid ≠ l) :=
    lastOfLid_commit_eq_some hW h
  constructor
  case used =>
    intro x hx hl
    rw [usedLockIds_commit]
    rcases hmem.mp hx with rfl | hx
    · split_ifs with hfirst
      · exact Finset.mem_insert_self _ _
      · cases hh : C.lastOfLid x.lid with
        | some p =>
          obtain ⟨hp, hpl, -⟩ := hW.mem_of_lastOfLid hh
          exact hpl ▸ hC.used hp (hpl ▸ hl)
        | none =>
          have hp : x.lockPredecessor = none := (h.lockPred_eq hl).trans hh
          exact absurd (first_of_lockPred_eq_none hc hl hp) hfirst
    · split_ifs
      · exact Finset.mem_insert_of_mem (hC.used hx hl)
      · exact hC.used hx hl
  case le_head =>
    intro l h' x hh' hx hxl
    rcases hhead hh' with ⟨rfl, hl, hk⟩ | ⟨hh', hne⟩
    · rcases hmem.mp hx with rfl | hx
      · exact le_rfl
      · obtain ⟨p, hp, -, hxp⟩ := hbefore hx hk (hxl.trans hl.symm)
        exact hxp.trans (hlt hp).le
    · rcases hmem.mp hx with rfl | hx
      · exact absurd hxl hne
      · exact hC.le_head hh' hx hxl
  case not_destroyed =>
    intro l h' x hh' hx hxl
    rcases hhead hh' with ⟨rfl, hl, hk⟩ | ⟨hh', hne⟩
    · rcases hmem.mp hx with rfl | hx
      · intro hd
        simp [hd, lockHeadKinds] at hk
      · obtain ⟨p, -, hp, -⟩ := hbefore hx hk (hxl.trans hl.symm)
        exact hC.not_destroyed hp hx (hxl.trans hl.symm)
    · rcases hmem.mp hx with rfl | hx
      · exact absurd hxl hne
      · exact hC.not_destroyed hh' hx hxl
  case le_lockPredecessor =>
    intro a x ha hx hk hxl hd
    rcases hmem.mp ha with rfl | haC
    · rcases hmem.mp hx with rfl | hx
      · exact .inl le_rfl
      · obtain ⟨p, hp, -, hxp⟩ := hbefore hx hk hxl
        exact .inr ⟨p, hp, hxp⟩
    · rcases hmem.mp hx with rfl | hx
      · have hl : x.lid ≠ 0 := hxl ▸ lid_ne_zero (hW.checks haC) hk
        have hkx : x.kind ∈ lockHeadKinds := mem_lockHeadKinds hl hd
        obtain ⟨p, hp, -, hap⟩ := hbefore haC hkx hxl.symm
        exact .inl (hap.trans (hlt hp).le)
      · exact hC.le_lockPredecessor haC hx hk hxl hd
  case destroy_not_le =>
    intro a x ha hx hk hxl hd
    rcases hmem.mp ha with rfl | haC
    · rcases hmem.mp hx with rfl | hx
      · simp [lockHeadKinds, hd] at hk
      · obtain ⟨p, -, hp, -⟩ := hbefore hx hk hxl
        exact absurd hd (hC.not_destroyed hp hx hxl)
    · rcases hmem.mp hx with rfl | hx
      · exact h.not_le hW haC
      · exact hC.destroy_not_le haC hx hk hxl hd

/-! ## Consequences -/

section
variable (hC : C.LockOrdered) {a b : Event D} (ha : a ∈ C) (hb : b ∈ C) (hl : a.lid = b.lid)
include hC ha hb hl

lemma LockOrdered.le_total (hka : a.kind ∈ lockHeadKinds) (hkb : b.kind ∈ lockHeadKinds) : a ≤ b ∨ b ≤ a := by
  have hd : b.kind ≠ .lockDestroy := by
    intro hd
    simp [hd, lockHeadKinds] at hkb
  rcases hC.le_lockPredecessor ha hb hka hl.symm hd with h | ⟨p, hp, h⟩
  · exact .inl h
  · exact .inr (h.trans (lockPred_lt hp).le)

lemma LockOrdered.lockHeadKind_of_le (hkb : b.kind ∈ lockHeadKinds) (hne : b.lid ≠ 0) (hab : a ≤ b) :
    a.kind ∈ lockHeadKinds := by
  refine mem_lockHeadKinds (hl ▸ hne) fun hd => ?_
  exact hC.destroy_not_le hb ha hkb hl hd hab

lemma LockOrdered.exists_lockPred_of_lt (hkb : b.kind ∈ lockHeadKinds) (hne : b.lid ≠ 0)
    (hab : a < b) : ∃ p, b.lockPredecessor = some p ∧ a ≤ p := by
  have hka := hC.lockHeadKind_of_le ha hb hl hkb hne hab.le
  have hd : a.kind ≠ .lockDestroy := by
    intro hd
    simp [hd, lockHeadKinds] at hka
  exact (hC.le_lockPredecessor hb ha hkb hl hd).resolve_left (not_le_of_gt hab)

end

lemma LockOrdered.mem_lockChain_iff (hC : C.LockOrdered) (hW : C.WellFormed) (he : e ∈ C)
    (hk : e.kind ∈ Event.lockHeadKinds) : x ∈ e.lockChain ↔ x ≤ e ∧ x.lid = e.lid := by
  induction e using induction with
  | h e ih =>
    have hl := lid_ne_zero (hW.checks he) hk
    have hpred : ∀ {p}, e.lockPredecessor = some p → p ∈ C ∧ p.lid = e.lid ∧ p < e ∧ p.kind ∈ lockHeadKinds := by
      intro p hp
      have hmem := lockPred_mem hp
      have hpl := lid_of_lockPred (hW.checks he) hp
      have hlt := lt_of_mem_preds hmem
      have hpC := hW.closed he hmem
      exact ⟨hpC, hpl, hlt, hC.lockHeadKind_of_le hpC he hpl hk hl hlt.le⟩
    rw [lockChain_eq, List.mem_cons]
    constructor
    · rintro (rfl | hx)
      · exact ⟨le_rfl, rfl⟩
      · cases hp : e.lockPredecessor with
        | none => simp [hp] at hx
        | some p =>
          rw [hp] at hx
          obtain ⟨hpC, hpl, hlt, hkp⟩ := hpred hp
          obtain ⟨hxp, hxl⟩ := (ih p (lockPred_mem hp) hpC hkp).mp hx
          exact ⟨hxp.trans hlt.le, hxl.trans hpl⟩
    · rintro ⟨hxe, hxl⟩
      rcases hxe.eq_or_lt' with rfl | hlt
      · exact .inl rfl
      · obtain ⟨p, hp, hxp⟩ := hC.exists_lockPred_of_lt (hW.mem_of_le hxe he) he hxl hk hl hlt
        obtain ⟨hpC, hpl, -, hkp⟩ := hpred hp
        rw [hp]
        exact .inr ((ih p (lockPred_mem hp) hpC hkp).mpr ⟨hxp, hxl.trans hpl.symm⟩)

section
variable (hC : Reachable P C)
include hC

lemma Reachable.lockOrdered : C.LockOrdered := by
  induction hC with
  | initial => exact lockOrdered_initial
  | commit hC _ he ih =>
    obtain ⟨h, hk⟩ := extend_iff.mp he
    exact ih.commit hC.wellFormed h hk

/-! ## The head of a lock from the events on it -/

lemma Reachable.exists_lockDestroy (he : e ∈ C) (hk : e.kind ∈ lockHeadKinds)
    (hnone : C.lastOfLid e.lid = none) : ∃ d ∈ C, d.kind = .lockDestroy ∧ d.lid = e.lid := by
  induction hC with
  | initial => rcases kind_of_initial he with hk' | hk' <;> simp [lockHeadKinds, hk'] at hk
  | @commit C op x hC _ hx ih =>
    obtain ⟨h, hc⟩ := extend_iff.mp hx
    have hmem : ∀ {y}, y ∈ C.commit x ↔ y = x ∨ y ∈ C := mem_commit h.threadPredecessor_eq
    have hl : e.lid ≠ 0 := lid_ne_zero ((hC.wellFormed.commit h hc).checks he) hk
    rw [lastOfLid_commit] at hnone
    by_cases hxl : x.lid = e.lid
    · refine ⟨x, hmem.mpr (.inl rfl), ?_, hxl⟩
      by_contra hd
      have hkx := mem_lockHeadKinds (hxl ▸ hl) hd
      rw [if_pos hxl, lockHeadAfter] at hnone
      simp only [lockHeadKinds, List.mem_cons, List.not_mem_nil, or_false] at hkx
      rcases hkx with hkx | hkx | hkx | hkx | hkx <;> simp [hkx] at hnone
    · have heC : e ∈ C := (hmem.mp he).resolve_left fun h => hxl (h ▸ rfl)
      rw [if_neg hxl] at hnone
      obtain ⟨d, hd, hkd⟩ := ih heC hnone
      exact ⟨d, hmem.mpr (.inr hd), hkd⟩

lemma Reachable.exists_of_mem_usedLockIds (hl : l ∈ C.usedLockIds) : ∃ e ∈ C, e.lid = l := by
  induction hC with
  | initial => exact absurd hl (Finset.notMem_empty l)
  | @commit C op x hC _ hx ih =>
    obtain ⟨h, -⟩ := extend_iff.mp hx
    have hmem : ∀ {y}, y ∈ C.commit x ↔ y = x ∨ y ∈ C := mem_commit h.threadPredecessor_eq
    have hold : l ∈ C.usedLockIds → ∃ e ∈ C.commit x, e.lid = l := fun hl =>
      (ih hl).imp fun e he => ⟨hmem.mpr (.inr he.1), he.2⟩
    rw [usedLockIds_commit] at hl
    split_ifs at hl
    · rcases Finset.mem_insert.mp hl with rfl | hl
      · exact ⟨x, hmem.mpr (.inl rfl), rfl⟩
      · exact hold hl
    · exact hold hl

lemma Reachable.lastOfLid_eq_some {r : Event D} (hr : r ∈ C)
    (hk : r.kind ∈ lockHeadKinds) (hmax : ∀ z ∈ C, z.lid = r.lid → z ≤ r) : C.lastOfLid r.lid = some r := by
  cases hh : C.lastOfLid r.lid with
  | none =>
    obtain ⟨d, hd, hkd, hdl⟩ := hC.exists_lockDestroy hr hk hh
    exact absurd (hmax d hd hdl) (hC.lockOrdered.destroy_not_le hr hd hk hdl hkd)
  | some h =>
    obtain ⟨hhC, hhl, -⟩ := hC.wellFormed.mem_of_lastOfLid hh
    rw [le_antisymm (hmax h hhC hhl) (hC.lockOrdered.le_head hh hr rfl)]

lemma Reachable.lock_unused (hl : ∀ z ∈ C, z.lid ≠ l) : C.lastOfLid l = none ∧ l ∉ C.usedLockIds := by
  constructor
  · cases hh : C.lastOfLid l with
    | none => rfl
    | some h =>
      obtain ⟨hhC, hhl, -⟩ := hC.wellFormed.mem_of_lastOfLid hh
      exact absurd hhl (hl h hhC)
  · intro hused
    obtain ⟨e, he, hel⟩ := hC.exists_of_mem_usedLockIds hused
    exact hl e he hel

end

end Configuration
end Por
