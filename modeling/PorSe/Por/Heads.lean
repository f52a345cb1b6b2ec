import PorSe.Por.ConflictFree

/-! What the heads that a configuration keeps for locks and condition variables say about
its run: who waits, who was notified, and who may take a lock. -/

namespace Por
open Event Option
namespace Configuration
variable {D : Type}

def wasNotified (C : Configuration D) [DecidableEq D] (thread : ThreadId) (cond : CondId) : Option Bool := do
  let wait1 ← C.lastOfTid thread
  if wait1.kind ≠ .wait1 then some false else some (wait2PredecessorCond wait1 (C.lastOfCid cond)).isSome

variable [DecidableEq D]

/-! ## Condition variables -/

section
variable {P : Configuration D → Op D → Prop} {C : Configuration D} (hC : Reachable P C)
include hC

lemma Reachable.wait1_mem_lastOfCid_iff {c : CondId} {w : Event D} (hk : w.kind = .wait1) :
    w ∈ C.lastOfCid c ↔ w ∈ C ∧ w.cid = c ∧ ∀ n ∈ C, w ∉ n.waitPredecessors := by
  constructor
  · intro hw
    obtain ⟨hwC, hwc, -⟩ := hC.wellFormed.mem_of_lastOfCid hw
    exact ⟨hwC, hwc, fun n hn => hC.waiting.not_notified hw hn⟩
  · rintro ⟨hw, rfl, hn⟩
    exact hC.waiting.outstanding hw hk hn

lemma Reachable.wait2_notified {x : Event D} (hx : x ∈ C) (hk : x.kind = .wait2) :
    ∃ w n, x.threadPredecessor = some w ∧ w.kind = .wait1 ∧ x.notifyingPredecessor = some n ∧ n < x ∧
      ∀ m ∈ C, w ∈ m.waitPredecessors ↔ m = n := by
  have hc := hC.wellFormed.checks hx
  obtain ⟨n, hn⟩ := exists_notifyingPred hc hk
  obtain ⟨w, hw, hwk, hwn, -⟩ := notifying_of_checks hc hn
  have hnx := notifyingPred_mem hn
  refine ⟨w, n, hw, hwk, hn, lt_of_mem_preds hnx, fun m hm => ⟨fun hwm => ?_, fun h => h ▸ hwn⟩⟩
  exact hC.waiting.unique hm (hC.wellFormed.closed hx hnx) hwm hwn

lemma Reachable.wasNotified_eq_true_iff {c : CondId} (hd : C.NotDestroyed c) (t : ThreadId) :
    C.wasNotified t c = some true ↔
      ∃ w, C.lastOfTid t = some w ∧ w.kind = .wait1 ∧ w.cid = c ∧ ∃ n ∈ C, w ∈ n.waitPredecessors := by
  have hW := hC.wellFormed
  simp only [wasNotified, bind_eq_bind, bind_eq_some_iff]
  refine exists_congr fun w => and_congr_right fun hw => ?_
  split_ifs with hk
  · simp [hk]
  push Not at hk
  simp only [some.injEq, hk, true_and]
  constructor
  · intro hsome
    obtain ⟨n, hn⟩ := isSome_iff_exists.mp hsome
    obtain ⟨hnh, hwn⟩ := mem_of_wait2PredCond hn
    obtain ⟨hnC, hnc, -⟩ := hW.mem_of_lastOfCid hnh
    exact ⟨(waitPreds_of_checks (hW.checks hnC) hwn).2.1.trans hnc, n, hnC, hwn⟩
  · rintro ⟨hwc, n, hn, hwn⟩
    rcases hC.head_or_notified hd (mem_of_lastOfTid hw) hwc (by simp [condHeadKinds, hk]) with hwh | ⟨-, m, hm, hwm⟩
    · exact absurd hwn (hC.waiting.not_notified hwh hn)
    · rw [hC.waiting.wait2PredCond_eq_some hW hm hwm]
      rfl

end

/-- Who waits, who wakes whom and what a resumed thread has seen, in every run. -/
theorem Reachable.cond_bookkeeping {C : Configuration D} (hC : Reachable anyOp C) :
    (∀ c w, w.kind = .wait1 → (w ∈ C.lastOfCid c ↔ w ∈ C ∧ w.cid = c ∧ ∀ n ∈ C, w ∉ n.waitPredecessors)) ∧
      (∀ w, ∀ n ∈ C, ∀ m ∈ C, w ∈ n.waitPredecessors → w ∈ m.waitPredecessors → n = m) ∧
        (∀ x ∈ C, x.kind = .wait2 → ∃ w n, x.threadPredecessor = some w ∧ w.kind = .wait1 ∧
          x.notifyingPredecessor = some n ∧ n < x ∧ ∀ m ∈ C, w ∈ m.waitPredecessors ↔ m = n) ∧
          ∀ t c, C.NotDestroyed c → (C.wasNotified t c = some true ↔
            ∃ w, C.lastOfTid t = some w ∧ w.kind = .wait1 ∧ w.cid = c ∧ ∃ n ∈ C, w ∈ n.waitPredecessors) :=
  ⟨fun _ _ => hC.wait1_mem_lastOfCid_iff, fun _ _ hn _ hm => hC.waiting.unique hn hm,
    fun _ => hC.wait2_notified, fun t _ hd => hC.wasNotified_eq_true_iff hd t⟩

theorem Reachable.cond_bookkeeping_woken : woken.NotDestroyed 1 ∧ woken.wasNotified worker 1 = some true ∧
    ∃ w, woken.lastOfTid worker = some w ∧ w.kind = .wait1 ∧ w.cid = 1 ∧ ∃ n ∈ woken, w ∈ n.waitPredecessors := by
  have hd : woken.NotDestroyed 1 := by
    show ∀ x ∈ woken.events, x.kind = .conditionVariableDestroy → x.cid ≠ 1
    decide +kernel
  have hn : woken.wasNotified worker 1 = some true := by decide +kernel
  exact ⟨hd, hn, ((Reachable.cond_bookkeeping (reachable_after _ : Reachable anyOp woken)).2.2.2 worker 1 hd).mp hn⟩

/-- A condition variable's creation comes first and once; a lock is not used after its destruction. -/
theorem Reachable.lifetimes {C : Configuration D} (hC : Reachable anyOp C) {x y : Event D} (hx : x ∈ C) (hy : y ∈ C) :
    (x.cid = y.cid → y.kind = .conditionVariableCreate → ¬ x < y ∧ (x.kind = y.kind → x = y)) ∧
      (x.lid = y.lid → x.kind = .lockDestroy → y.kind ∈ lockHeadKinds → ¬ x ≤ y) := by
  refine ⟨fun hc hk => ⟨hC.condUsed.create_first hy hx hk hc, fun hkx => ?_⟩, fun hl hkx hky => ?_⟩
  · exact hC.create_unique hx hy (hkx.trans hk) hk hc
  · exact hC.lockOrdered.destroy_not_le hy hx hky hl hkx

theorem Reachable.lifetimes_destroyed : ∃ x y : Event Unit, x.kind = .lockDestroy ∧ y.kind = .lockCreate ∧ ¬ x ≤ y := by
  let C : Configuration Unit := after [.createLock .main 1, .destroyLock .main 1]
  obtain ⟨x, hx, y, hy, hk, hky, hl⟩ : ∃ x ∈ C.events, ∃ y ∈ C.events, x.kind = .lockDestroy ∧ y.kind = .lockCreate ∧
    x.lid = y.lid := by decide +kernel
  exact ⟨x, y, hk, hky, (Reachable.lifetimes (reachable_after _) hx hy).2 hl hk (by simp [hky, lockHeadKinds])⟩

def destroyedEarly : Configuration Unit := after
  [.createThread .main worker, .initThread worker .main, .acquireLock worker 1, .wait1 worker 1 1,
    .signalThread .main 1 worker, .destroyCond .main 1]

/-- No destroyed condition variable is used, but the notified worker is not found. -/
theorem wasNotified_destroyedEarly : Reachable anyOp destroyedEarly ∧ destroyedEarly.wasNotified worker 1 = some false ∧
    ∃ w ∈ destroyedEarly, destroyedEarly.lastOfTid worker = some w ∧ w.kind = .wait1 ∧ w.cid = 1 ∧
      ∃ n ∈ destroyedEarly, w ∈ n.waitPredecessors :=
  ⟨reachable_after _, by decide +kernel, by decide +kernel⟩

/-! ## Locks -/

def destroysOnce (C : Configuration D) : Op D → Prop
  | .destroyLock _ l => ∀ d ∈ C, d.kind = .lockDestroy → d.lid ≠ l
  | _ => True

instance (C : Configuration D) (p : Event D → Prop) [DecidablePred p] : Decidable (∀ x ∈ C, p x) :=
  inferInstanceAs (Decidable (∀ x ∈ C.events, p x))

instance (C : Configuration D) (op : Op D) : Decidable (C.destroysOnce op) := by
  rcases op <;> dsimp only [destroysOnce] <;> infer_instance

end Configuration

namespace Event
variable {D : Type}

variable (e : Event D)

def acquiresLock : Prop := e.kind = .lockAcquire ∨ e.kind = .wait2

def releasesLock : Prop := e.kind = .lockRelease ∨ e.kind = .wait1

/-- Taking and freeing alternate, and a thread frees only what it has taken. -/
def FollowsOnLock (b a : Event D) : Prop :=
  b.acquiresLock ∧ (a.kind = .lockCreate ∨ a.releasesLock) ∨ b.releasesLock ∧ a.acquiresLock ∧ a.tid = b.tid ∨
      b.kind = .lockDestroy ∧ (a.kind = .lockCreate ∨ a.kind = .lockRelease)

lemma followsOn_of_checks [DecidableEq D] {a b : Event D} (h : b.checks = true)
    (hp : b.lockPredecessor = some a) : b.FollowsOnLock a := by
  have hlen : b.kind ≠ .wait2 → 2 ≤ b.preds.length := by
    intro hk
    obtain ⟨t, l, ps⟩ := b
    cases l <;> simp [lockPredecessor] at hp hk ⊢ <;> obtain ⟨hlt, -⟩ := List.getElem?_eq_some_iff.mp hp <;>
      exact hlt
  obtain ⟨t, l, ps⟩ := b
  cases l <;> simp [lockPredecessor] at hp hlen
  case lockDestroy | lockAcquire =>
    simp [checks, lockPredecessorChecks, lockPredecessor] at h
    simp [FollowsOnLock, acquiresLock, releasesLock]
    grind
  case lockRelease | wait1 | wait2 =>
    simp [checks, holdsLockChecks, lockPredecessorChecks, lockPredecessor] at h
    simp [FollowsOnLock, acquiresLock, releasesLock]
    grind

lemma isChain_lockChain [DecidableEq D] : e.lockChain.IsChain fun b a => b.lockPredecessor = some a := by
  induction e using induction with
  | h e ih =>
    rw [lockChain_eq]
    cases hp : e.lockPredecessor with
    | none => exact List.isChain_singleton e
    | some p =>
      refine List.isChain_cons.mpr ⟨fun a ha => ?_, ih p (lockPred_mem hp)⟩
      rw [elim_some, lockChain_eq] at ha
      rw [hp, mem_some_iff.mp ha]

lemma getLast?_lockChain [DecidableEq D] : ∀ a ∈ e.lockChain.getLast?, a.lockPredecessor = none := by
  obtain ⟨z, hz, _⟩ := getLast?_chain lockPred_mem e
  intro a ha
  rwa [mem_unique ha hz]

end Event

namespace Configuration
variable {D : Type} [DecidableEq D]

/-- The events on the lock, the latest first: a causal chain, linked by `lock_predecessor`, that takes and frees it. -/
structure LockHistory (C : Configuration D) (l : LockId) (es : List (Event D)) : Prop where
  mem_iff : ∀ x, x ∈ es ↔ x ∈ C ∧ x.lid = l
  descending : es.Pairwise fun b a => a < b
  linked : es.IsChain fun b a => b.lockPredecessor = some a
  first : ∀ a ∈ es.getLast?, a.lockPredecessor = none
  alternating : es.IsChain FollowsOnLock

lemma lockHistory_lockChain {C : Configuration D} (hW : C.WellFormed) {h : Event D}
    (hmem : ∀ x, x ∈ h.lockChain ↔ x ∈ C ∧ x.lid = h.lid) : C.LockHistory h.lid h.lockChain where
  mem_iff := hmem
  descending := pairwise_chain lockPred_mem h
  linked := isChain_lockChain h
  first := getLast?_lockChain h
  alternating := by
    refine List.IsChain.imp_of_mem_imp (fun b a hb _ hp => ?_) (isChain_lockChain h)
    exact followsOn_of_checks (hW.checks ((hmem b).mp hb).1) hp

lemma Reachable.le_lockPred_of_destroy {C : Configuration D} (hC : Reachable destroysOnce C) {d x : Event D}
    (hd : d ∈ C) (hk : d.kind = .lockDestroy) (hx : x ∈ C) (hl : x.lid = d.lid) (hne : d.lid ≠ 0) (hxd : x ≠ d) :
    ∃ p, d.lockPredecessor = some p ∧ x ≤ p := by
  induction hC with
  | initial => rcases kind_of_initial hd with hk' | hk' <;> simp [hk'] at hk
  | @commit C op e hC hop he ih =>
    obtain ⟨h, hc⟩ := extend_iff.mp he
    rcases h.mem_commit.mp hd with rfl | hdC <;> rcases h.mem_commit.mp hx with rfl | hxC
    · exact absurd rfl hxd
    · rw [h.lockPred_eq hne]
      have hnone : ∀ y ∈ C, y.kind = .lockDestroy → y.lid ≠ d.lid := by
        cases h with
        | destroyLock => exact hop
        | _ => simp at hk
      cases hlast : C.lastOfLid d.lid with
      | some p => exact ⟨p, rfl, hC.lockOrdered.le_head hlast hxC hl⟩
      | none =>
        by_cases hkx : x.kind = .lockDestroy
        · exact absurd hl (hnone x hxC hkx)
        · rw [← hl] at hlast hne
          obtain ⟨y, hy, hyk, hyl⟩ := hC.exists_lockDestroy hxC (mem_lockHeadKinds hne hkx) hlast
          exact absurd (hyl.trans hl) (hnone y hy hyk)
    · -- nothing happens on a lock after its destruction
      by_cases hkx : x.kind = .lockDestroy
      · cases h with
        | destroyLock => exact absurd hl.symm (hop d hdC hk)
        | _ => simp at hkx
      · have hkx' := mem_lockHeadKinds (hl ▸ hne) hkx
        obtain ⟨p, -, hlast, -⟩ := hC.lockOrdered.le_lockPred_of_extends h hc hkx' hdC hl.symm
        exact absurd hk (hC.lockOrdered.not_destroyed hlast hdC hl.symm)
    · exact ih hdC hxC

lemma Reachable.lockHistory_of_destroy {C : Configuration D} (hC : Reachable destroysOnce C) {d : Event D}
    (hd : d ∈ C) (hk : d.kind = .lockDestroy) (hne : d.lid ≠ 0) : C.LockHistory d.lid d.lockChain := by
  have hW := hC.wellFormed
  refine lockHistory_lockChain hW fun x => ?_
  have hpred : ∀ {p}, d.lockPredecessor = some p → p ∈ C ∧ p.lid = d.lid ∧ p.kind ∈ lockHeadKinds := by
    intro p hp
    refine ⟨hW.closed hd (lockPred_mem hp), lid_of_lockPred (hW.checks hd) hp, ?_⟩
    rcases followsOn_of_checks (hW.checks hd) hp with ⟨h, -⟩ | ⟨h, -⟩ | ⟨-, h⟩
    · rcases h with h | h <;> simp [h] at hk
    · rcases h with h | h <;> simp [h] at hk
    · rcases h with h | h <;> simp [h, lockHeadKinds]
  rw [lockChain_eq, List.mem_cons]
  constructor
  · rintro (rfl | hx)
    · exact ⟨hd, rfl⟩
    · cases hp : d.lockPredecessor with
      | none => simp [hp] at hx
      | some p =>
        obtain ⟨hpC, hpl, hpk⟩ := hpred hp
        rw [hp] at hx
        obtain ⟨hxp, hxl⟩ := (hC.lockOrdered.mem_lockChain_iff hW hpC hpk).mp hx
        exact ⟨hW.mem_of_le hxp hpC, hxl.trans hpl⟩
  · rintro ⟨hx, hxl⟩
    refine or_iff_not_imp_left.mpr fun hxd => ?_
    obtain ⟨p, hp, hxp⟩ := hC.le_lockPred_of_destroy hd hk hx hxl hne hxd
    obtain ⟨hpC, hpl, hpk⟩ := hpred hp
    rw [hp]
    exact (hC.lockOrdered.mem_lockChain_iff hW hpC hpk).mpr ⟨hxp, hxl.trans hpl.symm⟩

lemma Reachable.lockHistory_of_alive {P : Configuration D → Op D → Prop} {C : Configuration D} (hC : Reachable P C)
    {l : LockId} (hl : l ≠ 0) (halive : ∀ d ∈ C, d.kind = .lockDestroy → d.lid ≠ l) :
    C.LockHistory l ((C.lastOfLid l).elim [] lockChain) := by
  have hW := hC.wellFormed
  cases hlast : C.lastOfLid l with
  | some h =>
    obtain ⟨hhC, rfl, hk⟩ := hW.mem_of_lastOfLid hlast
    refine lockHistory_lockChain hW fun x => ?_
    rw [hC.lockOrdered.mem_lockChain_iff hW hhC hk]
    constructor
    · rintro ⟨hxh, hxl⟩
      exact ⟨hW.mem_of_le hxh hhC, hxl⟩
    · rintro ⟨hx, hxl⟩
      exact ⟨hC.lockOrdered.le_head hlast hx hxl, hxl⟩
  | none =>
    have hunused : ∀ x ∈ C, x.lid ≠ l := by
      rintro x hx rfl
      have hkx : x.kind ≠ .lockDestroy := fun hkx => halive x hx hkx rfl
      obtain ⟨d, hd, hdk, hdl⟩ := hC.exists_lockDestroy hx (mem_lockHeadKinds hl hkx) hlast
      exact halive d hd hdk hdl
    constructor
    · intro x
      refine iff_of_false List.not_mem_nil fun hx => hunused x hx.1 hx.2
    · exact List.Pairwise.nil
    · exact List.IsChain.nil
    · simp
    · exact List.IsChain.nil

/-- The events on a lock form a chain that takes and frees it in turn; its head decides whether it is free. -/
theorem Reachable.mutual_exclusion {C : Configuration D} (hC : Reachable destroysOnce C) {l : LockId} (hl : l ≠ 0) :
    ∃ es, C.LockHistory l es ∧ (((∀ d ∈ C, d.kind = .lockDestroy → d.lid ≠ l) ∧ C.lastOfLid l = es.head? ∧
          (C.canAcquireLock l = true ↔ ∀ h, es.head? = some h → h.kind = .lockCreate ∨ h.releasesLock)) ∨
        ∃ d, es.head? = some d ∧ d.kind = .lockDestroy ∧ C.lastOfLid l = none) := by
  by_cases halive : ∀ d ∈ C, d.kind = .lockDestroy → d.lid ≠ l
  · have hhist := hC.lockHistory_of_alive hl halive
    refine ⟨_, hhist, .inl ⟨halive, ?_⟩⟩
    cases hlast : C.lastOfLid l with
    | some h => simp [lockChain_eq h, canAcquireLock, hlast, releasesLock]
    | none =>
      have hunused : l ∉ C.usedLockIds := by
        refine (hC.lock_unused fun x hx hxl => ?_).2
        have hmem := (hhist.mem_iff x).mpr ⟨hx, hxl⟩
        simp [hlast] at hmem
      simp [canAcquireLock, hlast, hunused]
  · push Not at halive
    obtain ⟨d, hd, hk, rfl⟩ := halive
    refine ⟨d.lockChain, hC.lockHistory_of_destroy hd hk hl, .inr ⟨d, by simp [lockChain_eq d], hk, ?_⟩⟩
    cases hlast : C.lastOfLid d.lid with
    | none => rfl
    | some h => exact absurd hk (hC.lockOrdered.not_destroyed hlast hd rfl)

def lockTaken : Configuration Unit := (initial.run (fun C op => C.destroysOnce op)
  [.createThread .main worker, .initThread worker .main, .createLock .main 1, .acquireLock worker 1, .wait1 worker 1 1,
    .acquireLock .main 1, .signalThread .main 1 worker]).getD initial

theorem Reachable.mutual_exclusion_lockTaken : ∃ es, lockTaken.LockHistory 1 es ∧ lockTaken.lastOfLid 1 = es.head? ∧
    (lockTaken.canAcquireLock 1 = true ↔ ∀ h, es.head? = some h → h.kind = .lockCreate ∨ h.releasesLock) := by
  have hC : Reachable destroysOnce lockTaken := reachable_getD_run (fun C op h => of_decide_eq_true h) _
  obtain ⟨es, hes, ⟨-, h⟩ | ⟨d, -, -, hnone⟩⟩ := Reachable.mutual_exclusion hC (l := 1) (by decide)
  · exact ⟨es, hes, h⟩
  · exact absurd hnone (by decide +kernel)

def lockGone : Configuration Unit := (initial.run (fun C op => C.destroysOnce op)
  [.createLock .main 1, .destroyLock .main 1]).getD initial

/-- The destruction is the greatest event on the lock, but the lock has no head. -/
theorem lastOfLid_lockGone : Reachable destroysOnce lockGone ∧ lockGone.lastOfLid 1 = none ∧
    ∃ d ∈ lockGone, d.lid = 1 ∧ d.kind = .lockDestroy ∧ ∀ x ∈ lockGone, x.lid = 1 → x ≤ d := by
  exact ⟨reachable_getD_run (fun C op h => of_decide_eq_true h) _, by decide +kernel, by decide +kernel⟩

end Configuration
end Por
