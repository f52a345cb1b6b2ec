import PorSe.Por.Deduplicate

/-! The ids in the metadata of the stored events. They break ties in the order on events, so
no two stored events may have the same one. -/

namespace Por
open Option
namespace Unfolding
variable {D M : Type} [DecidableEq D]

/-! ## What keeps the ids apart -/

def idOf (U : Unfolding D M) (e : Event D) : ℕ := (U.metadata e).id.toNat

/-- No event besides `v` has the id that attached metadata brings along. -/
def ZeroFree (U : Unfolding D M) (v : Event D) : Prop := ∀ x ∈ U.events, x ≠ v → U.idOf x ≠ 0

structure DistinctIds (U : Unfolding D M) : Prop where
  nodup : U.events.Nodup
  le_size : ∀ x ∈ U.events, U.idOf x ≤ U.size.toNat
  distinct : ∀ x ∈ U.events, ∀ y ∈ U.events, x ≠ y → U.idOf x ≠ U.idOf y

variable {U U' : Unfolding D M} {c : Candidate D M}

lemma DistinctIds.stored (hU : U.DistinctIds) (hnew : c.event ∉ U.events)
    (hsize : U.size.toNat + 1 < 2 ^ 64) {r : List (Event D)} :
    ((U.stored c).setImmediateConflicts c.event r).DistinctIds := by
  have hsucc : (U.size + 1).toNat = U.size.toNat + 1 := by
    rw [BitVec.toNat_add]
    exact Nat.mod_eq_of_lt hsize
  have hid : ∀ x, ((U.stored c).setImmediateConflicts c.event r).idOf x =
      if x = c.event then U.size.toNat + 1 else U.idOf x := by
    intro x
    simp only [idOf, setImmediateConflicts, Unfolding.stored, addToSuccessors, storeEvent,
      Function.update_apply]
    split_ifs
    · exact hsucc
    · rfl
  have hold : ∀ {x}, x ∈ U.events → x ≠ c.event := fun hx h => hnew (h ▸ hx)
  constructor
  · exact hU.nodup.append (List.nodup_singleton _) (by simpa using hnew)
  · intro x hx
    change _ ≤ (U.size + 1).toNat
    rw [hid, hsucc]
    rcases mem_stored.mp hx with hx | rfl
    · rw [if_neg (hold hx)]
      exact (hU.le_size x hx).trans (Nat.le_succ _)
    · rw [if_pos rfl]
  · intro x hx y hy hne
    rw [hid, hid]
    rcases mem_stored.mp hx with hx | rfl <;> rcases mem_stored.mp hy with hy | rfl
    · rw [if_neg (hold hx), if_neg (hold hy)]
      exact hU.distinct x hx y hy hne
    · rw [if_neg (hold hx), if_pos rfl]
      exact Nat.ne_of_lt (Nat.lt_succ_of_le (hU.le_size x hx))
    · rw [if_pos rfl, if_neg (hold hy)]
      exact Nat.ne_of_gt (Nat.lt_succ_of_le (hU.le_size y hy))
    · exact absurd rfl hne

lemma DistinctIds.setMetadata (hU : U.DistinctIds) {v : Event D} (hv : U.ZeroFree v) {md : Metadata M}
    (hmd : md.id = 0) : (U.setMetadata v md).DistinctIds := by
  have hid : ∀ x, (U.setMetadata v md).idOf x = if x = v then 0 else U.idOf x := by
    intro x
    simp only [idOf, Unfolding.setMetadata, Function.update_apply]
    split_ifs
    · exact congrArg BitVec.toNat hmd
    · rfl
  refine ⟨hU.nodup, fun x hx => ?_, fun x hx y hy hne => ?_⟩
  · rw [hid]
    split_ifs
    · exact Nat.zero_le _
    · exact hU.le_size x hx
  · rw [hid, hid]
    split_ifs with hxv hyv hyv
    · exact absurd (hxv.trans hyv.symm) hne
    · exact (hv y hy hyv).symm
    · exact hv x hx hxv
    · exact hU.distinct x hx y hy hne

lemma DistinctIds.removeEvent (hU : U.DistinctIds) {e : Event D}
    (he : ∀ x ∈ U.events, x ≠ e → U.idOf x ≠ U.size.toNat) : (U.removeEvent e).DistinctIds := by
  unfold Unfolding.removeEvent
  split_ifs with hmem
  · have hrest : ∀ {x}, x ∈ U.events.erase e ↔ x ≠ e ∧ x ∈ U.events := hU.nodup.mem_erase_iff
    refine ⟨hU.nodup.erase e, fun x hx => ?_, fun x hx y hy => ?_⟩
    · obtain ⟨hne, hx⟩ := hrest.mp hx
      have hlt := lt_of_le_of_ne (hU.le_size x hx) (he x hx hne)
      have hsub : (U.size - 1).toNat = U.size.toNat - 1 :=
        BitVec.toNat_sub_of_le (BitVec.le_def.mpr (Nat.one_le_of_lt hlt))
      exact (Nat.le_sub_one_of_lt hlt).trans_eq hsub.symm
    · exact hU.distinct x (hrest.mp hx).2 y (hrest.mp hy).2
  · exact hU

variable [Inhabited M]

lemma distinctIds_initial (size : BitVec 64) : (initial size : Unfolding D M).DistinctIds := by
  have hevents : (initial size : Unfolding D M).events = [Event.programInit] := rfl
  constructor
  · simp [hevents]
  · intro x hx
    obtain rfl := List.mem_singleton.mp (hevents ▸ hx)
    simp [idOf, initial, storeEvent]
  · intro x hx y hy hne
    exact absurd ((List.mem_singleton.mp (hevents ▸ hx)).trans (List.mem_singleton.mp (hevents ▸ hy)).symm) hne

/-! ## Actions -/

variable [DecidableEq M]

/-- `PorEventManager::attachMetadata`: whatever the id was, it is 0 afterwards. -/
def attachMetadata (U : Unfolding D M) (e : Event D) (fingerprint : M) (pendingFrees : SortedMap ThreadId (List ℕ)) :
    Unfolding D M :=
  U.setMetadata e ⟨fingerprint, pendingFrees, 0⟩

inductive Action (D M : Type)
  | deduplicate (c : Candidate D M)
  | removeEvent (e : Event D)
  | attachMetadata (e : Event D) (fingerprint : M) (pendingFrees : SortedMap ThreadId (List ℕ))

/-- Candidates carry id 0, events without successors are removed, and metadata is attached to the first start. -/
def perform (U : Unfolding D M) : Action D M → Option (Unfolding D M)
  | .deduplicate c =>
    if U.Admissible c.event ∧ c.metadata.id = 0 then (U.deduplicate c).map fun r => r.1 else none
  | .removeEvent e => if e ∈ U.events ∧ U.successors e = [] then some (U.removeEvent e) else none
  | .attachMetadata e fingerprint pendingFrees =>
    if e ∈ U.events ∧ e.kind = .threadInit ∧ e.tid = .main then some (U.attachMetadata e fingerprint pendingFrees)
    else none

inductive Managed (P : Unfolding D M → Action D M → Prop) : Unfolding D M → Prop
  | initial (size : BitVec 64) : Managed P (initial size)
  | perform {U U' : Unfolding D M} {a : Action D M} (hU : Managed P U) (ha : P U a) (h : U.perform a = some U') :
      Managed P U'

def performAll (p : Unfolding D M → Action D M → Bool) (U : Unfolding D M) : List (Action D M) → Option (Unfolding D M)
  | [] => some U
  | a :: as => if p U a then (U.perform a).bind fun U' => U'.performAll p as else none

lemma Managed.of_performAll {P : Unfolding D M → Action D M → Prop} {p : Unfolding D M → Action D M → Bool}
    (hp : ∀ U a, p U a = true → P U a) (hU : Managed P U) {as : List (Action D M)}
    (h : U.performAll p as = some U') : Managed P U' := by
  induction as generalizing U with
  | nil =>
    cases h
    exact hU
  | cons a as ih =>
    rw [performAll, ite_none_right_eq_some, bind_eq_some_iff] at h
    obtain ⟨ha, U1, hU1, h⟩ := h
    exact ih (hU.perform (hp U a ha) hU1) h

/-- Id 0 is written only if no other event has it, the size lowered only if no remaining event has
the next id, and an event stored only if the size does not wrap around. -/
def KeepsIds (U : Unfolding D M) : Action D M → Prop
  | .deduplicate c =>
    (∀ v ∈ U.events.find? c.event.compareEvents,
      (U.metadata v).fingerprint = (default : Metadata M).fingerprint → U.ZeroFree v) ∧
    (U.events.find? c.event.compareEvents = none → U.size.toNat + 1 < 2 ^ 64)
  | .removeEvent e => ∀ x ∈ U.events, x ≠ e → U.idOf x ≠ U.size.toNat
  | .attachMetadata e _ _ => U.ZeroFree e

lemma DistinctIds.deduplicate (hU : U.DistinctIds) (hc : c.metadata.id = 0)
    (hkeep : U.KeepsIds (.deduplicate c)) {new : Bool} {e : Event D} (h : U.deduplicate c = some (U', new, e)) :
    U'.DistinctIds := by
  rcases deduplicate_cases h with ⟨b, -, hfind, -, rfl⟩ | ⟨hnone, -, -, r, -, rfl⟩
  · have hcut : ({ U with isCutoff := b } : Unfolding D M).DistinctIds := ⟨hU.nodup, hU.le_size, hU.distinct⟩
    unfold replaceDefaultMetadata
    split_ifs with hdef
    · exact hcut.setMetadata (hkeep.1 e hfind hdef) hc
    · exact hcut
  · exact hU.stored (not_mem_of_find?_eq_none hnone) (hkeep.2 hnone)

lemma DistinctIds.perform (hU : U.DistinctIds) {a : Action D M} (ha : U.KeepsIds a) (h : U.perform a = some U') :
    U'.DistinctIds := by
  cases a with
  | deduplicate c =>
    rw [Unfolding.perform, ite_none_right_eq_some, map_eq_some_iff] at h
    obtain ⟨⟨-, hid⟩, ⟨U1, _, e⟩, hd, rfl⟩ := h
    exact hU.deduplicate hid ha hd
  | removeEvent e =>
    rw [Unfolding.perform, ite_none_right_eq_some] at h
    obtain ⟨-, h⟩ := h
    cases h
    exact hU.removeEvent ha
  | attachMetadata e _ _ =>
    rw [Unfolding.perform, ite_none_right_eq_some] at h
    obtain ⟨-, h⟩ := h
    cases h
    exact hU.setMetadata ha rfl

/-- As long as every action keeps the ids apart, they are distinct. -/
theorem Managed.ids_distinct {U : Unfolding D M} (hU : Managed KeepsIds U) :
    ∀ x ∈ U.events, ∀ y ∈ U.events, x ≠ y → (U.metadata x).id ≠ (U.metadata y).id := by
  have hinv : U.DistinctIds := by
    induction hU with
    | initial size => exact distinctIds_initial size
    | perform _ ha h ih => exact ih.perform ha h
  exact fun x hx y hy hne heq => hinv.distinct x hx y hy hne (congrArg BitVec.toNat heq)

instance (U : Unfolding D M) (v : Event D) : Decidable (U.ZeroFree v) :=
  inferInstanceAs (Decidable (∀ x ∈ U.events, x ≠ v → U.idOf x ≠ 0))

instance (U : Unfolding D M) (a : Action D M) : Decidable (U.KeepsIds a) := by
  cases a <;> unfold KeepsIds <;> infer_instance

def candidate (e : Event Unit) (fingerprint : ℕ) : Action Unit ℕ :=
  .deduplicate ⟨e, false, ⟨fingerprint, SortedMap.empty, 0⟩⟩

/-- The main thread creates two workers; the second creation is removed before the worker starts. -/
def keptApart : List (Action Unit ℕ) :=
  [candidate mainInit 0, .attachMetadata mainInit 1 SortedMap.empty, candidate createWorker 2,
    candidate createWorker2 3, .removeEvent createWorker2, candidate workerInit 4]

theorem Managed.ids_distinct_keptApart : ∃ U : Unfolding Unit ℕ, Managed KeepsIds U ∧
    mainInit ∈ U.events ∧ createWorker ∈ U.events ∧ workerInit ∈ U.events ∧
      (U.metadata mainInit).id ≠ (U.metadata createWorker).id ∧
        (U.metadata createWorker).id ≠ (U.metadata workerInit).id := by
  have hrun : (((Unfolding.initial 5).performAll (fun U a => decide (U.KeepsIds a)) keptApart).any fun U =>
      mainInit ∈ U.events ∧ createWorker ∈ U.events ∧ workerInit ∈ U.events) = true := by
    decide +kernel
  obtain ⟨U, hU, hmem⟩ := (any_eq_true _ _).mp hrun
  obtain ⟨hmain, hcreate, hinit⟩ := of_decide_eq_true hmem
  have hmanaged : Managed KeepsIds U :=
    Managed.of_performAll (fun U a => of_decide_eq_true) (.initial 5) hU
  have hids := Managed.ids_distinct hmanaged
  exact ⟨U, hmanaged, hmain, hcreate, hinit, hids _ hmain _ hcreate (by decide),
    hids _ hcreate _ hinit (by decide)⟩

def executedLater : List (Action Unit ℕ) :=
  [candidate mainInit 0, .attachMetadata mainInit 1 SortedMap.empty, candidate createWorker 2,
    candidate workerInit 3, candidate createWorker2 4, candidate acquireByMain 5,
    candidate acquireByWorker 0, candidate acquireByWorker 6]

def removedEarly : List (Action Unit ℕ) :=
  [candidate mainInit 1, candidate createWorker 2, candidate workerInit 3, candidate createWorker2 4,
    candidate acquireByMain 5, candidate acquireByWorker 6, .removeEvent acquireByMain,
    candidate worker2Init 7]

/-- Two different events have one id after the actions, from some value of `_size`. -/
def Collides (x y : Event Unit) : Prop :=
  ∃ U : Unfolding Unit ℕ, Managed (fun _ _ => True) U ∧ x ∈ U.events ∧ y ∈ U.events ∧ x ≠ y ∧
    (U.metadata x).id = (U.metadata y).id

lemma collides_of_performAll (size : BitVec 64) (as : List (Action Unit ℕ)) (x y : Event Unit)
    (h : (((initial size).performAll (fun _ _ => true) as).any fun U =>
      x ∈ U.events ∧ y ∈ U.events ∧ x ≠ y ∧ (U.metadata x).id = (U.metadata y).id) = true) :
    Collides x y := by
  obtain ⟨U, hU, hxy⟩ := (any_eq_true _ _).mp h
  exact ⟨U, Managed.of_performAll (fun _ _ _ => trivial) (.initial size) hU, of_decide_eq_true hxy⟩

/-- Metadata that is overwritten as a whole, a size that was lowered, and one that starts at its
largest value, so that the root gets id 0. -/
theorem ids_collide : Collides mainInit acquireByWorker ∧ Collides acquireByWorker worker2Init ∧
    Collides .programInit mainInit :=
  ⟨collides_of_performAll 0 executedLater _ _ (by decide +kernel),
    collides_of_performAll 0 removedEarly _ _ (by decide +kernel),
    collides_of_performAll (-1) [candidate mainInit 0, .attachMetadata mainInit 1 SortedMap.empty]
      _ _ (by decide +kernel)⟩

end Unfolding
end Por
