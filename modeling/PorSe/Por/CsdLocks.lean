import PorSe.Por.CsdBacktracking
import PorSe.Por.Heads

/-! Whether the locks that a search counts as taken are those that the executed events have
taken and not freed. -/

namespace Por
open List Option SortedMap Event Function

namespace Event
variable {D : Type}

variable {e : Event D}

lemma changesLock_iff {l : LockId} : e.changesLock l = true ↔ e.lockChange.isSome = true ∧ e.lid = l := by
  rw [changesLock, Bool.and_eq_true, decide_eq_true_eq]

lemma isSome_lockChange_iff : e.lockChange.isSome = true ↔ e.acquiresLock ∨ e.releasesLock := by
  unfold lockChange acquiresLock releasesLock
  cases e.kind <;> simp

lemma takesLock_iff : e.takesLock = true ↔ e.acquiresLock := by
  unfold takesLock lockChange acquiresLock
  cases e.kind <;> simp

lemma takesLock_of_releasesLock (h : e.releasesLock) : e.takesLock = false := by
  unfold takesLock lockChange
  rcases h with h | h <;> simp [h]

lemma lockHeadKind_of_change (h : e.lockChange.isSome = true) : e.kind ∈ lockHeadKinds := by
  rcases isSome_lockChange_iff.mp h with (h | h) | (h | h) <;> simp [h, lockHeadKinds]

lemma exists_lockPred_of_releases [DecidableEq D] (hc : e.checks = true) (h : e.releasesLock) :
    ∃ p, e.lockPredecessor = some p := by
  have hholds : e.holdsLockChecks = true := by
    obtain ⟨t, l, ps⟩ := e
    unfold releasesLock at h
    cases l <;> simp at h
    all_goals
      simp only [checks, Bool.and_eq_true] at hc
      tauto
  rw [holdsLockChecks, Bool.and_eq_true, Option.any_eq_true] at hholds
  obtain ⟨-, p, hp, -⟩ := hholds
  exact ⟨p, hp⟩

/-- The uses of a lock below `e` follow each other, each right after its lock predecessor. -/
structure LocksInOrder (e : Event D) : Prop where
  le_lockPredecessor : ∀ {x y}, x ≤ e → y ≤ e → x.kind ∈ lockHeadKinds → y.kind ∈ lockHeadKinds → y.lid = x.lid →
    x ≤ y ∨ ∃ p, x.lockPredecessor = some p ∧ y ≤ p

lemma LocksInOrder.not_le_lockCreate {x c : Event D} (h : e.LocksInOrder) (hc : c ≤ e)
    (hk : c.kind = .lockCreate) (hx : x.lockChange.isSome = true) (hl : x.lid = c.lid) : ¬ x ≤ c := by
  intro hxc
  rcases h.le_lockPredecessor hc (hxc.trans hc) (by simp [hk, lockHeadKinds]) (lockHeadKind_of_change hx) hl with
    hcx | ⟨p, hp, -⟩
  · rw [le_antisymm hxc hcx, lockChange, hk] at hx
    simp at hx
  · obtain ⟨t, l, ps⟩ := c
    cases l <;> simp at hk
    simp [lockPredecessor] at hp

end Event

namespace CsdSearch
open Csd (Events eventIsEnabled)
variable {D : Type}

/-! ## The vectors have all uses of locks -/

/-- The events of each thread in reverse order, with none that uses a lock left out. -/
structure Keeps (e : Event D) (V : Events D) : Prop where
  mem : ∀ {t x}, x ∈ V.of t → x ≤ e ∧ x.tid = t
  of_lockChange : ∀ {x}, x ≤ e → x.lockChange.isSome = true → x ∈ V.of x.tid
  sorted : ∀ t, (V.of t).Pairwise fun a b => b < a

section
variable [DecidableEq D]

lemma keptEvents_sublist (back : Option (Event D)) (evs : List (Event D)) : (keptEvents back evs).Sublist evs := by
  induction evs generalizing back with
  | nil => exact List.Sublist.slnil
  | cons ev evs ih =>
    unfold keptEvents
    dsimp only
    split_ifs
    · exact (ih _).cons_cons ev
    · exact (ih _).cons ev

variable {x e : Event D}

lemma mem_keptEvents (hx : x.lockChange.isSome = true) (back : Option (Event D)) {evs : List (Event D)}
    (h : x ∈ evs) : x ∈ keptEvents back evs := by
  induction evs generalizing back with
  | nil => simp at h
  | cons ev evs ih =>
    unfold keptEvents
    dsimp only
    rcases mem_cons.mp h with rfl | h
    · rw [if_pos]
      · exact mem_cons_self
      · rcases isSome_lockChange_iff.mp hx with (hk | hk) | (hk | hk) <;> simp [hk]
    · split_ifs
      · exact mem_cons_of_mem ev (ih _ h)
      · exact ih _ h

lemma of_vectors (e : Event D) (t : ThreadId) : (vectors e).of t =
    if e.tid = t then e :: (e.cone.find? t).elim [] fun c => keptEvents (some e) c.threadChain
    else (e.cone.find? t).elim [] fun c => keptEvents none c.threadChain := by
  unfold Events.of vectors
  rw [find?_insert]
  split_ifs with ht
  · rw [getD_some, ht]
  · rw [find?_mapValues]
    cases e.cone.find? t <;> rfl

lemma mem_keptEvents_cone (he : e.Rooted) {t : ThreadId} {back : Option (Event D)}
    (hx : x ∈ (e.cone.find? t).elim [] fun c => keptEvents back c.threadChain) :
    x < e ∧ x.tid = t ∧ x.kind ≠ .programInit := by
  cases hc : e.cone.find? t with
  | none => simp [hc] at hx
  | some c =>
    rw [hc] at hx
    exact he.mem_cone_chain_iff.mp ⟨c, hc, (keptEvents_sublist back _).subset hx⟩

lemma mem_vectors (he : e.Rooted) {t : ThreadId} (hx : x ∈ (vectors e).of t) :
    x.tid = t ∧ (x = e ∨ x < e ∧ x.kind ≠ .programInit) := by
  rw [of_vectors] at hx
  split_ifs at hx with ht
  · rcases mem_cons.mp hx with rfl | hx
    · exact ⟨ht, .inl rfl⟩
    · obtain ⟨hlt, hxt, hk⟩ := mem_keptEvents_cone he hx
      exact ⟨hxt, .inr ⟨hlt, hk⟩⟩
  · obtain ⟨hlt, hxt, hk⟩ := mem_keptEvents_cone he hx
    exact ⟨hxt, .inr ⟨hlt, hk⟩⟩

lemma keeps_vectors (he : e.Rooted) : Keeps e (vectors e) := by
  have hsorted : ∀ t back, ((e.cone.find? t).elim [] fun c => keptEvents back c.threadChain).Pairwise
      fun a b => b < a := by
    intro t back
    cases e.cone.find? t with
    | none => exact List.Pairwise.nil
    | some c =>
      exact (pairwise_chain threadPred_mem c).sublist (keptEvents_sublist back _)
  refine ⟨fun {t x} hx => ?_, fun {x} hx hk => ?_, fun t => ?_⟩
  · obtain ⟨ht, hxe⟩ := mem_vectors he hx
    exact ⟨Event.le_iff_eq_or_lt'.mpr (hxe.imp Eq.symm And.left), ht⟩
  · rw [of_vectors]
    rcases hx.eq_or_lt' with rfl | hlt
    · rw [if_pos rfl]
      exact mem_cons_self
    · have hroot : x.kind ≠ .programInit := by
        intro h
        simp [lockChange, h] at hk
      obtain ⟨c, hc, hxc⟩ := he.mem_cone_chain_iff.mpr ⟨hlt, rfl, hroot⟩
      rw [hc]
      split_ifs
      · exact mem_cons_of_mem e (mem_keptEvents hk _ hxc)
      · exact mem_keptEvents hk _ hxc
  · rw [of_vectors]
    split_ifs
    · exact pairwise_cons.mpr ⟨fun x hx => (mem_keptEvents_cone he hx).1, hsorted t _⟩
    · exact hsorted t _

end

/-! ## The executed events -/

section
variable (V : Events D)

variable (a : ThreadId → ℕ)

def executedEvents : List (Event D) := V.entries.flatMap fun p => p.2.drop (a p.1)

def takenCount (l : LockId) : ℕ :=
  (executedEvents V a).countP fun x => x.changesLock l && x.takesLock

def freedCount (l : LockId) : ℕ :=
  (executedEvents V a).countP fun x => x.changesLock l && !x.takesLock

def lockTaken (l : LockId) : Bool := freedCount V a l < takenCount V a l

variable {V} {e : Event D} {a : ThreadId → ℕ} {t : ThreadId} {n : ℕ} {x : Event D}

lemma mem_executedEvents (hV : Keeps e V) {y : Event D} : y ∈ executedEvents V a ↔ y ∈ (V.of y.tid).drop (a y.tid) := by
  unfold executedEvents
  rw [mem_flatMap]
  constructor
  · rintro ⟨p, hp, hy⟩
    have hof : V.of p.1 = p.2 := by rw [Events.of, mem_entries_iff.mp hp, getD_some]
    have ht : y.tid = p.1 := (hV.mem (hof ▸ mem_of_mem_drop hy)).2
    rwa [ht, hof]
  · intro hy
    cases hf : V.find? y.tid with
    | none => simp [Events.of, hf] at hy
    | some es =>
      refine ⟨(y.tid, es), mem_entries_iff.mpr hf, ?_⟩
      rwa [Events.of, hf] at hy

lemma executed_update_perm (hn : a t = n + 1) (hx : (V.of t)[n]? = some x) :
    (executedEvents V (update a t n)).Perm (x :: executedEvents V a) := by
  cases hf : V.find? t with
  | none => simp [Events.of, hf] at hx
  | some es =>
    rw [Events.of, hf, getD_some] at hx
    obtain ⟨hlt, rfl⟩ := List.getElem?_eq_some_iff.mp hx
    have hperm := entries_perm_erase hf
    have hrest : ((V.erase t).entries.flatMap fun p => p.2.drop (update a t n p.1)) =
        (V.erase t).entries.flatMap fun p => p.2.drop (a p.1) := by
      refine flatMap_congr fun p hp => ?_
      have hpt : p.1 ≠ t := by
        rintro rfl
        have := mem_entries_iff.mp hp
        simp [find?_erase] at this
      rw [update_of_ne hpt]
    refine (hperm.flatMap_right _).trans ((List.Perm.of_eq ?_).trans ((hperm.flatMap_right _).symm.cons _))
    rw [flatMap_cons, flatMap_cons, hrest, update_self, hn, drop_eq_getElem_cons hlt, cons_append]

end

/-! ## One event -/

/-- The executed events of a lock begin with its first use; the last one tells whether it is taken. -/
structure Tracked (V : Events D) (a : ThreadId → ℕ) : Prop where
  closed : ∀ {x p}, x ∈ executedEvents V a → x.lockChange.isSome = true → x.lockPredecessor = some p →
    p.lockChange.isSome = true → p ∈ executedEvents V a
  balanced : ∀ {l m}, m ∈ executedEvents V a → m.changesLock l = true →
    (∀ y ∈ executedEvents V a, y.changesLock l = true → y ≤ m) →
      takenCount V a l = freedCount V a l + if m.takesLock then 1 else 0

section
variable [DecidableEq D] {V : Events D} {e : Event D} (he : e.Rooted) (ho : e.LocksInOrder) (hV : Keeps e V)
  {a : ThreadId → ℕ} (ha : Tracked V a) {t : ThreadId} {n : ℕ} {x : Event D} (hn : a t = n + 1)
  (hx : (V.of t)[n]? = some x)

include hV hn hx

omit [DecidableEq D] in
lemma lt_next {y : Event D} (hy : y ∈ executedEvents V a) (ht : y.tid = t) : y < x := by
  rw [mem_executedEvents hV, ht, hn] at hy
  obtain ⟨hlt, rfl⟩ := List.getElem?_eq_some_iff.mp hx
  have hs := hV.sorted t
  rw [← take_append_drop n (V.of t), drop_eq_getElem_cons hlt, pairwise_append, pairwise_cons] at hs
  exact hs.2.1.1 _ hy

omit [DecidableEq D] in
lemma next_not_executed : x ∉ executedEvents V a :=
  fun h => lt_irrefl _ (lt_next hV hn hx h (hV.mem (mem_of_getElem? hx)).2)

variable {p : Event D}

omit [DecidableEq D] in
lemma mem_executedEvents_of_lt (hp : p ∈ V.of t) (hpx : p < x) : p ∈ executedEvents V a := by
  rw [mem_executedEvents hV, (hV.mem hp).2, hn]
  obtain ⟨hlt, rfl⟩ := List.getElem?_eq_some_iff.mp hx
  have hs := hV.sorted t
  rw [← take_append_drop n (V.of t), drop_eq_getElem_cons hlt] at hp hs
  rcases mem_append.mp hp with hp | hp
  · exact absurd hpx (lt_asymm ((pairwise_append.mp hs).2.2 p hp _ mem_cons_self))
  · exact (mem_cons.mp hp).resolve_left hpx.ne

omit hn hx [DecidableEq D] in
lemma mem_executedEvents_of_hasRun (hp : p ∈ V.of p.tid) (hrun : hasRun V a p = true) : p ∈ executedEvents V a := by
  rw [mem_executedEvents hV]
  obtain ⟨y, hy, hd⟩ := (any_eq_true _ _).mp hrun
  obtain ⟨hlt, rfl⟩ := List.getElem?_eq_some_iff.mp hy
  have hs := hV.sorted p.tid
  rw [← take_append_drop (a p.tid) (V.of p.tid)] at hp hs
  rcases mem_append.mp hp with hp | hp
  · have hmem : (V.of p.tid)[a p.tid] ∈ (V.of p.tid).drop (a p.tid) := by
      rw [drop_eq_getElem_cons hlt]
      exact mem_cons_self
    have := depth_lt_depth ((pairwise_append.mp hs).2.2 p hp _ hmem)
    exact absurd (decide_eq_true_eq.mp hd) (not_le.mpr this)
  · exact hp

include he

lemma lockPred_executed (hen : eventIsEnabled (hasRun V a) x = true) (hk : x.lockChange.isSome = true)
    (hp : x.lockPredecessor = some p) (hpk : p.lockChange.isSome = true) : p ∈ executedEvents V a := by
  obtain ⟨hxe, hxt⟩ := hV.mem (mem_of_getElem? hx)
  have hpx := lockPred_lt hp
  have hpV := hV.of_lockChange (hpx.le.trans hxe) hpk
  have hcase : p.tid = x.tid ∨ hasRun V a p = true := by
    rcases isSome_lockChange_iff.mp hk with (hx' | hx') | hx'
    · rw [eventIsEnabled, hx', hp] at hen
      simpa using hen
    · rw [eventIsEnabled, hx', hp] at hen
      simp only [Bool.and_eq_true, any_some, Bool.or_eq_true, decide_eq_true_eq] at hen
      exact hen.2
    · rcases followsOn_of_checks (he.valid x hxe) hp with h | h | h
      · rcases hx' with hx' | hx' <;> simp [acquiresLock, hx'] at h
      · exact .inl h.2.2
      · rcases hx' with hx' | hx' <;> simp [hx'] at h
  rcases hcase with htid | hrun
  · rw [htid, hxt] at hpV
    exact mem_executedEvents_of_lt hV hn hx hpV hpx
  · exact mem_executedEvents_of_hasRun hV hpV hrun

include ho ha

omit hn hx in
lemma not_le_of_executed (hxe : x ≤ e) (hxa : x ∉ executedEvents V a) (hk : x.lockChange.isSome = true)
    {y : Event D} (hy : y ∈ executedEvents V a) (hyl : y.changesLock x.lid = true) : ¬ x ≤ y := by
  induction y using induction with
  | h y ih =>
    intro hxy
    obtain ⟨hyk, hyl⟩ := changesLock_iff.mp hyl
    have hye := (hV.mem (mem_of_mem_drop ((mem_executedEvents hV).mp hy))).1
    rcases ho.le_lockPredecessor hye hxe (lockHeadKind_of_change hyk)
        (lockHeadKind_of_change hk) hyl.symm with hyx | ⟨p, hp, hxp⟩
    · exact hxa (le_antisymm hxy hyx ▸ hy)
    · have hpy := lockPred_mem hp
      have hpe := (lt_of_mem_preds hpy).le.trans hye
      have hpl := lid_of_lockPred (he.valid y hye) hp
      by_cases hpk : p.lockChange.isSome = true
      · exact ih p hpy (ha.closed hy hyk hp hpk) (changesLock_iff.mpr ⟨hpk, hpl.trans hyl⟩) hxp
      · have hcreate : p.kind = .lockCreate := by
          rcases followsOn_of_checks (he.valid y hye) hp with h | h | h
          · exact h.2.resolve_right fun hr => hpk (isSome_lockChange_iff.mpr (.inr hr))
          · exact absurd (isSome_lockChange_iff.mpr (.inl h.2.1)) hpk
          · simp [lockChange, h.1] at hyk
        exact ho.not_le_lockCreate hpe hcreate hk (hpl.trans hyl).symm hxp

lemma takenCount_before (hen : eventIsEnabled (hasRun V a) x = true) (hk : x.lockChange.isSome = true) :
    takenCount V a x.lid = freedCount V a x.lid + if x.takesLock then 0 else 1 := by
  have hxe := (hV.mem (mem_of_getElem? hx)).1
  have hc := he.valid x hxe
  have hexec := fun {p} => lockPred_executed (p := p) he hV hn hx hen hk
  by_cases hany : ∃ y ∈ executedEvents V a, y.changesLock x.lid = true
  · -- the last one that has run is the lock predecessor
    have hbefore : ∀ y ∈ executedEvents V a, y.changesLock x.lid = true → ∃ p, x.lockPredecessor = some p ∧ y ≤ p := by
      intro y hy hyl
      obtain ⟨hyk, hyl'⟩ := changesLock_iff.mp hyl
      have hye := (hV.mem (mem_of_mem_drop ((mem_executedEvents hV).mp hy))).1
      exact (ho.le_lockPredecessor hxe hye (lockHeadKind_of_change hk)
        (lockHeadKind_of_change hyk) hyl').resolve_left
          (not_le_of_executed he ho hV ha hxe (next_not_executed hV hn hx) hk hy hyl)
    obtain ⟨y, hy, hyl⟩ := hany
    obtain ⟨p, hp, hyp⟩ := hbefore y hy hyl
    obtain ⟨hyk, hyl'⟩ := changesLock_iff.mp hyl
    have hpe := (lockPred_lt hp).le.trans hxe
    have hpl := lid_of_lockPred hc hp
    have hfollows := followsOn_of_checks hc hp
    have hpk : p.lockChange.isSome = true := by
      rcases hfollows with h | h | h
      · refine isSome_lockChange_iff.mpr (.inr (h.2.resolve_left fun hcreate => ?_))
        exact ho.not_le_lockCreate hpe hcreate hyk (hyl'.trans hpl.symm) hyp
      · exact isSome_lockChange_iff.mpr (.inl h.2.1)
      · simp [lockChange, h.1] at hk
    have hmax : ∀ z ∈ executedEvents V a, z.changesLock x.lid = true → z ≤ p := by
      intro z hz hzl
      obtain ⟨q, hq, _⟩ := hbefore z hz hzl
      rwa [some.inj (hp.symm.trans hq)]
    rw [ha.balanced (hexec hp hpk) (changesLock_iff.mpr ⟨hpk, hpl⟩) hmax]
    rcases hfollows with h | h | h
    · have hp' : p.releasesLock := h.2.resolve_left fun hcreate => by simp [lockChange, hcreate] at hpk
      rw [takesLock_iff.mpr h.1, takesLock_of_releasesLock hp']
      rfl
    · rw [takesLock_of_releasesLock h.1, takesLock_iff.mpr h.2.1]
      rfl
    · simp [lockChange, h.1] at hk
  · have hnone : ∀ q : Event D → Bool, ((executedEvents V a).countP fun y => y.changesLock x.lid && q y) = 0 := by
      intro q
      refine countP_eq_zero.mpr fun y hy hyl => hany ⟨y, hy, ?_⟩
      rw [Bool.and_eq_true] at hyl
      exact hyl.1
    have htakes : x.takesLock = true := by
      rcases isSome_lockChange_iff.mp hk with h | h
      · exact takesLock_iff.mpr h
      · obtain ⟨p, hp⟩ := exists_lockPred_of_releases hc h
        have hpk : p.lockChange.isSome = true := by
          rcases followsOn_of_checks hc hp with h' | h' | h'
          · rcases h with h | h <;> simp [acquiresLock, h] at h'
          · exact isSome_lockChange_iff.mpr (.inl h'.2.1)
          · rcases h with h | h <;> simp [h] at h'
        exact absurd ⟨p, hexec hp hpk, changesLock_iff.mpr ⟨hpk, lid_of_lockPred hc hp⟩⟩ hany
    rw [takenCount, freedCount, hnone, hnone, htakes]
    rfl

omit he ho ha hV [DecidableEq D] in
lemma counts_update (l : LockId) : takenCount V (update a t n) l =
        takenCount V a l + (if (x.changesLock l && x.takesLock) = true then 1 else 0) ∧
      freedCount V (update a t n) l = freedCount V a l + if (x.changesLock l && !x.takesLock) = true then 1 else 0 := by
  have hperm := executed_update_perm hn hx
  unfold takenCount freedCount
  rw [hperm.countP_eq, hperm.countP_eq, countP_cons, countP_cons]
  exact ⟨rfl, rfl⟩

lemma Tracked.step (hen : eventIsEnabled (hasRun V a) x = true) : Tracked V (update a t n) := by
  have hmem : ∀ {y}, y ∈ executedEvents V (update a t n) ↔ y = x ∨ y ∈ executedEvents V a := fun {y} => by
    rw [(executed_update_perm hn hx).mem_iff, mem_cons]
  refine ⟨fun {y p} hy hyk hp hpk => ?_, fun {l m} hm hml hmax => ?_⟩
  · rcases hmem.mp hy with rfl | hy
    · exact hmem.mpr (.inr (lockPred_executed he hV hn hx hen hyk hp hpk))
    · exact hmem.mpr (.inr (ha.closed hy hyk hp hpk))
  · obtain ⟨htaken, hfreed⟩ := counts_update hn hx l
    rw [htaken, hfreed]
    cases hxl : x.changesLock l with
    | true =>
      obtain ⟨hk, rfl⟩ := changesLock_iff.mp hxl
      have hmx : m = x := (hmem.mp hm).resolve_right fun hm' =>
        not_le_of_executed he ho hV ha (hV.mem (mem_of_getElem? hx)).1 (next_not_executed hV hn hx) hk hm' hml
          (hmax x (hmem.mpr (.inl rfl)) hxl)
      rw [takenCount_before he ho hV ha hn hx hen hk, hmx]
      cases x.takesLock <;> simp
    | false =>
      have hma : m ∈ executedEvents V a := (hmem.mp hm).resolve_left fun h => by simp [h, hxl] at hml
      rw [ha.balanced hma hml fun y hy hyl => hmax y (hmem.mpr (.inr hy)) hyl]
      simp

lemma lockTaken_step (hen : eventIsEnabled (hasRun V a) x = true) (l : LockId) :
    lockTaken V (update a t n) l = (if x.changesLock l then x.takesLock else lockTaken V a l) ∧
      lockTaken V a l = if x.changesLock l then !x.takesLock else lockTaken V (update a t n) l := by
  obtain ⟨htaken, hfreed⟩ := counts_update hn hx l
  unfold lockTaken
  rw [htaken, hfreed]
  cases hxl : x.changesLock l with
  | true =>
    obtain ⟨hk, rfl⟩ := changesLock_iff.mp hxl
    rw [takenCount_before he ho hV ha hn hx hen hk]
    cases x.takesLock <;> simp
  | false => simp

end

/-! ## One advance -/

section
variable [DecidableEq D] {V : Events D} {e : Event D} (he : e.Rooted) (ho : e.LocksInOrder) (hV : Keeps e V)
include he ho hV

lemma Executes.tracked {t : ThreadId} {a a' : ThreadId → ℕ} {xs : List (Event D)} (h : Executes V t a xs a')
    (ha : Tracked V a) : Tracked V a' ∧ ∀ l,
      lockTaken V a' l = (xs.find? fun y => y.changesLock l).elim (lockTaken V a l) takesLock ∧
        lockTaken V a l = (xs.reverse.find? fun y => y.changesLock l).elim
          (lockTaken V a' l) fun y => !y.takesLock := by
  induction h with
  | refl a => exact ⟨ha, fun l => ⟨rfl, rfl⟩⟩
  | @step a a' n x xs hn hx hen h ih =>
    obtain ⟨ha', hl⟩ := ih (ha.step he ho hV hn hx hen)
    refine ⟨ha', fun l => ?_⟩
    obtain ⟨hafter, hbefore⟩ := lockTaken_step he ho hV ha hn hx hen l
    rw [find?_append, reverse_append, reverse_singleton, singleton_append, find?_cons, find?_cons]
    constructor
    · rw [(hl l).1, hafter]
      cases xs.find? fun y => y.changesLock l with
      | none => cases x.changesLock l <;> rfl
      | some y => rfl
    · rw [hbefore]
      cases x.changesLock l with
      | true => rfl
      | false => exact (hl l).2

end

/-! ## A whole search -/

def Exact (V : Events D) (s : State) : Prop := ∀ l, s.locked l = lockTaken V s.advancement l

/-- If the advance begins with the use of a lock, it uses that lock again. -/
def Call.noted (V : Events D) (c : Call) : Bool :=
  (c.executed V).getLast?.all fun x => x.lockChange.isNone || (c.executed V).dropLast.any fun y => y.changesLock x.lid

section
variable [DecidableEq D] {V : Events D} {e : Event D} (he : e.Rooted) (ho : e.LocksInOrder) (hV : Keeps e V)
  {s : State} {cs : List Call} {r : Option State}
include he ho hV

lemma exact_advanced_iff {t : ThreadId} {s' : State} {step : ℕ} (h : advanceThread V s t = some (s', step))
    (ht : Tracked V s.advancement) (hs : Exact V s) (o : Option State) :
    Exact V s' ↔ (⟨t, s, s', o⟩ : Call).noted V = true := by
  obtain ⟨xs, x, heq, hexec, hlocked, -⟩ := executed_eq h o
  obtain ⟨-, htaken⟩ := hexec.tracked he ho hV ht
  have hl : ∀ l, s'.locked l = (xs.find? fun y => y.changesLock l).elim (s.locked l) takesLock := fun l => by
    rw [hlocked]
    exact ListSearch.foldr_write_apply (fun y m => recordLock_apply y m l) xs s.locked
  rw [Call.noted, heq, getLast?_concat, dropLast_concat, all_some, Bool.or_eq_true, List.any_eq_true]
  constructor
  · intro hs'
    by_contra hnot
    rw [not_or, isNone_iff_eq_none] at hnot
    have hxl : x.changesLock x.lid = true :=
      changesLock_iff.mpr ⟨isSome_iff_ne_none.mpr hnot.1, rfl⟩
    have hnone : xs.find? (fun y => y.changesLock x.lid) = none :=
      find?_eq_none.mpr fun y hy hyl => hnot.2 ⟨y, hy, hyl⟩
    obtain ⟨hafter, hbefore⟩ := htaken x.lid
    rw [find?_append, hnone, find?_cons, hxl] at hafter
    rw [reverse_append, reverse_singleton, singleton_append, find?_cons, hxl] at hbefore
    have := hs' x.lid
    rw [hl, hnone, hs, hbefore, hafter] at this
    simp at this
  · rintro hnoted l
    rw [hl, (htaken l).1, find?_append]
    cases hfind : xs.find? fun y => y.changesLock l with
    | some y => rfl
    | none =>
      have hxl : x.changesLock l = false := by
        by_contra hxl
        obtain ⟨hk, rfl⟩ := changesLock_iff.mp (by simpa using hxl)
        rcases hnoted with hnone | ⟨y, hy, hyl⟩
        · simp [isNone_iff_eq_none.mp hnone] at hk
        · exact find?_eq_none.mp hfind y hy hyl
      rw [find?_cons, hxl, hs]
      rfl

lemma Log.locked_eq_or (h : Log V s cs r) (ht : Tracked V s.advancement) :
    ∀ s1 ∈ r, ∀ l, s1.locked l = s.locked l ∨ s1.locked l = lockTaken V s.advancement l := by
  induction h with
  | nil s =>
    rintro s1 ⟨⟩ l
    exact .inl rfl
  | abort | aborted =>
    rintro s1 ⟨⟩
  | @call t s s' s1 s2 _ _ _ r h hinner hrevert _ ihinner ihrest =>
    obtain ⟨xs, x, heq, hexec, -⟩ := executed_eq h (some s2)
    obtain ⟨ht', htaken⟩ := hexec.tracked he ho hV ht
    have hadv := advancement_returned h (hinner.advancement_eq _ rfl) hrevert
    have hs2 : ∀ l, s2.locked l = s.locked l ∨ s2.locked l = lockTaken V s.advancement l := by
      intro l
      rw [locked_returned (hinner.advancement_eq _ rfl) hrevert (some s2) l, (htaken l).2, ← heq]
      cases hfind : ((⟨t, s, s', some s2⟩ : Call).executed V).reverse.find? fun y => y.changesLock l with
      | some y => exact .inr rfl
      | none =>
        rw [← locked_advanced_of_none h hfind]
        exact ihinner ht' s1 rfl l
    intro s3 hs3 l
    rcases ihrest (hadv ▸ ht) s3 hs3 l with h | h
    · rw [h]
      exact hs2 l
    · rw [h, hadv]
      exact .inr rfl

lemma Log.exact_iff (h : Log V s cs r) (ht : Tracked V s.advancement) (hs : Exact V s) :
    (∀ c ∈ cs, Exact V c.advanced) ↔ ∀ c ∈ cs, c.noted V = true := by
  have key : ∀ {t : ThreadId} {s s' : State} {step : ℕ}, advanceThread V s t = some (s', step) →
      Tracked V s.advancement → Tracked V s'.advancement := fun h ht => by
    obtain ⟨xs, x, hexec, -⟩ := advanceThread_executes h
    exact (hexec.tracked he ho hV ht).1
  induction h with
  | nil | abort => simp
  | aborted h _ ih =>
    rw [forall_mem_cons, forall_mem_cons, ← exact_advanced_iff he ho hV h ht hs]
    exact and_congr_right fun hs' => ih (key h ht) hs'
  | @call t s s' s1 s2 step inner _ r h hinner hrevert _ ihinner ihrest =>
    have hadv := advancement_returned h (hinner.advancement_eq _ rfl) hrevert
    have hcall : Log V s (⟨t, s, s', some s2⟩ :: (inner ++ [])) (some s2) := .call h hinner hrevert (.nil s2)
    have hs2 : Exact V s2 := fun l => by
      rw [hadv]
      rcases hcall.locked_eq_or he ho hV ht s2 rfl l with hl | hl
      · exact hl.trans (hs l)
      · exact hl
    have hrest := ihrest (hadv.symm ▸ ht) hs2
    rw [forall_mem_cons, forall_mem_cons, forall_mem_append, forall_mem_append, ← exact_advanced_iff he ho hV h ht hs]
    exact and_congr_right fun hs' => and_congr (ihinner (key h ht) hs') hrest

end

section
variable [DecidableEq D] {C : Configuration D} {e : Event D} {V : Events D}

/-- An event built on `C` that goes on from the last use of its lock among its causes. -/
def BuiltInLockOrder (C : Configuration D) (x : Event D) : Prop :=
  C.BuiltOn x ∧ (x.kind ∈ lockHeadKinds → ∀ y < x, y.kind ∈ lockHeadKinds → y.lid = x.lid →
    ∃ p, x.lockPredecessor = some p ∧ y ≤ p)

lemma locksInOrder {P : Configuration D → Op D → Prop} (hC : Configuration.Reachable P C)
    (he : e ∈ C ∨ BuiltInLockOrder C e) : e.LocksInOrder := by
  have hmem : ∀ {x}, x < e → x ∈ C := by
    intro x hx
    rcases he with he | ⟨he, -⟩
    · exact hC.wellFormed.mem_of_le hx.le he
    · exact hC.wellFormed.mem_of_lt he.preds_mem hx
  have hdestroy : ∀ {y : Event D}, y.kind ∈ lockHeadKinds → y.kind ≠ .lockDestroy := fun hy h => by
    simp [h, lockHeadKinds] at hy
  refine ⟨fun {x y} hx hy hxk hyk hl => ?_⟩
  rcases hy.eq_or_lt' with rfl | hy
  · exact .inl hx
  rcases hx.eq_or_lt' with rfl | hx
  · rcases he with he | ⟨-, he⟩
    · exact hC.lockOrdered.le_lockPredecessor he (hmem hy) hxk hl (hdestroy hyk)
    · exact .inr (he hxk y hy hyk hl)
  · exact hC.lockOrdered.le_lockPredecessor (hmem hx) (hmem hy) hxk hl (hdestroy hyk)

lemma csdSearchT_eq_some (h : csdSearchT e = some V) : V = SortedMap.empty ∨ V = vectors e := by
  unfold csdSearchT at h
  split_ifs at h
  · exact .inl (some.inj h).symm
  · exact .inr (some.inj h).symm

section
omit [DecidableEq D]

lemma executedEvents_initial (V : Events D) : executedEvents V (initial V).advancement = [] := by
  refine flatMap_eq_nil_iff.mpr fun p hp => ?_
  have hof : V.of p.1 = p.2 := by rw [Events.of, mem_entries_iff.mp hp, getD_some]
  change p.2.drop (V.of p.1).length = []
  rw [hof, drop_length]

lemma tracked_initial (V : Events D) : Tracked V (initial V).advancement := by
  constructor <;> simp [executedEvents_initial]

end

lemma rooted_of_builtInLockOrder (hC : Configuration.Reachable Configuration.startsThread C)
    (he : e ∈ C ∨ BuiltInLockOrder C e) : e.Rooted := by
  rcases he with he | he
  · exact hC.rooted he
  · exact he.1.rooted hC

/-- The taken locks are right exactly if every advance that begins with the use of a lock uses it again. -/
theorem SearchCalls.locked_exact_iff (hC : Configuration.Reachable Configuration.startsThread C)
    (he : e ∈ C ∨ BuiltInLockOrder C e) (hV : csdSearchT e = some V) {calls : List Call} (h : SearchCalls V calls) :
    (∀ c ∈ calls, ∀ l, c.advanced.locked l = true ↔
        freedCount V c.advanced.advancement l < takenCount V c.advanced.advancement l) ↔
      ∀ c ∈ calls, c.noted V = true := by
  have hrooted := rooted_of_builtInLockOrder hC he
  have hexact : ∀ s : State, Exact V s ↔
      ∀ l, s.locked l = true ↔ freedCount V s.advancement l < takenCount V s.advancement l := fun s =>
    forall_congr' fun l => by rw [lockTaken, Bool.eq_iff_iff, decide_eq_true_eq]
  simp only [← hexact]
  rcases csdSearchT_eq_some hV with rfl | rfl
  · have hnil : calls = [] := by rcases h with rfl | ⟨limit, rfl⟩ <;> rfl
    simp [hnil]
  · obtain ⟨r, hlog⟩ := h.log
    refine hlog.exact_iff hrooted (locksInOrder hC he) (keeps_vectors hrooted) (tracked_initial _) fun l => ?_
    rw [lockTaken, takenCount, executedEvents_initial]
    rfl

end

def usedByWorker : Configuration Unit := Configuration.after [.createThread .main worker, .initThread worker .main,
  .acquireLock worker 1, .releaseLock worker 1 false]

def releaseByWorker : Event Unit := (usedByWorker.lastOfTid worker).getD programInit

theorem SearchCalls.locked_exact_iff_releaseByWorker : ∃ V, csdSearchT releaseByWorker = some V ∧
    ∀ c ∈ (runCompute V).calls, ∀ l, c.advanced.locked l = true ↔
      freedCount V c.advanced.advancement l < takenCount V c.advanced.advancement l := by
  have hnoted : ((csdSearchT releaseByWorker).any fun V => (runCompute V).calls.all fun c => c.noted V) = true := by
    decide +kernel
  obtain ⟨V, hV, hcalls⟩ := (any_eq_true _ _).mp hnoted
  exact ⟨V, hV, (SearchCalls.locked_exact_iff (Configuration.reachable_startsThread (by decide))
    (C := usedByWorker) (.inl (by decide +kernel)) hV (.inl rfl)).mpr (all_eq_true.mp hcalls)⟩

def takenAfterWorker : Configuration Unit := Configuration.after [.createThread .main worker, .initThread worker .main,
  .acquireLock worker 1, .releaseLock worker 1 false, .acquireLock .main 1]

def acquireAfterWorker : Event Unit := (takenAfterWorker.lastOfTid .main).getD programInit

/-- The main thread waits for the worker, so that its acquisition begins an advance. -/
theorem locked_misses_acquire : Configuration.Reachable Configuration.startsThread takenAfterWorker ∧
    acquireAfterWorker ∈ takenAfterWorker ∧ ∃ V, csdSearchT acquireAfterWorker = some V ∧
      ∃ c ∈ (runCompute V).calls, c.advanced.locked 1 = false ∧
        freedCount V c.advanced.advancement 1 < takenCount V c.advanced.advancement 1 := by
  have hcall : ((csdSearchT acquireAfterWorker).any fun V => (runCompute V).calls.any fun c =>
      !c.advanced.locked 1 && freedCount V c.advanced.advancement 1 < takenCount V
        c.advanced.advancement 1) = true := by
    decide +kernel
  obtain ⟨V, hV, hcalls⟩ := (any_eq_true _ _).mp hcall
  obtain ⟨c, hc, hl⟩ := any_eq_true.mp hcalls
  rw [Bool.and_eq_true, Bool.not_eq_true', decide_eq_true_eq] at hl
  exact ⟨Configuration.reachable_startsThread (by decide), by decide +kernel, V, hV, c, hc, hl⟩

end CsdSearch
end Por
