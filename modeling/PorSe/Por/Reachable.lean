import PorSe.Por.Extension

/-! Configurations that runs of the extension methods reach, and what holds in all
of them: the recorded heads are events of the configuration, the events are causally
closed and those of one thread are totally ordered. -/

namespace Por
open List Event SortedMap Option
namespace Configuration
variable {D : Type} [DecidableEq D]

/-- Reached by extensions that satisfy `P`, each one committed. -/
inductive Reachable (P : Configuration D → Op D → Prop) : Configuration D → Prop
  | initial : Reachable P initial
  | commit {C : Configuration D} {op : Op D} {e : Event D} (hC : Reachable P C) (hop : P C op)
      (he : C.extend op = some e) : Reachable P (C.commit e)

def anyOp (_ : Configuration D) (_ : Op D) : Prop := True

variable {P : Configuration D → Op D → Prop} {C : Configuration D} {p : Configuration D → Op D → Bool}
  {ops : List (Op D)} {e h x a b : Event D} {op : Op D}

lemma Reachable.mono {Q : Configuration D → Op D → Prop} (h : ∀ C op, P C op → Q C op) (hC : Reachable P C) :
    Reachable Q C := by
  induction hC with
  | initial => exact .initial
  | commit _ hop he ih => exact .commit ih (h _ _ hop) he

def run (p : Configuration D → Op D → Bool) (C : Configuration D) : List (Op D) → Option (Configuration D)
  | [] => some C
  | op :: ops => do
    let e ← C.extend op
    if p C op then (C.commit e).run p ops else none

lemma Reachable.of_run (hp : ∀ C op, p C op = true → P C op) {C' : Configuration D} (hC : Reachable P C)
    (h : C.run p ops = some C') : Reachable P C' := by
  induction ops generalizing C with
  | nil =>
    cases h
    exact hC
  | cons op ops ih =>
    simp only [run, bind_eq_bind, bind_eq_some_iff, ite_none_right_eq_some] at h
    obtain ⟨e, he, hop, h⟩ := h
    exact ih (.commit hC (hp C op hop) he) h

lemma reachable_getD_run (hp : ∀ C op, p C op = true → P C op) (ops : List (Op D)) :
    Reachable P ((initial.run p ops).getD initial) := by
  cases h : initial.run p ops with
  | none => exact .initial
  | some C => exact Reachable.of_run hp .initial h

def after (ops : List (Op D)) : Configuration D := (initial.run (fun _ _ => true) ops).getD initial

lemma run_congr {q : Configuration D → Op D → Bool} (h : ∀ op ∈ ops, ∀ C, p C op = q C op) (C : Configuration D) :
    C.run p ops = C.run q ops := by
  induction ops generalizing C with
  | nil => rfl
  | cons op ops ih =>
    simp [run, h op mem_cons_self, ih fun op' hop' => h op' (mem_cons_of_mem op hop')]

lemma reachable_after_of_forall {q : Op D → Bool} (hq : ∀ C op, q op = true → P C op) (h : ops.all q = true) :
    Reachable P (after ops) := by
  unfold after
  rw [run_congr fun op hop _ => (all_eq_true.mp h op hop).symm]
  exact reachable_getD_run hq ops

lemma reachable_after (ops : List (Op D)) : Reachable anyOp (after ops) :=
  reachable_after_of_forall (q := fun _ => true) (fun _ _ _ => trivial) (by simp)

/-! ## What `commit` changes -/

@[simp] lemma commit_threadHeads (C : Configuration D) (e : Event D) :
    (C.commit e).threadHeads = C.threadHeads.insert e.tid e := by
  unfold commit
  cases e.kind <;> dsimp only <;> (try split_ifs) <;> rfl

lemma lastOfTid_commit (C : Configuration D) (e : Event D) (t : ThreadId) :
    (C.commit e).lastOfTid t = if e.tid = t then some e else C.lastOfTid t := by
  rw [lastOfTid, commit_threadHeads, find?_insert]
  rfl

def lockHeadAfter (e : Event D) (head : Option (Event D)) : Option (Event D) :=
  match e.kind with
  | .lockCreate | .lockAcquire | .lockRelease | .wait1 | .wait2 => some e
  | .lockDestroy => if e.lockPredecessor.isNone then head else none
  | _ => head

lemma lastOfLid_commit (C : Configuration D) (e : Event D) (l : LockId) :
    (C.commit e).lastOfLid l = if e.lid = l then lockHeadAfter e (C.lastOfLid l) else C.lastOfLid l := by
  unfold commit lockHeadAfter lastOfLid
  cases e.kind <;> dsimp only [commitLock, useLockId, useCondId, useCondIdIfFirst, setCondHeads] <;>
    split_ifs <;> simp_all [find?_insert, find?_erase]

lemma usedLockIds_commit (C : Configuration D) (e : Event D) : (C.commit e).usedLockIds =
    if e.kind = .lockCreate ∨ e.kind ∈ [Kind.lockAcquire, .lockDestroy] ∧ e.lockPredecessor = none then
      insert e.lid C.usedLockIds
    else C.usedLockIds := by
  unfold commit
  cases e.kind <;> dsimp only [commitLock, useLockId, useCondIdIfFirst] <;>
    cases e.lockPredecessor <;> simp <;> split_ifs <;> rfl

def condHeadsAfter (e : Event D) (heads : Option (List (Event D))) : Option (List (Event D)) :=
  match e.kind with
  | .conditionVariableCreate => if heads.isNone then some [e] else heads
  | .wait1 => some (heads.getD [] ++ [e])
  | .signal => some (signalHeads e (heads.getD []))
  | .broadcast => some (broadcastHeads e (heads.getD []))
  | .conditionVariableDestroy => if e.conditionVariablePredecessors.isEmpty then heads else none
  | _ => heads

lemma condHeads_commit (C : Configuration D) (e : Event D) (c : CondId) : (C.commit e).condHeads.find? c =
      if e.cid = c then condHeadsAfter e (C.condHeads.find? c) else C.condHeads.find? c := by
  unfold commit condHeadsAfter
  cases e.kind <;>
    dsimp only [commitLock, useLockId, useCondId, useCondIdIfFirst, setCondHeads, lastOfCid] <;>
    split_ifs <;> simp_all [find?_insert, find?_erase]

def w2HeadsAfter (e : Event D) (heads : Option (List (Event D))) : Option (List (Event D)) :=
  match e.kind with
  | .wait2 => some (heads.getD [] ++ [e])
  | .conditionVariableDestroy => if e.conditionVariablePredecessors.isEmpty then heads else none
  | _ => heads

lemma w2Heads_commit (C : Configuration D) (e : Event D) (c : CondId) :
    (C.commit e).w2Heads.find? c = if e.cid = c then w2HeadsAfter e (C.w2Heads.find? c) else C.w2Heads.find? c := by
  unfold commit w2HeadsAfter
  cases e.kind <;>
    dsimp only [commitLock, useLockId, useCondId, useCondIdIfFirst, setCondHeads] <;>
    split_ifs <;> simp_all [find?_insert, find?_erase]

/-! ## The events of a configuration -/

lemma mem_iff : e ∈ C ↔ (∃ t h, C.lastOfTid t = some h ∧ e ∈ h.threadChain) ∨ e = programInit := by
  have h : e ∈ C ↔ e ∈ C.events := Iff.rfl
  rw [h, events, mem_append, mem_flatMap, mem_singleton]
  refine or_congr_left ⟨?_, ?_⟩
  · rintro ⟨h, hh, he⟩
    obtain ⟨t, ht⟩ := mem_values_iff.mp (mem_reverse.mp hh)
    exact ⟨t, h, ht, he⟩
  · rintro ⟨t, h, ht, he⟩
    exact ⟨h, mem_reverse.mpr (mem_values_iff.mpr ⟨t, ht⟩), he⟩

lemma mem_of_lastOfTid {t : ThreadId} (ht : C.lastOfTid t = some h) : h ∈ C := by
  refine mem_iff.mpr (.inl ⟨t, h, ht, ?_⟩)
  rw [threadChain_eq]
  exact mem_cons_self

lemma events_commit_perm (h : e.threadPredecessor = C.lastOfTid e.tid) : (C.commit e).events.Perm (e :: C.events) := by
  have hinsert := ((entries_insert_perm C.threadHeads e.tid e).map Prod.snd).flatMap_right threadChain
  rw [map_cons, flatMap_cons, threadChain_eq, h] at hinsert
  rw [events, events, commit_threadHeads, ← cons_append]
  refine (((reverse_perm _).flatMap_right _).trans (hinsert.trans (Perm.cons e ?_))).append_right _
  refine Perm.trans ?_ ((reverse_perm _).flatMap_right _).symm
  cases hhead : C.lastOfTid e.tid with
  | none => rw [erase_of_find?_eq_none hhead]; rfl
  | some p => exact (((entries_perm_erase hhead).map Prod.snd).flatMap_right threadChain).symm

lemma mem_commit (h : e.threadPredecessor = C.lastOfTid e.tid) : x ∈ C.commit e ↔ x = e ∨ x ∈ C :=
  (events_commit_perm h).mem_iff.trans mem_cons

lemma Extends.threadPredecessor_eq (h : C.Extends op e) : e.threadPredecessor = C.lastOfTid e.tid := by
  cases h with
  | initThread hp hk _ ht => simp [threadPredecessor, ht]
  | wait2 hw hk hx hn => simp [threadPredecessor, hw]
  | localEvent hp hk => simp [threadPredecessor, hp]
  | createThread hp | joinThread hp | exitThread hp | createLock hp | destroyLock hp | acquireLock hp
    | releaseLock hp | createCond hp | destroyUnusedCond hp | destroyCond hp | wait1 hp | lostSignal hp | signal hp
    | lostBroadcast hp | broadcast hp => simp [threadPredecessor, (activeHead_eq_some.mp hp).1]

lemma Extends.mem_commit (h : C.Extends op e) : x ∈ C.commit e ↔ x = e ∨ x ∈ C :=
  Configuration.mem_commit h.threadPredecessor_eq

/-! ## Well-formed configurations -/

/-- The heads are events of the configuration, which is causally closed and holds only valid events. -/
structure WellFormed (C : Configuration D) : Prop where
  tid_of_lastOfTid : ∀ {t h}, C.lastOfTid t = some h → h.tid = t
  mem_of_lastOfLid : ∀ {l h}, C.lastOfLid l = some h → h ∈ C ∧ h.lid = l ∧
    h.kind ∈ [Kind.lockCreate, .lockAcquire, .lockRelease, .wait1, .wait2]
  mem_of_lastOfCid : ∀ {c h}, h ∈ C.lastOfCid c → h ∈ C ∧ h.cid = c ∧
    h.kind ∈ [Kind.conditionVariableCreate, .wait1, .signal, .broadcast]
  mem_of_w2Heads : ∀ {c hs h}, C.w2Heads.find? c = some hs → h ∈ hs → h ∈ C ∧ h.cid = c ∧ h.kind = .wait2
  checks : ∀ {e}, e ∈ C → e.checks = true
  closed : ∀ {e p}, e ∈ C → p ∈ e.preds → p ∈ C

lemma mem_of_lostPredsCond {p : Event D} {qs rs : List (Event D)}
    (h : lostNotificationPredecessorsCond p qs = some rs) (hx : x ∈ rs) : x ∈ qs := by
  unfold lostNotificationPredecessorsCond at h
  split_ifs at h
  cases h
  exact mem_of_mem_filter hx

lemma Extends.preds_mem (hC : C.WellFormed) (h : C.Extends op e) : ∀ p ∈ e.preds, p ∈ C := by
  have hhead : ∀ {t q}, C.activeHead t = some q → q ∈ C := fun h => mem_of_lastOfTid (activeHead_eq_some.mp h).1
  have hlock : ∀ {l q}, C.lastOfLid l = some q → q ∈ C := fun h => (hC.mem_of_lastOfLid h).1
  have hcond : ∀ {c q}, q ∈ C.lastOfCid c → q ∈ C := fun h => (hC.mem_of_lastOfCid h).1
  cases h with
  | createThread hq | exitThread hq | createLock hq | createCond hq | destroyUnusedCond hq =>
    exact forall_mem_singleton.mpr (hhead hq)
  | initThread hq | localEvent hq => exact forall_mem_singleton.mpr (mem_of_lastOfTid hq)
  | joinThread hq hx => exact forall_mem_cons.mpr ⟨hhead hq, forall_mem_singleton.mpr (mem_of_lastOfTid hx)⟩
  | destroyLock hq | acquireLock hq => exact forall_mem_cons.mpr ⟨hhead hq, fun p hp => hlock (mem_toList.mp hp)⟩
  | releaseLock hq hx => exact forall_mem_cons.mpr ⟨hhead hq, forall_mem_singleton.mpr (hlock hx)⟩
  | @destroyCond t c _ _ hq hc =>
    refine forall_mem_cons.mpr ⟨hhead hq, fun p hp => ?_⟩
    rcases mem_append.mp (mem_sortPreds.mp hp) with hp | hp
    · exact hcond (by rw [lastOfCid, hc]; exact hp)
    · cases hw : C.w2Heads.find? c with
      | none => simp [hw] at hp
      | some ws => exact (hC.mem_of_w2Heads hw (by simpa [hw] using hp)).1
  | wait1 hq hx =>
    refine forall_mem_cons.mpr ⟨hhead hq, forall_mem_cons.mpr ⟨hlock hx, fun p hp => ?_⟩⟩
    exact hcond (mem_of_mem_filter (mem_sortPreds.mp hp))
  | wait2 hw hk hx hn =>
    refine forall_mem_cons.mpr ⟨mem_of_lastOfTid hw, forall_mem_cons.mpr ⟨?_, forall_mem_singleton.mpr (hlock hx)⟩⟩
    exact hcond (mem_of_find?_eq_some hn)
  | lostSignal hq hqs =>
    refine forall_mem_cons.mpr ⟨hhead hq, fun p hp => ?_⟩
    exact hcond (mem_of_lostPredsCond hqs (mem_sortPreds.mp hp))
  | signal hq hn hw =>
    have hw := mem_of_lastOfTid (notifiedHead_eq_some.mp hw).1
    exact forall_mem_cons.mpr ⟨hhead hq, forall_mem_singleton.mpr hw⟩
  | lostBroadcast hq hqs =>
    refine forall_mem_cons.mpr ⟨hhead hq, fun p hp => ?_⟩
    exact hcond (mem_of_lostPredsCond hqs (mem_sortPreds.mp (mem_groupByKind.mp hp).1))
  | broadcast hq _ hws =>
    refine forall_mem_cons.mpr ⟨hhead hq, fun p hp => ?_⟩
    rcases mem_append.mp (mem_sortPreds.mp (mem_groupByKind.mp hp).1) with hp | hp
    · obtain ⟨n, -, hn⟩ := (ListSearch.mem_of_mapM hws).mp hp
      exact mem_of_lastOfTid (notifiedHead_eq_some.mp hn).1
    · exact hcond (mem_of_mem_filter hp)

lemma mem_initial (he : e ∈ (initial : Configuration D)) :
    e = Event.mk .main .threadInit [Event.programInit] ∨ e = Event.programInit := by
  have he : e ∈ [Event.mk .main .threadInit [Event.programInit], Event.programInit] := he
  simpa using he

lemma wellFormed_initial : (initial : Configuration D).WellFormed where
  tid_of_lastOfTid {t h} ht := by
    simp only [lastOfTid, initial, find?_insert, find?_empty] at ht
    split_ifs at ht with h'
    cases ht
    exact h'
  mem_of_lastOfLid h := by simp [lastOfLid, initial] at h
  mem_of_lastOfCid h := by simp [lastOfCid, initial] at h
  mem_of_w2Heads h := by simp [initial] at h
  checks {e} he := by
    rcases mem_initial he with rfl | rfl
    · rfl
    · rfl
  closed {e p} he hp := by
    rcases mem_initial he with rfl | rfl
    · exact mem_iff.mpr (.inr (mem_singleton.mp hp))
    · simp [Event.programInit] at hp

lemma mem_lastOfCid_commit {c : CondId} (hh : h ∈ (C.commit e).lastOfCid c) : h ∈ C.lastOfCid c ∨
      h = e ∧ e.cid = c ∧ e.kind ∈ [Kind.conditionVariableCreate, .wait1, .signal, .broadcast] := by
  rw [lastOfCid, condHeads_commit] at hh
  split_ifs at hh with hc
  · unfold condHeadsAfter at hh
    cases hk : e.kind <;> simp only [hk] at hh
    case conditionVariableCreate =>
      split_ifs at hh
      · exact .inr ⟨by simpa using hh, hc, by simp⟩
      · exact .inl hh
    case conditionVariableDestroy =>
      split_ifs at hh
      · exact .inl hh
      · simp at hh
    case wait1 => exact (mem_append.mp hh).imp_right fun h => ⟨by simpa using h, hc, by simp⟩
    case signal => exact (mem_of_mem_signalHeads hh).imp_right fun h => ⟨h, hc, by simp⟩
    case broadcast =>
      exact (mem_broadcastHeads.mp hh).imp And.left fun h => ⟨h, hc, by simp⟩
    all_goals exact .inl hh
  · exact .inl hh

lemma WellFormed.commit (hC : C.WellFormed) (h : C.Extends op e) (hk : e.checks = true) : (C.commit e).WellFormed := by
  have hmem {x} := h.mem_commit (x := x)
  constructor
  case tid_of_lastOfTid =>
    intro t x hx
    rw [lastOfTid_commit] at hx
    split_ifs at hx with ht
    · cases hx
      exact ht
    · exact hC.tid_of_lastOfTid hx
  case mem_of_lastOfLid =>
    intro l x hx
    rw [lastOfLid_commit] at hx
    have hold : C.lastOfLid l = some x → x ∈ C.commit e ∧ x.lid = l ∧ _ := fun h =>
      (hC.mem_of_lastOfLid h).imp_left fun h => hmem.mpr (.inr h)
    split_ifs at hx with hl
    · unfold lockHeadAfter at hx
      cases hke : e.kind <;> simp only [hke] at hx
      case lockCreate | lockAcquire | lockRelease | wait1 | wait2 =>
        cases hx
        exact ⟨hmem.mpr (.inl rfl), hl, by simp [hke]⟩
      case lockDestroy =>
        split_ifs at hx
        exact hold hx
      all_goals exact hold hx
    · exact hold hx
  case mem_of_lastOfCid =>
    intro c x hx
    rcases mem_lastOfCid_commit hx with hx | ⟨rfl, hc, hk⟩
    · exact (hC.mem_of_lastOfCid hx).imp_left fun h => hmem.mpr (.inr h)
    · exact ⟨hmem.mpr (.inl rfl), hc, hk⟩
  case mem_of_w2Heads =>
    intro c hs x hhs hx
    rw [w2Heads_commit] at hhs
    have hold : C.w2Heads.find? c = some hs → x ∈ C.commit e ∧ x.cid = c ∧ _ := fun h =>
      (hC.mem_of_w2Heads h hx).imp_left fun h => hmem.mpr (.inr h)
    split_ifs at hhs with hc
    · unfold w2HeadsAfter at hhs
      cases hke : e.kind <;> simp only [hke] at hhs
      case conditionVariableDestroy =>
        split_ifs at hhs
        exact hold hhs
      case wait2 =>
        cases hhs
        rcases mem_append.mp hx with hx | hx
        · cases hw : C.w2Heads.find? c with
          | none => simp [hw] at hx
          | some ws => exact (hC.mem_of_w2Heads hw (by simpa [hw] using hx)).imp_left fun h => hmem.mpr (.inr h)
        · obtain rfl := mem_singleton.mp hx
          exact ⟨hmem.mpr (.inl rfl), hc, hke⟩
      all_goals exact hold hhs
    · exact hold hhs
  case checks =>
    intro x hx
    rcases hmem.mp hx with rfl | hx
    · exact hk
    · exact hC.checks hx
  case closed =>
    intro x p hx hp
    refine hmem.mpr (.inr ?_)
    rcases hmem.mp hx with rfl | hx
    · exact h.preds_mem hC p hp
    · exact hC.closed hx hp

lemma Reachable.wellFormed (hC : Reachable P C) : C.WellFormed := by
  induction hC with
  | initial => exact wellFormed_initial
  | commit _ _ he ih =>
    obtain ⟨h, hk⟩ := extend_iff.mp he
    exact ih.commit h hk

/-! ## Causality inside a configuration -/

section
variable (hC : C.WellFormed)
include hC

lemma WellFormed.mem_of_le (hae : a ≤ e) (he : e ∈ C) : a ∈ C :=
  of_le_of_closed (fun _ he _ hp => hC.closed he hp) hae he

lemma WellFormed.mem_of_lt (he : ∀ p ∈ e.preds, p ∈ C) (hae : a < e) : a ∈ C := by
  obtain ⟨p, hp, hap⟩ := lt_iff_pred.mp hae
  exact hC.mem_of_le hap (he p hp)

lemma WellFormed.valid (he : e ∈ C) : e.Valid :=
  fun _ hx => hC.checks (hC.mem_of_le hx he)

section
variable (ha : a ∈ C) (hb : b ∈ C) (ht : a.tid = b.tid)
include ha hb ht

lemma WellFormed.mem_threadChain :
    (∃ h : Event D, a ∈ h.threadChain ∧ b ∈ h.threadChain) ∨ a = programInit ∨ b = programInit := by
  rcases mem_iff.mp ha with ⟨t, h, hh, hah⟩ | ha
  · rcases mem_iff.mp hb with ⟨t', h', hh', hbh⟩ | hb
    · have hv := hC.valid (mem_of_lastOfTid hh)
      have hv' := hC.valid (mem_of_lastOfTid hh')
      have htt : t = t' := by
        rw [← hC.tid_of_lastOfTid hh, ← hC.tid_of_lastOfTid hh', ← tid_of_chain hv hah, ht,
          tid_of_chain hv' hbh]
      subst htt
      obtain rfl : h = h' := some.inj (hh.symm.trans hh')
      exact .inl ⟨h, hah, hbh⟩
    · exact .inr (.inr hb)
  · exact .inr (.inl ha)

lemma WellFormed.le_total : a ≤ b ∨ b ≤ a := by
  rcases hC.mem_threadChain ha hb ht with ⟨h, hah, hbh⟩ | rfl | rfl
  · exact le_total_of_mem_chain threadPred_mem hah hbh
  · exact .inl (programInit_le (hC.valid hb))
  · exact .inr (programInit_le (hC.valid ha))

lemma WellFormed.eq_of_depth_eq (hd : a.depth = b.depth) : a = b := by
  rcases hC.le_total ha hb ht with h | h
  · exact h.eq_or_lt'.elim Eq.symm fun h => absurd hd (depth_lt_depth h).ne
  · exact h.eq_or_lt'.elim id fun h => absurd hd (depth_lt_depth h).ne'

lemma WellFormed.le_threadPredecessor
    (hk : a.kind ≠ .programInit) (hab : a < b) : ∃ p, b.threadPredecessor = some p ∧ a ≤ p := by
  rcases hC.mem_threadChain ha hb ht with ⟨h, hah, hbh⟩ | rfl | rfl
  · exact exists_next_of_lt threadPred_mem hah hbh hab
  · exact absurd rfl hk
  · exact absurd (programInit_le (hC.valid ha)) (not_le_of_gt hab)

end

lemma WellFormed.eq_of_threadPred (ha : a ∈ C) (hb : b ∈ C)
    (hae : a.threadPredecessor = some e) (hbe : b.threadPredecessor = some e) : a = b := by
  have ht : a.tid = b.tid :=
    (tid_of_threadPred (hC.checks ha) hae).symm.trans (tid_of_threadPred (hC.checks hb) hbe)
  have hnot : ∀ {a b}, a ∈ C → b ∈ C → a.tid = b.tid → a.threadPredecessor = some e →
      b.threadPredecessor = some e → ¬ a < b := by
    intro a b ha hb ht hae hbe hlt
    obtain ⟨p, hp, hap⟩ := hC.le_threadPredecessor ha hb ht (kind_ne_of_threadPred hae).1 hlt
    cases hbe.symm.trans hp
    exact absurd (threadPred_lt hae) (not_lt_of_ge hap)
  rcases hC.le_total ha hb ht with h | h
  · exact h.eq_of_not_lt (hnot ha hb ht hae hbe)
  · exact (h.eq_of_not_lt (hnot hb ha ht.symm hbe hae)).symm

lemma WellFormed.mem_chain_of_le (ha : a ∈ C) (hb : b ∈ C) (ht : a.tid = b.tid)
    (hk : a.kind ≠ .programInit) (hab : a ≤ b) : a ∈ b.threadChain := by
  induction b using induction with
  | h b ih =>
    rw [threadChain_eq]
    rcases hab.eq_or_lt' with rfl | hab
    · exact mem_cons_self
    · obtain ⟨p, hp, hap⟩ := hC.le_threadPredecessor ha hb ht hk hab
      have hpb := threadPred_mem hp
      rw [hp]
      exact mem_cons_of_mem b (ih p hpb (hC.closed hb hpb)
        (ht.trans (tid_of_threadPred (hC.checks hb) hp).symm) hap)

lemma WellFormed.exists_mem_threadChain {m : Cone D} {S : Set (Event D)}
    (hm : m.Represents S) (hSC : ∀ x ∈ S, x ∈ C) (hx : x ∈ S) (hk : x.kind ≠ .programInit) :
    ∃ c, m.find? x.tid = some c ∧ x ∈ c.threadChain := by
  obtain ⟨c, hc, hd⟩ := hm.deepest hx hk
  obtain ⟨hcS, ht, -⟩ := hm.mem hc
  refine ⟨c, hc, hC.mem_chain_of_le (hSC x hx) (hSC c hcS) ht.symm hk ?_⟩
  exact le_of_depth_le (hC.le_total (hSC x hx) (hSC c hcS) ht.symm) hd

lemma WellFormed.exists_threadSuccessor (ha : a ∈ C) (hb : b ∈ C) (ht : a.tid = b.tid)
    (hk : a.kind ≠ .programInit) (hab : a < b) : ∃ s ≤ b, s.threadPredecessor = some a := by
  induction b using induction with
  | h b ih =>
    obtain ⟨p, hp, hap⟩ := hC.le_threadPredecessor ha hb ht hk hab
    have hpb := threadPred_mem hp
    rcases hap.eq_or_lt' with rfl | hap
    · exact ⟨b, le_rfl, hp⟩
    · obtain ⟨s, hsp, hs⟩ := ih p hpb (hC.closed hb hpb)
        (ht.trans (tid_of_threadPred (hC.checks hb) hp).symm) hap
      exact ⟨s, hsp.trans (lt_of_mem_preds hpb).le, hs⟩

lemma WellFormed.le_lastOfTid (he : e ∈ C) (hk : e.kind ≠ .programInit) : ∃ h, C.lastOfTid e.tid = some h ∧ e ≤ h := by
  rcases mem_iff.mp he with ⟨t, h, hh, heh⟩ | rfl
  · have ht : e.tid = t :=
      (tid_of_chain (hC.valid (mem_of_lastOfTid hh)) heh).trans (hC.tid_of_lastOfTid hh)
    exact ⟨h, ht ▸ hh, le_of_mem_chain threadPred_mem heh⟩
  · exact absurd rfl hk

end

lemma Extends.kind_ne_programInit (h : C.Extends op e) : e.kind ≠ .programInit := by
  cases h <;> simp

section
variable (hC : C.WellFormed)
include hC

lemma Extends.not_mem (h : C.Extends op e) : e ∉ C := by
  intro he
  obtain ⟨p, hp, hep⟩ := hC.le_lastOfTid he h.kind_ne_programInit
  have hpe : p < e := threadPred_lt (h.threadPredecessor_eq.trans hp)
  exact absurd hep (not_le_of_gt hpe)

lemma Extends.not_le (h : C.Extends op e) (hx : x ∈ C) : ¬ e ≤ x :=
  fun hex => h.not_mem hC (hC.mem_of_le hex hx)

lemma WellFormed.isLessThan_iff (ha : a ∈ C) (hb : b ∈ C) : a.isLessThan b = true ↔ a < b :=
  isLessThan_iff_lt (hC.checks ha) (hC.valid hb) fun _ hc ht => hC.le_total ha (hC.mem_of_le hc hb) ht.symm

lemma WellFormed.isLessThanEq_iff (ha : a ∈ C) (hb : b ∈ C) : a.isLessThanEq b = true ↔ a ≤ b := by
  rw [isLessThanEq, Bool.or_eq_true, decide_eq_true_eq, hC.isLessThan_iff ha hb, le_iff_eq_or_lt']

lemma WellFormed.cone_find?_iff (hb : b ∈ C) {t : ThreadId} {c : Event D} :
    b.cone.find? t = some c ↔ IsGreatest {x | x < b ∧ x.tid = t ∧ x.kind ≠ .programInit} c := by
  have hcone := cone_represents (hC.valid hb)
  have hgreatest : ∀ {c}, b.cone.find? t = some c → IsGreatest {x | x < b ∧ x.tid = t ∧ x.kind ≠ .programInit} c := by
    intro c hc
    refine ⟨hcone.mem hc, ?_⟩
    rintro x ⟨hxb, hxt, hxk⟩
    obtain ⟨hcb, hct, -⟩ := hcone.mem hc
    obtain ⟨c', hc', hd⟩ := hcone.deepest hxb hxk
    rw [hxt] at hc'
    obtain rfl : c = c' := some.inj (hc.symm.trans hc')
    have hxC := hC.mem_of_le (le_of_lt hxb) hb
    have hcC := hC.mem_of_le (le_of_lt hcb) hb
    exact le_of_depth_le (hC.le_total hxC hcC (hxt.trans hct.symm)) hd
  refine ⟨hgreatest, fun h => ?_⟩
  obtain ⟨⟨hcb, hct, hck⟩, hmax⟩ := h
  obtain ⟨c', hc', -⟩ := hcone.deepest hcb hck
  rw [hct] at hc'
  rw [hc', (hgreatest hc').unique ⟨⟨hcb, hct, hck⟩, hmax⟩]

end

/-- Cones are exact vector clocks. -/
theorem Reachable.cone_exact {C : Configuration D} (hC : Reachable anyOp C) {a b : Event D} (ha : a ∈ C) (hb : b ∈ C) :
    (a.isLessThan b = true ↔ Relation.TransGen (fun p e : Event D => p ∈ e.predecessors) a b) ∧
      ∀ t, (∀ c, b.cone.find? t = some c ↔
          IsGreatest {x | Relation.TransGen (fun p e : Event D => p ∈ e.predecessors) x b ∧
            x.tid = t ∧ x.kind ≠ .programInit} c) ∧
        (b.cone.find? t = none ↔ ¬ ∃ x, Relation.TransGen (fun p e : Event D => p ∈ e.predecessors) x b ∧
          x.tid = t ∧ x.kind ≠ .programInit) := by
  simp only [← lt_iff_transGen_predecessors]
  refine ⟨hC.wellFormed.isLessThan_iff ha hb, fun t => ⟨fun c => hC.wellFormed.cone_find?_iff hb, ?_⟩⟩
  constructor
  · rintro hnone ⟨x, hxb, rfl, hxk⟩
    obtain ⟨c, hc, -⟩ := (cone_represents (hC.wellFormed.valid hb)).deepest hxb hxk
    simp [hnone] at hc
  · intro hno
    cases hc : b.cone.find? t with
    | none => rfl
    | some c => exact absurd ⟨c, (hC.wellFormed.cone_find?_iff hb |>.mp hc).1⟩ hno

def forked : Configuration Unit := after [.createThread .main worker, .initThread worker .main]

def forkedCreate : Event Unit := ⟨.main, .threadCreate worker, [⟨.main, .threadInit, [programInit]⟩]⟩
def forkedInit : Event Unit := ⟨worker, .threadInit, [forkedCreate]⟩

theorem Reachable.cone_exact_forked : (forkedCreate.isLessThan forkedInit = true ↔
        Relation.TransGen (fun p e : Event Unit => p ∈ e.predecessors) forkedCreate forkedInit) ∧
      (forkedInit.cone.find? worker = none ↔
        ¬ ∃ x, Relation.TransGen (fun p e : Event Unit => p ∈ e.predecessors) x forkedInit ∧
          x.tid = worker ∧ x.kind ≠ .programInit) := by
  have h := Reachable.cone_exact (C := forked) (a := forkedCreate) (b := forkedInit) (reachable_after _)
    (by decide) (by decide)
  exact ⟨h.1, (h.2 worker).2⟩

/-- A configuration has all causes of its events, and each thread is a chain in it. -/
theorem Reachable.closed_chains {C : Configuration D} (hC : Reachable anyOp C) {x : Event D} (hx : x ∈ C) :
    x.checks = true ∧ (∀ y ≤ x, y ∈ C) ∧ ∀ y ∈ C, x.tid = y.tid → x ≤ y ∨ y ≤ x :=
  ⟨hC.wellFormed.checks hx, fun _ hy => hC.wellFormed.mem_of_le hy hx, fun _ hy => hC.wellFormed.le_total hx hy⟩

theorem Reachable.closed_chains_forked : forkedInit.checks = true ∧ ∀ y ≤ forkedInit, y ∈ forked :=
  have h := Reachable.closed_chains (reachable_after _ : Reachable anyOp forked) (x := forkedInit) (by decide)
  ⟨h.1, h.2.1⟩

end Configuration
end Por
