import PorSe.Lib.ListSearch
import PorSe.Por.ThreadId

/-! Events of the unfolding. An event is its label together with the events its
`_predecessors` array points to, null entries left out, so that the pointer
comparisons of the source are equality here. -/

namespace Por
open List

abbrev LockId := ℕ
abbrev CondId := ℕ

inductive Kind
  | localEvent | programInit | threadCreate | threadJoin | threadInit | threadExit
  | lockCreate | lockDestroy | lockAcquire | lockRelease
  | conditionVariableCreate | conditionVariableDestroy | wait1 | wait2 | signal | broadcast
deriving DecidableEq

inductive Label (D : Type)
  | localEvent (path : List D)
  | programInit
  | threadCreate (createdTid : ThreadId)
  | threadJoin
  | threadInit
  | threadExit (atomic : Bool)
  | lockCreate (lid : LockId)
  | lockDestroy (lid : LockId)
  | lockAcquire (lid : LockId)
  | lockRelease (lid : LockId) (atomic : Bool)
  | conditionVariableCreate (cid : CondId)
  | conditionVariableDestroy (cid : CondId)
  | wait1 (cid : CondId) (lid : LockId)
  | wait2 (cid : CondId) (lid : LockId)
  | signal (cid : CondId)
  | broadcast (cid : CondId)
deriving DecidableEq

structure Event (D : Type) where
  tid : ThreadId
  label : Label D
  preds : List (Event D)

namespace Label
variable {D : Type}

@[simp] def kind : Label D → Kind
  | localEvent _ => .localEvent
  | programInit => .programInit
  | threadCreate _ => .threadCreate
  | threadJoin => .threadJoin
  | threadInit => .threadInit
  | threadExit _ => .threadExit
  | lockCreate _ => .lockCreate
  | lockDestroy _ => .lockDestroy
  | lockAcquire _ => .lockAcquire
  | lockRelease _ _ => .lockRelease
  | conditionVariableCreate _ => .conditionVariableCreate
  | conditionVariableDestroy _ => .conditionVariableDestroy
  | wait1 _ _ => .wait1
  | wait2 _ _ => .wait2
  | signal _ => .signal
  | broadcast _ => .broadcast

@[simp] def lid : Label D → LockId
  | lockCreate l | lockDestroy l | lockAcquire l | lockRelease l _ | wait1 _ l | wait2 _ l => l
  | _ => 0

@[simp] def cid : Label D → CondId
  | conditionVariableCreate c | conditionVariableDestroy c | wait1 c _ | wait2 c _ | signal c
  | broadcast c => c
  | _ => 0

end Label

namespace Event
variable {D : Type}

def kind (e : Event D) : Kind := e.label.kind

def lid (e : Event D) : LockId := e.label.lid

def cid (e : Event D) : CondId := e.label.cid

variable (t : ThreadId)

@[simp] lemma kind_mk (l : Label D) (ps : List (Event D)) : (mk t l ps).kind = l.kind := rfl
@[simp] lemma lid_mk (l : Label D) (ps : List (Event D)) : (mk t l ps).lid = l.lid := rfl
@[simp] lemma cid_mk (l : Label D) (ps : List (Event D)) : (mk t l ps).cid = l.cid := rfl

mutual
def decEqEvent [DecidableEq D] : (a b : Event D) → Decidable (a = b)
  | ⟨t, l, ps⟩, ⟨t', l', ps'⟩ =>
    if ht : t = t' then
      if hl : l = l' then
        match decEqEvents ps ps' with
        | isTrue hp => isTrue (by rw [ht, hl, hp])
        | isFalse hp => isFalse fun h => hp (by injection h)
      else isFalse fun h => hl (by injection h)
    else isFalse fun h => ht (by injection h)
def decEqEvents [DecidableEq D] : (as bs : List (Event D)) → Decidable (as = bs)
  | [], [] => isTrue rfl
  | [], _ :: _ => isFalse (by simp)
  | _ :: _, [] => isFalse (by simp)
  | a :: as, b :: bs =>
    match decEqEvent a b with
    | isTrue h =>
      match decEqEvents as bs with
      | isTrue hs => isTrue (by rw [h, hs])
      | isFalse hs => isFalse fun e => hs (by injection e)
    | isFalse h => isFalse fun e => h (by injection e)
end

instance [DecidableEq D] : DecidableEq (Event D) := decEqEvent

instance [DecidableEq D] : LawfulBEq (Event D) := inferInstance

/-! ## Recursion along the predecessors -/

section
variable {α : Type}

mutual
def fold (f : ThreadId → Label D → List (Event D × α) → α) : Event D → α
  | ⟨t, l, ps⟩ => f t l (foldAll f ps)
def foldAll (f : ThreadId → Label D → List (Event D × α) → α) : List (Event D) → List (Event D × α)
  | [] => []
  | p :: ps => (p, fold f p) :: foldAll f ps
end

variable (f : ThreadId → Label D → List (Event D × α) → α)

lemma foldAll_eq_map (ps : List (Event D)) : foldAll f ps = ps.map fun p => (p, fold f p) := by
  induction ps with
  | nil => rw [foldAll, map_nil]
  | cons p ps ih => rw [foldAll, ih, map_cons]

lemma fold_eq (e : Event D) : fold f e = f e.tid e.label (e.preds.map fun p => (p, fold f p)) := by
  obtain ⟨t, l, ps⟩ := e
  rw [fold, foldAll_eq_map]

end

variable {p e a b w : Event D} {P : Event D → Prop} {next : Event D → Option (Event D)}

lemma sizeOf_lt_of_mem_preds (h : p ∈ e.preds) : sizeOf p < sizeOf e := by
  obtain ⟨t, l, ps⟩ := e
  have hlt : sizeOf p < sizeOf ps := sizeOf_lt_of_mem h
  simp only [mk.sizeOf_spec]
  omega

lemma induction (h : ∀ e, (∀ p ∈ e.preds, P p) → P e) (e : Event D) : P e :=
  h e fun p _ => induction h p
termination_by sizeOf e
decreasing_by exact sizeOf_lt_of_mem_preds ‹_›

def depth (e : Event D) : ℕ := e.fold fun _ _ ps => (ps.map fun p => p.2 + 1).foldr max 0

lemma depth_eq (e : Event D) : e.depth = (e.preds.map fun p => p.depth + 1).foldr max 0 := by
  conv_lhs => rw [depth, fold_eq]
  rw [map_map]
  rfl

lemma le_foldr_max {n : ℕ} {ns : List ℕ} (h : n ∈ ns) : n ≤ ns.foldr max 0 := by
  induction ns with
  | nil => simp at h
  | cons m ms ih =>
    rcases mem_cons.mp h with rfl | h
    · exact le_max_left _ _
    · exact (ih h).trans (le_max_right _ _)

lemma depth_lt_of_mem_preds (h : p ∈ e.preds) : p.depth < e.depth := by
  rw [depth_eq e]
  exact le_foldr_max (mem_map_of_mem h)

/-! ## Causality -/

/-- `a < b` when `a` is in the transitive closure of the predecessors of `b`. -/
instance : LT (Event D) := ⟨Relation.TransGen fun p e => p ∈ e.preds⟩

instance : LE (Event D) := ⟨Relation.ReflTransGen fun p e => p ∈ e.preds⟩

lemma lt_of_mem_preds (h : p ∈ e.preds) : p < e := Relation.TransGen.single h

lemma depth_lt_depth (h : a < b) : a.depth < b.depth := by
  induction h with
  | single h => exact depth_lt_of_mem_preds h
  | tail _ h ih => exact ih.trans (depth_lt_of_mem_preds h)

lemma le_iff_eq_or_lt' : a ≤ b ↔ b = a ∨ a < b := Relation.reflTransGen_iff_eq_or_transGen

instance : PartialOrder (Event D) where
  le_refl _ := Relation.ReflTransGen.refl
  le_trans _ _ _ := Relation.ReflTransGen.trans
  lt_iff_le_not_ge a b := by
    constructor
    · intro h
      refine ⟨le_iff_eq_or_lt'.mpr (.inr h), fun hba => ?_⟩
      have hd := depth_lt_depth h
      rcases le_iff_eq_or_lt'.mp hba with rfl | hba
      · exact lt_irrefl _ hd
      · exact lt_asymm hd (depth_lt_depth hba)
    · rintro ⟨hab, hba⟩
      rcases le_iff_eq_or_lt'.mp hab with rfl | hab
      · exact absurd Relation.ReflTransGen.refl hba
      · exact hab
  le_antisymm a b hab hba := by
    rcases le_iff_eq_or_lt'.mp hab with rfl | hab
    · rfl
    · rcases le_iff_eq_or_lt'.mp hba with rfl | hba
      · rfl
      · exact absurd (depth_lt_depth hba) (lt_asymm (depth_lt_depth hab))

lemma depth_le_depth (h : a ≤ b) : a.depth ≤ b.depth := by
  rcases h.eq_or_lt' with rfl | h
  · exact le_rfl
  · exact (depth_lt_depth h).le

lemma le_of_depth_le {c : Event D} (h : a ≤ c ∨ c ≤ a) (hd : a.depth ≤ c.depth) : a ≤ c := by
  rcases h with h | h
  · exact h
  · rcases h.eq_or_lt' with rfl | h
    · exact le_rfl
    · exact absurd (depth_lt_depth h) (not_lt.mpr hd)

lemma lt_iff_pred : a < e ↔ ∃ p ∈ e.preds, a ≤ p := by
  constructor
  · intro h
    obtain ⟨p, hap, hp⟩ := Relation.TransGen.tail'_iff.mp h
    exact ⟨p, hp, hap⟩
  · rintro ⟨p, hp, hap⟩
    exact Relation.TransGen.tail'_iff.mpr ⟨p, hap, hp⟩

lemma of_le_of_closed (hP : ∀ e, P e → ∀ p ∈ e.preds, P p) (hae : a ≤ e) (he : P e) : P a := by
  induction e using Event.induction with
  | h e ih =>
    rcases hae.eq_or_lt' with rfl | hlt
    · exact he
    · obtain ⟨p, hp, hap⟩ := lt_iff_pred.mp hlt
      exact ih p hp hap (hP e he p hp)

def history (e : Event D) : List (Event D) := e.fold fun t l ps => mk t l (ps.map Prod.fst) :: ps.flatMap Prod.snd

lemma history_eq (e : Event D) : e.history = e :: e.preds.flatMap history := by
  conv_lhs => rw [history, fold_eq]
  rw [flatMap_map]
  refine congrArg₂ cons ?_ rfl
  obtain ⟨t, l, ps⟩ := e
  simp [Function.comp_def]

lemma mem_history : a ∈ e.history ↔ a ≤ e := by
  induction e using induction with
  | h e ih =>
    rw [history_eq, mem_cons, mem_flatMap, le_iff_eq_or_lt', lt_iff_pred, eq_comm]
    exact or_congr_right (exists_congr fun p => and_congr_right fun hp => ih p hp)

lemma mem_causes : a ∈ e.preds.flatMap history ↔ a < e := by
  simp [mem_history, lt_iff_pred]

instance [DecidableEq D] (a b : Event D) : Decidable (a ≤ b) := decidable_of_iff _ mem_history

instance [DecidableEq D] (a b : Event D) : Decidable (a < b) := decidable_of_iff _ mem_causes

/-! ## Chains of predecessors -/

def chain [DecidableEq D] (next : Event D → Option (Event D)) (e : Event D) : List (Event D) :=
  e.fold fun t l ps =>
    mk t l (ps.map Prod.fst) ::
      match next (mk t l (ps.map Prod.fst)) with
      | none => []
      | some p => ((ps.find? fun q => q.1 = p).map Prod.snd).getD []

lemma find?_pair_of_mem [DecidableEq D] {β : Type} (g : Event D → β) {ps : List (Event D)} (h : p ∈ ps) :
    (ps.map fun q => (q, g q)).find? (fun q => q.1 = p) = some (p, g p) := by
  induction ps with
  | nil => simp at h
  | cons q qs ih =>
    by_cases hq : q = p
    · simp [hq]
    · have hp : p ∈ qs := (mem_cons.mp h).resolve_left fun h => hq h.symm
      simpa [hq] using ih hp

section
variable (hnext : ∀ {e p}, next e = some p → p ∈ e.preds)
include hnext

lemma chain_eq [DecidableEq D] (e : Event D) : e.chain next = e :: (next e).elim [] (chain next) := by
  conv_lhs => rw [chain, fold_eq]
  have hself : mk e.tid e.label ((e.preds.map fun p => (p, p.chain next)).map Prod.fst) = e := by
    obtain ⟨t, l, ps⟩ := e
    simp [Function.comp_def]
  simp only [← chain.eq_1, hself]
  cases hn : next e with
  | none => rfl
  | some p =>
    simp [find?_pair_of_mem _ (hnext hn)]

lemma of_mem_chain [DecidableEq D] (hP : ∀ {e p}, P e → next e = some p → P p) (he : P e)
    (h : a ∈ e.chain next) : P a := by
  induction e using induction with
  | h e ih =>
    rw [chain_eq hnext] at h
    rcases mem_cons.mp h with rfl | h
    · exact he
    · cases hn : next e with
      | none => simp [hn] at h
      | some p =>
        rw [hn] at h
        exact ih p (hnext hn) (hP he hn) h

lemma le_of_mem_chain [DecidableEq D] (h : a ∈ e.chain next) : a ≤ e :=
  of_mem_chain hnext (P := (· ≤ e)) (fun hx hp => (lt_of_mem_preds (hnext hp)).le.trans hx) le_rfl h

lemma getLast?_chain [DecidableEq D] (e : Event D) : ∃ z ∈ (e.chain next).getLast?, next z = none := by
  induction e using induction with
  | h e ih =>
    rw [chain_eq hnext]
    cases hn : next e with
    | none => exact ⟨e, by simp, hn⟩
    | some p =>
      have hne : p.chain next ≠ [] := by simp [chain_eq hnext p]
      rw [Option.elim_some, getLast?_cons_of_ne_nil hne]
      exact ih p (hnext hn)

lemma pairwise_chain [DecidableEq D] (e : Event D) : (e.chain next).Pairwise (fun a b => b < a) := by
  induction e using induction with
  | h e ih =>
    rw [chain_eq hnext]
    cases hn : next e with
    | none => exact pairwise_singleton _ _
    | some p =>
      refine pairwise_cons.mpr ⟨fun a ha => ?_, ih p (hnext hn)⟩
      exact (le_of_mem_chain hnext ha).trans_lt (lt_of_mem_preds (hnext hn))

lemma le_total_of_mem_chain [DecidableEq D] (ha : a ∈ e.chain next) (hb : b ∈ e.chain next) : a ≤ b ∨ b ≤ a := by
  rcases ListSearch.rel_or_rel_of_mem (pairwise_chain hnext e) ha hb with rfl | h | h
  · exact .inl le_rfl
  · exact .inr h.le
  · exact .inl h.le

lemma exists_next_of_lt [DecidableEq D] (ha : a ∈ e.chain next)
    (hb : b ∈ e.chain next) (hab : a < b) : ∃ p, next b = some p ∧ a ≤ p := by
  induction e using induction with
  | h e ih =>
    have hae := le_of_mem_chain hnext hb
    rw [chain_eq hnext] at ha hb
    replace ha : a ∈ (next e).elim [] (chain next) :=
      (mem_cons.mp ha).resolve_left fun h => not_le_of_gt hab (h ▸ hae)
    cases hn : next e with
    | none => simp [hn] at ha
    | some p =>
      rw [hn] at ha hb
      rcases mem_cons.mp hb with rfl | hb
      · exact ⟨p, hn, le_of_mem_chain hnext ha⟩
      · exact ih p (hnext hn) ha hb

end

/-! ## The accessors of the event classes -/

def threadPredecessor (e : Event D) : Option (Event D) :=
  match e.label with
  | .programInit | .threadInit => none
  | _ => e.preds[0]?

def lockPredecessor (e : Event D) : Option (Event D) :=
  match e.label with
  | .lockAcquire _ | .lockDestroy _ | .lockRelease _ _ | .wait1 _ _ => e.preds[1]?
  | .wait2 _ _ => e.preds[2]?
  | _ => none

def conditionVariablePredecessors (e : Event D) : List (Event D) :=
  match e.label with
  | .wait1 _ _ => e.preds.drop 2
  | .wait2 _ _ => e.preds.take 2
  | .signal _ | .broadcast _ | .conditionVariableDestroy _ => e.preds.drop 1
  | _ => []

def notifyingPredecessor (e : Event D) : Option (Event D) :=
  match e.label with
  | .wait2 _ _ => e.preds[1]?
  | _ => none

def createdTid (e : Event D) : ThreadId :=
  match e.label with
  | .threadCreate t => t
  | _ => .empty

def joinedThreadPredecessor (e : Event D) : Option (Event D) :=
  match e.label with
  | .threadJoin => e.preds[1]?
  | _ => none

def joinedThread (e : Event D) : ThreadId := (e.joinedThreadPredecessor.map tid).getD .empty

def endsAtomicOperation (e : Event D) : Bool :=
  match e.label with
  | .threadInit => true
  | .threadExit atomic | .lockRelease _ atomic => atomic
  | _ => false

def atomicPredecessor (e : Event D) : Option (Event D) :=
  match e.label with
  | .threadInit => e.preds[0]?
  | .threadExit true => e.threadPredecessor
  | .lockRelease _ true => e.lockPredecessor
  | _ => none

/-- Lock events list a predecessor that is both the thread's and the lock's only once. -/
def predecessors [DecidableEq D] (e : Event D) : List (Event D) :=
  match e.label with
  | .lockAcquire _ | .lockDestroy _ | .lockRelease _ _ =>
    match e.preds with
    | [a, b] => if a = b then [a] else [a, b]
    | ps => ps
  | _ => e.preds

def signalIsLost (e : Event D) : Bool :=
  match e.preds with
  | [_, w] => w.kind ≠ .wait1
  | _ => true

def signalWaitPredecessor (e : Event D) : Option (Event D) :=
  match e.preds with
  | [_, w] => if w.kind = .wait1 then some w else none
  | _ => none

def notifiedThread (e : Event D) : ThreadId :=
  match e.preds with
  | [_, w] => if w.kind = .wait1 then w.tid else .empty
  | _ => .empty

/-- `_num_notified_threads`, the number of wait1 events among the predecessors. -/
def numNotified (e : Event D) : ℕ := ((e.preds.drop 1).filter fun p => p.kind = .wait1).length

def broadcastIsLost (e : Event D) : Bool := e.numNotified = 0

def broadcastWaitPredecessors (e : Event D) : List (Event D) := (e.preds.drop 1).take e.numNotified

def isNotifyingThread (e : Event D) (t : ThreadId) : Bool := e.broadcastWaitPredecessors.any fun w => w.tid = t

def waitPredecessors (e : Event D) : List (Event D) :=
  match e.label with
  | .signal _ => e.signalWaitPredecessor.toList
  | .broadcast _ => e.broadcastWaitPredecessors
  | _ => []

lemma mem_predecessors [DecidableEq D] : p ∈ e.predecessors ↔ p ∈ e.preds := by
  unfold predecessors
  split
  · split
    · rename_i a b h
      rw [h]
      split_ifs with hab
      · simp [hab]
      · rfl
    · rfl
  · split
    · rename_i a b h
      rw [h]
      split_ifs with hab
      · simp [hab]
      · rfl
    · rfl
  · split
    · rename_i a b h
      rw [h]
      split_ifs with hab
      · simp [hab]
      · rfl
    · rfl
  · rfl

lemma lt_iff_transGen_predecessors [DecidableEq D] :
    a < b ↔ Relation.TransGen (fun p e : Event D => p ∈ e.predecessors) a b := by
  simp only [mem_predecessors]
  exact Iff.rfl

lemma threadPred_mem (h : e.threadPredecessor = some p) : p ∈ e.preds := by
  unfold threadPredecessor at h
  split at h
  · simp at h
  · simp at h
  · exact mem_of_getElem? h

lemma threadPred_lt (h : e.threadPredecessor = some p) : p < e := lt_of_mem_preds (threadPred_mem h)

lemma lockPred_mem (h : e.lockPredecessor = some p) : p ∈ e.preds := by
  unfold lockPredecessor at h
  split at h
  any_goals exact mem_of_getElem? h
  simp at h

lemma lockPred_lt (h : e.lockPredecessor = some p) : p < e := lt_of_mem_preds (lockPred_mem h)

lemma condPreds_subset (h : p ∈ e.conditionVariablePredecessors) : p ∈ e.preds := by
  unfold conditionVariablePredecessors at h
  split at h
  any_goals exact mem_of_mem_drop h
  · exact mem_of_mem_take h
  · simp at h

lemma notifyingPred_mem (h : e.notifyingPredecessor = some p) : p ∈ e.preds := by
  unfold notifyingPredecessor at h
  split at h
  · exact mem_of_getElem? h
  · simp at h

lemma joinedThreadPred_mem (h : e.joinedThreadPredecessor = some p) : p ∈ e.preds := by
  unfold joinedThreadPredecessor at h
  split at h
  · exact mem_of_getElem? h
  · simp at h

lemma signalWait_iff : e.signalWaitPredecessor = some w ↔ w.kind = .wait1 ∧ ∃ p, e.preds = [p, w] := by
  unfold signalWaitPredecessor
  split
  · rename_i p v h
    rw [h]
    split_ifs with hv
    · constructor
      · intro hw
        cases hw
        exact ⟨hv, p, rfl⟩
      · rintro ⟨-, q, hq⟩
        simp at hq
        exact congrArg some hq.2
    · constructor
      · intro hw
        simp at hw
      · rintro ⟨hw, q, hq⟩
        simp at hq
        exact absurd (hq.2 ▸ hw) hv
  · rename_i h
    constructor
    · intro hw
      simp at hw
    · rintro ⟨-, q, hq⟩
      exact absurd hq (h q w)

lemma waitPreds_subset (h : w ∈ e.waitPredecessors) : w ∈ e.preds := by
  unfold waitPredecessors at h
  split at h
  · obtain ⟨-, p, hp⟩ := signalWait_iff.mp (Option.mem_toList.mp h)
    rw [hp]
    simp
  · exact mem_of_mem_drop (mem_of_mem_take h)
  · simp at h

lemma lt_of_waitPreds (h : w ∈ e.waitPredecessors) : w < e :=
  lt_of_mem_preds (waitPreds_subset h)

/-- The events of a thread up to `e`, as `configuration_iterator` visits them. -/
def threadChain [DecidableEq D] (e : Event D) : List (Event D) := e.chain threadPredecessor

/-- The events on a lock up to `e`, as the loops of `cex_acquire` visit them. -/
def lockChain [DecidableEq D] (e : Event D) : List (Event D) := e.chain lockPredecessor

lemma threadChain_eq [DecidableEq D] (e : Event D) : e.threadChain = e :: e.threadPredecessor.elim [] threadChain :=
  chain_eq threadPred_mem e

lemma lockChain_eq [DecidableEq D] (e : Event D) : e.lockChain = e :: e.lockPredecessor.elim [] lockChain :=
  chain_eq lockPred_mem e

end Event
end Por
