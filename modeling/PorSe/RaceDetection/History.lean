import PorSe.RaceDetection.AccessRecord
import PorSe.Por.Reachable

/-! Execution histories: events extend the configuration and accesses are tracked after
the heads of their threads. The detector then knows, for each event and each object that
was never freed, what the accesses after the event did. -/

namespace RaceDetection
open List Por.Event SortedMap
open Por

variable {I E D : Type} [Offset E] [DecidableEq D]

def chainOf (C : Configuration D) (tid : ThreadId) : List (Event D) := (C.lastOfTid tid).elim [] Event.threadChain

def operationsAt (log : List (Event D × MemoryOperation I E)) (ev : Event D) (address : ℕ) :
    List (MemoryOperation I E) :=
  (log.filter fun p => decide (p.1 = ev ∧ p.2.object.address = address)).map Prod.snd

namespace DataRaceDetection

variable (det : DataRaceDetection I E D)

/-- What is recorded for the object in the epoch after `ev`, if that is the last one. -/
def recordAfter (ev : Event D) (op : MemoryOperation I E) : AccessRecord I E :=
  ((det.getAccessesAfter op.tid ev).1.find? op.object.address).getD .empty

/-- Reads and writes at concrete offsets do not wrap around, and no key is moved to the end of the access. -/
def KeepsKeys (ev : Event D) (op : MemoryOperation I E) : Prop :=
  ∀ b, Offset.constantValue op.offset = some b → (isRead op.type || isWrite op.type) = true → b + op.numBytes < 2 ^ 64 ∧
      ¬ MovesKey (det.recordAfter ev op).getConcreteAccesses.entries b (b + op.numBytes) op

end DataRaceDetection

/-- Histories whose tracked accesses all meet the condition, with the log of those accesses. -/
inductive History (P : DataRaceDetection I E D → Event D → MemoryOperation I E → Prop) :
    Configuration D → DataRaceDetection I E D → List (Event D × MemoryOperation I E) → Prop
  | start : History P .initial .empty []
  | extend {C : Configuration D} {det : DataRaceDetection I E D} {log : List (Event D × MemoryOperation I E)}
      {op : Op D} {e : Event D} (h : History P C det log) (he : C.extend op = some e) : History P (C.commit e) det log
  | track {C : Configuration D} {det det' : DataRaceDetection I E D} {log : List (Event D × MemoryOperation I E)}
      {op : MemoryOperation I E} {ev : Event D} (h : History P C det log) (hev : C.lastOfTid op.tid = some ev)
      (hP : P det ev op) (htrack : det.trackAccess C op = .ok det') : History P C det' (log ++ [(ev, op)])

variable {C : Configuration D} {det det' : DataRaceDetection I E D} {log : List (Event D × MemoryOperation I E)}
  {op : MemoryOperation I E} {ev e : Event D} {tid : ThreadId} {address : ℕ}

variable {P : DataRaceDetection I E D → Event D → MemoryOperation I E → Prop} {o : Op D}
  {epoch epoch' : EpochMemoryAccesses I E} {ops : List (MemoryOperation I E)}

lemma History.reachable (h : History P C det log) : Configuration.Reachable Configuration.anyOp C := by
  induction h with
  | start => exact .initial
  | extend _ he ih => exact ih.commit trivial he
  | track _ _ _ _ ih => exact ih

lemma History.of_reachable (h : Configuration.Reachable Configuration.anyOp C) : History P C .empty [] := by
  induction h with
  | initial => exact .start
  | commit _ _ he ih => exact ih.extend he

/-! ## The chain of a thread -/

lemma pairwise_chainOf (C : Configuration D) (tid : ThreadId) : (chainOf C tid).Pairwise fun a b => b < a := by
  rw [chainOf]
  cases C.lastOfTid tid with
  | none => exact .nil
  | some h => exact pairwise_chain threadPred_mem h

lemma isChain_threadChain (e : Event D) : e.threadChain.IsChain fun a b => a.threadPredecessor = some b := by
  induction e using Event.induction with
  | h e ih =>
    rw [threadChain_eq]
    cases hp : e.threadPredecessor with
    | none => exact .singleton e
    | some p =>
      have hih := ih p (threadPred_mem hp)
      rw [Option.elim_some]
      rw [threadChain_eq] at hih ⊢
      exact isChain_cons_cons.mpr ⟨hp, hih⟩

lemma tid_of_mem_chainOf (hW : C.WellFormed) (he : e ∈ chainOf C tid) : e.tid = tid := by
  rw [chainOf] at he
  cases hh : C.lastOfTid tid with
  | none => simp [hh] at he
  | some h =>
    rw [hh] at he
    rw [tid_of_chain (hW.valid (Configuration.mem_of_lastOfTid hh)) he, hW.tid_of_lastOfTid hh]

lemma chainOf_commit (h : C.Extends o e) (tid : ThreadId) :
    chainOf (C.commit e) tid = if e.tid = tid then e :: chainOf C tid else chainOf C tid := by
  rw [chainOf, Configuration.lastOfTid_commit]
  split_ifs with ht
  · rw [Option.elim_some, threadChain_eq, h.threadPredecessor_eq, ht]
    rfl
  · rfl

lemma chainOf_sublist_commit (h : C.Extends o e) (tid : ThreadId) :
    (chainOf C tid).Sublist (chainOf (C.commit e) tid) := by
  rw [chainOf_commit h]
  split_ifs
  · exact sublist_cons_self _ _
  · exact .refl _

/-! ## What `trackAccess` does -/

namespace DataRaceDetection

def Advances (op : MemoryOperation I E) (epoch epoch' : EpochMemoryAccesses I E) : Prop :=
  if isFree op.type then epoch' = epoch.pruneDataForMemoryObject op.object
  else epoch.trackMemoryOperation op = .ok epoch'

lemma trackAccess_ok (hev : C.lastOfTid op.tid = some ev) (h : det.trackAccess C op = .ok det') :
    op.type ≠ .unknown ∧ (isAllocOrFree op.type = true ∨ op.numBytes ≠ 0) ∧
    ∃ epoch, Advances op (det.getAccessesAfter op.tid ev).1 epoch ∧ ∀ tid, det'.getAccessListOfThread tid =
      if op.tid = tid then (ev, epoch) :: (det.getAccessesAfter op.tid ev).2 else det.getAccessListOfThread tid := by
  have hlist : ∀ epoch tid, (⟨det.accesses.insert op.tid ((ev, epoch) :: (det.getAccessesAfter op.tid ev).2)⟩ :
      DataRaceDetection I E D).getAccessListOfThread tid = if op.tid = tid then
        (ev, epoch) :: (det.getAccessesAfter op.tid ev).2 else det.getAccessListOfThread tid := by
    intro epoch tid
    rw [getAccessListOfThread, find?_insert]
    split_ifs <;> rfl
  rw [trackAccess] at h
  by_cases hassert : op.type = .unknown ∨ op.tid.isEmpty ∨ ¬ (isAllocOrFree op.type || op.numBytes ≠ 0)
  · rw [if_pos hassert] at h
    cases h
  rw [show C.threadHeads.find? op.tid = some ev from hev] at h
  push Not at hassert
  refine ⟨hassert.1, by simpa using hassert.2.2, ?_⟩
  dsimp only [Advances] at h ⊢
  split_ifs at h ⊢ with hfree
  · obtain rfl := Except.ok.inj h
    exact ⟨_, rfl, hlist _⟩
  · cases hacc : (det.getAccessesAfter op.tid ev).1.trackMemoryOperation op with
    | error f =>
      rw [hacc] at h
      cases h
    | ok epoch =>
      rw [hacc] at h
      obtain rfl := Except.ok.inj h
      exact ⟨epoch, rfl, hlist epoch⟩

lemma getAccessesAfter_cases (h : ((det.getAccessListOfThread tid).map Prod.fst).Sublist ev.threadChain) :
    (ev :: (det.getAccessesAfter tid ev).2.map Prod.fst).Sublist ev.threadChain ∧
    (det.getAccessListOfThread tid = (ev, (det.getAccessesAfter tid ev).1) :: (det.getAccessesAfter tid ev).2 ∨
      (det.getAccessesAfter tid ev).1 = SortedMap.empty ∧
        det.getAccessListOfThread tid = (det.getAccessesAfter tid ev).2) := by
  rw [getAccessesAfter]
  rcases hL : det.getAccessListOfThread tid with _ | ⟨⟨back, epoch⟩, older⟩
  · refine ⟨?_, .inr ⟨rfl, rfl⟩⟩
    rw [threadChain_eq]
    exact (nil_sublist _).cons_cons ev
  · rw [hL] at h
    dsimp only
    split_ifs with hback
    · subst hback
      exact ⟨h, .inl rfl⟩
    · refine ⟨?_, .inr ⟨rfl, rfl⟩⟩
      rw [threadChain_eq] at h ⊢
      rcases sublist_cons_iff.mp h with h | ⟨r, hr, -⟩
      · exact h.cons_cons ev
      · exact absurd (cons.inj hr).1 hback

end DataRaceDetection

/-! ## What the epochs tell -/

omit [Offset E] in
lemma operationsAt_concat (log : List (Event D × MemoryOperation I E)) (ev e : Event D) (op : MemoryOperation I E)
    (address : ℕ) : operationsAt (log ++ [(ev, op)]) e address =
      operationsAt log e address ++ if ev = e ∧ op.object.address = address then [op] else [] := by
  rw [operationsAt, filter_append, map_append]
  congr 1
  by_cases h : ev = e ∧ op.object.address = address <;> simp [h]

omit [Offset E] in
lemma mem_operationsAt : op ∈ operationsAt log ev address ↔ (ev, op) ∈ log ∧ op.object.address = address := by
  simp only [operationsAt, mem_map, mem_filter, decide_eq_true_eq]
  constructor
  · rintro ⟨⟨_, _⟩, ⟨hmem, rfl, ha⟩, rfl⟩
    exact ⟨hmem, ha⟩
  · rintro ⟨hmem, ha⟩
    exact ⟨(ev, op), ⟨hmem, rfl, ha⟩, rfl⟩

def EpochExact (epoch : EpochMemoryAccesses I E) (address : ℕ) (ops : List (MemoryOperation I E)) : Prop :=
  match epoch.find? address with
  | none => ops = []
  | some r => r.Exact ops

lemma EpochExact.record (h : EpochExact epoch address ops) : ((epoch.find? address).getD .empty).Exact ops := by
  rw [EpochExact] at h
  cases hr : epoch.find? address with
  | none =>
    rw [hr] at h
    exact h ▸ AccessRecord.exact_empty
  | some r => simpa [hr] using h

lemma epochExact_congr (h : epoch'.find? address = epoch.find? address) :
    EpochExact epoch' address ops ↔ EpochExact epoch address ops := by
  rw [EpochExact, EpochExact, h]

def NeverFreed (log : List (Event D × MemoryOperation I E)) (address : ℕ) : Prop :=
  ∀ p ∈ log, p.2.object.address = address → isFree p.2.type = false

structure Loggable (op : MemoryOperation I E) : Prop where
  type : op.type ≠ .unknown
  bytes : isAllocOrFree op.type = true ∨ op.numBytes ≠ 0
  lt : ∀ b, Offset.constantValue op.offset = some b → (isRead op.type || isWrite op.type) = true →
    b + op.numBytes < 2 ^ 64

/-- Epochs follow the events of their thread and tell exactly what was tracked after these. -/
structure Tracks (C : Configuration D) (det : DataRaceDetection I E D)
    (log : List (Event D × MemoryOperation I E)) : Prop where
  chain : ∀ tid, ((det.getAccessListOfThread tid).map Prod.fst).Sublist (chainOf C tid)
  logged : ∀ p ∈ log, p.1.tid = p.2.tid ∧ p.1 ∈ (det.getAccessListOfThread p.2.tid).map Prod.fst
  loggable : ∀ p ∈ log, Loggable p.2
  exact : ∀ tid, ∀ p ∈ det.getAccessListOfThread tid, ∀ address, NeverFreed log address →
    EpochExact p.2 address (operationsAt log p.1 address)

lemma Tracks.commit (h : Tracks C det log) (he : C.Extends o e) : Tracks (C.commit e) det log where
  chain tid := (h.chain tid).trans (chainOf_sublist_commit he tid)
  logged := h.logged
  loggable := h.loggable
  exact := h.exact

omit [Offset E] [DecidableEq D] in
lemma NeverFreed.of_concat (h : NeverFreed (log ++ [(ev, op)]) address) :
    NeverFreed log address ∧ (op.object.address = address → isFree op.type = false) :=
  ⟨fun p hp => h p (mem_append_left _ hp), h (ev, op) (by simp)⟩

lemma EpochExact.advances (h : EpochExact epoch address ops) (hop : Loggable op)
    (hkeeps : ∀ b, Offset.constantValue op.offset = some b → (isRead op.type || isWrite op.type) = true →
      ¬ MovesKey ((epoch.find? op.object.address).getD .empty).getConcreteAccesses.entries b (b + op.numBytes) op)
    (hfree : op.object.address = address → isFree op.type = false)
    (hadv : DataRaceDetection.Advances op epoch epoch') :
    EpochExact epoch' address (ops ++ if op.object.address = address then [op] else []) := by
  rw [DataRaceDetection.Advances] at hadv
  split_ifs at hadv with hf
  · have hne : op.object.address ≠ address := fun ha => by simp [hfree ha] at hf
    rw [if_neg hne, append_nil, hadv, epochExact_congr]
    · exact h
    · rw [EpochMemoryAccesses.pruneDataForMemoryObject, find?_erase, if_neg hne]
  · rw [EpochMemoryAccesses.trackMemoryOperation] at hadv
    by_cases ha : op.object.address = address
    · subst ha
      obtain ⟨r', hr', hexact⟩ := h.record.trackMemoryOperation hop.type fun b hb hrw =>
        ⟨⟨hrw, hb, Nat.pos_of_ne_zero (hop.bytes.resolve_left fun halloc => by
          cases ht : op.type <;> simp [ht, isAllocOrFree, isRead, isWrite] at halloc hrw), hop.lt b hb hrw⟩,
          hkeeps b hb hrw⟩
      rw [hr'] at hadv
      obtain rfl := Except.ok.inj hadv
      rw [if_pos rfl, EpochExact, find?_insert_self]
      exact hexact
    · cases hr : ((epoch.find? op.object.address).getD .empty).trackMemoryOperation op with
      | error f =>
        rw [hr] at hadv
        cases hadv
      | ok r' =>
        rw [hr] at hadv
        obtain rfl := Except.ok.inj hadv
        rw [if_neg ha, append_nil, epochExact_congr (find?_insert_ne _ _ ha)]
        exact h

lemma Tracks.epochExact_last (h : Tracks C det log) (hW : C.WellFormed) (hev : C.lastOfTid tid = some ev)
    (hnever : NeverFreed log address) :
    EpochExact (det.getAccessesAfter tid ev).1 address (operationsAt log ev address) := by
  have hchain := h.chain tid
  rw [chainOf, hev] at hchain
  obtain ⟨hsub, hL | ⟨hempty, hL⟩⟩ := DataRaceDetection.getAccessesAfter_cases hchain
  · exact h.exact tid (ev, (det.getAccessesAfter tid ev).1) (hL ▸ mem_cons_self) address hnever
  · -- A new epoch: those of the thread follow earlier events, so nothing was tracked after `ev`.
    rw [hempty]
    refine eq_nil_iff_forall_not_mem.mpr fun _ hop' => ?_
    obtain ⟨ht, hmem⟩ := h.logged _ (mem_operationsAt.mp hop').1
    rw [← ht, hW.tid_of_lastOfTid hev, hL] at hmem
    have hpw := (pairwise_chain threadPred_mem ev).sublist hsub
    exact lt_irrefl ev ((pairwise_cons.mp hpw).1 ev hmem)

lemma Tracks.track (h : Tracks C det log) (hW : C.WellFormed) (hev : C.lastOfTid op.tid = some ev)
    (hkeeps : det.KeepsKeys ev op) (htrack : det.trackAccess C op = .ok det') :
    Tracks C det' (log ++ [(ev, op)]) := by
  obtain ⟨htype, hbytes, _, hadv, hlist⟩ := DataRaceDetection.trackAccess_ok hev htrack
  have hop : Loggable op := ⟨htype, hbytes, fun b hb hrw => (hkeeps b hb hrw).1⟩
  have htid : ev.tid = op.tid := hW.tid_of_lastOfTid hev
  have hchain := h.chain op.tid
  rw [chainOf, hev] at hchain
  obtain ⟨hsub, hcases⟩ := DataRaceDetection.getAccessesAfter_cases hchain
  have hpw := (pairwise_chain threadPred_mem ev).sublist hsub
  have holder : ∀ p ∈ (det.getAccessesAfter op.tid ev).2, p ∈ det.getAccessListOfThread op.tid ∧ p.1 < ev := by
    intro p hp
    refine ⟨?_, (pairwise_cons.mp hpw).1 p.1 (mem_map_of_mem hp)⟩
    rcases hcases with hL | ⟨-, hL⟩ <;> rw [hL]
    · exact mem_cons_of_mem _ hp
    · exact hp
  refine ⟨fun tid => ?_, ?_, ?_, ?_⟩
  · rw [hlist]
    split_ifs with ht
    · rw [← ht, chainOf, hev]
      exact hsub
    · exact h.chain tid
  · intro p hp
    rcases mem_append.mp hp with hp | hp
    · obtain ⟨ht, hmem⟩ := h.logged p hp
      refine ⟨ht, ?_⟩
      rw [hlist]
      split_ifs with htop
      · rw [← htop] at hmem
        rcases hcases with hL | ⟨-, hL⟩ <;> rw [hL] at hmem
        · exact hmem
        · exact mem_cons_of_mem _ hmem
      · exact hmem
    · obtain rfl := mem_singleton.mp hp
      exact ⟨htid, by rw [hlist, if_pos rfl]; exact mem_cons_self⟩
  · intro p hp
    rcases mem_append.mp hp with hp | hp
    · exact h.loggable p hp
    · exact mem_singleton.mp hp ▸ hop
  · intro tid p hp address hnever
    obtain ⟨hlog, hfree⟩ := hnever.of_concat
    have hkept : p ∈ det.getAccessListOfThread tid → p.1 ≠ ev →
        EpochExact p.2 address (operationsAt (log ++ [(ev, op)]) p.1 address) := by
      intro hp hne
      rw [operationsAt_concat, if_neg fun hc => hne hc.1.symm, append_nil]
      exact h.exact tid p hp address hlog
    rw [hlist] at hp
    split_ifs at hp with ht
    · rcases mem_cons.mp hp with rfl | hp
      · rw [operationsAt_concat]
        simp only [true_and]
        exact (h.epochExact_last hW hev hlog).advances hop (fun b hb hrw => (hkeeps b hb hrw).2) hfree hadv
      · obtain ⟨hp, hlt⟩ := holder p hp
        exact hkept (ht ▸ hp) hlt.ne
    · refine hkept hp fun hpe => ht ?_
      have hp1 := (h.chain tid).subset (mem_map_of_mem hp)
      rw [← htid, ← hpe, tid_of_mem_chainOf hW hp1]

lemma History.tracks (h : History DataRaceDetection.KeepsKeys C det log) : Tracks C det log := by
  induction h with
  | start =>
    refine ⟨fun _ => nil_sublist _, by simp, by simp, fun _ p hp => ?_⟩
    exact absurd hp not_mem_nil
  | extend _ he ih => exact ih.commit (Configuration.extend_iff.mp he).1
  | track hist hev hP htrack ih => exact ih.track hist.reachable.wellFormed hev hP htrack

end RaceDetection
