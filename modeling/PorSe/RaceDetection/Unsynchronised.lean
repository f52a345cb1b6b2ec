import PorSe.RaceDetection.History

/-! The loops over the epochs of the other threads visit exactly the accesses that are
not synchronised with the head of the operating thread. -/

namespace RaceDetection
open List Option
open Por

variable {I E D : Type} [Offset E] [DecidableEq D]

/-- The thread successor of `a` is absent or not below the head of the other thread. -/
def Unsynchronised (C : Configuration D) (a cur : Event D) : Prop :=
  ∀ s ∈ C, s.threadPredecessor = some a → ¬ s < cur

variable {C : Configuration D} {det : DataRaceDetection I E D} {log : List (Event D × MemoryOperation I E)}
  {op : MemoryOperation I E} {a b cur target : Event D} {tid : ThreadId} {done rest : List (Event D)}

lemma mem_of_mem_chainOf (h : a ∈ chainOf C tid) : a ∈ C := by
  rw [chainOf] at h
  cases hh : C.lastOfTid tid with
  | none => simp [hh] at h
  | some e =>
    rw [hh] at h
    exact Configuration.mem_iff.mpr (.inl ⟨tid, e, hh, h⟩)

lemma mem_chainOf (hW : C.WellFormed) (ha : a ∈ C) (hk : a.kind ≠ .programInit) : a ∈ chainOf C a.tid := by
  obtain ⟨e, he, hae⟩ := hW.le_lastOfTid ha hk
  rw [chainOf, he]
  exact hW.mem_chain_of_le ha (Configuration.mem_of_lastOfTid he) (hW.tid_of_lastOfTid he).symm hk hae

lemma isChain_chainOf (C : Configuration D) (tid : ThreadId) :
    (chainOf C tid).IsChain fun a b => a.threadPredecessor = some b := by
  rw [chainOf]
  cases C.lastOfTid tid with
  | none => exact .nil
  | some e => exact isChain_threadChain e

lemma unsynchronised_iff (hW : C.WellFormed) (h : done ++ a :: rest = chainOf C tid) (cur : Event D) :
    Unsynchronised C a cur ↔ ∀ s ∈ done.getLast?, ¬ s < cur := by
  have hlink : ∀ s ∈ done.getLast?, s.threadPredecessor = some a := fun s hs =>
    (isChain_append.mp (h ▸ isChain_chainOf C tid)).2.2 s hs a rfl
  have hmem : ∀ {x}, x ∈ done ++ a :: rest → x ∈ C := fun hx => mem_of_mem_chainOf (h ▸ hx)
  have htid : ∀ {x}, x ∈ done ++ a :: rest → x.tid = tid := fun hx => tid_of_mem_chainOf hW (h ▸ hx)
  constructor
  · intro hun s hs
    exact hun s (hmem (mem_append_left _ (mem_of_getLast? hs))) (hlink s hs)
  · intro hlast s hs hsa
    have has : a < s := Event.lt_of_mem_preds (Event.threadPred_mem hsa)
    have hk : s.kind ≠ .programInit := (Event.kind_ne_of_threadPred hsa).1
    have hst : s.tid = tid := (Event.tid_of_threadPred (hW.checks hs) hsa).symm.trans (htid (by simp))
    have hpw := h ▸ pairwise_chainOf C tid
    have hsdone : s ∈ done := by
      have hschain : s ∈ done ++ a :: rest := h ▸ hst ▸ mem_chainOf hW hs hk
      refine (mem_append.mp hschain).resolve_right fun hsr => ?_
      rcases mem_cons.mp hsr with rfl | hsr
      · exact lt_irrefl s has
      · exact lt_asymm has ((pairwise_cons.mp (pairwise_append.mp hpw).2.1).1 s hsr)
    obtain ⟨_, s', rfl⟩ := (eq_nil_or_concat' done).resolve_left (ne_nil_of_mem hsdone)
    rw [hW.eq_of_threadPred hs (hmem (by simp)) hsa (hlink s' (by simp))]
    exact hlast s' (by simp)

lemma not_unsynchronised_of_mem (hW : C.WellFormed) (h : done ++ b :: rest = chainOf C tid) (ha : a ∈ rest)
    (hb : ¬ Unsynchronised C b cur) : ¬ Unsynchronised C a cur := by
  rw [unsynchronised_iff hW h] at hb
  push Not at hb
  obtain ⟨s, hs, hlt⟩ := hb
  obtain ⟨pre, _, rfl⟩ := append_of_mem ha
  have hpw := h ▸ pairwise_chainOf C tid
  have hbs : b < s := (pairwise_append.mp hpw).2.2 s (mem_of_getLast? hs) b mem_cons_self
  rw [← cons_append, ← append_assoc] at h
  rw [unsynchronised_iff hW h]
  push Not
  have hlast : (done ++ b :: pre).getLast? = (b :: pre).getLast? := getLast?_append_of_ne_nil _ (by simp)
  obtain ⟨s', hs'⟩ := isSome_iff_exists.mp (getLast?_isSome.mpr (cons_ne_nil b pre))
  refine ⟨s', hlast.trans hs', lt_of_le_of_lt ?_ (hbs.trans hlt)⟩
  rcases mem_cons.mp (mem_of_getLast? hs') with rfl | hmem
  · exact le_rfl
  · have hcons := pairwise_cons.mp (pairwise_append.mp hpw).2.1
    exact (hcons.1 s' (mem_append_left _ hmem)).le

namespace DataRaceDetection

lemma skipTo_append (h : target ∉ done) (before : List (Event D)) :
    skipTo target before.getLast? (done ++ target :: rest) = ((before ++ done).getLast?, target :: rest) := by
  induction done generalizing before with
  | nil => rw [nil_append, skipTo, if_pos rfl, append_nil]
  | cons evt done ih =>
    have hne : evt ≠ target := fun heq => h (heq ▸ mem_cons_self)
    have hlast : some evt = (before ++ [evt]).getLast? := by simp
    rw [cons_append, skipTo, if_neg hne, hlast, ih fun hm => h (mem_cons_of_mem _ hm), append_assoc, singleton_append]

lemma mem_epochsToCheck (done : List (Event D)) (hW : C.WellFormed) (hcur : cur ∈ C) {epoch : EpochMemoryAccesses I E}
    {L : List (Event D × EpochMemoryAccesses I E)} (h : done ++ rest = chainOf C tid)
    (hL : (L.map Prod.fst).Sublist rest) :
    epoch ∈ epochsToCheck cur done.getLast? rest L ↔ ∃ a, (a, epoch) ∈ L ∧ Unsynchronised C a cur := by
  induction L generalizing done rest with
  | nil => simp [epochsToCheck]
  | cons p _ ih =>
    obtain ⟨ev, _⟩ := p
    obtain ⟨pre, post, rfl⟩ := append_of_mem (hL.subset mem_cons_self)
    have hpw := (pairwise_append.mp (h ▸ pairwise_chainOf C tid)).2.1
    have hpre : ev ∉ pre := fun hm => lt_irrefl ev ((pairwise_append.mp hpw).2.2 ev hm ev mem_cons_self)
    have hpost := ListSearch.sublist_of_cons_sublist_append hL hpre
    rw [epochsToCheck, skipTo_append hpre]
    dsimp only
    rw [← append_assoc] at h
    have hun := unsynchronised_iff hW h cur
    have htest : (done ++ pre).getLast?.any (·.isLessThan cur) = true ↔ ¬ Unsynchronised C ev cur := by
      rw [hun, Option.any_eq_true]
      push Not
      refine exists_congr fun s => and_congr_right fun hs => ?_
      have hmem : s ∈ chainOf C tid := by
        rw [← h]
        exact mem_append_left _ (mem_of_getLast? hs)
      exact hW.isLessThan_iff (mem_of_mem_chainOf hmem) hcur
    split_ifs with hsync
    · have hev := htest.mp hsync
      simp only [not_mem_nil, false_iff, not_exists, not_and]
      intro a ha
      rcases mem_cons.mp ha with heq | ha
      · obtain ⟨rfl, -⟩ := Prod.mk.inj heq
        exact hev
      · exact not_unsynchronised_of_mem hW h (hpost.subset (mem_map_of_mem ha)) hev
    · have hev := not_not.mp (mt htest.mpr hsync)
      rw [mem_cons, ih _ h (hpost.trans (sublist_cons_self ev post))]
      constructor
      · rintro (rfl | ⟨a, ha, hun⟩)
        · exact ⟨ev, mem_cons_self, hev⟩
        · exact ⟨a, mem_cons_of_mem _ ha, hun⟩
      · rintro ⟨a, ha, hun⟩
        rcases mem_cons.mp ha with heq | ha
        · exact .inl (Prod.mk.inj heq).2
        · exact .inr ⟨a, ha, hun⟩

lemma mem_recordsToCheck (hW : C.WellFormed) (hT : Tracks C det log) (hcur : cur ∈ C) {r : AccessRecord I E} :
    (tid, r) ∈ det.recordsToCheck C cur op ↔ tid ≠ op.tid ∧ ∃ a epoch, (a, epoch) ∈ det.getAccessListOfThread tid ∧
      Unsynchronised C a cur ∧ epoch.find? op.object.address = some r := by
  have hthread : ∀ {evt : Event D} {epoch : EpochMemoryAccesses I E}, C.lastOfTid tid = some evt →
      (epoch ∈ epochsToCheck cur none evt.threadChain (det.getAccessListOfThread tid) ↔
        ∃ a, (a, epoch) ∈ det.getAccessListOfThread tid ∧ Unsynchronised C a cur) := by
    intro evt epoch hevt
    have hchain : chainOf C tid = evt.threadChain := by rw [chainOf, hevt, elim_some]
    exact mem_epochsToCheck [] hW hcur hchain.symm (hchain ▸ hT.chain tid)
  simp only [recordsToCheck, mem_flatMap, Prod.exists]
  constructor
  · rintro ⟨_, evt, hentry, hmem⟩
    split_ifs at hmem with ht
    · cases hmem
    · obtain ⟨epoch, hepoch, hr⟩ := mem_filterMap.mp hmem
      obtain ⟨r', hr', heq⟩ := map_eq_some_iff.mp hr
      obtain ⟨rfl, rfl⟩ := Prod.mk.inj heq
      obtain ⟨a, ha, hun⟩ := (hthread (SortedMap.mem_entries_iff.mp hentry)).mp hepoch
      exact ⟨ht, a, epoch, ha, hun, hr'⟩
  · rintro ⟨ht, a, epoch, ha, hun, hr⟩
    have hmem := (hT.chain tid).subset (mem_map_of_mem ha)
    rw [chainOf] at hmem
    cases hevt : C.lastOfTid tid with
    | none => simp [hevt] at hmem
    | some evt =>
      refine ⟨tid, evt, SortedMap.mem_entries_iff.mpr hevt, ?_⟩
      rw [if_neg ht, mem_filterMap]
      exact ⟨epoch, (hthread hevt).mpr ⟨a, ha, hun⟩, by rw [EpochMemoryAccesses.getMemoryAccessesOfThread, hr]; rfl⟩

end DataRaceDetection

/-- The accesses of other threads to the object that are not synchronised with the head `cur`. -/
def Concurrent (C : Configuration D) (log : List (Event D × MemoryOperation I E)) (op : MemoryOperation I E)
    (cur : Event D) (m : MemoryOperation I E) : Prop :=
  ∃ a, (a, m) ∈ log ∧ m.tid ≠ op.tid ∧ m.object = op.object ∧ Unsynchronised C a cur

/-- The object was never freed and no other one is at its address. -/
def Live (log : List (Event D × MemoryOperation I E)) (obj : MemoryObject) : Prop :=
  ∀ p ∈ log, p.2.object.address = obj.address → p.2.object = obj ∧ isFree p.2.type = false

section
variable (hT : Tracks C det log) (hW : C.WellFormed) (hlive : Live log op.object)
include hT hW hlive

lemma Tracks.exact_of_find {r : AccessRecord I E} {epoch : EpochMemoryAccesses I E} (ht : tid ≠ op.tid)
    (hepoch : (a, epoch) ∈ det.getAccessListOfThread tid) (hun : Unsynchronised C a cur)
    (hfind : epoch.find? op.object.address = some r) : r.Exact (operationsAt log a op.object.address) ∧
      ∀ m ∈ operationsAt log a op.object.address, Concurrent C log op cur m := by
  have hexact := hT.exact tid _ hepoch op.object.address fun p hp ha => (hlive p hp ha).2
  rw [EpochExact, hfind] at hexact
  refine ⟨hexact, fun m hm => ?_⟩
  obtain ⟨hlog, haddr⟩ := mem_operationsAt.mp hm
  have hat : a.tid = tid := tid_of_mem_chainOf hW ((hT.chain tid).subset (mem_map_of_mem hepoch))
  exact ⟨a, hlog, (hT.logged _ hlog).1.symm.trans hat ▸ ht, (hlive _ hlog haddr).1, hun⟩

lemma Tracks.exact_of_mem (hcur : cur ∈ C) {r : AccessRecord I E} (hr : (tid, r) ∈ det.recordsToCheck C cur op) :
    ∃ ops, r.Exact ops ∧ ∀ m ∈ ops, Concurrent C log op cur m := by
  obtain ⟨ht, a, _, hepoch, hun, hfind⟩ := (DataRaceDetection.mem_recordsToCheck hW hT hcur).mp hr
  exact ⟨_, hT.exact_of_find hW hlive ht hepoch hun hfind⟩

lemma Tracks.exists_record (hcur : cur ∈ C) {m : MemoryOperation I E} (hm : Concurrent C log op cur m) :
    ∃ r ops, (m.tid, r) ∈ det.recordsToCheck C cur op ∧ r.Exact ops ∧ m ∈ ops ∧
      ∀ m' ∈ ops, Concurrent C log op cur m' := by
  obtain ⟨a, ha, ht, hobj, hun⟩ := hm
  obtain ⟨-, hmem⟩ := hT.logged _ ha
  obtain ⟨⟨a', epoch⟩, hepoch, rfl⟩ := mem_map.mp hmem
  have hops : m ∈ operationsAt log a' op.object.address := mem_operationsAt.mpr ⟨ha, by rw [hobj]⟩
  cases hr : epoch.find? op.object.address with
  | none =>
    have hexact := hT.exact m.tid _ hepoch op.object.address fun p hp haddr => (hlive p hp haddr).2
    rw [EpochExact, hr] at hexact
    rw [hexact] at hops
    cases hops
  | some r =>
    obtain ⟨hexact, hall⟩ := hT.exact_of_find hW hlive ht hepoch hun hr
    exact ⟨r, _, (DataRaceDetection.mem_recordsToCheck hW hT hcur).mpr ⟨ht, a', epoch, hepoch, hun, hr⟩, hexact,
      hops, hall⟩

end

end RaceDetection
