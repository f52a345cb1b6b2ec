import PorSe.Por.Combinations
import PorSe.Por.Notification

/-! Conflicting extensions of waits and notifications: `cex_wait1` and `cex_notification`
put the operation after other sets of concurrent events on its condition variable. -/

namespace Por
open List Option Event SortedMap ListSearch
namespace Comb
variable {D : Type} [DecidableEq D]

def max (m : Comb D) : List (Event D) :=
  maximals isLessThan (m.values.filterMap fun t => t.events.getLast?)

section
variable {C : Configuration D} (hC : C.WellFormed) {m : Comb D} (hm : m.BuiltFrom C) {x y : Event D}
include hC hm

lemma BuiltFrom.mem_of_mem_events (hx : x ∈ m.events) : x ∈ C :=
  have ⟨t, tooth, ht, hx⟩ := mem_events.mp hx
  ((hm.filled hC t tooth ht).2.2 x hx).2

omit [DecidableEq D] hC hm in
lemma mem_events_of_mem_max (hx : x ∈ m.max) : x ∈ m.events :=
  have ⟨tooth, htooth, hx⟩ := mem_filterMap.mp (mem_of_mem_maximals hx)
  mem_flatMap.mpr ⟨tooth, htooth, mem_of_getLast? hx⟩

/-- The last event of a tooth is above all others of its thread. -/
lemma BuiltFrom.exists_le_max (hy : y ∈ m.events) : ∃ x ∈ m.max, y ≤ x := by
  obtain ⟨t, tooth, ht, hy⟩ := mem_events.mp hy
  obtain ⟨hframed, hne, -⟩ := hm.filled hC t tooth ht
  obtain ⟨l, b, hb⟩ := (eq_nil_or_concat' tooth.events).resolve_left hne
  have hyb : y ≤ b := by
    rcases mem_append.mp (hb ▸ hy) with hy | hy
    · exact (hframed.lt_last hb hy).le
    · exact (mem_singleton.mp hy).le
  have hlast : ∀ {z}, z ∈ m.values.filterMap (fun t => t.events.getLast?) → z ∈ C := by
    intro z hz
    obtain ⟨s, hs, hz⟩ := mem_filterMap.mp hz
    exact hm.mem_of_mem_events hC (mem_flatMap.mpr ⟨s, hs, mem_of_getLast? hz⟩)
  have hbl : b ∈ m.values.filterMap fun t => t.events.getLast? :=
    mem_filterMap.mpr ⟨tooth, mem_values_iff.mpr ⟨t, ht⟩, by rw [hb, getLast?_concat]⟩
  have hless : ∀ {a c}, a ∈ m.values.filterMap (fun t => t.events.getLast?) →
      c ∈ m.values.filterMap (fun t => t.events.getLast?) → (a.isLessThan c = true ↔ a < c) :=
    fun ha hc => hC.isLessThan_iff (hlast ha) (hlast hc)
  obtain ⟨x, hx, hbx⟩ := exists_mem_maximals
    (fun ha hc hd hac hcd => (hless ha hd).mpr (((hless ha hc).mp hac).trans ((hless hc hd).mp hcd))) hbl
  refine ⟨x, hx, hyb.trans ?_⟩
  rcases hbx with rfl | hbx
  · exact le_rfl
  · exact ((hless hbl (mem_of_mem_maximals hx)).mp hbx).le

lemma BuiltFrom.mem_max_iff : x ∈ m.max ↔ Maximal (· ∈ m.events) x := by
  constructor
  · intro hx
    refine ⟨mem_events_of_mem_max hx, fun y hy hxy => ?_⟩
    obtain ⟨z, hz, hyz⟩ := hm.exists_le_max hC hy
    by_cases hxz : x = z
    · exact hxz ▸ hyz
    have hmem : ∀ {v}, v ∈ m.max → v ∈ C := fun hv => hm.mem_of_mem_events hC (mem_events_of_mem_max hv)
    have hlt := (hC.isLessThan_iff (hmem hx) (hmem hz)).mpr (lt_of_le_of_ne (hxy.trans hyz) hxz)
    rcases rel_or_rel_of_mem (pairwise_maximals isLessThan _) hx hz with rfl | h | h
    · exact hyz
    · simp [hlt] at h
    · simp [hlt] at h
  · rintro ⟨hx, hmax⟩
    obtain ⟨z, hz, hxz⟩ := hm.exists_le_max hC hx
    exact le_antisymm hxz (hmax (mem_events_of_mem_max hz) hxz) ▸ hz

lemma BuiltFrom.nodup_max : m.max.Nodup := by
  have hsub : ∀ ts : List (Tooth D), (ts.filterMap fun t => t.events.getLast?).Sublist (ts.flatMap Tooth.events) := by
    intro ts
    induction ts with
    | nil => simp
    | cons t ts ih =>
      rw [filterMap_cons, flatMap_cons]
      cases h : t.events.getLast? with
      | none => exact ih.trans (sublist_append_right _ _)
      | some b => exact (singleton_sublist.mpr (mem_of_getLast? h)).append ih
  exact ((hm.filled hC).nodup_events.sublist (hsub _)).sublist (maximals_sublist _ _)

lemma BuiltFrom.max_eq_singleton_iff : m.max = [x] ↔ IsGreatest {y | y ∈ m.events} x := by
  constructor
  · intro h
    refine ⟨mem_events_of_mem_max (h ▸ mem_singleton_self x), fun y hy => ?_⟩
    obtain ⟨z, hz, hyz⟩ := hm.exists_le_max hC hy
    exact mem_singleton.mp (h ▸ hz) ▸ hyz
  · rintro ⟨hx, hge⟩
    have hall : ∀ z, z ∈ m.max ↔ z = x := fun z => (hm.mem_max_iff hC).trans
      ⟨fun hz => le_antisymm (hge hz.1) (hz.2 hx (hge hz.1)), fun h => h ▸ ⟨hx, fun _ hy _ => hge hy⟩⟩
    exact perm_singleton.mp ((perm_ext_iff_of_nodup (hm.nodup_max hC) (nodup_singleton x)).mpr
      fun z => (hall z).trans mem_singleton.symm)

end

lemma builtFrom_ofEvents {C : Configuration D} {es : List (Event D)} (h : ∀ e ∈ es, e ∈ C) :
    (ofEvents es).BuiltFrom C :=
  es.foldlRecOn Comb.insert .empty fun _ hm e he => hm.insert (h e he)

end Comb

namespace Configuration
variable {D : Type} [DecidableEq D]

/-! ## `outstanding_wait1` -/

variable (cid : CondId)

def isRemovedBy (e w : Event D) : Bool :=
  match e.kind with
  | .signal => e.cid = cid && !e.signalIsLost && e.signalWaitPredecessor = some w
  | .broadcast =>
    e.cid = cid && !e.broadcastIsLost && e.broadcastWaitPredecessors.any fun n => n.tid = w.tid && n.depth = w.depth
  | _ => false

/-- The walk down one thread, up to an event less deep than all remaining waits. -/
def removeNotified (cid : CondId) : List (Event D) → List (Event D) → List (Event D)
  | [], wait1s => wait1s
  | _ :: _, [] => []
  | e :: es, w :: ws =>
    if e.depth < w.depth then w :: ws
    else removeNotified cid es ((w :: ws).filter fun v => !isRemovedBy cid e v)

def outstandingWait1 (cone : Cone D) : List (Event D) :=
  cone.values.foldl (fun wait1s c => removeNotified cid c.threadChain wait1s)
    ((cone.values.filter fun c => c.kind = .wait1 && c.cid = cid).insertionSort fun a b => a.depth ≤ b.depth)

/-- For a single event the source takes its cone, without the event itself. -/
def outstandingWait1Of (events : List (Event D)) : Option (List (Event D)) :=
  match events with
  | [] => none
  | [e] => some (outstandingWait1 cid e.cone)
  | es => some (outstandingWait1 cid (Cone.ofRange es))

/-! ## `cex_wait1` -/

def hasSmallerEntry (cone : Cone D) : List (ThreadId × Event D) → Option Bool
  | [] => some false
  | (tid, c) :: rest => do
    let d ← cone.find? tid
    if d.isLessThan c then some true else hasSmallerEntry cone rest

variable (e et : Event D)

variable (condCreate : Option (Event D))

def cexWait1For (M : List (Event D)) : Option (List (Event D)) := do
  let cone := Cone.ofEvents et condCreate M
  if cone.size ≤ e.cone.size then
    let cexFound ← if cone.size ≠ e.cone.size then some true else hasSmallerEntry cone e.cone.entries
    if cexFound then
      let lockPred ← e.lockPredecessor
      (allocWait1 e.tid e.cid e.lid et lockPred (M ++ condCreate.toList)).map ([·])
    else some []
  else none

def cexWait1 (isCutoff : Event D → Bool) (e : Event D) : Option (List (Event D)) := do
  let et ← e.threadPredecessor
  if isCutoff et then some []
  else
    let others := e.conditionVariablePredecessors.filter fun p => p.kind ≠ .conditionVariableCreate
    if others.all fun p => p.tid ≠ e.tid && !p.isLessThan et then
      let condCreate :=
        (e.conditionVariablePredecessors.filter fun p => p.kind = .conditionVariableCreate).getLast?
      let Ms ← (Comb.ofEvents others).concurrentCombinations
      let result ← Ms.mapM (cexWait1For e et condCreate)
      some result.flatten
    else none

/-! ## `cex_notification` -/

variable (C : Configuration D)

/-- What the walk visits: it leaves a thread at the first event on that of `e`, above `e` or below `et`. -/
def outsideOf (e et : Event D) : List (Event D) :=
  C.threadHeads.values.flatMap fun h => h.threadChain.takeWhile fun pred =>
    pred.tid ≠ e.tid && !e.isLessThan pred && !pred.isLessThan et

/-- What may go before a different notification on the condition variable of `e`. -/
def notificationComb (e et : Event D) : Comb D :=
  Comb.ofEvents ((C.outsideOf e et).filter fun pred =>
    pred.cid = e.cid && pred.kind ≠ .conditionVariableCreate && pred.kind ≠ .wait2)

def notificationCondCreate (e et : Event D) : Option (Event D) :=
  ((C.outsideOf e et).filter fun pred => pred.cid = e.cid && pred.kind = .conditionVariableCreate).getLast?

def wait1Comb (e et : Event D) : Comb D :=
  Comb.ofEvents ((C.outsideOf e et).filter fun pred => pred.cid = e.cid && pred.kind = .wait1)

def maxCondPredecessors : List (Event D) :=
  (Comb.ofEvents (e.conditionVariablePredecessors.filter fun p => !(p.tid = e.tid || p.isLessThan et))).max

variable (max M : List (Event D))

def isMax : Bool :=
  max.length = M.length && M.all fun m => max.all fun x => !m.isLessThan x

def onlyNonLost (M : List (Event D)) : Bool :=
  match M with
  | [m] => if m.kind = .broadcast then !m.broadcastIsLost else m.kind = .signal && !m.signalIsLost
  | M => M.all fun m => m.kind = .signal && !m.signalIsLost

def lostPredecessors (e : Event D) (M : List (Event D)) : List (Event D) :=
  M.filter fun m =>
    match m.kind with
    | .broadcast => !m.broadcastIsLost && !m.isNotifyingThread e.tid
    | .signal => !m.signalIsLost && m.notifiedThread ≠ e.tid
    | _ => false

def cexLostFor : Option (List (Event D)) := do
  if isMax max M then some []
  else if !onlyNonLost M then some []
  else
    let outstanding ← outstandingWait1Of e.cid (M ++ [et])
    if !outstanding.isEmpty then some []
    else
      let N := lostPredecessors e M ++ condCreate.toList
      match e.kind with
      | .signal => (allocLostSignal e.tid e.cid et N).map ([·])
      | .broadcast => (allocBroadcast e.tid e.cid et N).map ([·])
      | _ => some []

def notifiableWait1s (e et : Event D) : List (Event D) :=
  outstandingWait1 e.cid et.cone ++ (C.wait1Comb e et).events

def cexSignals (e et : Event D) : Option (List (Event D)) :=
  ((C.notifiableWait1s e et).filter fun w => e.signalWaitPredecessor ≠ some w).mapM
    (allocSignal e.tid e.cid et)

def onlyWaitsAndSignals (M : List (Event D)) : Bool :=
  M.all fun m => m.kind = .wait1 || m.kind = .signal && !m.signalIsLost

def cexBroadcastFor : Option (List (Event D)) := do
  if isMax max M then some []
  else if !onlyWaitsAndSignals M then some []
  else
    let outstanding ← outstandingWait1Of e.cid (M ++ [et])
    if outstanding.isEmpty then some []
    else (allocBroadcast e.tid e.cid et M).map ([·])

def cexNotification (isCutoff : Event D → Bool) (e : Event D) : Option (List (Event D)) := do
  let et ← e.threadPredecessor
  if isCutoff et then some []
  else
    let max := maxCondPredecessors e et
    let Ms ← (C.notificationComb e et).concurrentCombinations
    let lost ← Ms.mapM (cexLostFor e et (C.notificationCondCreate e et) max)
    match e.kind with
    | .signal => do
      let signals ← C.cexSignals e et
      some (lost.flatten ++ signals)
    | .broadcast => do
      let broadcasts ← Ms.mapM (cexBroadcastFor e et max)
      some (lost.flatten ++ broadcasts.flatten)
    | _ => none

/-! ## What is built for one combination -/

variable {e et b w : Event D} {max M xs ws N : List (Event D)} {C : Configuration D} {cid c : CondId} {t : ThreadId}

lemma mem_of_cexLostFor {condCreate : Option (Event D)} (h : cexLostFor e et condCreate max M = some xs)
    (hb : b ∈ xs) :
    isMax max M = false ∧ onlyNonLost M = true ∧ outstandingWait1Of e.cid (M ++ [et]) = some [] ∧ (e.kind = .signal ∧
          allocLostSignal e.tid e.cid et (lostPredecessors e M ++ condCreate.toList) = some b ∨
        e.kind = .broadcast ∧ allocBroadcast e.tid e.cid et (lostPredecessors e M ++ condCreate.toList) = some b) := by
  have hnil : ∀ {ys : List (Event D)}, some [] = some ys → b ∈ ys → False := by
    rintro ys h hb
    cases h
    simp at hb
  unfold cexLostFor at h
  split_ifs at h with hmax honly
  · exact (hnil h hb).elim
  · exact (hnil h hb).elim
  · obtain ⟨ws, hws, h⟩ := bind_eq_some_iff.mp h
    split_ifs at h with hne
    · exact (hnil h hb).elim
    · have hws' : ws = [] := by simpa using hne
      refine ⟨by simpa using hmax, by simpa using honly, hws' ▸ hws, ?_⟩
      cases hk : e.kind <;> simp only [hk] at h
      case signal =>
        obtain ⟨x, hx, rfl⟩ := map_eq_some_iff.mp h
        exact .inl ⟨rfl, mem_singleton.mp hb ▸ hx⟩
      case broadcast =>
        obtain ⟨x, hx, rfl⟩ := map_eq_some_iff.mp h
        exact .inr ⟨rfl, mem_singleton.mp hb ▸ hx⟩
      all_goals exact (hnil h hb).elim

lemma mem_cexBroadcastFor (h : cexBroadcastFor e et max M = some xs) :
    b ∈ xs ↔ isMax max M = false ∧ onlyWaitsAndSignals M = true ∧
      (∃ ws, outstandingWait1Of e.cid (M ++ [et]) = some ws ∧ ws ≠ []) ∧ allocBroadcast e.tid e.cid et M = some b := by
  unfold cexBroadcastFor at h
  split_ifs at h with hmax honly
  · cases h
    simp [hmax]
  · cases h
    simp at honly
    simp [honly]
  · obtain ⟨ws, hws, h⟩ := bind_eq_some_iff.mp h
    split_ifs at h with hne
    · cases h
      have hws' : ws = [] := by simpa using hne
      simp [hws, hws']
    · obtain ⟨x, hx, rfl⟩ := map_eq_some_iff.mp h
      have hws' : ws ≠ [] := by simpa using hne
      simp only [Bool.not_eq_true', Bool.not_eq_false] at hmax honly
      simp [hmax, honly, hws, hws', hx, eq_comm]

lemma exists_of_cexBroadcastFor (h : cexBroadcastFor e et max M = some xs) (hmax : isMax max M = false)
    (honly : onlyWaitsAndSignals M = true) (hws : outstandingWait1Of e.cid (M ++ [et]) = some ws) (hne : ws ≠ []) :
    ∃ b, b ∈ xs := by
  simp only [cexBroadcastFor, hmax, honly, hws, List.isEmpty_iff, hne, Bool.false_eq_true, Bool.not_true, if_false,
    bind_eq_bind, bind_some, map_eq_some_iff] at h
  obtain ⟨b, -, rfl⟩ := h
  exact ⟨b, mem_singleton_self b⟩

lemma outstandingOf_append (cid : CondId) (M : List (Event D)) (et : Event D) :
    ∃ ws, outstandingWait1Of cid (M ++ [et]) = some ws := by
  unfold outstandingWait1Of
  split
  · rename_i h
    simp at h
  · exact ⟨_, rfl⟩
  · exact ⟨_, rfl⟩

/-! ## The outstanding waits -/

lemma isRemovedBy_iff (hW : C.WellFormed) (he : e ∈ C) (hw : w ∈ C) (hc : w.cid = cid) :
    isRemovedBy cid e w = true ↔ w ∈ e.waitPredecessors := by
  have hcid : w ∈ e.waitPredecessors → e.cid = cid := fun h =>
    (waitPreds_of_checks (hW.checks he) h).2.1.symm.trans hc
  rw [mem_waitPreds] at hcid ⊢
  unfold isRemovedBy
  cases hk : e.kind <;> simp only [hk, reduceCtorEq, false_and, or_false, false_or, true_and, Bool.false_eq_true,
    Bool.and_eq_true, decide_eq_true_eq] at hcid ⊢
  case signal =>
    refine ⟨And.right, fun h => ⟨⟨hcid h, ?_⟩, h⟩⟩
    simp [← Bool.not_eq_true, signalIsLost_iff, h]
  case broadcast =>
    constructor
    · rintro ⟨-, hany⟩
      obtain ⟨n, hn, hnw⟩ := any_eq_true.mp hany
      simp only [Bool.and_eq_true, decide_eq_true_eq] at hnw
      have hnC : n ∈ C := hW.closed he (waitPreds_subset (mem_waitPreds.mpr (.inr ⟨hk, hn⟩)))
      exact hW.eq_of_depth_eq hnC hw hnw.1 hnw.2 ▸ hn
    · intro h
      refine ⟨⟨hcid h, ?_⟩, any_eq_true.mpr ⟨w, h, by simp⟩⟩
      simp only [Bool.not_eq_true', ← Bool.not_eq_true, broadcastIsLost_iff]
      exact ne_nil_of_mem h

lemma removeNotified_eq {es : List (Event D)} (hes : es.Pairwise fun a b => b.depth < a.depth)
    (hws : ws.Pairwise fun a b => a.depth ≤ b.depth)
    (hdeep : ∀ e ∈ es, ∀ w ∈ ws, isRemovedBy cid e w = true → w.depth < e.depth) :
    removeNotified cid es ws = ws.filter fun w => es.all fun e => !isRemovedBy cid e w := by
  induction es generalizing ws with
  | nil => simp [removeNotified]
  | cons e es ih =>
    obtain ⟨hlt, hes⟩ := pairwise_cons.mp hes
    cases ws with
    | nil => simp [removeNotified]
    | cons w ws =>
      rw [removeNotified]
      split_ifs with h
      · refine (filter_eq_self.mpr fun v hv => all_eq_true.mpr fun n hn => ?_).symm
        have hwv : w.depth ≤ v.depth := by
          rcases mem_cons.mp hv with rfl | hv
          · exact le_rfl
          · exact (pairwise_cons.mp hws).1 v hv
        have hne : n.depth ≤ e.depth := by
          rcases mem_cons.mp hn with rfl | hn
          · exact le_rfl
          · exact (hlt n hn).le
        rw [Bool.not_eq_true', ← Bool.not_eq_true]
        exact fun hr => absurd (hdeep n hn v hv hr) (by omega)
      · rw [ih hes (hws.filter _), List.filter_filter]
        · simp only [all_cons, Bool.and_comm]
        · exact fun n hn v hv => hdeep n (mem_cons_of_mem e hn) v (mem_of_mem_filter hv)

/-- `w` waits on the condition variable and no event of `S` has notified it. -/
def Outstanding (S : Set (Event D)) (cid : CondId) (w : Event D) : Prop :=
  w ∈ S ∧ w.kind = .wait1 ∧ w.cid = cid ∧ ∀ n ∈ S, w ∉ n.waitPredecessors

lemma foldl_removeNotified {cs : List (Event D)} (hws : ws.Pairwise fun a b => a.depth ≤ b.depth)
    (hdeep : ∀ c ∈ cs, ∀ e ∈ c.threadChain, ∀ w ∈ ws, isRemovedBy cid e w = true → w.depth < e.depth) :
    w ∈ cs.foldl (fun wait1s c => removeNotified cid c.threadChain wait1s) ws ↔
      w ∈ ws ∧ ∀ c ∈ cs, ∀ e ∈ c.threadChain, isRemovedBy cid e w = false := by
  induction cs generalizing ws with
  | nil => simp
  | cons c cs ih =>
    have hchain : c.threadChain.Pairwise fun a b => b.depth < a.depth :=
      (pairwise_chain threadPred_mem c).imp depth_lt_depth
    rw [foldl_cons, removeNotified_eq hchain hws (hdeep c mem_cons_self), ih (hws.filter _)]
    · simp [and_assoc]
    · exact fun b hb e he v hv => hdeep b (mem_cons_of_mem c hb) e he v (mem_of_mem_filter hv)

lemma mem_outstanding (hW : C.WellFormed) (hN : C.Waiting) (hL : C.LocalRuns) {m : Cone D}
    {S : Set (Event D)} (hm : m.Represents S) (hSC : ∀ x ∈ S, x ∈ C) (hS : IsLowerSet S) :
    w ∈ outstandingWait1 cid m ↔ Outstanding S cid w := by
  have hinit : ∀ {v}, v ∈ (m.values.filter fun c => c.kind = .wait1 && c.cid = cid).insertionSort
      (fun a b => a.depth ≤ b.depth) ↔ v ∈ m.values ∧ v.kind = .wait1 ∧ v.cid = cid := by
    intro v
    rw [(perm_insertionSort _ _).mem_iff, List.mem_filter, Bool.and_eq_true, decide_eq_true_eq, decide_eq_true_eq]
  have hvalue : ∀ {v}, v ∈ m.values → v ∈ S := by
    intro v hv
    obtain ⟨t, ht⟩ := mem_values_iff.mp hv
    exact (hm.mem ht).1
  have hchain : ∀ {c e}, c ∈ m.values → e ∈ c.threadChain → e ∈ S := fun hc he =>
    hS (le_of_mem_chain threadPred_mem he) (hvalue hc)
  have hremoved : ∀ {e v}, e ∈ S → v ∈ S → v.cid = cid → (isRemovedBy cid e v = true ↔ v ∈ e.waitPredecessors) :=
    fun he hv hc => isRemovedBy_iff hW (hSC _ he) (hSC _ hv) hc
  rw [outstandingWait1, foldl_removeNotified]
  · rw [hinit]
    constructor
    · rintro ⟨⟨hwm, hk, hc⟩, hall⟩
      refine ⟨hvalue hwm, hk, hc, fun n hn hwn => ?_⟩
      have hkn : n.kind ≠ .programInit := by
        rcases mem_waitPreds.mp hwn with ⟨h, -⟩ | ⟨h, -⟩ <;> simp [h]
      obtain ⟨c, hc', hnc⟩ := hW.exists_mem_threadChain hm hSC hn hkn
      have := hall c (mem_values_iff.mpr ⟨_, hc'⟩) n hnc
      simp [(hremoved hn (hvalue hwm) hc).mpr hwn] at this
    · rintro ⟨hwS, hk, hc, hnone⟩
      refine ⟨⟨?_, hk, hc⟩, fun c hcm e he => ?_⟩
      · -- a later event of the thread would be after a notification
        obtain ⟨c, hc', hwc⟩ := hW.exists_mem_threadChain hm hSC hwS (by simp [hk])
        have hcm : c ∈ m.values := mem_values_iff.mpr ⟨_, hc'⟩
        have hcS := hvalue hcm
        rcases Event.le_iff_eq_or_lt'.mp (le_of_mem_chain threadPred_mem hwc)
          with rfl | hlt
        · exact hcm
        · obtain ⟨n, hnc, hwn⟩ := hN.notified_of_lt hW hL (hSC w hwS) hk (hSC c hcS)
            (tid_of_chain (hW.valid (hSC c hcS)) hwc) hlt
          exact absurd hwn (hnone n (hS hnc.le hcS))
      · rw [← Bool.not_eq_true, hremoved (hchain hcm he) hwS hc]
        exact hnone e (hchain hcm he)
  · exact pairwise_insertionSort _ _
  · intro c hcm e he v hv hr
    obtain ⟨hvm, -, hvc⟩ := hinit.mp hv
    exact depth_lt_depth (lt_of_waitPreds
      ((hremoved (hchain hcm he) (hvalue hvm) hvc).mp hr))

def pastWith (et : Event D) (M : List (Event D)) : Set (Event D) := {x | x ≤ et ∨ ∃ m ∈ M, x ≤ m}

/-- Without further events the source looks below `et` only. -/
def lostScope (et : Event D) (M : List (Event D)) : Set (Event D) := {x | x < et ∨ M ≠ [] ∧ x ∈ pastWith et M}

omit [DecidableEq D] in
lemma isLowerSet_pastWith (et : Event D) (M : List (Event D)) : IsLowerSet (pastWith et M) := by
  rintro a b hba (h | ⟨m, hm, h⟩)
  · exact .inl (hba.trans h)
  · exact .inr ⟨m, hm, hba.trans h⟩

section
variable (hW : C.WellFormed) (het : et ∈ C) (hM : ∀ m ∈ M, m ∈ C)
include hW het hM

lemma mem_of_mem_pastWith {x : Event D} (hx : x ∈ pastWith et M) : x ∈ C := by
  rcases hx with h | ⟨m, hm, h⟩
  · exact hW.mem_of_le h het
  · exact hW.mem_of_le h (hM m hm)

lemma represents_ofRange : (Cone.ofRange (M ++ [et])).Represents (pastWith et M) := by
  have hfold : Cone.ofRange (M ++ [et]) =
      ((M ++ [et]).map fun p => (p, p.cone)).foldl (fun m q => Cone.insertWith m q.1 q.2) empty := by
    rw [foldl_map]
    rfl
  rw [hfold]
  refine ((Cone.represents_empty (S := ∅) (by simp)).foldl_insertWith ?_).congr fun a _ => ?_
  · intro q hq
    obtain ⟨p, hp, rfl⟩ := mem_map.mp hq
    have hpC : p ∈ C := by
      rcases mem_append.mp hp with hp | hp
      · exact hM p hp
      · rwa [mem_singleton.mp hp]
    exact ⟨cone_represents (hW.valid hpC), preds_nil_of_checks (hW.checks hpC)⟩
  · simp [pastWith, or_comm]

lemma mem_outstandingOf (hN : C.Waiting) (hL : C.LocalRuns)
    (h : outstandingWait1Of cid (M ++ [et]) = some ws) :
    w ∈ ws ↔ Outstanding (lostScope et M) cid w := by
  by_cases hMne : M = []
  · subst hMne
    obtain rfl : outstandingWait1 cid et.cone = ws := some.inj h
    have hscope : lostScope et [] = {x | x < et} := by simp [lostScope]
    rw [hscope]
    exact mem_outstanding hW hN hL (cone_represents (hW.valid het))
      (fun x hx => hW.mem_of_le (le_of_lt hx) het) (isLowerSet_Iio et)
  · have hscope : lostScope et M = pastWith et M := by
      ext x
      simp only [lostScope, hMne, ne_eq, not_false_eq_true, true_and, Set.mem_ofPred_eq, or_iff_right_iff_imp]
      exact fun h => .inl h.le
    have hws : ws = outstandingWait1 cid (Cone.ofRange (M ++ [et])) := by
      cases M with
      | nil => exact absurd rfl hMne
      | cons m M => cases M <;> exact (some.inj h).symm
    rw [hscope, hws]
    exact mem_outstanding hW hN hL (represents_ofRange hW het hM) (fun x => mem_of_mem_pastWith hW het hM)
      (isLowerSet_pastWith et M)

lemma mem_of_outstanding (hN : C.Waiting) (hL : C.LocalRuns) (hk : et.kind ≠ .wait1)
    (h : outstandingWait1Of cid (M ++ [et]) = some ws)
    (hw : Outstanding (pastWith et M) cid w) : w ∈ ws := by
  obtain ⟨hwS, hkw, hc, hnone⟩ := hw
  refine (mem_outstandingOf hW het hM hN hL h).mpr ⟨?_, hkw, hc, fun n hn => hnone n ?_⟩
  · rcases hwS with hle | ⟨m, hm, hle⟩
    · exact .inl (lt_of_le_of_ne hle fun heq => hk (heq ▸ hkw))
    · exact .inr ⟨ne_nil_of_mem hm, .inr ⟨m, hm, hle⟩⟩
  · rcases hn with hn | hn
    · exact .inl (le_of_lt hn)
    · exact hn.2

end

/-! ## The waiters that a broadcast built by `cex_notification` notifies -/

/-- `b` notifies exactly the waiting threads of its past, and is lost when there are none. -/
def NotifiesWaiters (b : Event D) : Prop :=
  (∀ w, w ∈ b.waitPredecessors ↔ Outstanding {x | x < b} b.cid w) ∧
    (b.broadcastIsLost = true ↔ ∀ w, ¬ Outstanding {x | x < b} b.cid w)

def broadcastAfter (t : ThreadId) (c : CondId) (et : Event D) (N : List (Event D)) : Event D :=
  ⟨t, .broadcast c, et :: groupByKind (sortPredecessors N)⟩

omit [DecidableEq D] in
lemma mem_waitPreds_after :
    w ∈ (broadcastAfter t c et N).waitPredecessors ↔ w ∈ N ∧ w.kind = .wait1 := mem_waitPreds_broadcast

section
variable (hN : ∀ m ∈ N, m.kind ∈ [Kind.wait1, .signal, .broadcast, .conditionVariableCreate])
include hN

omit [DecidableEq D] in
lemma lt_broadcastAfter_iff {x : Event D} : x < broadcastAfter t c et N ↔ x ∈ pastWith et N := by
  rw [lt_iff_pred]
  simp only [broadcastAfter, mem_cons, mem_groupByKind, mem_sortPreds, exists_eq_or_imp]
  refine or_congr_right ⟨?_, ?_⟩
  · rintro ⟨m, ⟨hm, -⟩, hx⟩
    exact ⟨m, hm, hx⟩
  · rintro ⟨m, hm, hx⟩
    exact ⟨m, ⟨hm, by simpa using hN m hm⟩, hx⟩

omit [DecidableEq D] in
lemma notifiesWaiters_iff : NotifiesWaiters (broadcastAfter t c et N) ↔
      ∀ w, w ∈ N ∧ w.kind = .wait1 ↔ Outstanding (pastWith et N) c w := by
  have hset : {x | x < broadcastAfter t c et N} = pastWith et N := Set.ext fun x => lt_broadcastAfter_iff hN
  have hlost : (broadcastAfter t c et N).broadcastIsLost = true ↔ ∀ w, ¬ (w ∈ N ∧ w.kind = .wait1) := by
    rw [broadcastIsLost_iff, eq_nil_iff_forall_not_mem]
    exact forall_congr' fun w => not_congr mem_waitPreds_after
  unfold NotifiesWaiters
  rw [hset, hlost]
  simp only [mem_waitPreds_after]
  constructor
  · exact And.left
  · exact fun h => ⟨h, forall_congr' fun w => not_congr (h w)⟩

end

/-- The events of a combination, on other threads and neither after `e` nor before `et`. -/
def Beside (C : Configuration D) (e et : Event D) (M : List (Event D)) : Prop :=
  ∀ m ∈ M, m ∈ C ∧ m.tid ≠ e.tid ∧ ¬ e < m ∧ ¬ m < et ∧ m.cid = e.cid

/-- The condition variable predecessors of `e` on other threads that are not below `et`. -/
def outerPredecessors (e et : Event D) : Set (Event D) :=
  {p | p ∈ e.conditionVariablePredecessors ∧ p.tid ≠ e.tid ∧ ¬ p < et}

/-- Waits and signals that another broadcast may follow: `e` is below no event of their thread. -/
structure MayPrecede (C : Configuration D) (e et m : Event D) : Prop where
  mem : m ∈ C
  tid : m.tid ≠ e.tid
  outside : ¬ m < et
  head : ∀ h, C.lastOfTid m.tid = some h → ¬ e < h
  cid : m.cid = e.cid
  kind : m.kind = .wait1 ∨ m.kind = .signal ∧ m.signalIsLost = false

/-- A thread that waits at `et` is woken by whatever may precede, and of two ordered events the
first is a wait that is still outstanding only where the second is not below all predecessors. -/
structure WaitersTaken (C : Configuration D) (e et : Event D) : Prop where
  past : ∀ w, Outstanding {x | x ≤ et} e.cid w →
    outerPredecessors e et = ∅ ∧ ∀ m, C.MayPrecede e et m → ∃ n ≤ m, w ∈ n.waitPredecessors
  ordered : ∀ m w, C.MayPrecede e et m → w < m → ¬ w ≤ et → Outstanding {x | x ≤ m} e.cid w →
    ∃ x, IsGreatest (outerPredecessors e et) x ∧ ¬ m < x ∧
      ∀ m', C.MayPrecede e et m' → ¬ m ≤ m' → ¬ m' ≤ m → ∃ n ≤ m', w ∈ n.waitPredecessors

section
variable (hC : Reachable localWhileRunning C) (he : e ∈ C) (hk : e.kind = .signal ∨ e.kind = .broadcast)
  (het : e.threadPredecessor = some et)
include hC he het

lemma of_mem_outsideOf {x : Event D} (hx : x ∈ C.outsideOf e et) : x ∈ C ∧ x.tid ≠ e.tid ∧ ¬ e < x ∧ ¬ x < et := by
  obtain ⟨h, hh, hx⟩ := mem_flatMap.mp hx
  obtain ⟨t, ht⟩ := mem_values_iff.mp hh
  have hxC : x ∈ C := mem_iff.mpr (.inl ⟨t, h, ht, takeWhile_subset _ hx⟩)
  have hp := all_eq_true.mp all_takeWhile x hx
  have hetC := hC.wellFormed.closed he (threadPred_mem het)
  simp only [Bool.and_eq_true, decide_eq_true_eq, Bool.not_eq_true', ← Bool.not_eq_true,
    hC.wellFormed.isLessThan_iff he hxC, hC.wellFormed.isLessThan_iff hxC hetC] at hp
  exact ⟨hxC, hp.1.1, hp.1.2, hp.2⟩

omit het in
lemma not_lt_head_of_mem_outsideOf {x h : Event D} (hx : x ∈ C.outsideOf e et) (hh : C.lastOfTid x.tid = some h) :
    ¬ e < h := by
  have hW := hC.wellFormed
  obtain ⟨h', hh', hx⟩ := mem_flatMap.mp hx
  obtain ⟨t, ht⟩ := SortedMap.mem_values_iff.mp hh'
  have htid : x.tid = t :=
    (tid_of_chain (hW.valid (mem_of_lastOfTid ht)) (takeWhile_subset _ hx)).trans
      (hW.tid_of_lastOfTid ht)
  obtain rfl : h' = h := some.inj (ht.symm.trans (htid ▸ hh))
  intro hlt
  have hless := (hW.isLessThan_iff he (mem_of_lastOfTid hh)).mpr hlt
  rw [threadChain_eq, takeWhile_cons_of_neg (by simp [hless])] at hx
  simp at hx

lemma mem_outsideOf_iff {x : Event D} (hkx : x.kind ≠ .programInit) : x ∈ C.outsideOf e et ↔
    x ∈ C ∧ x.tid ≠ e.tid ∧ ¬ x < et ∧ ∀ h, C.lastOfTid x.tid = some h → ¬ e < h := by
  have hW := hC.wellFormed
  have hetC := hW.closed he (threadPred_mem het)
  constructor
  · intro hx
    obtain ⟨hxC, ht, -, hxet⟩ := of_mem_outsideOf hC he het hx
    exact ⟨hxC, ht, hxet, fun h => not_lt_head_of_mem_outsideOf hC he hx⟩
  · rintro ⟨hxC, ht, hxet, hhead⟩
    obtain ⟨h, hh, hxh⟩ := hW.le_lastOfTid hxC hkx
    have hhC := mem_of_lastOfTid hh
    have hchain : ∀ {y}, y ∈ h.threadChain → y ∈ C ∧ y ≤ h ∧ y.tid = h.tid := fun hy =>
      have hle := le_of_mem_chain threadPred_mem hy
      ⟨hW.mem_of_le hle hhC, hle, tid_of_chain (hW.valid hhC) hy⟩
    have htest : ∀ {y}, y ∈ h.threadChain →
        ((y.tid ≠ e.tid && !e.isLessThan y && !y.isLessThan et) = true ↔ ¬ y < et) := by
      intro y hy
      obtain ⟨hyC, hyh, hty⟩ := hchain hy
      have hey : ¬ e < y := fun hlt => hhead h hh (hlt.trans_le hyh)
      have hte : y.tid ≠ e.tid := by rwa [hty, hW.tid_of_lastOfTid hh]
      simp [hte, Bool.eq_false_iff.mpr (fun hl => hey ((hW.isLessThan_iff he hyC).mp hl)), ← hW.isLessThan_iff hyC hetC]
    refine mem_flatMap.mpr ⟨h, SortedMap.mem_values_iff.mpr ⟨_, hh⟩, ?_⟩
    have hxchain := hW.mem_chain_of_le hxC hhC (hW.tid_of_lastOfTid hh).symm hkx hxh
    refine (mem_takeWhile_iff (pairwise_chain threadPred_mem h)
      fun {a b} ha hb hba hqb => ?_).mpr ⟨hxchain, (htest hxchain).mpr hxet⟩
    exact (htest ha).mpr fun hlt => (htest hb).mp hqb (hba.trans hlt)

variable {m d : Event D} {Ms : List (List (Event D))}

lemma of_mem_combination
    (hMs : (C.notificationComb e et).concurrentCombinations = some Ms) (hM : M ∈ Ms) :
    C.Beside e et M ∧ ∀ a ∈ M, ∀ b ∈ M, ¬ a < b := by
  have hmem : C.Beside e et M := by
    intro m hm
    obtain ⟨hmo, hmk⟩ := mem_filter.mp (Comb.mem_ofEvents.mp ((Comb.mem_of_mem_combinations hMs hM).1 m hm))
    simp only [Bool.and_eq_true, decide_eq_true_eq] at hmk
    obtain ⟨h1, h2, h3, h4⟩ := of_mem_outsideOf hC he het hmo
    exact ⟨h1, h2, h3, h4, hmk.1.1⟩
  refine ⟨hmem, Comb.not_lt_of_mem_combinations hMs hM fun a ha b hb => ?_⟩
  exact hC.wellFormed.isLessThan_iff (hmem a ha).1 (hmem b hb).1

include hk in
lemma threadPred_ne_wait1 : et.kind ≠ .wait1 := by
  intro hw
  rcases hC.waiting.resumed he het hw with h | h <;> rcases hk with hk | hk <;> simp [hk] at h

include hk in
lemma not_notifies_thread (hm : m ∈ C) (hem : ¬ e < m) (hmet : ¬ m < et) (hw : w ∈ m.waitPredecessors) :
    w.tid ≠ e.tid := by
  intro ht
  have hW := hC.wellFormed
  have hwk := (waitPreds_of_checks (hW.checks hm) hw).1
  have hwm := lt_of_waitPreds hw
  have hwC := hW.mem_of_le hwm.le hm
  have hwe : w < e := by
    rcases hW.le_total hwC he ht with h | h
    · refine lt_of_le_of_ne h ?_
      rintro rfl
      rcases hk with hk | hk <;> simp [hk] at hwk
    · exact absurd (h.trans_lt hwm) hem
  obtain ⟨p, hp, hwp⟩ := hW.le_threadPredecessor hwC he ht (by simp [hwk]) hwe
  obtain rfl : et = p := some.inj (het.symm.trans hp)
  have hetC := hW.closed he (threadPred_mem het)
  have hlt : w < et := lt_of_le_of_ne hwp fun h => threadPred_ne_wait1 hC he hk het (h ▸ hwk)
  obtain ⟨n, hn, hwn⟩ := hC.waiting.notified_of_lt hW hC.localRuns hwC hwk hetC
    (ht.trans (tid_of_threadPred (hW.checks he) het).symm) hlt
  rw [hC.waiting.unique (hW.mem_of_le hn.le hetC) hm hwn hw] at hn
  exact hmet hn

omit hC he het in
omit [DecidableEq D] in
lemma of_onlyNonLost (h : onlyNonLost M = true) (hm : m ∈ M) :
    (m.kind = .signal ∨ m.kind = .broadcast) ∧ m.isLost = false := by
  have hsignal : (m.kind = .signal && !m.signalIsLost) = true →
      (m.kind = .signal ∨ m.kind = .broadcast) ∧ m.isLost = false := by
    intro h
    simp only [Bool.and_eq_true, decide_eq_true_eq, Bool.not_eq_true'] at h
    exact ⟨.inl h.1, by rw [isLost, h.1]; exact h.2⟩
  unfold onlyNonLost at h
  split at h
  · obtain rfl := mem_singleton.mp hm
    split_ifs at h with hk
    · exact ⟨.inr hk, by rw [isLost, hk]; simpa using h⟩
    · exact hsignal h
  · exact hsignal (all_eq_true.mp h m hm)

include hk in
/-- The notifications of the thread of `e` are in the past of the thread. -/
lemma accepts_of_not_lost (hm : m ∈ C) (hem : ¬ e < m) (hmet : ¬ m < et) (hnl : m.isLost = false) :
    (m.kind = .signal → m.notifiedThread ≠ e.tid) ∧
      (m.kind = .broadcast → m.isNotifyingThread e.tid = false) := by
  have hne : ∀ w ∈ m.waitPredecessors, w.tid ≠ e.tid := fun w => not_notifies_thread hC he hk het hm hem hmet
  refine ⟨fun hkm => ?_, fun hkm => ?_⟩ <;> simp only [isLost, hkm] at hnl
  · have hsome : m.signalWaitPredecessor ≠ none := by
      rw [ne_eq, ← signalIsLost_iff, hnl]
      simp
    obtain ⟨w, hw⟩ := ne_none_iff_exists'.mp hsome
    obtain ⟨hkw, p, hp⟩ := signalWait_iff.mp hw
    have := hne w (mem_waitPreds.mpr (.inl ⟨hkm, hw⟩))
    simpa [notifiedThread, hp, hkw] using this
  · rw [← Bool.not_eq_true, isNotifyingThread, List.any_eq_true]
    rintro ⟨w, hw, ht⟩
    exact hne w (mem_waitPreds.mpr (.inr ⟨hkm, hw⟩)) (of_decide_eq_true ht)

include hk in
lemma lostPreds_eq (hlost : onlyNonLost M = true) (hM : C.Beside e et M) : lostPredecessors e M = M := by
  refine filter_eq_self.mpr fun m hm => ?_
  obtain ⟨hmC, -, hem, hmet, -⟩ := hM m hm
  obtain ⟨hkm, hnl⟩ := of_onlyNonLost hlost hm
  obtain ⟨hsignal, hbroadcast⟩ := accepts_of_not_lost hC he hk het hmC hem hmet hnl
  rcases hkm with hkm | hkm <;> simp only [isLost, hkm] at hnl
  · simpa [hkm, hnl] using hsignal hkm
  · simpa [hkm, hnl] using hbroadcast hkm

omit hC he het in
lemma of_mem_notificationCondCreate (hd : d ∈ C.notificationCondCreate e et) :
    d ∈ C.outsideOf e et ∧ d.cid = e.cid ∧ d.kind = .conditionVariableCreate := by
  obtain ⟨hdo, hdk⟩ := mem_filter.mp (mem_of_getLast? hd)
  simp only [Bool.and_eq_true, decide_eq_true_eq] at hdk
  exact ⟨hdo, hdk.1, hdk.2⟩

omit he het in
lemma outstanding_of_create
    (hd : d ∈ C ∧ d.cid = c ∧ d.kind = .conditionVariableCreate) (hw : Outstanding (pastWith et (N ++ [d])) c w) :
    Outstanding (pastWith et N) c w := by
  obtain ⟨hwS, hkw, hcw, hnone⟩ := hw
  have hsub : ∀ {x}, x ∈ pastWith et N → x ∈ pastWith et (N ++ [d]) := by
    rintro x (h | ⟨m, hm, h⟩)
    · exact .inl h
    · exact .inr ⟨m, mem_append_left _ hm, h⟩
  refine ⟨?_, hkw, hcw, fun n hn => hnone n (hsub hn)⟩
  rcases hwS with h | ⟨m, hm, h⟩
  · exact .inl h
  · rcases mem_append.mp hm with hm | hm
    · exact .inr ⟨m, hm, h⟩
    · obtain rfl := mem_singleton.mp hm
      have hlt : w < m := lt_of_le_of_ne h fun h => by simp [h, hd.2.2] at hkw
      exact absurd hlt (hC.condUsed.create_first hd.1 (hC.wellFormed.mem_of_le h hd.1) hd.2.2 (hcw.trans hd.2.1.symm))

lemma notifies_of_lostFor (hk : e.kind = .broadcast) (hM : C.Beside e et M)
    (hxs : cexLostFor e et (C.notificationCondCreate e et) max M = some xs) (hb : b ∈ xs) :
    NotifiesWaiters b := by
  obtain ⟨-, honly, hout, ⟨hk', -⟩ | ⟨-, hb⟩⟩ := mem_of_cexLostFor hxs hb
  · simp [hk] at hk'
  obtain ⟨-, rfl, -⟩ := allocBroadcast_iff.mp hb
  rw [lostPreds_eq hC he (.inr hk) het honly hM]
  have hetC := hC.wellFormed.closed he (threadPred_mem het)
  have hcreate : ∀ {d}, d ∈ (C.notificationCondCreate e et).toList →
      d ∈ C ∧ d.cid = e.cid ∧ d.kind = .conditionVariableCreate := by
    intro d hd
    obtain ⟨hdo, hcid, hkd⟩ := of_mem_notificationCondCreate (mem_toList.mp hd)
    exact ⟨(of_mem_outsideOf hC he het hdo).1, hcid, hkd⟩
  have hkM : ∀ m ∈ M, m.kind = .signal ∨ m.kind = .broadcast := fun m hm => (of_onlyNonLost honly hm).1
  refine (notifiesWaiters_iff ?_).mpr fun w => ⟨?_, fun hw => ?_⟩
  · intro m hm
    rcases mem_append.mp hm with hm | hm
    · rcases hkM m hm with h | h <;> simp [h]
    · simp [(hcreate hm).2.2]
  · rintro ⟨hw, hkw⟩
    rcases mem_append.mp hw with hw | hw
    · rcases hkM w hw with h | h <;> simp [h] at hkw
    · simp [(hcreate hw).2.2] at hkw
  · have hw : Outstanding (pastWith et M) e.cid w := by
      cases hd : C.notificationCondCreate e et with
      | none => simpa [hd] using hw
      | some d =>
        rw [hd] at hw
        exact outstanding_of_create hC (hcreate (by simp [hd])) hw
    have := mem_of_outstanding hC.wellFormed hetC (fun m hm => (hM m hm).1) hC.waiting hC.localRuns
      (threadPred_ne_wait1 hC he (.inr hk) het) hout hw
    simp at this

omit hC he het in
omit [DecidableEq D] in
lemma kind_of_onlyWaitsAndSignals (h : onlyWaitsAndSignals M = true) (hm : m ∈ M) :
    m.kind = .wait1 ∨ m.kind = .signal := by
  have := all_eq_true.mp h m hm
  simp only [Bool.or_eq_true, decide_eq_true_eq, Bool.and_eq_true] at this
  exact this.imp_right And.left

omit hC he het in
lemma outstanding_of_mem (hM : C.Beside e et M) (hconc : ∀ a ∈ M, ∀ b ∈ M, ¬ a < b)
    (hw : w ∈ M) (hkw : w.kind = .wait1) : Outstanding (pastWith et M) e.cid w := by
  refine ⟨.inr ⟨w, hw, le_rfl⟩, hkw, (hM w hw).2.2.2.2, ?_⟩
  rintro n (hn | ⟨m, hm, hn⟩) hwn
  · exact (hM w hw).2.2.2.1 ((lt_of_waitPreds hwn).trans_le hn)
  · exact hconc w hw m hm ((lt_of_waitPreds hwn).trans_le hn)

lemma notifies_of_broadcastFor (hk : e.kind = .broadcast) (hM : C.Beside e et M)
    (hconc : ∀ a ∈ M, ∀ b ∈ M, ¬ a < b) (hxs : cexBroadcastFor e et max M = some xs) :
    (∀ b ∈ xs, NotifiesWaiters b) ↔ (isMax max M = false → onlyWaitsAndSignals M = true →
      ∀ w, Outstanding (pastWith et M) e.cid w → w ∈ M) := by
  have hetC := hC.wellFormed.closed he (threadPred_mem het)
  have hkinds : onlyWaitsAndSignals M = true →
      ∀ m ∈ M, m.kind ∈ [Kind.wait1, .signal, .broadcast, .conditionVariableCreate] := by
    intro honly m hm
    rcases kind_of_onlyWaitsAndSignals honly hm with h | h <;> simp [h]
  constructor
  · intro hall hmax honly w hw
    obtain ⟨ws, hws⟩ := outstandingOf_append e.cid M et
    have hwws := mem_of_outstanding hC.wellFormed hetC (fun m hm => (hM m hm).1) hC.waiting
      hC.localRuns (threadPred_ne_wait1 hC he (.inr hk) het) hws hw
    obtain ⟨b, hb⟩ := exists_of_cexBroadcastFor hxs hmax honly hws (ne_nil_of_mem hwws)
    have hexact := hall b hb
    obtain ⟨-, -, -, halloc⟩ := (mem_cexBroadcastFor hxs).mp hb
    obtain ⟨-, rfl, -⟩ := allocBroadcast_iff.mp halloc
    exact (((notifiesWaiters_iff (hkinds honly)).mp hexact w).mpr hw).1
  · intro hout b hb
    obtain ⟨hmax, honly, -, halloc⟩ := (mem_cexBroadcastFor hxs).mp hb
    obtain ⟨-, rfl, -⟩ := allocBroadcast_iff.mp halloc
    exact (notifiesWaiters_iff (hkinds honly)).mpr fun w =>
      ⟨fun hw => outstanding_of_mem hM hconc hw.1 hw.2, fun hw => ⟨hout hmax honly w hw, hw.2.1⟩⟩

/-! ## Combinations that leave a waiter out -/

lemma mem_outerPreds_iff {p : Event D} : p ∈ (Comb.ofEvents
    (e.conditionVariablePredecessors.filter fun p => !(p.tid = e.tid || p.isLessThan et))).events ↔
      p ∈ outerPredecessors e et := by
  have hW := hC.wellFormed
  rw [Comb.mem_ofEvents, mem_filter]
  refine and_congr_right fun hp => ?_
  have hless := hW.isLessThan_iff (hW.closed he (condPreds_subset hp))
    (hW.closed he (threadPred_mem het))
  simp [← hless]

omit het in
lemma builtFrom_outerPreds : (Comb.ofEvents (e.conditionVariablePredecessors.filter
    fun p => !(p.tid = e.tid || p.isLessThan et))).BuiltFrom C :=
  Comb.builtFrom_ofEvents fun _ hp =>
    hC.wellFormed.closed he (condPreds_subset (mem_of_mem_filter hp))

lemma maxCondPreds_nil : maxCondPredecessors e et = [] ↔ outerPredecessors e et = ∅ := by
  rw [Set.eq_empty_iff_forall_notMem, eq_nil_iff_forall_not_mem]
  constructor
  · intro h p hp
    obtain ⟨x, hx, -⟩ := (builtFrom_outerPreds hC he).exists_le_max hC.wellFormed
      ((mem_outerPreds_iff hC he het).mpr hp)
    exact h x hx
  · exact fun h p hp => h p ((mem_outerPreds_iff hC he het).mp (Comb.mem_events_of_mem_max hp))

lemma maxCondPreds_singleton :
    maxCondPredecessors e et = [m] ↔ IsGreatest (outerPredecessors e et) m := by
  rw [maxCondPredecessors, (builtFrom_outerPreds hC he).max_eq_singleton_iff hC.wellFormed]
  simp only [mem_outerPreds_iff hC he het, Set.ofPred_mem_eq]

lemma isMax_singleton_iff (hm : m ∈ C) : isMax (maxCondPredecessors e et) [m] = true ↔
    ∃ x, IsGreatest (outerPredecessors e et) x ∧ ¬ m < x := by
  have hW := hC.wellFormed
  have hless : ∀ {x}, IsGreatest (outerPredecessors e et) x → (¬ m < x ↔ m.isLessThan x = false) := fun hx => by
    rw [← hW.isLessThan_iff hm (hW.closed he (condPreds_subset hx.1.1)), Bool.not_eq_true]
  constructor
  · intro h
    simp only [isMax, length_singleton, Bool.and_eq_true, decide_eq_true_eq, length_eq_one_iff] at h
    obtain ⟨⟨x, hx⟩, h⟩ := h
    have hgreatest := (maxCondPreds_singleton hC he het).mp hx
    exact ⟨x, hgreatest, (hless hgreatest).mpr (by simpa [hx] using h)⟩
  · rintro ⟨x, hx, h⟩
    simpa [isMax, (maxCondPreds_singleton hC he het).mpr hx] using (hless hx).mp h

lemma exists_perm_combination
    (hMs : (C.notificationComb e et).concurrentCombinations = some Ms) {S : List (Event D)} (hS : S.Nodup)
    (hmem : ∀ m ∈ S, C.MayPrecede e et m) (hconc : ∀ a ∈ S, ∀ b ∈ S, ¬ a < b) : ∃ M ∈ Ms, M.Perm S := by
  have hW := hC.wellFormed
  obtain ⟨M, hM, hMS⟩ := Comb.exists_mem_concurrent (Comb.keyed_ofEvents _) hMs hconc
    (fun ha _ hb => hW.isLessThan_iff (hmem _ ha).mem (hmem _ hb).mem)
    fun ha _ hb => hW.le_total (hmem _ ha).mem (hmem _ hb).mem
  refine ⟨M, hM, (perm_ext_iff_of_nodup (Comb.nodup_of_concurrent (Comb.keyed_ofEvents _) hMs hM)
    hS).mpr fun x => (hMS x).trans ⟨And.right, fun hx => ⟨Comb.mem_ofEvents.mpr (mem_filter.mpr ?_), hx⟩⟩⟩
  have hm := hmem x hx
  rw [mem_outsideOf_iff hC he het (by rcases hm.kind with h | h <;> simp [h])]
  refine ⟨⟨hm.mem, hm.tid, hm.outside, hm.head⟩, ?_⟩
  rcases hm.kind with h | h <;> simp [h, hm.cid]

lemma mayPrecede_of_mem
    (hMs : (C.notificationComb e et).concurrentCombinations = some Ms) (hM : M ∈ Ms)
    (honly : onlyWaitsAndSignals M = true) (hm : m ∈ M) : C.MayPrecede e et m := by
  obtain ⟨hmo, -⟩ := mem_filter.mp (Comb.mem_ofEvents.mp ((Comb.mem_of_mem_combinations hMs hM).1 m hm))
  have hkind := all_eq_true.mp honly m hm
  simp only [Bool.or_eq_true, decide_eq_true_eq, Bool.and_eq_true, Bool.not_eq_true'] at hkind
  obtain ⟨hmC, ht, hmet, hhead⟩ := (mem_outsideOf_iff hC he het (by rcases hkind with h | h <;> simp [h])).mp hmo
  exact ⟨hmC, ht, hmet, hhead, ((of_mem_combination hC he het hMs hM).1 m hm).2.2.2.2, hkind⟩

omit [DecidableEq D] hC he het in
lemma Outstanding.pastWith {S : Set (Event D)} (hw : Outstanding S c w)
    (hmem : w ∈ pastWith et N) (het : ∀ n ≤ et, w ∉ n.waitPredecessors)
    (hN : ∀ m ∈ N, ∀ n ≤ m, w ∉ n.waitPredecessors) : Outstanding (pastWith et N) c w := by
  refine ⟨hmem, hw.2.1, hw.2.2.1, ?_⟩
  rintro n (hn | ⟨m, hm, hn⟩)
  · exact het n hn
  · exact hN m hm n hn

omit [DecidableEq D] hC he het in
lemma pastWith_congr {N : List (Event D)} (h : ∀ x, x ∈ M ↔ x ∈ N) : pastWith et M = pastWith et N := by
  simp [pastWith, h]

lemma waitersTaken_of
    (hMs : (C.notificationComb e et).concurrentCombinations = some Ms)
    (hall : ∀ M ∈ Ms, isMax (maxCondPredecessors e et) M = false → onlyWaitsAndSignals M = true →
      ∀ w, Outstanding (pastWith et M) e.cid w → w ∈ M) : C.WaitersTaken e et := by
  have hW := hC.wellFormed
  have htaken : ∀ {S}, S.Nodup → (∀ m ∈ S, C.MayPrecede e et m) → (∀ a ∈ S, ∀ b ∈ S, ¬ a < b) →
      isMax (maxCondPredecessors e et) S = false → ∀ {w}, Outstanding (pastWith et S) e.cid w → w ∈ S := by
    intro S hS hmem hconc hmax w hw
    obtain ⟨M, hM, hperm⟩ := exists_perm_combination hC he het hMs hS hmem hconc
    refine hperm.mem_iff.mp (hall M hM ?_ ?_ w ((pastWith_congr fun x => hperm.mem_iff) ▸ hw))
    · rw [← hmax, isMax, isMax, hperm.length_eq, hperm.all_eq]
    · refine all_eq_true.mpr fun m hm => ?_
      rcases (hmem m (hperm.mem_iff.mp hm)).kind with h | h <;> simp [h]
  have hetm : ∀ {m}, C.MayPrecede e et m → ¬ m ≤ et := by
    intro m hm hle
    exact hm.outside (lt_of_le_of_ne hle fun h => hm.tid (h ▸ tid_of_threadPred (hW.checks he) het))
  -- one event alone leaves out a waiter of its past unless it is taken for the predecessors of `e`
  have hone : ∀ {m w}, C.MayPrecede e et m → w ≠ m → Outstanding (pastWith et [m]) e.cid w →
      ∃ x, IsGreatest (outerPredecessors e et) x ∧ ¬ m < x := by
    intro m w hm hwm hw
    rw [← isMax_singleton_iff hC he het hm.mem]
    by_contra hmax
    exact hwm (mem_singleton.mp (htaken (nodup_singleton m) (by simpa using hm) (by simp) (by simpa using hmax) hw))
  refine ⟨fun w hw => ?_, fun m w hm hwm hwet hw => ?_⟩
  · have hempty : outerPredecessors e et = ∅ := by
      by_contra hne
      have hmax : isMax (maxCondPredecessors e et) [] = false := by
        simpa [isMax] using fun h => hne ((maxCondPreds_nil hC he het).mp h)
      have hpast : pastWith et [] = {x | x ≤ et} := by simp [pastWith]
      exact absurd (htaken nodup_nil (by simp) (by simp) hmax (hpast ▸ hw)) (by simp)
    refine ⟨hempty, fun m hm => ?_⟩
    by_contra! hno
    have hout := hw.pastWith (N := [m]) (.inl hw.1) hw.2.2.2 (by simpa using hno)
    obtain ⟨x, hx, -⟩ := hone hm (fun h => hetm hm (h ▸ hw.1)) hout
    simp [hempty, IsGreatest] at hx
  · have hnet : ∀ n ≤ et, w ∉ n.waitPredecessors :=
      fun n hn hwn => hwet ((lt_of_waitPreds hwn).le.trans hn)
    have hout := hw.pastWith (N := [m]) (.inr ⟨m, by simp, hw.1⟩) hnet (by simpa using hw.2.2.2)
    obtain ⟨x, hx, hmx⟩ := hone hm hwm.ne hout
    refine ⟨x, hx, hmx, fun m' hm' hmm' hm'm => ?_⟩
    by_contra! hno
    have hmax : isMax (maxCondPredecessors e et) [m, m'] = false := by
      simp [isMax, (maxCondPreds_singleton hC he het).mpr hx]
    have hpair := hw.pastWith (N := [m, m']) (.inr ⟨m, by simp, hw.1⟩) hnet
      (by simpa using ⟨hw.2.2.2, hno⟩)
    have hmem := htaken (S := [m, m']) (by simpa using fun h => hmm' h.le) (by simp [hm, hm'])
      (by simpa using ⟨mt le_of_lt hmm', mt le_of_lt hm'm⟩) hmax hpair
    rcases mem_pair.mp hmem with rfl | rfl
    · exact lt_irrefl w hwm
    · exact hm'm hwm.le

lemma WaitersTaken.mem_combination (h : C.WaitersTaken e et)
    (hMs : (C.notificationComb e et).concurrentCombinations = some Ms) (hM : M ∈ Ms)
    (hmax : isMax (maxCondPredecessors e et) M = false) (honly : onlyWaitsAndSignals M = true)
    (hw : Outstanding (pastWith et M) e.cid w) : w ∈ M := by
  by_contra hwM
  obtain ⟨hwS, hkw, hcw, hnone⟩ := hw
  have hmay : ∀ {m}, m ∈ M → C.MayPrecede e et m := mayPrecede_of_mem hC he het hMs hM honly
  by_cases hwet : w ≤ et
  · obtain ⟨hempty, hwoken⟩ := h.past w ⟨hwet, hkw, hcw, fun n hn => hnone n (.inl hn)⟩
    cases M with
    | nil => simp [isMax, (maxCondPreds_nil hC he het).mpr hempty] at hmax
    | cons m M =>
      obtain ⟨n, hn, hwn⟩ := hwoken m (hmay mem_cons_self)
      exact hnone n (.inr ⟨m, mem_cons_self, hn⟩) hwn
  · obtain ⟨m, hm, hwm⟩ := hwS.resolve_left hwet
    have hlt : w < m := lt_of_le_of_ne hwm (ne_of_mem_of_not_mem hm hwM).symm
    obtain ⟨x, hx, hmx, hothers⟩ := h.ordered m w (hmay hm) hlt hwet
      ⟨hwm, hkw, hcw, fun n hn => hnone n (.inr ⟨m, hm, hn⟩)⟩
    obtain ⟨-, hconc⟩ := of_mem_combination hC he het hMs hM
    have hother : ∃ m' ∈ M, m' ≠ m := by
      by_contra! hall
      have hMm : M = [m] := perm_singleton.mp ((perm_ext_iff_of_nodup
        (Comb.nodup_of_concurrent (Comb.keyed_ofEvents _) hMs hM) (nodup_singleton m)).mpr
          fun x => ⟨fun hx => mem_singleton.mpr (hall x hx), fun hx => mem_singleton.mp hx ▸ hm⟩)
      simp [hMm, (isMax_singleton_iff hC he het (hmay hm).mem).mpr ⟨x, hx, hmx⟩] at hmax
    obtain ⟨m', hm', hne⟩ := hother
    obtain ⟨n, hn, hwn⟩ := hothers m' (hmay hm') (fun hle => hconc m hm m' hm' (lt_of_le_of_ne hle hne.symm))
      fun hle => hconc m' hm' m hm (lt_of_le_of_ne hle hne)
    exact hnone n (.inr ⟨m', hm', hn⟩) hwn

end

/-- All notify the waiters of their past if and only if none is left out, as `WaitersTaken` says. -/
theorem Reachable.cexNotification_exact_iff {C : Configuration D} (hC : Reachable localWhileRunning C)
    (isCutoff : Event D → Bool) {e : Event D} (he : e ∈ C) (hk : e.kind = .broadcast) {xs : List (Event D)}
    (hxs : C.cexNotification isCutoff e = some xs) :
    (∀ b ∈ xs, NotifiesWaiters b) ↔
      ∀ et, e.threadPredecessor = some et → isCutoff et = false → C.WaitersTaken e et := by
  simp only [cexNotification, bind_eq_bind, bind_eq_some_iff] at hxs
  obtain ⟨et, het, hxs⟩ := hxs
  split_ifs at hxs with hcut
  · cases hxs
    refine ⟨fun _ _ het' hcut' => ?_, fun _ b hb => by simp at hb⟩
    cases het.symm.trans het'
    simp [hcut] at hcut'
  simp only [hk, bind_eq_some_iff, some.injEq] at hxs
  obtain ⟨Ms, hMs, _, hlost, _, hbro, rfl⟩ := hxs
  simp only [mem_append, mem_flatten]
  constructor
  · intro hall _ het' _
    cases het.symm.trans het'
    refine waitersTaken_of hC he het hMs fun M hM => ?_
    obtain ⟨ys, hys, hMys⟩ := exists_of_mapM hbro hM
    obtain ⟨hmem, hconc⟩ := of_mem_combination hC he het hMs hM
    exact (notifies_of_broadcastFor hC he het hk hmem hconc hMys).mp
      fun b hb => hall b (.inr ⟨ys, hys, hb⟩)
  · rintro hall b (⟨ys, hys, hb⟩ | ⟨ys, hys, hb⟩)
    · obtain ⟨M, hM, hMys⟩ := (mem_of_mapM hlost).mp hys
      exact notifies_of_lostFor hC he het hk (of_mem_combination hC he het hMs hM).1 hMys hb
    · obtain ⟨M, hM, hMys⟩ := (mem_of_mapM hbro).mp hys
      obtain ⟨hmem, hconc⟩ := of_mem_combination hC he het hMs hM
      have htaken := hall et het (by simpa using hcut)
      exact (notifies_of_broadcastFor hC he het hk hmem hconc hMys).mpr
        (fun hmax honly w => htaken.mem_combination hC he het hMs hM hmax honly) b hb

/-- Three threads wait on condition variable 1, and the main thread wakes all of them. -/
def threeWaitersOps (l1 l2 l3 : LockId) : List (Op Unit) :=
  [.createThread .main worker, .initThread worker .main, .createThread .main worker2,
    .initThread worker2 .main, .createThread .main worker3, .initThread worker3 .main,
    .acquireLock worker l1, .wait1 worker 1 l1, .acquireLock worker2 l2, .wait1 worker2 1 l2,
    .acquireLock worker3 l3, .wait1 worker3 1 l3, .broadcastThreads .main 1 [worker, worker2, worker3]]

def apartWaiters : Configuration Unit := after (threeWaitersOps 1 2 3)
def wakeApart : Event Unit := (apartWaiters.lastOfTid .main).getD .programInit

/-- With locks of their own the waits are not ordered, and all seven broadcasts are right. -/
theorem Reachable.cexNotification_exact_iff_apart : ∃ xs,
    apartWaiters.cexNotification (fun _ => false) wakeApart = some xs ∧ xs.length = 7 ∧
      ∀ b ∈ xs, NotifiesWaiters b := by
  obtain ⟨xs, hxs, hlength⟩ := (any_eq_true _ _).mp (by decide +kernel :
    (apartWaiters.cexNotification (fun _ => false) wakeApart).any (·.length = 7) = true)
  have hC : Reachable localWhileRunning apartWaiters := reachable_after_of_noLocal (by decide)
  have hW := hC.wellFormed
  have he : wakeApart ∈ apartWaiters := by decide +kernel
  refine ⟨xs, hxs, of_decide_eq_true hlength,
    (Reachable.cexNotification_exact_iff hC _ he (by decide +kernel) hxs).mpr fun et het _ => ?_⟩
  have hetC := hW.closed he (threadPred_mem het)
  have hwaits : ∀ w ∈ apartWaiters.events, w.kind = .wait1 → ¬ w.isLessThanEq et = true ∧
      ∀ m ∈ apartWaiters.events, m.kind = .wait1 ∨ m.kind = .signal → ¬ w.isLessThan m = true := by
    obtain rfl : wakeApart.threadPredecessor.getD .programInit = et := by simp [het]
    decide +kernel
  refine ⟨fun w hw => ?_, fun m w hm hwm _ hw => ?_⟩
  · have hwC := hW.mem_of_le hw.1 hetC
    exact absurd ((hW.isLessThanEq_iff hwC hetC).mpr hw.1) (hwaits w hwC hw.2.1).1
  · have hwC := hW.mem_of_le hw.1 hm.mem
    exact absurd ((hW.isLessThan_iff hwC hm.mem).mpr hwm)
      ((hwaits w hwC hw.2.1).2 m hm.mem (hm.kind.imp_right And.left))

def threeWaiters : Configuration Unit := after (threeWaitersOps 1 1 1)

def wakeAll : Event Unit := (threeWaiters.lastOfTid .main).getD .programInit
def lastCreate : Event Unit := wakeAll.threadPredecessor.getD .programInit
def firstWaiter : Event Unit := (threeWaiters.lastOfTid worker).getD .programInit
def secondWaiter : Event Unit := (threeWaiters.lastOfTid worker2).getD .programInit

lemma reachable_threeWaiters : Reachable localWhileRunning threeWaiters :=
  reachable_after_of_noLocal (by decide)

/-- For the second waiter alone, the broadcast leaves the first one waiting. -/
theorem cexNotification_misses_waiter : Reachable localWhileRunning threeWaiters ∧ wakeAll ∈ threeWaiters ∧
    wakeAll.kind = .broadcast ∧ ∃ xs, threeWaiters.cexNotification (fun _ => false) wakeAll = some xs ∧
      ∃ b ∈ xs, Outstanding {x | x < b} b.cid firstWaiter ∧ firstWaiter ∉ b.waitPredecessors := by
  obtain ⟨xs, hxs, hb⟩ := (any_eq_true _ _).mp
    (by decide +kernel : (threeWaiters.cexNotification (fun _ => false) wakeAll).any
      (fun xs => broadcastAfter .main 1 lastCreate [secondWaiter] ∈ xs) = true)
  refine ⟨reachable_threeWaiters, by decide +kernel, by decide +kernel, xs, hxs,
    broadcastAfter .main 1 lastCreate [secondWaiter], of_decide_eq_true hb, ?_, by decide +kernel⟩
  have hW := reachable_threeWaiters.wellFormed
  have hmem : firstWaiter ∈ threeWaiters ∧ secondWaiter ∈ threeWaiters ∧ lastCreate ∈ threeWaiters ∧
      wakeAll ∈ threeWaiters := by decide +kernel
  have hpast : ∀ {x}, x < broadcastAfter .main 1 lastCreate [secondWaiter] ↔ x ∈ pastWith lastCreate [secondWaiter] :=
    lt_broadcastAfter_iff (by decide +kernel)
  have hlt : firstWaiter < secondWaiter := (hW.isLessThan_iff hmem.1 hmem.2.1).mp (by decide +kernel)
  refine ⟨hpast.mpr (.inr ⟨secondWaiter, by simp, hlt.le⟩), by decide +kernel, by decide +kernel, fun n hn hwn => ?_⟩
  have hall : ∀ n ∈ threeWaiters.events, firstWaiter ∈ n.waitPredecessors → n = wakeAll := by decide +kernel
  have hn := hpast.mp hn
  obtain rfl := hall n (mem_of_mem_pastWith hW hmem.2.2.1 (by simpa using hmem.2.1) hn) hwn
  rcases hn with h | ⟨m, hm, h⟩
  · exact absurd ((hW.isLessThanEq_iff hmem.2.2.2 hmem.2.2.1).mpr h) (by decide +kernel)
  · obtain rfl := mem_singleton.mp hm
    exact absurd ((hW.isLessThanEq_iff hmem.2.2.2 hmem.2.1).mpr h) (by decide +kernel)

end Configuration
end Por
