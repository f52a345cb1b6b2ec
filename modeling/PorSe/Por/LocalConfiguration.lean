import PorSe.Por.Replay

/-! The local configuration of an event as `event_iterator` enumerates it: the event, the
chains of its cone from the last thread to the first, and the root. For the events that an
exploration stores these are the event and its causes, each of them once. -/

namespace Por
open List SortedMap Event
namespace Event
variable {D : Type}

def mainInit : Event D := ⟨.main, .threadInit, [programInit]⟩

variable {a e : Event D}

lemma eq_mainInit (hk : a.kind = .threadInit) (ht : a.tid = .main) (hp : a.preds = [programInit]) : a = mainInit := by
  obtain ⟨t, l, ps⟩ := a
  obtain rfl : t = .main := ht
  obtain rfl : ps = [programInit] := hp
  cases l <;> simp at hk
  rfl

variable [DecidableEq D]

/-- From the last thread to the first, and on each thread from the latest event to the first. -/
def coneChains (e : Event D) : List (Event D) := e.cone.values.reverse.flatMap threadChain

def visited (e : Event D) (withRoot withEvent : Bool) : List (Event D) := (if withEvent then [e] else []) ++
  (e.coneChains ++ if withRoot ∧ e.kind ≠ .programInit then [programInit] else [])

/-- The last chain is to end in the start of the main thread, which follows the root. -/
def localConfiguration (e : Event D) : Option (List (Event D)) :=
  if e.cone.entries.isEmpty then
    if e.kind = .programInit then some [e]
    else if e.kind = .threadInit then
      e.predecessors.head?.bind fun root => if root.kind = .programInit then some [e, root] else none
    else none
  else
    e.coneChains.getLast?.bind fun last => last.predecessors.head?.map fun root => e :: e.coneChains ++ [root]

/-- The causes of `e` are valid, ordered on each thread and after the start of the main thread. -/
structure Rooted (e : Event D) : Prop where
  valid : e.Valid
  le_total : ∀ {a b}, a ≤ e → b ≤ e → a.tid = b.tid → a ≤ b ∨ b ≤ a
  mem_threadChain : ∀ {a b}, a ≤ b → b ≤ e → a.tid = b.tid → a.kind ≠ .programInit → a ∈ b.threadChain
  tid_ne_empty : ∀ {a}, a ≤ e → a.kind ≠ .programInit → a.tid ≠ .empty
  init : ∀ {a}, a ≤ e → a.kind = .threadInit → (a.tid = .main ↔ a.preds = [programInit])

section
variable (h : e.Rooted)
include h

lemma Rooted.mono (hae : a ≤ e) : a.Rooted where
  valid := h.valid.mono hae
  le_total ha hb := h.le_total (ha.trans hae) (hb.trans hae)
  mem_threadChain hab hb := h.mem_threadChain hab (hb.trans hae)
  tid_ne_empty ha := h.tid_ne_empty (ha.trans hae)
  init ha := h.init (ha.trans hae)

lemma Rooted.main_le_tid (hae : a ≤ e) (hk : a.kind ≠ .programInit) : .main ≤ a.tid :=
  ThreadId.main_le (h.tid_ne_empty hae hk)

lemma Rooted.programInit_lt (hk : e.kind ≠ .programInit) : programInit < e :=
  lt_of_le_of_ne (programInit_le h.valid) fun heq => hk (by simp [← heq, programInit])

lemma Rooted.mainInit_le (hk : e.kind ≠ .programInit) : mainInit ≤ e := by
  induction e using induction with
  | h e ih =>
    have hpred : ∀ p ∈ e.preds, p.kind ≠ .programInit → mainInit ≤ e := fun p hp hpk =>
      (ih p hp (h.mono (lt_of_mem_preds hp).le) hpk).trans (lt_of_mem_preds hp).le
    by_cases hi : e.kind = .threadInit
    · obtain ⟨p, hp⟩ := length_eq_one_iff.mp
        (length_preds_single h.valid.checks (by simp [singleKinds, hi]))
      have hpe : p ∈ e.preds := by simp [hp]
      by_cases hpk : p.kind = .programInit
      · rw [eq_programInit (h.valid.mono (lt_of_mem_preds hpe).le).checks hpk] at hp
        rw [eq_mainInit hi ((h.init le_rfl hi).mpr hp) hp]
      · exact hpred p hpe hpk
    · obtain ⟨p, hp, -, -, hpk, -⟩ := threadPred_of_checks h.valid.checks hk hi
      exact hpred p (threadPred_mem hp) hpk

lemma Rooted.eq_mainInit_of_threadPred (hk : e.kind ≠ .programInit) (ht : e.tid = .main)
    (hp : e.threadPredecessor = none) : e = mainInit := by
  by_cases hi : e.kind = .threadInit
  · exact eq_mainInit hi ht ((h.init le_rfl hi).mp ht)
  · obtain ⟨p, hp', -⟩ := threadPred_of_checks h.valid.checks hk hi
    simp [hp] at hp'

/-! ## The cone of a rooted event -/

lemma Rooted.mem_threadChain_iff {c : Event D} (hc : c ≤ e) (hk : c.kind ≠ .programInit) :
    a ∈ c.threadChain ↔ a ≤ c ∧ a.tid = c.tid ∧ a.kind ≠ .programInit := by
  constructor
  · intro ha
    have hac : a ≤ c := le_of_mem_chain threadPred_mem ha
    refine ⟨hac, tid_of_chain (h.valid.mono hc) ha, fun hak => ?_⟩
    -- the root has the empty id
    have ht := tid_of_chain (h.valid.mono hc) ha
    rw [eq_programInit (h.valid.mono (hac.trans hc)).checks hak] at ht
    exact h.tid_ne_empty hc hk ht.symm
  · rintro ⟨hac, ht, hak⟩
    exact h.mem_threadChain hac hc ht hak

lemma Rooted.getLast?_coneChains (hk : e.kind ≠ .programInit) (hne : e ≠ mainInit) :
    e.coneChains.getLast? = some mainInit := by
  have hcone := cone_represents h.valid
  obtain ⟨c, hc, -⟩ := hcone.deepest (lt_of_le_of_ne (h.mainInit_le hk) (Ne.symm hne)) (by simp [mainInit])
  obtain ⟨ps, hps⟩ := entries_eq_cons hc fun p hp => by
    obtain ⟨hpe, hpt, hpk⟩ := hcone.mem (mem_entries_iff.mp hp)
    exact hpt ▸ h.main_le_tid (le_of_lt hpe) hpk
  obtain ⟨hce, hct, hck⟩ := hcone.mem hc
  obtain ⟨z, hz, hnone⟩ := getLast?_chain threadPred_mem c
  obtain ⟨hzc, hzt, hzk⟩ := (h.mem_threadChain_iff (le_of_lt hce) hck).mp (mem_of_getLast? hz)
  rw [coneChains, values, hps, map_cons, reverse_cons, flatMap_append,
    ← (h.mono (hzc.trans (le_of_lt hce))).eq_mainInit_of_threadPred hzk (hzt.trans hct) hnone]
  simp [threadChain, Option.mem_def.mp hz]

lemma Rooted.mem_cone_chain_iff {t : ThreadId} :
    (∃ c, e.cone.find? t = some c ∧ a ∈ c.threadChain) ↔ a < e ∧ a.tid = t ∧ a.kind ≠ .programInit := by
  have hcone := cone_represents h.valid
  constructor
  · rintro ⟨c, hc, ha⟩
    obtain ⟨hce, hct, hck⟩ := hcone.mem hc
    obtain ⟨hac, hat, hak⟩ := (h.mem_threadChain_iff (le_of_lt hce) hck).mp ha
    exact ⟨hac.trans_lt hce, hat.trans hct, hak⟩
  · rintro ⟨hae, rfl, hak⟩
    obtain ⟨c, hc, hd⟩ := hcone.deepest hae hak
    obtain ⟨hce, hct, hck⟩ := hcone.mem hc
    refine ⟨c, hc, (h.mem_threadChain_iff (le_of_lt hce) hck).mpr ⟨?_, hct.symm, hak⟩⟩
    exact le_of_depth_le (h.le_total hae.le (le_of_lt hce) hct.symm) hd

lemma Rooted.mem_chains_iff : a ∈ e.coneChains ↔ a < e ∧ a.kind ≠ .programInit := by
  simp only [coneChains, mem_flatMap, mem_reverse, mem_values_iff]
  constructor
  · rintro ⟨c, ⟨t, hc⟩, ha⟩
    obtain ⟨hae, -, hak⟩ := h.mem_cone_chain_iff.mp ⟨c, hc, ha⟩
    exact ⟨hae, hak⟩
  · rintro ⟨hae, hak⟩
    obtain ⟨c, hc, ha⟩ := h.mem_cone_chain_iff.mpr ⟨hae, rfl, hak⟩
    exact ⟨c, ⟨_, hc⟩, ha⟩

lemma Rooted.nodup_chains : e.coneChains.Nodup := by
  have hcone := cone_represents h.valid
  refine nodup_flatMap.mpr ⟨fun c _ => ?_, ?_⟩
  · exact (pairwise_chain threadPred_mem c).imp fun h => h.ne'
  · rw [pairwise_reverse, values, pairwise_map]
    refine e.cone.sorted.imp_of_mem fun {p q} hp hq hpq a hap haq => ?_
    obtain ⟨hpe, hpt, hpk⟩ := hcone.mem (mem_entries_iff.mp hp)
    obtain ⟨hqe, hqt, hqk⟩ := hcone.mem (mem_entries_iff.mp hq)
    have h1 := ((h.mem_threadChain_iff (le_of_lt hpe) hpk).mp haq).2.1
    have h2 := ((h.mem_threadChain_iff (le_of_lt hqe) hqk).mp hap).2.1
    exact hpq.ne (hpt.symm.trans (h1.symm.trans (h2.trans hqt)))

/-! ## The local configuration of a rooted event -/

lemma Rooted.localConfig_eq (hk : e.kind ≠ .programInit) :
    e.localConfiguration = some (e :: e.coneChains ++ [programInit]) := by
  by_cases hne : e = mainInit
  · subst hne
    rfl
  · have hlast := h.getLast?_coneChains hk hne
    have hcone : e.cone.entries.isEmpty = false := by
      by_contra hempty
      simp [coneChains, values, isEmpty_iff.mp (eq_true_of_ne_false hempty)] at hlast
    rw [localConfiguration, hcone, hlast]
    rfl

lemma Rooted.mem_visited_iff (withRoot withEvent : Bool) : a ∈ e.visited withRoot withEvent ↔
    withEvent ∧ a = e ∨ a < e ∧ (withRoot ∨ a.kind ≠ .programInit) := by
  rw [visited, mem_append, mem_append, h.mem_chains_iff, mem_ite_nil_right, mem_ite_nil_right,
    mem_singleton, mem_singleton]
  refine or_congr_right ⟨?_, ?_⟩
  · rintro (⟨hae, hk⟩ | ⟨⟨hr, hk⟩, rfl⟩)
    · exact ⟨hae, .inr hk⟩
    · exact ⟨h.programInit_lt hk, .inl hr⟩
  · rintro ⟨hae, hr⟩
    by_cases hk : a.kind = .programInit
    · obtain rfl := eq_programInit (h.valid.mono hae.le).checks hk
      refine .inr ⟨⟨hr.resolve_right (not_not.mpr hk), fun hke => hae.ne ?_⟩, rfl⟩
      exact (eq_programInit h.valid.checks hke).symm
    · exact .inl ⟨hae, hk⟩

lemma Rooted.nodup_visited (withRoot withEvent : Bool) : (e.visited withRoot withEvent).Nodup := by
  refine nodup_append.mpr ⟨by split_ifs <;> simp, nodup_append.mpr ⟨h.nodup_chains, by split_ifs <;> simp, ?_⟩, ?_⟩
  · rintro a ha b hb rfl
    obtain rfl := mem_singleton.mp (mem_ite_nil_right.mp hb).2
    exact (h.mem_chains_iff.mp ha).2 rfl
  · rintro a ha b hb rfl
    rcases (h.mem_visited_iff withRoot false).mp hb with ⟨h, -⟩ | ⟨hlt, -⟩
    · cases h
    · exact hlt.ne (mem_singleton.mp (mem_ite_nil_right.mp ha).2)

lemma Rooted.localConfig_spec : ∃ es, e.localConfiguration = some es ∧ es.Nodup ∧ ∀ a, a ∈ es ↔ a ≤ e := by
  refine ⟨e.visited true true, ?_, h.nodup_visited _ _, fun a => ?_⟩
  · by_cases hk : e.kind = .programInit
    · rw [eq_programInit h.valid.checks hk]
      rfl
    · rw [h.localConfig_eq hk, visited, if_pos rfl, if_pos ⟨rfl, hk⟩]
      rfl
  · simp [h.mem_visited_iff, le_iff_lt_or_eq, or_comm]

end

end Event

/-! ## The events that an exploration stores -/

namespace Configuration
variable {D : Type} [DecidableEq D]

def startsThread (_ : Configuration D) (op : Op D) : Prop := ∀ t createdFrom, op =
    .initThread t createdFrom → t ≠ .empty

/-- The causes of `x` on its thread are those up to its thread predecessor. -/
structure BuiltOn (C : Configuration D) (x : Event D) : Prop where
  checks : x.checks = true
  preds_mem : ∀ p ∈ x.preds, p ∈ C
  le_threadPredecessor : ∃ et, x.threadPredecessor = some et ∧ ∀ y < x, y.tid = x.tid → y ≤ et

def Explored (e : Event D) : Prop := ∃ C : Configuration D, Reachable startsThread C ∧ (e ∈ C ∨ C.BuiltOn e)

variable {C : Configuration D}

lemma Reachable.mainInit_mem {P : Configuration D → Op D → Prop} (hC : Reachable P C) : mainInit ∈ C := by
  induction hC with
  | initial => exact mem_iff.mpr (.inl ⟨.main, _, rfl, mem_cons_self⟩)
  | commit _ _ he ih => exact (mem_commit (extend_iff.mp he).1.threadPredecessor_eq).mpr (.inr ih)

lemma Reachable.threadInit_mem (hC : Reachable startsThread C) {a : Event D} (ha : a ∈ C)
    (hk : a.kind = .threadInit) : a.tid ≠ .empty ∧ (a.tid = .main ↔ a.preds = [programInit]) := by
  induction hC with
  | initial =>
    have : a ∈ [mainInit, programInit] := ha
    simp only [mem_cons, not_mem_nil, or_false] at this
    rcases this with rfl | rfl
    · exact ⟨by simp [mainInit, ThreadId.main, ThreadId.empty, ThreadId.child], by simp [mainInit]⟩
    · simp [programInit] at hk
  | @commit C op e hC hop he ih =>
    obtain ⟨h, -⟩ := extend_iff.mp he
    rcases (mem_commit h.threadPredecessor_eq).mp ha with rfl | ha
    · cases h with
      | @initThread t createdFrom p hp hpk _ ht =>
        refine ⟨hop t createdFrom rfl, iff_of_false ?_ ?_⟩
        · rintro rfl
          obtain ⟨h, hh, -⟩ := hC.wellFormed.le_lastOfTid hC.mainInit_mem (by simp [mainInit])
          simp [mainInit, ht] at hh
        · intro hp'
          obtain rfl : p = programInit := by simpa using hp'
          simp [programInit] at hpk
      | _ => simp at hk
    · exact ih ha

lemma Reachable.rooted (hC : Reachable startsThread C) {e : Event D} (he : e ∈ C) : e.Rooted where
  valid := hC.wellFormed.valid he
  le_total ha hb := hC.wellFormed.le_total (hC.wellFormed.mem_of_le ha he) (hC.wellFormed.mem_of_le hb he)
  mem_threadChain hab hb ht hk := hC.wellFormed.mem_chain_of_le (hC.wellFormed.mem_of_le (hab.trans hb) he)
    (hC.wellFormed.mem_of_le hb he) ht hk hab
  tid_ne_empty {a} ha hk := by
    have haC := hC.wellFormed.mem_of_le ha he
    by_cases hi : a.kind = .threadInit
    · exact (hC.threadInit_mem haC hi).1
    · obtain ⟨p, -, hpt, hne, -⟩ := threadPred_of_checks (hC.wellFormed.checks haC) hk hi
      exact hpt ▸ hne
  init ha hk := (hC.threadInit_mem (hC.wellFormed.mem_of_le ha he) hk).2

lemma BuiltOn.rooted (hC : Reachable startsThread C) {x : Event D} (hx : C.BuiltOn x) : x.Rooted := by
  have hW := hC.wellFormed
  obtain ⟨et, het, hle⟩ := hx.le_threadPredecessor
  have hetx := threadPred_lt het
  have hett := tid_of_threadPred hx.checks het
  have hmem : ∀ {a}, a < x → a ∈ C := hW.mem_of_lt hx.preds_mem
  have hcase : ∀ {a}, a ≤ x → a = x ∨ a < x := fun h => h.eq_or_lt'.imp_left Eq.symm
  have hkind : x.kind ≠ .programInit ∧ x.kind ≠ .threadInit := by
    obtain ⟨t, l, ps⟩ := x
    cases l <;> simp [threadPredecessor] at het ⊢
  constructor
  · exact valid_of_preds hx.checks fun p hp => hW.valid (hx.preds_mem p hp)
  · intro a b ha hb ht
    rcases hcase ha with rfl | ha' <;> rcases hcase hb with rfl | hb'
    · exact .inl le_rfl
    · exact .inr hb
    · exact .inl ha
    · exact hW.le_total (hmem ha') (hmem hb') ht
  · intro a b hab hb ht hk
    rcases hcase hb with rfl | hb'
    · rw [threadChain_eq, het]
      rcases hcase hab with rfl | ha'
      · exact mem_cons_self
      · exact mem_cons_of_mem _
          (hW.mem_chain_of_le (hmem ha') (hmem hetx) (ht.trans hett.symm) hk (hle a ha' ht))
    · exact hW.mem_chain_of_le (hmem (hab.trans_lt hb')) (hmem hb') ht hk hab
  · intro a ha hk
    rcases hcase ha with rfl | ha'
    · obtain ⟨p, -, hpt, hne, -⟩ := threadPred_of_checks hx.checks hk hkind.2
      exact hpt ▸ hne
    · exact (hC.rooted (hmem ha')).tid_ne_empty le_rfl hk
  · intro a ha hk
    rcases hcase ha with rfl | ha'
    · exact absurd hk hkind.2
    · exact (hC.rooted (hmem ha')).init le_rfl hk

def namesThread : Op D → Bool
  | .initThread t _ => t ≠ .empty
  | _ => true

lemma reachable_startsThread {ops : List (Op D)} (h : ops.all namesThread = true) :
    Reachable startsThread (after ops) :=
  reachable_after_of_forall (fun C op hop t t' hop' => by simpa [hop', namesThread] using hop) h

lemma reachable_forked : Reachable startsThread forked := reachable_startsThread (by decide)

lemma Explored.rooted {e : Event D} (h : Explored e) : e.Rooted := by
  obtain ⟨C, hC, he | he⟩ := h
  · exact hC.rooted he
  · exact he.rooted hC

end Configuration
end Por
