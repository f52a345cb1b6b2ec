import PorSe.Lib.Switching
import PorSe.Por.LocalConfiguration

/-! The context switch degree: how many context switches an execution of a local
configuration needs. The search runs each thread as far as it gets, which is never
worse than switching earlier. -/

namespace Por
open List Option Event SortedMap ListSearch Nat
namespace Csd
variable {D : Type}

/-! ## Arithmetic on `csd_t` -/

def add (a b : ℕ) : ℕ := (a + b) % 2 ^ 64

def sub (a b : ℕ) : ℕ := (a + (2 ^ 64 - b)) % 2 ^ 64

lemma add_eq {a b : ℕ} (h : a + b < 2 ^ 64) : add a b = a + b := mod_eq_of_lt h

lemma sub_eq {a b : ℕ} (hb : b ≤ a) (ha : a < 2 ^ 64) : sub a b = a - b := by
  unfold sub
  omega

/-! ## The events of a local configuration -/

abbrev Events (D : Type) := SortedMap ThreadId (List (Event D))

def Events.of (E : Events D) (t : ThreadId) : List (Event D) := (E.find? t).getD []

section
variable [DecidableEq D]

variable (e : Event D)

def computeThreadCount : ℕ := e.cone.size + if e.kind = .threadInit then 1 else 0

lemma threadCount_programInit {e : Event D} (hc : e.checks = true) (hk : e.kind = .programInit) :
    computeThreadCount e = 0 := by
  rw [eq_programInit hc hk]
  simp [computeThreadCount, programInit, cone_eq, Cone.initializer, SortedMap.size, empty]

def startChecks (x : Event D) : Bool :=
  x.preds.head?.any fun cause => cause.kind = .threadCreate || cause.kind = .programInit && x.tid = .main

def chains : Events D := e.cone.mapValues fun c => c.threadChain.reverse

def collected : Events D := insert (chains e) e.tid ((chains e).of e.tid ++ [e])

def collect : Option (Events D) :=
  if (e.kind = .threadInit → startChecks e = true) ∧
      (∀ vec ∈ (chains e).values, (vec.head?.any fun x => x.kind = .threadInit && startChecks x) = true) ∧
      (collected e).entries.head?.map Prod.fst = some .main then some (collected e)
  else none

/-- `E` has the events of the local configuration, thread by thread and in order. -/
structure Collects (e : Event D) (E : Events D) : Prop where
  mem_iff : ∀ {t x}, x ∈ E.of t ↔ x ≤ e ∧ x.tid = t ∧ x.kind ≠ .programInit
  sorted : ∀ t, (E.of t).Pairwise (· < ·)

lemma startChecks_of_threadInit {e x : Event D} (he : e.Rooted) (hx : x ≤ e) (hk : x.kind = .threadInit) :
    startChecks x = true := by
  obtain ⟨p, hp⟩ := length_eq_one_iff.mp
    (length_preds_single (he.valid.mono hx).checks (by simp [singleKinds, hk]))
  have hchecks : x.threadInitChecks = true := by
    have := (he.valid.mono hx).checks
    obtain ⟨t, l, ps⟩ := x
    cases l <;> simp_all [checks]
  have hroot : p.kind = .programInit → x.tid = .main := fun hpk =>
    (he.init hx hk).mpr (by rw [hp, eq_programInit (he.valid p
      ((lt_of_mem_preds (by simp [hp])).le.trans hx)) hpk])
  simp only [threadInitChecks, hp, getElem?_cons_zero, any_some, Bool.and_eq_true, Bool.or_eq_true,
    decide_eq_true_eq] at hchecks
  simp only [startChecks, hp, head?_cons, any_some, Bool.or_eq_true, Bool.and_eq_true, decide_eq_true_eq]
  rcases hchecks.2 with h | h
  · exact .inr ⟨h.1, hroot h.1⟩
  · exact .inl h.1

section
variable {e : Event D} (he : e.Rooted)
include he

lemma mem_chains {t : ThreadId} {x : Event D} : x ∈ (chains e).of t ↔ x < e ∧ x.tid = t ∧ x.kind ≠ .programInit := by
  rw [← he.mem_cone_chain_iff, Events.of, chains, find?_mapValues]
  cases e.cone.find? t <;> simp

omit he in
lemma sorted_chains (t : ThreadId) : ((chains e).of t).Pairwise (· < ·) := by
  rw [Events.of, chains, find?_mapValues]
  cases e.cone.find? t with
  | none => exact List.Pairwise.nil
  | some c => exact pairwise_reverse.mpr (pairwise_chain threadPred_mem c)

lemma collects (hk : e.kind ≠ .programInit) : Collects e (collected e) where
  mem_iff {t x} := by
    rw [Events.of, collected, find?_insert]
    split_ifs with ht
    · rw [getD_some, mem_append, mem_chains he, mem_singleton, le_iff_eq_or_lt', ht]
      constructor
      · rintro (⟨hx, h⟩ | rfl)
        · exact ⟨.inr hx, h⟩
        · exact ⟨.inl rfl, ht, hk⟩
      · rintro ⟨rfl | hx, h⟩
        · exact .inr rfl
        · exact .inl ⟨hx, h⟩
    · rw [← Events.of, mem_chains he, le_iff_eq_or_lt']
      exact ⟨fun h => ⟨.inr h.1, h.2⟩, fun h => ⟨h.1.resolve_left fun h' => ht (h' ▸ h.2.1), h.2⟩⟩
  sorted t := by
    rw [Events.of, collected, find?_insert]
    split_ifs
    · refine pairwise_append.mpr ⟨sorted_chains _, pairwise_singleton _ _, fun x hx y hy => ?_⟩
      rw [mem_singleton.mp hy]
      exact ((mem_chains he).mp hx).1
    · exact sorted_chains t

lemma chain_head {vec : List (Event D)} (h : vec ∈ (chains e).values) :
    (vec.head?.any fun x => x.kind = .threadInit && startChecks x) = true := by
  obtain ⟨t, ht⟩ := mem_values_iff.mp h
  rw [chains, find?_mapValues, map_eq_some_iff] at ht
  obtain ⟨c, hc, rfl⟩ := ht
  obtain ⟨z, hz, hnone⟩ := getLast?_chain threadPred_mem c
  obtain ⟨hze, -, hzk⟩ := he.mem_cone_chain_iff.mp ⟨c, hc, mem_of_getLast? hz⟩
  have hinit : z.kind = .threadInit := by
    by_contra hi
    obtain ⟨p, hp, -⟩ := threadPred_of_checks (he.valid z hze.le) hzk hi
    simp [hnone] at hp
  rw [head?_reverse, show c.threadChain.getLast? = some z from hz]
  simp [hinit, startChecks_of_threadInit he hze.le hinit]

lemma collected_ne_nil {t : ThreadId} {es : List (Event D)} (h : (collected e).find? t = some es) : es ≠ [] := by
  rw [collected, find?_insert] at h
  split_ifs at h
  · simp [← some.inj h]
  · rintro rfl
    have := chain_head he (mem_values_iff.mpr ⟨t, h⟩)
    simp at this

lemma collected_entries (hk : e.kind ≠ .programInit) : ∃ es ps, (collected e).entries = (.main, es) :: ps := by
  have hE := collects he hk
  have hmain : mainInit ∈ (collected e).of .main :=
    hE.mem_iff.mpr ⟨he.mainInit_le hk, rfl, by simp [mainInit]⟩
  cases hes : (collected e).find? .main with
  | none =>
    rw [Events.of, hes] at hmain
    simp at hmain
  | some es =>
    refine ⟨es, entries_eq_cons hes fun p hp => ?_⟩
    have hfind := mem_entries_iff.mp hp
    obtain ⟨x, xs, hxs⟩ := exists_cons_of_ne_nil (collected_ne_nil he hfind)
    have hx : x ∈ (collected e).of p.1 := by
      rw [Events.of, hfind, hxs]
      exact mem_cons_self
    obtain ⟨hxe, hxt, hxk⟩ := hE.mem_iff.mp hx
    exact hxt ▸ he.main_le_tid hxe hxk

lemma collect_eq (hk : e.kind ≠ .programInit) : collect e = some (collected e) := by
  obtain ⟨es, ps, hentries⟩ := collected_entries he hk
  refine if_pos ⟨startChecks_of_threadInit he le_rfl, fun _ => chain_head he, ?_⟩
  rw [hentries]
  rfl

lemma length_entries_collected (hk : e.kind ≠ .programInit) : (collected e).entries.length = computeThreadCount e := by
  have hsize : (chains e).entries.length = e.cone.size := by
    simp [chains, mapValues, SortedMap.size]
  rw [collected, (entries_insert_perm _ _ _).length_eq, length_cons, computeThreadCount, ← hsize]
  split_ifs with hi
  · have hnone : (chains e).find? e.tid = none := by
      cases hc : e.cone.find? e.tid with
      | none => rw [chains, find?_mapValues, hc, map_none]
      | some c =>
        obtain ⟨hce, hct, hck⟩ := (cone_represents he.valid).mem hc
        have := he.mem_threadChain (le_of_lt hce) le_rfl hct hck
        have hnone : e.threadPredecessor = none := by
          obtain ⟨t, l, ps⟩ := e
          cases l <;> simp at hi
          rfl
        rw [threadChain_eq, hnone, elim_none, mem_singleton] at this
        exact absurd hce (this ▸ lt_irrefl e)
    rw [erase_of_find?_eq_none hnone]
  · obtain ⟨p, hp, hpt, -, hpk, -⟩ := threadPred_of_checks he.valid.checks hk hi
    have hpe := threadPred_lt hp
    obtain ⟨c, hc, -⟩ := (cone_represents he.valid).deepest hpe hpk
    have hfind : (chains e).find? e.tid = some c.threadChain.reverse := by
      rw [chains, find?_mapValues, ← hpt, hc, map_some]
    rw [(entries_perm_erase hfind).length_eq, length_cons]

end

end

/-! ## Enabled events -/

def eventIsEnabled (hasRun : Event D → Bool) (e : Event D) : Bool :=
  match e.kind with
  | .threadJoin => e.joinedThreadPredecessor.any hasRun
  | .threadInit => e.preds.head?.any fun p => p.kind = .programInit || hasRun p
  | .lockAcquire => e.lockPredecessor.all fun p => p.tid = e.tid || hasRun p
  | .wait1 | .signal | .broadcast => e.conditionVariablePredecessors.all hasRun
  | .wait2 => e.notifyingPredecessor.any hasRun && e.lockPredecessor.any fun p => p.tid = e.tid || hasRun p
  | _ => true

section
variable {run run' : Event D → Bool} {e : Event D}

lemma isEnabled_mono (h : ∀ p ∈ e.preds, run p = true → run' p = true) (he : eventIsEnabled run e = true) :
    eventIsEnabled run' e = true := by
  have hany : ∀ {o : Option (Event D)} {f f' : Event D → Bool}, (∀ p ∈ o, p ∈ e.preds) →
      (∀ p ∈ e.preds, f p = true → f' p = true) → o.any f = true → o.any f' = true := by
    intro o f f' ho hf h
    obtain ⟨p, hp, hfp⟩ := (any_eq_true _ _).mp h
    exact (any_eq_true _ _).mpr ⟨p, hp, hf p (ho p hp) hfp⟩
  have hor : ∀ {q : Event D → Bool}, ∀ p ∈ e.preds, (q p || run p) = true → (q p || run' p) = true := by
    intro q p hp hq
    rw [Bool.or_eq_true] at hq ⊢
    exact hq.imp_right (h p hp)
  unfold eventIsEnabled at he ⊢
  split at he
  · exact hany (fun p hp => joinedThreadPred_mem hp) h he
  · exact hany (fun p hp => mem_of_head? hp) hor he
  · rw [Option.all_eq_true] at he ⊢
    exact fun p hp => hor (q := fun p => p.tid = e.tid) p (lockPred_mem hp) (he p hp)
  · rw [List.all_eq_true] at he ⊢
    exact fun p hp => h p (condPreds_subset hp) (he p hp)
  · rw [List.all_eq_true] at he ⊢
    exact fun p hp => h p (condPreds_subset hp) (he p hp)
  · rw [List.all_eq_true] at he ⊢
    exact fun p hp => h p (condPreds_subset hp) (he p hp)
  · rw [Bool.and_eq_true] at he ⊢
    exact ⟨hany (fun p hp => notifyingPred_mem hp) h he.1, hany (fun p hp => lockPred_mem hp) hor he.2⟩
  · rfl

lemma isEnabled_of_forall [DecidableEq D] (hc : e.checks = true)
    (h : ∀ p ∈ e.preds, p.kind ≠ .programInit → run p = true) : eventIsEnabled run e = true := by
  have hlock : ∀ p, e.lockPredecessor = some p → e.lid ≠ 0 → run p = true := by
    intro p hp hl
    refine h p (lockPred_mem hp) fun hk => hl ?_
    rw [← lid_of_lockPred hc hp, lid_eq_zero (by simp [hk])]
  have hcond : ∀ p ∈ e.conditionVariablePredecessors, e.cid ≠ 0 → e.kind ≠ .wait2 → run p = true := by
    intro p hp hcid hk2
    refine h p (condPreds_subset hp) fun hk => hcid ?_
    rw [← cid_of_mem_condPreds hc hk2 hp, cid_eq_zero (by simp [hk, condKinds])]
  unfold eventIsEnabled
  split
  case h_1 hk =>
    have hj : e.threadJoinChecks = true := by
      obtain ⟨t, l, ps⟩ := e
      cases l <;> simp at hk
      simp only [checks, Bool.and_eq_true] at hc
      exact hc.2
    obtain ⟨p, hp, hpk⟩ := (any_eq_true _ _).mp hj
    simp only [Bool.and_eq_true, decide_eq_true_eq] at hpk
    exact (any_eq_true _ _).mpr ⟨p, hp, h p (joinedThreadPred_mem hp) (by simp [hpk.2])⟩
  case h_2 hk =>
    obtain ⟨p, hp⟩ := length_eq_one_iff.mp (length_preds_single hc (by simp [singleKinds, hk]))
    by_cases hpk : p.kind = .programInit
    · simp [hp, hpk]
    · simp [hp, h p (by simp [hp]) hpk]
  case h_3 hk =>
    rw [Option.all_eq_true]
    intro p hp
    rw [hlock p hp (lid_ne_zero hc (by simp [hk, lockHeadKinds])), Bool.or_true]
  case h_4 hk | h_5 hk | h_6 hk =>
    exact all_eq_true.mpr fun p hp =>
      hcond p hp (cid_ne_zero hc (by simp [hk, condKinds])) (by simp [hk])
  case h_7 hk =>
    obtain ⟨n, hn⟩ := exists_notifyingPred hc hk
    obtain ⟨-, -, -, -, -, hnk, -⟩ := notifying_of_checks hc hn
    have hnrun := h n (notifyingPred_mem hn) (by rcases hnk with hnk | hnk <;> simp [hnk])
    have hl : ∃ p, e.lockPredecessor = some p := by
      have hlen := length_preds_of_wait2 hc hk
      obtain ⟨t, l, ps⟩ := e
      cases l <;> simp at hk
      obtain ⟨a, b, p, rfl⟩ := length_eq_three.mp hlen
      exact ⟨p, rfl⟩
    obtain ⟨p, hp⟩ := hl
    have hprun := hlock p hp (lid_ne_zero hc (by simp [hk, lockHeadKinds]))
    simp [hn, hp, hnrun, hprun]
  case h_8 => rfl

end

namespace Events
variable (E : Events D)

variable (a : ThreadId → ℕ)

def hasRun (e : Event D) : Bool :=
  0 < a e.tid && (E.of e.tid)[a e.tid - 1]?.any fun x => e.depth ≤ x.depth

def threads : Threads ThreadId where
  threads := (E.entries.map Prod.fst).toFinset
  length t := (E.of t).length
  enabled a t := (E.of t)[a t]?.any (eventIsEnabled (E.hasRun a))
  length_of_not_mem t ht := by
    cases h : E.find? t with
    | none => simp [of, h]
    | some es => exact absurd (List.mem_toFinset.mpr (List.mem_map.mpr ⟨_, mem_entries_iff.mpr h, rfl⟩)) ht

/-! ## The searches -/

def advanceCurrentThread (t : ThreadId) : Option (ThreadId → ℕ) :=
  if E.threads.CanStep a t then
    some (E.threads.advance t (E.threads.length t - (a t + 1)) (Threads.bump a t))
  else none

def activeThreads : List ThreadId :=
  (E.entries.map Prod.fst).filter fun t => a t < E.threads.length t

def alternatives (current : ThreadId) : List ThreadId :=
  (E.entries.map Prod.fst).filter fun t => t ≠ current ∧ E.threads.CanStep a t

/-- Tries the alternatives, each with a budget for an improvement; a switch costs `step`. -/
def csdLoop (step : ℕ) (ok : ℕ → Bool) (search : ThreadId → ℕ → Option ℕ) : List ThreadId → ℕ → Option ℕ
  | [], csd => if ok csd then some csd else none
  | t :: ts, csd => do
    let nextCsd := add (← search t (sub (sub csd 1) step)) step
    if nextCsd ≤ step then if ok csd then some nextCsd else none
    else csdLoop step ok search ts (if nextCsd < csd then nextCsd else csd)

def csdSearch : ℕ → (ThreadId → ℕ) → ThreadId → ℕ → Option ℕ
  | 0, _, _, _ => none
  | fuel + 1, a, current, budget => do
    let a ← E.advanceCurrentThread a current
    if E.activeThreads a = [] then some 0
    else if budget < (E.activeThreads a).length then some (add budget 1)
    else if E.alternatives a current = [] then none
    else
      csdLoop 1 (fun csd => 0 < csd && csd ≤ add budget 1) (csdSearch fuel a) (E.alternatives a current) (add budget 1)

def size : ℕ := (E.values.map List.length).sum

/-! ## What the searches compute -/

section
variable {E} {a : ThreadId → ℕ} {t : ThreadId}

lemma nodup_keys (E : Events D) : (E.entries.map Prod.fst).Nodup := by
  rw [List.Nodup, pairwise_map]
  exact E.sorted.imp fun h => h.ne

lemma length_activeThreads (a : ThreadId → ℕ) :
    (E.activeThreads a).length = (E.threads.threads.filter fun t => a t < E.threads.length t).card := by
  rw [activeThreads, ← toFinset_card_of_nodup (E.nodup_keys.filter _), toFinset_filter]
  exact congrArg Finset.card (Finset.filter_congr fun t _ => decide_eq_true_iff)

lemma activeThreads_eq_nil (ha : a ≤ E.threads.length) : E.activeThreads a = [] ↔ a = E.threads.length := by
  rw [← length_eq_zero_iff, length_activeThreads, Finset.card_eq_zero, Finset.filter_eq_empty_iff]
  constructor
  · intro h
    refine le_antisymm ha fun t => ?_
    by_cases ht : t ∈ E.threads.threads
    · exact not_lt.mp (h ht)
    · rw [E.threads.length_of_not_mem t ht]
      exact zero_le _
  · rintro rfl t -
    exact lt_irrefl _

lemma mem_alternatives {c : ThreadId} : t ∈ E.alternatives a c ↔ t ≠ c ∧ E.threads.CanStep a t := by
  simp only [alternatives, mem_filter, decide_eq_true_eq]
  exact ⟨And.right, fun h => ⟨mem_toFinset.mp h.2.mem_threads, h⟩⟩

variable (hmono : E.threads.Monotone) (hlive : E.threads.Live)
include hmono hlive

lemma advanceCurrent_spec (ha : a ≤ E.threads.length) (ht : E.threads.CanStep a t) :
    ∃ a', E.advanceCurrentThread a t = some a' ∧ a' ≤ E.threads.length ∧ ¬ E.threads.CanStep a' t ∧
      E.threads.remaining a' < E.threads.remaining a ∧ E.threads.best t a' = E.threads.best t a := by
  have hfuel : E.threads.length t ≤ Threads.bump a t t + (E.threads.length t - (a t + 1)) := by
    rw [Threads.bump_self]
    omega
  obtain ⟨h1, h2, h3, h4⟩ := Threads.advance_spec t (ht.bump_le ha) hfuel
  exact ⟨_, if_pos ht, h1, h2, h3.trans_lt ht.remaining_lt, (h4 hmono hlive).trans
    (Threads.best_bump hmono hlive ha ht)⟩

variable {k fuel csd step : ℕ} {ts : List ThreadId}

section
variable (ha : a ≤ E.threads.length) (ht : ¬ E.threads.CanStep a t) (hend : a ≠ E.threads.length)
include ha ht hend

lemma le_best_iff : k ≤ E.threads.best t a ↔ ∀ u ∈ E.alternatives a t, k ≤ E.threads.best u a + 1 := by
  constructor
  · intro hk u hu
    exact hk.trans (Threads.best_le_succ hmono hlive ha (mem_alternatives.mp hu).2)
  · intro h
    obtain ⟨u, hut, hu, hbest⟩ := Threads.exists_best_eq_succ hmono hlive ha ht hend
    rw [hbest]
    exact h u (mem_alternatives.mpr ⟨hut, hu⟩)

lemma alternatives_ne_nil : E.alternatives a t ≠ [] := by
  obtain ⟨u, hut, hu, -⟩ := Threads.exists_best_eq_succ hmono hlive ha ht hend
  exact ne_nil_of_mem (mem_alternatives.mpr ⟨hut, hu⟩)

end

omit hmono hlive in
lemma le_foldr_min_iff {g : ThreadId → ℕ} {m : ℕ} :
    k ≤ ts.foldr (fun t m => min (g t) m) m ↔ k ≤ m ∧ ∀ t ∈ ts, k ≤ g t := by
  induction ts with
  | nil => simp
  | cons t ts ih =>
    rw [foldr_cons, le_min_iff, ih, forall_mem_cons]
    exact and_left_comm

omit hmono hlive in
lemma nextCsd_eq {f : ℕ} (hstep : step < csd) (hcsd : csd < 2 ^ 64) :
    sub (sub csd 1) step = csd - 1 - step ∧ add (min f (csd - 1 - step + 1)) step = min (f + step) csd := by
  rw [sub_eq (by omega : 1 ≤ csd) hcsd, sub_eq (by omega) (by omega), add_eq (by omega)]
  omega

omit hmono hlive in
lemma csdLoop_eq {ok : ℕ → Bool} {search : ThreadId → ℕ → Option ℕ} {f : ThreadId → ℕ}
    (h : ∀ t ∈ ts, ∀ b < 2 ^ 64 - 1, search t b = some (min (f t) (b + 1))) (hstep : step < csd)
    (hcsd : csd < 2 ^ 64) (hok : ∀ v, step < v → v ≤ csd → ok v = true) :
    csdLoop step ok search ts csd = some (ts.foldr (fun t m => min (f t + step) m) csd) := by
  induction ts generalizing csd with
  | nil => simp [csdLoop, hok csd hstep le_rfl]
  | cons t ts ih =>
    have hrec := fun {c} => @ih c fun u hu => h u (mem_cons_of_mem t hu)
    obtain ⟨hsub, hnext⟩ := nextCsd_eq (f := f t) hstep hcsd
    simp only [csdLoop, hsub, h t mem_cons_self (csd - 1 - step) (by omega), bind_eq_bind, bind_some, hnext, foldr_cons]
    split_ifs with hle hok' hlt
    · have : step ≤ ts.foldr (fun t m => min (f t + step) m) csd :=
        le_foldr_min_iff.mpr ⟨hstep.le, fun u _ => le_add_left step _⟩
      rw [some.injEq]
      omega
    · exact absurd (hok csd hstep le_rfl) hok'
    · rw [hrec (by omega) (by omega) fun v hv _ => hok v hv (by omega), some.injEq]
      refine eq_of_forall_le_iff fun k => ?_
      simp only [le_foldr_min_iff, le_min_iff, and_assoc]
    · have hle' : csd ≤ f t + step := by omega
      rw [hrec hstep hcsd hok, some.injEq]
      refine eq_of_forall_le_iff fun k => ?_
      simp only [le_foldr_min_iff, le_min_iff]
      exact ⟨fun hk => ⟨hk.1.trans hle', hk⟩, And.right⟩

lemma csdSearch_eq {budget : ℕ} (hfuel : E.threads.remaining a ≤ fuel) (ha : a ≤ E.threads.length)
    (ht : E.threads.CanStep a t) (hbudget : budget < 2 ^ 64 - 1) :
    E.csdSearch fuel a t budget = some (min (E.threads.best t a) (budget + 1)) := by
  induction fuel generalizing a t budget with
  | zero => exact absurd ht.remaining_lt (by omega)
  | succ fuel ih =>
    obtain ⟨a', ha', hle, hblocked, _, hbest⟩ := advanceCurrent_spec hmono hlive ha ht
    have hadd : add budget 1 = budget + 1 := add_eq (by omega)
    have hactive := Threads.card_le_best hlive hle hblocked
    rw [← length_activeThreads] at hactive
    simp only [csdSearch, ha', bind_eq_bind, bind_some, ← hbest, hadd]
    by_cases hend : a' = E.threads.length
    · rw [if_pos ((activeThreads_eq_nil hle).mpr hend), hend, Threads.best_length]
      simp
    have hne : E.activeThreads a' ≠ [] := fun h => hend ((activeThreads_eq_nil hle).mp h)
    have hpos := length_pos_of_ne_nil hne
    rw [if_neg hne]
    split_ifs with hover
    · rw [some.injEq]
      omega
    · exact absurd ‹_› (alternatives_ne_nil hmono hlive hle hblocked hend)
    · rw [csdLoop_eq ?_ (by omega) (by omega) ?_, some.injEq]
      · refine eq_of_forall_le_iff fun k => ?_
        rw [le_foldr_min_iff, le_min_iff, le_best_iff hmono hlive hle hblocked hend, and_comm]
      · intro u hu b hb
        exact ih (by omega) hle (mem_alternatives.mp hu).2 hb
      · intro v hv _
        simp only [Bool.and_eq_true, decide_eq_true_eq]
        omega

end

/-! ## The events of a local configuration as threads -/

section
variable {E} {e : Event D} (hE : Collects e E) {a : ThreadId → ℕ}

variable {x : Event D}

lemma hasRun_eq_true :
    E.hasRun a x = true ↔ ∃ i y, a x.tid = i + 1 ∧ (E.of x.tid)[i]? = some y ∧ x.depth ≤ y.depth := by
  simp only [hasRun, Bool.and_eq_true, decide_eq_true_eq, Option.any_eq_true]
  constructor
  · rintro ⟨_, y, hy, hd⟩
    exact ⟨a x.tid - 1, y, by omega, hy, hd⟩
  · rintro ⟨i, y, hi, hy, hd⟩
    exact ⟨by omega, y, by rwa [hi], hd⟩

include hE

lemma hasRun_iff_mem_take (hx : x ≤ e) (hk : x.kind ≠ .programInit) (ha : a x.tid ≤ E.threads.length x.tid) :
    E.hasRun a x = true ↔ x ∈ (E.of x.tid).take (a x.tid) := by
  have hmem : x ∈ E.of x.tid := hE.mem_iff.mpr ⟨hx, rfl, hk⟩
  cases hn : a x.tid with
  | zero => simp [hasRun, hn]
  | succ i =>
    obtain ⟨y, hy⟩ : ∃ y, (E.of x.tid)[i]? = some y := by
      rw [hn] at ha
      exact ⟨_, getElem?_eq_getElem ha⟩
    have hrun : E.hasRun a x = true ↔ x.depth ≤ y.depth := by
      simp [hasRun, hn, hy]
    have htake : x ∈ (E.of x.tid).take (i + 1) ↔ x < y ∨ x = y := by
      rw [take_add_one, mem_append, mem_take_iff (hE.sorted _) hy, hy]
      simp [hmem]
    rw [hrun, htake]
    constructor
    · intro hd
      rcases rel_or_rel_of_mem (hE.sorted x.tid) hmem (mem_of_getElem? hy) with h | h | h
      · exact .inr h
      · exact .inl h
      · exact absurd (depth_lt_depth h) (not_lt.mpr hd)
    · rintro (h | rfl)
      · exact (depth_lt_depth h).le
      · exact le_rfl

lemma monotone_threads : E.threads.Monotone := by
  intro a b t hab hb ht hen
  obtain ⟨x, hx, hen⟩ := (any_eq_true _ _).mp hen
  refine (any_eq_true _ _).mpr ⟨x, ht ▸ hx, isEnabled_mono (fun p _ hp => ?_) hen⟩
  obtain ⟨i, y, hi, hy, hd⟩ := hasRun_eq_true.mp hp
  have hle : a p.tid ≤ b p.tid := hab p.tid
  have hlen : b p.tid ≤ (E.of p.tid).length := hb p.tid
  obtain ⟨j, hj⟩ : ∃ j, b p.tid = j + 1 := ⟨b p.tid - 1, by omega⟩
  obtain ⟨z, hz⟩ : ∃ z, (E.of p.tid)[j]? = some z := ⟨_, getElem?_eq_getElem (by omega)⟩
  refine hasRun_eq_true.mpr ⟨j, z, hj, hz, hd.trans ?_⟩
  -- further on in the thread the depth is larger
  rcases lt_or_eq_of_le (show i ≤ j by omega) with hij | rfl
  · obtain ⟨hi', rfl⟩ := List.getElem?_eq_some_iff.mp hy
    obtain ⟨hj', rfl⟩ := List.getElem?_eq_some_iff.mp hz
    exact (depth_lt_depth (pairwise_iff_getElem.mp (hE.sorted p.tid) i j hi' hj' hij)).le
  · rw [some.inj (hy.symm.trans hz)]

lemma getElem?_of_not_mem_take (hx : x ≤ e) (hk : x.kind ≠ .programInit)
    (hnot : x ∉ (E.of x.tid).take (a x.tid)) : ∃ y, (E.of x.tid)[a x.tid]? = some y ∧ y ≤ x := by
  have hmem : x ∈ E.of x.tid := hE.mem_iff.mpr ⟨hx, rfl, hk⟩
  cases hy : (E.of x.tid)[a x.tid]? with
  | none =>
    rw [take_of_length_le (getElem?_eq_none_iff.mp hy)] at hnot
    exact absurd hmem hnot
  | some y =>
    refine ⟨y, rfl, ?_⟩
    rw [mem_take_iff (hE.sorted _) hy] at hnot
    rcases rel_or_rel_of_mem (hE.sorted x.tid) hmem (mem_of_getElem? hy) with h | h | h
    · exact h.ge
    · exact absurd ⟨hmem, h⟩ hnot
    · exact h.le

lemma live_threads [DecidableEq D] (he : e.Rooted) : E.threads.Live := by
  intro a ha hend
  -- among the events that have not run, one of least depth is the next of its thread and enabled
  have hex : ∃ n x, x ≤ e ∧ x.kind ≠ .programInit ∧ x ∉ (E.of x.tid).take (a x.tid) ∧ x.depth = n := by
    obtain ⟨t, ht⟩ : ∃ t, a t < E.threads.length t := by
      by_contra hall
      exact hend (le_antisymm ha fun t => not_lt.mp fun h => hall ⟨t, h⟩)
    obtain ⟨y, hy⟩ : ∃ y, (E.of t)[a t]? = some y := ⟨_, getElem?_eq_getElem ht⟩
    obtain ⟨hxe, hxt, hxk⟩ := hE.mem_iff.mp (mem_of_getElem? hy)
    refine ⟨y.depth, y, hxe, hxk, ?_, rfl⟩
    rw [hxt, mem_take_iff (hE.sorted _) hy]
    exact fun h => lt_irrefl _ h.2
  classical
  obtain ⟨x, hxe, hxk, hnot, hd⟩ := Nat.find_spec hex
  have hmin : ∀ p < x, p.kind ≠ .programInit → p ∈ (E.of p.tid).take (a p.tid) := by
    intro p hp hpk
    by_contra hpn
    refine Nat.find_min hex ?_ ⟨p, hp.le.trans hxe, hpk, hpn, rfl⟩
    rw [← hd]
    exact depth_lt_depth hp
  obtain ⟨y, hy, hyx⟩ := getElem?_of_not_mem_take hE hxe hxk hnot
  have hyx : y = x := by
    rcases hyx.eq_or_lt' with h | h
    · exact h.symm
    · obtain ⟨-, hyt, hyk⟩ := hE.mem_iff.mp (mem_of_getElem? hy)
      have := hmin y h hyk
      rw [hyt, mem_take_iff (hE.sorted _) hy] at this
      exact absurd this.2 (lt_irrefl y)
  subst hyx
  refine ⟨y.tid, (List.getElem?_eq_some_iff.mp hy).1, (any_eq_true _ _).mpr ⟨y, hy, ?_⟩⟩
  refine isEnabled_of_forall (he.valid y hxe) fun p hp hpk => ?_
  have hpy := lt_of_mem_preds hp
  exact (hasRun_iff_mem_take hE (hpy.le.trans hxe) hpk (ha _)).mpr (hmin p hpy hpk)

end

end Events

variable [DecidableEq D]

def computeCsd1 (e : Event D) : Option ℕ :=
  if computeThreadCount e ≤ 1 then if computeThreadCount e = 0 then none else some 0
  else do
    let E ← collect e
    let start ← E.entries.head?
    Events.csdSearch E (Events.size E) (fun _ => 0) start.1 (2 ^ 64 - 2)

/-! ## What `compute_csd_1` and `is_above_csd_limit_1` answer -/

namespace Events

omit [DecidableEq D] in
lemma remaining_zero (E : Events D) : E.threads.remaining (fun _ => 0) = E.size := by
  have hof : ∀ p ∈ E.entries, (E.of p.1).length = p.2.length := fun p hp => by
    rw [of, mem_entries_iff.mp hp, getD_some]
  simp only [Threads.remaining, threads]
  rw [sum_toFinset _ E.nodup_keys, size, values, List.map_map, List.map_map]
  exact congrArg List.sum (map_congr_left hof)

end Events

section
variable {e : Event D} (he : e.Rooted) (hk : e.kind ≠ .programInit)
include he hk

lemma canStep_main : (collected e).threads.CanStep (fun _ => 0) .main := by
  have hE := collects he hk
  obtain ⟨y, hy, hle⟩ := Events.getElem?_of_not_mem_take (a := fun _ => 0) hE (he.mainInit_le hk)
    (by simp [mainInit]) (by simp)
  have hyk := (hE.mem_iff.mp (mem_of_getElem? hy)).2.2
  have hymain : y = mainInit := by
    rcases hle.eq_or_lt' with h | h
    · exact h.symm
    · obtain ⟨p, hp, hyp⟩ := lt_iff_pred.mp h
      rw [mem_singleton.mp hp] at hyp
      rcases hyp.eq_or_lt' with h | h
      · exact absurd (by rw [← h]; rfl) hyk
      · obtain ⟨q, hq, -⟩ := lt_iff_pred.mp h
        simp [programInit] at hq
  exact ⟨(List.getElem?_eq_some_iff.mp hy).1, (any_eq_true _ _).mpr ⟨y, hy, by rw [hymain]; rfl⟩⟩

lemma size_lt_of_subset {E : Events D} (hmem : ∀ {t x}, x ∈ E.of t → x.tid = t ∧ x ∈ e :: e.coneChains)
    (hnodup : ∀ t, (E.of t).Nodup) (hsize : ∀ es, e.localConfiguration = some es → es.length ≤ 2 ^ 64) :
    E.size < 2 ^ 64 := by
  have hof : ∀ {t es}, E.find? t = some es → E.of t = es := fun h => by rw [Events.of, h, getD_some]
  have hflat : E.values.flatten.Nodup := by
    refine nodup_flatten.mpr ⟨fun es hes => ?_, ?_⟩
    · obtain ⟨t, ht⟩ := mem_values_iff.mp hes
      exact hof ht ▸ hnodup t
    · rw [values, pairwise_map]
      refine E.sorted.imp_of_mem fun {p q} hp hq hpq x hxp hxq => hpq.ne ?_
      rw [← hof (mem_entries_iff.mp hp)] at hxp
      rw [← hof (mem_entries_iff.mp hq)] at hxq
      rw [← (hmem hxp).1, (hmem hxq).1]
  have hsub : E.values.flatten ⊆ e :: e.coneChains := by
    intro x hx
    obtain ⟨es, hes, hx⟩ := mem_flatten.mp hx
    obtain ⟨t, ht⟩ := mem_values_iff.mp hes
    rw [← hof ht] at hx
    exact (hmem hx).2
  have hlen := (subperm_of_subset hflat hsub).length_le
  have hlc := hsize _ (he.localConfig_eq hk)
  rw [length_append, length_singleton] at hlc
  rw [Events.size, ← length_flatten]
  omega

lemma size_lt_of_localConfig (hsize : ∀ es, e.localConfiguration = some es → es.length ≤ 2 ^ 64) :
    (collected e).size < 2 ^ 64 := by
  have hE := collects he hk
  refine size_lt_of_subset he hk (fun {t x} hx => ?_) (fun t => (hE.sorted t).imp fun h => h.ne) hsize
  obtain ⟨hxe, hxt, hxk⟩ := hE.mem_iff.mp hx
  refine ⟨hxt, ?_⟩
  rcases hxe.eq_or_lt' with rfl | hlt
  · exact mem_cons_self
  · exact mem_cons_of_mem e (he.mem_chains_iff.mpr ⟨hlt, hxk⟩)

lemma best_of_threadCount (h : computeThreadCount e = 1) : (collected e).threads.best .main (fun _ => 0) = 0 := by
  have hE := collects he hk
  have hmono := Events.monotone_threads hE
  have hlive := Events.live_threads hE he
  obtain ⟨a, -, hle, hblocked, -, hbest⟩ :=
    Events.advanceCurrent_spec hmono hlive (fun _ => zero_le _) (canStep_main he hk)
  by_cases hend : a = (collected e).threads.length
  · rw [← hbest, hend, Threads.best_length]
  · obtain ⟨t, ht, hcan, -⟩ := Threads.exists_best_eq_succ hmono hlive hle hblocked hend
    obtain ⟨es, ps, hentries⟩ := collected_entries he hk
    have hlen := length_entries_collected he hk
    rw [h, hentries, length_cons, add_eq_right, length_eq_zero_iff] at hlen
    have hmem := mem_toFinset.mp hcan.mem_threads
    rw [hentries, hlen] at hmem
    exact absurd (by simpa using hmem) ht

lemma threadCount_pos : 0 < computeThreadCount e := by
  obtain ⟨es, ps, hentries⟩ := collected_entries he hk
  rw [← length_entries_collected he hk, hentries]
  exact succ_pos _

variable (hsize : ∀ es, e.localConfiguration = some es → es.length ≤ 2 ^ 64)
include hsize

lemma computeCsd1_eq : computeCsd1 e = some ((collected e).threads.best .main fun _ => 0) := by
  have hpos := threadCount_pos he hk
  have hbound := size_lt_of_localConfig he hk hsize
  have hE := collects he hk
  have hmono := Events.monotone_threads hE
  have hlive := Events.live_threads hE he
  obtain ⟨es, ps, hentries⟩ := collected_entries he hk
  unfold computeCsd1
  split_ifs with h1 h0
  · exact absurd h0 hpos.ne'
  · rw [best_of_threadCount he hk (by omega)]
  · have hle := Threads.best_le_remaining hlive (fun _ => zero_le _) ThreadId.main
    rw [Events.remaining_zero] at hle
    simp only [collect_eq he hk, hentries, head?_cons, bind_eq_bind, bind_some]
    rw [Events.csdSearch_eq hmono hlive (Events.remaining_zero _).le (fun _ => zero_le _) (canStep_main he hk)
      (by omega), some.injEq]
    omega

end

end Csd
end Por
