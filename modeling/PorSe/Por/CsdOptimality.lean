import PorSe.Por.Csd

/-! The search of `compute_csd_1` is optimal: its answer is the least number of context
switches among all linearisations of the local configuration. -/

namespace Por
open List Event Option
namespace Csd

section
variable {D : Type} [DecidableEq D]

/-- After `done`, each of the events is enabled and next on its thread when its turn comes. -/
def RunsInOrder : List (Event D) → List (Event D) → Prop
  | _, [] => True
  | done, x :: xs => (∀ p, x.threadPredecessor = some p → p ∈ done) ∧
      eventIsEnabled (fun p => p ∈ done) x = true ∧ RunsInOrder (x :: done) xs

/-- An order of the events of `[e]`, the root left out, in which all of them can run. -/
structure Linearises (e : Event D) (s : List (Event D)) : Prop where
  nodup : s.Nodup
  mem_iff : ∀ x, x ∈ s ↔ x ≤ e ∧ x.kind ≠ .programInit
  runsInOrder : RunsInOrder [] s

/-- The events of `done` are those that have run when each thread `t` is at `a t`. -/
structure Reaches (E : Events D) (done : List (Event D)) (a : ThreadId → ℕ) : Prop where
  le : a ≤ E.threads.length
  mem_iff : ∀ x, x ∈ done ↔ x ∈ (E.of x.tid).take (a x.tid)

variable {E : Events D} {e : Event D} (hE : Collects e E) {a b : ThreadId → ℕ} {done s : List (Event D)} {x : Event D}

omit [DecidableEq D] in
lemma reaches_zero (E : Events D) : Reaches E [] fun _ => 0 := ⟨fun _ => Nat.zero_le _, by simp⟩

include hE

omit [DecidableEq D] in
lemma Collects.not_mem_take {t : ThreadId} (hx : (E.of t)[a t]? = some x) : x.tid = t ∧ x ∉ (E.of t).take (a t) := by
  refine ⟨(hE.mem_iff.mp (mem_of_getElem? hx)).2.1, fun h => ?_⟩
  exact lt_irrefl x ((ListSearch.mem_take_iff (hE.sorted t) hx).mp h).2

omit [DecidableEq D] in
lemma Reaches.cons (h : Reaches E done a) {t : ThreadId} (hx : (E.of t)[a t]? = some x) :
    Reaches E (x :: done) (Threads.bump a t) := by
  obtain ⟨hxt, -⟩ := hE.not_mem_take hx
  refine ⟨Threads.bump_le h.le (List.getElem?_eq_some_iff.mp hx).1, fun y => ?_⟩
  rw [mem_cons, h.mem_iff]
  by_cases hy : y.tid = t
  · rw [hy, Threads.bump_self, take_add_one, hx, or_comm]
    simp
  · rw [Threads.bump_of_ne a hy]
    exact or_iff_right fun h => hy (h ▸ hxt)

lemma Reaches.hasRun_iff (h : Reaches E done a) (hk : e.Rooted) (hx : x ≤ e) : E.hasRun a x = true ↔ x ∈ done := by
  by_cases hroot : x.kind = .programInit
  · -- the root is on no thread
    have hnot : ∀ y, y ∉ E.of x.tid := by
      intro y hy
      obtain ⟨hye, hyt, hyk⟩ := hE.mem_iff.mp hy
      refine hk.tid_ne_empty hye hyk (hyt.trans ?_)
      rw [eq_programInit (hk.valid x hx) hroot]
      rfl
    refine iff_of_false (fun hrun => ?_) fun hmem => hnot x (mem_of_mem_take ((h.mem_iff x).mp hmem))
    obtain ⟨i, y, -, hy, -⟩ := Events.hasRun_eq_true.mp hrun
    exact hnot y (mem_of_getElem? hy)
  · rw [Events.hasRun_iff_mem_take hE hx hroot (h.le _), h.mem_iff]

lemma Reaches.enabled_iff (h : Reaches E done a) (he : e.Rooted) (hx : x ≤ e) :
    eventIsEnabled (E.hasRun a) x = true ↔ eventIsEnabled (fun p => p ∈ done) x = true := by
  have hpred : ∀ p ∈ x.preds, E.hasRun a p = true ↔ decide (p ∈ done) = true := fun p hp => by
    rw [decide_eq_true_eq]
    exact h.hasRun_iff hE he ((lt_of_mem_preds hp).le.trans hx)
  exact ⟨isEnabled_mono fun p hp => (hpred p hp).mp, isEnabled_mono fun p hp => (hpred p hp).mpr⟩

lemma Reaches.of_run (he : e.Rooted) {w : List ThreadId} (hw : E.threads.Run a w b) (h : Reaches E done a) :
    ∃ s, s.map Event.tid = w ∧ s.Nodup ∧ (∀ x ∈ s, x ∉ done) ∧ RunsInOrder done s ∧ Reaches E
      (s.reverse ++ done) b := by
  induction hw generalizing done with
  | nil a => exact ⟨[], rfl, nodup_nil, by simp, trivial, h⟩
  | @cons a b t w ht _ ih =>
    obtain ⟨x, hx, hen⟩ := (any_eq_true _ _).mp ht.2
    obtain ⟨hxt, _⟩ := hE.not_mem_take hx
    obtain ⟨hxe, -, _⟩ := hE.mem_iff.mp (mem_of_getElem? hx)
    obtain ⟨s, hs, hnodup, hnew, hord, _⟩ := ih (h.cons hE hx)
    refine ⟨x :: s, by rw [map_cons, hxt, hs], ?_, ?_, ⟨fun p hp => ?_, (h.enabled_iff hE he hxe).mp hen, hord⟩, ?_⟩
    · exact nodup_cons.mpr ⟨fun hxs => hnew x hxs mem_cons_self, hnodup⟩
    · rw [forall_mem_cons]
      exact ⟨by rwa [h.mem_iff, hxt], fun y hy hyd => hnew y hy (mem_cons_of_mem x hyd)⟩
    · have hpx := threadPred_lt hp
      obtain ⟨hpt, -, hpk, -⟩ := of_threadPred (he.valid x hxe) hp
      rw [hxt] at hpt
      rw [h.mem_iff, hpt, ListSearch.mem_take_iff (hE.sorted t) hx]
      exact ⟨hE.mem_iff.mpr ⟨hpx.le.trans hxe, hpt, hpk⟩, hpx⟩
    · rwa [reverse_cons, append_assoc]

lemma Reaches.run (he : e.Rooted) (h : Reaches E done a) (hnodup : s.Nodup) (hs : ∀ x ∈ s, x ∉ done)
    (hmem : ∀ x ∈ s, x ≤ e ∧ x.kind ≠ .programInit) (hord : RunsInOrder done s) :
    ∃ b, E.threads.Run a (s.map Event.tid) b ∧ Reaches E (s.reverse ++ done) b := by
  induction s generalizing done a with
  | nil => exact ⟨a, .nil a, h⟩
  | cons x s ih =>
    obtain ⟨hx, hnodup'⟩ := nodup_cons.mp hnodup
    obtain ⟨hpred, hen, hord⟩ := hord
    obtain ⟨hxe, hxk⟩ := hmem x mem_cons_self
    have hnot : x ∉ (E.of x.tid).take (a x.tid) := fun hm => hs x mem_cons_self ((h.mem_iff x).mpr hm)
    obtain ⟨y, hy, hyx⟩ := Events.getElem?_of_not_mem_take hE hxe hxk hnot
    have hyx : y = x := by
      obtain ⟨_, hyt, hyk⟩ := hE.mem_iff.mp (mem_of_getElem? hy)
      have hchain := he.mem_threadChain hyx hxe hyt hyk
      rw [threadChain_eq] at hchain
      rcases mem_cons.mp hchain with hyx | hchain
      · exact hyx
      · -- otherwise the thread predecessor of `x` has not run
        cases hp : x.threadPredecessor with
        | none => simp [hp] at hchain
        | some p =>
          rw [hp] at hchain
          have hyp := le_of_mem_chain threadPred_mem hchain
          have hpt := tid_of_threadPred (he.valid x hxe) hp
          have := (h.mem_iff p).mp (hpred p hp)
          rw [hpt, ListSearch.mem_take_iff (hE.sorted _) hy] at this
          exact absurd this.2 (not_lt_of_ge hyp)
    subst hyx
    obtain ⟨b, hb, _⟩ := ih (h.cons hE hy) hnodup'
      (fun z hz hzd => (mem_cons.mp hzd).elim (fun hzy => hx (hzy ▸ hz)) (hs z (mem_cons_of_mem y hz)))
      (fun z hz => hmem z (mem_cons_of_mem y hz)) hord
    refine ⟨b, .cons ⟨(List.getElem?_eq_some_iff.mp hy).1, (any_eq_true _ _).mpr ⟨y, hy, ?_⟩⟩ hb, ?_⟩
    · exact (h.enabled_iff hE he hxe).mpr hen
    · rwa [reverse_cons, append_assoc]

lemma linearises_iff_run (he : e.Rooted) {w : List ThreadId} :
    (∃ s, Linearises e s ∧ s.map Event.tid = w) ↔ E.threads.Run (fun _ => 0) w E.threads.length := by
  constructor
  · rintro ⟨s, hs, rfl⟩
    obtain ⟨b, hb, hreach⟩ := (reaches_zero E).run hE he hs.nodup (by simp) (fun x hx => (hs.mem_iff x).mp hx)
      hs.runsInOrder
    have hend : b = E.threads.length := by
      refine le_antisymm hreach.le fun t => not_lt.mp fun hlt => ?_
      obtain ⟨y, hy⟩ : ∃ y, (E.of t)[b t]? = some y := ⟨_, getElem?_eq_getElem hlt⟩
      obtain ⟨hyt, hnot⟩ := hE.not_mem_take hy
      obtain ⟨hye, -, hyk⟩ := hE.mem_iff.mp (mem_of_getElem? hy)
      have := (hreach.mem_iff y).mp (by simpa using (hs.mem_iff y).mpr ⟨hye, hyk⟩)
      exact hnot (hyt ▸ this)
    exact hend ▸ hb
  · intro hw
    obtain ⟨s, hs, hnodup, -, hord, hreach⟩ := Reaches.of_run hE he hw (reaches_zero E)
    refine ⟨s, ⟨hnodup, fun x => ?_, hord⟩, hs⟩
    have htake : (E.of x.tid).take (E.threads.length x.tid) = E.of x.tid := take_of_length_le le_rfl
    have hmem := hreach.mem_iff x
    rw [append_nil, mem_reverse, htake, hE.mem_iff] at hmem
    rw [hmem]
    exact ⟨fun h => ⟨h.1, h.2.2⟩, fun h => ⟨h.1, rfl, h.2⟩⟩

end

variable {D : Type} [DecidableEq D]

def switchCounts (e : Event D) : Set ℕ :=
  {k | ∃ s, Linearises e s ∧ s.head?.map Event.tid = some .main ∧ Threads.switches (s.map Event.tid) = k}

lemma isLeast_switchCounts {e : Event D} (he : e.Rooted) (hk : e.kind ≠ .programInit) :
    IsLeast (switchCounts e) ((collected e).threads.best .main fun _ => 0) := by
  have hE := collects he hk
  constructor
  · obtain ⟨w, hw, hbest⟩ := Threads.exists_best_cons (Events.monotone_threads hE) (Events.live_threads hE he)
      (fun _ => Nat.zero_le _) (canStep_main he hk)
    obtain ⟨s, hs, hmap⟩ := (linearises_iff_run hE he).mpr hw
    refine ⟨s, hs, ?_, by rw [hmap]; exact hbest⟩
    rw [← head?_map, hmap, head?_cons]
  · rintro k ⟨s, hs, hhead, rfl⟩
    have hrun := (linearises_iff_run hE he).mp ⟨s, hs, rfl⟩
    cases s with
    | nil => simp at hhead
    | cons x s =>
      obtain hx : x.tid = .main := by simpa using hhead
      have hle := Threads.best_le (c := ThreadId.main) hrun
      rw [map_cons, hx, Threads.switchesFrom_self] at hle
      rwa [map_cons, hx]

/-- Where there are threads, `compute_csd_1` returns the least number of context switches. -/
theorem computeCsd1_isLeast {e : Event D} (he : Configuration.Explored e)
    (hsize : ∀ es, e.localConfiguration = some es → es.length ≤ 2 ^ 64) :
    (e.kind ≠ .programInit → ∃ k, computeCsd1 e = some k) ∧
      ∀ k, computeCsd1 e = some k ↔ IsLeast (switchCounts e) k := by
  have he := he.rooted
  by_cases hk : e.kind = .programInit
  · refine ⟨fun h => absurd hk h, fun k => iff_of_false ?_ ?_⟩
    · simp [computeCsd1, threadCount_programInit he.valid.checks hk]
    · rintro ⟨⟨s, hs, hhead, -⟩, -⟩
      cases s with
      | nil => simp at hhead
      | cons x s =>
        obtain ⟨hxe, hxk⟩ := (hs.mem_iff x).mp mem_cons_self
        rcases hxe.eq_or_lt' with rfl | hlt
        · exact hxk hk
        · obtain ⟨p, hp, -⟩ := lt_iff_pred.mp hlt
          rw [preds_nil_of_checks he.valid.checks hk] at hp
          simp at hp
  · have hleast := isLeast_switchCounts he hk
    rw [computeCsd1_eq he hk hsize]
    refine ⟨fun _ => ⟨_, rfl⟩, fun k => ?_⟩
    rw [some.injEq]
    exact ⟨fun h => h ▸ hleast, fun h => hleast.unique h⟩

theorem computeCsd1_isLeast_forkedInit : IsLeast (switchCounts Configuration.forkedInit) 1 := by
  refine ((computeCsd1_isLeast ⟨_, Configuration.reachable_forked, .inl (by decide)⟩
    fun es hes => ?_).2 1).mp (by decide)
  have hlen : Configuration.forkedInit.localConfiguration.map length = some 4 := by decide
  rw [hes, map_some, some.injEq] at hlen
  omega

end Csd
end Por
