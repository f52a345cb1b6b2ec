import PorSe.Por.CsdSearch

/-! The calls that a search makes, and what they leave behind when they return. Taking an
advance back writes to every lock that the advance used the value from before the first use,
which is right only where the state had that value. -/

namespace Por
open List
namespace CsdSearch
open Csd (Events add sub eventIsEnabled)
variable {D : Type} (V : Events D)

namespace Call

def executed (c : Call) : List (Event D) :=
  ((V.of c.thread).drop (c.advanced.advancement c.thread)).take
    (c.entry.advancement c.thread - c.advanced.advancement c.thread)

/-- At the start of the call each lock counted as its first use requires. -/
def undoable (c : Call) : Bool :=
  (c.executed V).all fun x => ((c.executed V).reverse.find? fun y => y.changesLock x.lid).all fun y =>
    c.entry.locked x.lid = !y.takesLock

lemma undoable_iff {c : Call} : c.undoable V = true ↔ ∀ l y,
    ((c.executed V).reverse.find? fun y => y.changesLock l) = some y → c.entry.locked l = !y.takesLock := by
  simp only [undoable, all_eq_true, Option.all_eq_true, decide_eq_true_eq]
  constructor
  · intro h l y hy
    have hl : y.lid = l := by
      have := find?_some hy
      simp only [Event.changesLock, Bool.and_eq_true, decide_eq_true_eq] at this
      exact this.2
    have hmem : y ∈ c.executed V := mem_reverse.mp (mem_of_find?_eq_some hy)
    have := h y hmem y (by rw [hl]; exact hy)
    rwa [hl] at this
  · exact fun h x _ y hy => h x.lid y hy

end Call

/-! ## The log of a search -/

/-- Calls made one after the other, each followed by those it makes itself. -/
inductive Log : State → List Call → Option State → Prop
  | nil (s : State) : Log s [] (some s)
  | abort (s : State) : Log s [] none
  | aborted {t : ThreadId} {s s' : State} {step : ℕ} {inner : List Call} {r : Option State}
      (h : advanceThread V s t = some (s', step)) (hinner : Log s' inner r) :
      Log s (⟨t, s, s', none⟩ :: inner) none
  | call {t : ThreadId} {s s' s1 s2 : State} {step : ℕ} {inner rest : List Call} {r : Option State}
      (h : advanceThread V s t = some (s', step)) (hinner : Log s' inner (some s1))
      (hrevert : revertThread V s1 t (s.advancement t) = some s2) (hrest : Log s2 rest r) :
      Log s (⟨t, s, s', some s2⟩ :: (inner ++ rest)) r

def Outcome.Logged {α : Type} (s : State) (r : Outcome α) : Prop := Log V s r.calls (r.value.map Prod.snd)

variable {V} {s s1 : State} {cs cs' : List Call} {r : Option State}

lemma Log.append (h : Log V s cs (some s1)) (h' : Log V s1 cs' r) : Log V s (cs ++ cs') r := by
  generalize ho : some s1 = o at h
  induction h with
  | nil s =>
    rw [← Option.some.inj ho]
    exact h'
  | abort | aborted => simp at ho
  | call h hinner hrevert _ _ ih =>
    rw [cons_append, append_assoc]
    exact .call h hinner hrevert (ih ho)

section
variable {α β : Type}

lemma Outcome.Logged.andThen {r : Outcome α} {f : α → State → Outcome β} (hr : r.Logged V s)
    (hf : ∀ a s1, (f a s1).Logged V s1) : (r.andThen f).Logged V s := by
  obtain ⟨value, _⟩ := r
  cases value with
  | none => exact hr
  | some p => exact hr.append (hf p.1 p.2)

lemma Outcome.Logged.leave {r : Outcome α} {t : ThreadId} {s' : State} {step : ℕ}
    (h : advanceThread V s t = some (s', step)) (hr : r.Logged V s') : (r.leave V t s s').Logged V s := by
  obtain ⟨_, _⟩ := r
  unfold Outcome.leave
  split
  · exact .aborted h hr
  · next a s2 hsome =>
    simp only [Option.bind_eq_some_iff, Option.map_eq_some_iff] at hsome
    obtain ⟨p, rfl, _, hrevert, rfl, rfl⟩ := hsome
    have := Log.call h hr hrevert (.nil _)
    rwa [append_nil] at this

end

lemma logged_isAboveLoop {search : State → ThreadId → Outcome Bool} (h : ∀ s t, (search s t).Logged V s)
    (self : ThreadId) (ts : List ThreadId) (s : State) (possible : Bool) :
    (isAboveLoop V search self ts s possible).Logged V s := by
  induction ts generalizing s possible with
  | nil =>
    unfold isAboveLoop
    split_ifs
    · exact .nil s
    · exact .abort s
  | cons t ts ih =>
    unfold isAboveLoop
    split_ifs
    · refine (h s t).andThen fun _ s1 => ?_
      split_ifs
      · exact ih s1 true
      · exact .nil s1
    · exact ih s possible

lemma logged_isAbove (limit fuel : ℕ) (s : State) (t : ThreadId) (csd : ℕ) :
    (isAbove V limit fuel s t csd).Logged V s := by
  induction fuel generalizing s t csd with
  | zero => exact .abort s
  | succ fuel ih =>
    unfold isAbove
    split
    · exact .abort s
    · next s' step h =>
      refine Outcome.Logged.leave h ?_
      split_ifs
      · exact .nil s'
      · exact .nil s'
      · exact logged_isAboveLoop (fun s u => ih s u _) t _ s' false

lemma logged_computeLoop {search : State → ThreadId → ℕ → Outcome ℕ} (h : ∀ s t b, (search s t b).Logged V s)
    (self : ThreadId) (step budget : ℕ) (ts : List ThreadId) (s : State) (hasEnabled : Bool) (csd : ℕ) :
    (computeLoop V search self step budget ts s hasEnabled csd).Logged V s := by
  induction ts generalizing s hasEnabled csd with
  | nil =>
    unfold computeLoop
    split_ifs
    · exact .nil s
    · exact .abort s
  | cons t ts ih =>
    unfold computeLoop
    by_cases hgo : t ≠ self ∧ canAdvance V s t = true
    · rw [if_pos hgo]
      refine (h s t _).andThen fun v s1 => ?_
      split
      · split
        · exact .nil s1
        · exact .abort s1
      · exact ih s1 true _
    · rw [if_neg hgo]
      exact ih s hasEnabled csd

lemma logged_compute (fuel : ℕ) (s : State) (t : ThreadId) (budget : ℕ) : (compute V fuel s t budget).Logged V s := by
  induction fuel generalizing s t budget with
  | zero => exact .abort s
  | succ fuel ih =>
    unfold compute
    split
    · exact .abort s
    · next s' step h =>
      refine Outcome.Logged.leave h ?_
      split_ifs
      · exact .nil s'
      · exact .nil s'
      · exact logged_computeLoop ih t step budget _ s' false _

variable (V) in
def SearchCalls (calls : List Call) : Prop :=
  calls = (runCompute V).calls ∨ ∃ limit, calls = (runIsAbove V limit).calls

lemma SearchCalls.log {calls : List Call} (h : SearchCalls V calls) : ∃ r, Log V (initial V) calls r := by
  rcases h with rfl | ⟨limit, rfl⟩
  · unfold runCompute
    split
    · exact ⟨_, .nil _⟩
    · exact ⟨_, logged_compute _ _ _ _⟩
  · unfold runIsAbove
    split
    · exact ⟨_, .nil _⟩
    · exact ⟨_, logged_isAbove _ _ _ _ _⟩

/-! ## What a call leaves behind -/

section
variable {t : ThreadId} {s' s2 : State} {step : ℕ} (h : advanceThread V s t = some (s', step))
include h

lemma executed_eq (o : Option State) :
    ∃ xs x, (⟨t, s, s', o⟩ : Call).executed V = xs ++ [x] ∧ Executes V t s.advancement (xs ++ [x]) s'.advancement ∧
      s'.locked = xs.foldr recordLock s.locked ∧ step ≤ 1 := by
  obtain ⟨xs, x, hexec, hlocked, hstep⟩ := advanceThread_executes h
  exact ⟨xs, x, hexec.eq_take_drop.symm, hexec, hlocked, hstep⟩

lemma locked_advanced_of_none {o : Option State} {l : LockId}
    (hl : ((⟨t, s, s', o⟩ : Call).executed V).reverse.find? (fun y => y.changesLock l) = none) :
    s'.locked l = s.locked l := by
  obtain ⟨xs, x, hexec, -, hlocked, -⟩ := executed_eq h o
  have hnone : xs.find? (fun y => y.changesLock l) = none := by
    rw [hexec] at hl
    rw [find?_eq_none] at hl ⊢
    exact fun y hy => hl y (by simp [hy])
  rw [hlocked, ListSearch.foldr_write_apply fun y m => recordLock_apply y m l, hnone]
  rfl

variable (hadv : s1.advancement = s'.advancement) (hrevert : revertThread V s1 t (s.advancement t) = some s2)
include hadv hrevert

lemma advancement_returned : s2.advancement = s.advancement := by
  obtain ⟨xs, x, -, hexec, -⟩ := executed_eq h none
  rw [(revertThread_eq_some hrevert).1, hadv, hexec.advancement_eq.2, Function.update_idem, Function.update_eq_self]

omit h in
lemma locked_returned (o : Option State) (l : LockId) : s2.locked l =
    ((((⟨t, s, s', o⟩ : Call).executed V).reverse.find? fun y => y.changesLock l).elim (s1.locked l)
      fun y => !y.takesLock) := by
  rw [(revertThread_eq_some hrevert).2, hadv, ← ListSearch.foldr_write_apply (fun y m => undoLock_apply y m l),
    foldr_reverse]
  rfl

end

lemma Log.advancement_eq (h : Log V s cs r) : ∀ s1 ∈ r, s1.advancement = s.advancement := by
  induction h with
  | nil s =>
    rintro s1 ⟨⟩
    rfl
  | abort | aborted =>
    rintro s1 ⟨⟩
  | call h _ hrevert _ ihinner ihrest =>
    exact fun s3 hs3 => (ihrest s3 hs3).trans (advancement_returned h (ihinner _ rfl) hrevert)

/-! ## The number of calls

Every call runs an event, so that no search needs more fuel than there are events. -/

variable (V) in
def remaining (a : ThreadId → ℕ) : ℕ := ((V.entries.map Prod.fst).map a).sum

lemma remaining_initial : remaining V (initial V).advancement = V.size := by
  have hof : ∀ p ∈ V.entries, (V.of p.1).length = p.2.length := fun p hp => by
    rw [Events.of, SortedMap.mem_entries_iff.mp hp, Option.getD_some]
  rw [remaining, Events.size, SortedMap.values, map_map, map_map]
  exact congrArg sum (map_congr_left hof)

lemma mem_keys_of_executes {t : ThreadId} {a a' : ThreadId → ℕ} {xs : List (Event D)} {x : Event D}
    (h : Executes V t a (xs ++ [x]) a') : t ∈ V.entries.map Prod.fst := by
  have hne : V.of t ≠ [] := by
    intro hnil
    have := h.eq_take_drop
    simp [hnil] at this
  cases hf : V.find? t with
  | none => simp [Events.of, hf] at hne
  | some es => exact mem_map.mpr ⟨_, SortedMap.mem_entries_iff.mpr hf, rfl⟩

lemma remaining_advance {t : ThreadId} {s' : State} {step : ℕ} (h : advanceThread V s t = some (s', step)) :
    remaining V s'.advancement + 1 ≤ remaining V s.advancement ∧ step ≤ 1 := by
  obtain ⟨xs, x, hexec, -, hstep⟩ := advanceThread_executes h
  obtain ⟨hlen, heq⟩ := hexec.advancement_eq
  rw [length_append, length_singleton] at hlen
  have hlt : s'.advancement t < s.advancement t := by omega
  refine ⟨sum_lt_sum _ _ (fun u _ => ?_) ⟨t, mem_keys_of_executes hexec, hlt⟩, hstep⟩
  by_cases hu : u = t
  · exact hu ▸ hlt.le
  · rw [heq, Function.update_of_ne hu]

lemma advance_none_of_remaining {t : ThreadId} (h : remaining V s.advancement = 0) :
    advanceThread V s t = none := by
  cases hadv : advanceThread V s t with
  | none => rfl
  | some p =>
    have := (remaining_advance hadv).1
    omega

lemma computeLoop_congr {search search' : State → ThreadId → ℕ → Outcome ℕ} {a : ThreadId → ℕ}
    (h : ∀ s t b, s.advancement = a → search s t b = search' s t b) (hlog : ∀ s t b, (search s t b).Logged V s)
    (self : ThreadId) (step budget : ℕ) (ts : List ThreadId) (hs : s.advancement = a) (hasEnabled : Bool) (csd : ℕ) :
    computeLoop V search self step budget ts s hasEnabled csd =
      computeLoop V search' self step budget ts s hasEnabled csd := by
  induction ts generalizing s hasEnabled csd with
  | nil => rfl
  | cons t ts ih =>
    unfold computeLoop
    rw [← h s t _ hs, ih hs]
    have hback := (hlog s t (sub (sub csd 1) step)).advancement_eq
    unfold Outcome.andThen
    generalize search s t (sub (sub csd 1) step) = r at hback ⊢
    obtain ⟨_ | ⟨v, s1⟩, _⟩ := r
    · rfl
    · simp [ih ((hback s1 rfl).trans hs)]

lemma compute_fuel {fuel fuel' : ℕ} (h : remaining V s.advancement ≤ fuel) (h' : remaining V s.advancement ≤ fuel')
    (t : ThreadId) (budget : ℕ) : compute V fuel s t budget = compute V fuel' s t budget := by
  induction fuel generalizing fuel' s t budget with
  | zero =>
    cases fuel' with
    | zero => rfl
    | succ fuel' => simp only [compute, advance_none_of_remaining (Nat.le_zero.mp h)]
  | succ fuel ih =>
    cases fuel' with
    | zero => simp only [compute, advance_none_of_remaining (Nat.le_zero.mp h')]
    | succ fuel' =>
      unfold compute
      split
      · rfl
      · next s' step hadv =>
        have hrem := (remaining_advance hadv).1
        have hsearch : ∀ s1 u b, s1.advancement = s'.advancement → compute V fuel s1 u b = compute V fuel' s1 u b :=
          fun s1 u b hs1 => ih (by rw [hs1]; omega) (by rw [hs1]; omega) u b
        rw [computeLoop_congr hsearch (logged_compute fuel) t step budget _ rfl]

lemma isAboveLoop_congr {search search' : State → ThreadId → Outcome Bool} {a : ThreadId → ℕ}
    (h : ∀ s t, s.advancement = a → search s t = search' s t) (hlog : ∀ s t, (search s t).Logged V s)
    (self : ThreadId) (ts : List ThreadId) (hs : s.advancement = a) (possible : Bool) :
    isAboveLoop V search self ts s possible = isAboveLoop V search' self ts s possible := by
  induction ts generalizing s possible with
  | nil => rfl
  | cons t ts ih =>
    unfold isAboveLoop
    rw [← h s t hs, ih hs]
    have hback := (hlog s t).advancement_eq
    unfold Outcome.andThen
    generalize search s t = r at hback ⊢
    obtain ⟨_ | ⟨_, s1⟩, _⟩ := r
    · rfl
    · simp [ih ((hback s1 rfl).trans hs)]

lemma isAbove_fuel {fuel fuel' limit : ℕ} (h : remaining V s.advancement ≤ fuel)
    (h' : remaining V s.advancement ≤ fuel') (t : ThreadId) (csd : ℕ) :
    isAbove V limit fuel s t csd = isAbove V limit fuel' s t csd := by
  induction fuel generalizing fuel' s t csd with
  | zero =>
    cases fuel' with
    | zero => rfl
    | succ fuel' => simp only [isAbove, advance_none_of_remaining (Nat.le_zero.mp h)]
  | succ fuel ih =>
    cases fuel' with
    | zero => simp only [isAbove, advance_none_of_remaining (Nat.le_zero.mp h')]
    | succ fuel' =>
      unfold isAbove
      split
      · rfl
      · next s' step hadv =>
        have hrem := (remaining_advance hadv).1
        have hsearch : ∀ s1 u, s1.advancement = s'.advancement →
            isAbove V limit fuel s1 u (add csd step) = isAbove V limit fuel' s1 u (add csd step) :=
          fun s1 u hs1 => ih (by rw [hs1]; omega) (by rw [hs1]; omega) u _
        rw [isAboveLoop_congr hsearch (fun s1 u => logged_isAbove limit fuel s1 u _) t _ rfl]

/-! ## Exact backtracking -/

lemma Log.advancement_of_returned (h : Log V s cs r) :
    ∀ c ∈ cs, ∀ s2 ∈ c.returned, s2.advancement = c.entry.advancement := by
  induction h with
  | nil | abort => simp
  | aborted _ _ ih => exact forall_mem_cons.mpr ⟨by simp, ih⟩
  | call h hinner hrevert _ ihinner ihrest =>
    refine forall_mem_cons.mpr ⟨?_, forall_mem_append.mpr ⟨ihinner, ihrest⟩⟩
    rintro _ ⟨⟩
    exact advancement_returned h (hinner.advancement_eq _ rfl) hrevert

lemma Log.undoable_of_returned (h : Log V s cs r)
    (hback : ∀ c ∈ cs, ∀ s2 ∈ c.returned, s2.locked = c.entry.locked) :
    ∀ c ∈ cs, c.returned.isSome = true → c.undoable V = true := by
  induction h with
  | nil | abort => simp
  | aborted _ _ ih =>
    rw [forall_mem_cons] at hback ⊢
    exact ⟨by simp, ih hback.2⟩
  | @call t s s' s1 s2 _ _ _ r h hinner hrevert _ ihinner ihrest =>
    rw [forall_mem_cons, forall_mem_append] at hback ⊢
    refine ⟨fun _ => (Call.undoable_iff V).mpr fun l y hy => ?_, ihinner hback.2.1, ihrest hback.2.2⟩
    have hl := locked_returned (hinner.advancement_eq _ rfl) hrevert (some s2) l
    rw [hy, hback.1 s2 rfl] at hl
    exact hl

lemma Log.returned_of_undoable (h : Log V s cs r)
    (hundo : ∀ c ∈ cs, c.returned.isSome = true → c.undoable V = true) :
    (∀ s1 ∈ r, s1 = s) ∧ ∀ c ∈ cs, ∀ s2 ∈ c.returned, s2 = c.entry := by
  induction h with
  | nil s | abort => simp
  | aborted _ _ ih =>
    rw [forall_mem_cons] at hundo ⊢
    exact ⟨by simp, by simp, (ih hundo.2).2⟩
  | @call t s s' s1 s2 _ _ _ r h hinner hrevert _ ihinner ihrest =>
    rw [forall_mem_cons, forall_mem_append] at hundo
    have hback : s2 = s := by
      refine State.ext (advancement_returned h (hinner.advancement_eq _ rfl) hrevert) (funext fun l => ?_)
      rw [locked_returned (hinner.advancement_eq _ rfl) hrevert (some s2) l]
      cases hy : ((⟨t, s, s', some s2⟩ : Call).executed V).reverse.find? fun y => y.changesLock l with
      | none => rw [Option.elim_none, (ihinner hundo.2.1).1 s1 rfl, locked_advanced_of_none h hy]
      | some y => exact ((Call.undoable_iff V).mp (hundo.1 rfl) l y hy).symm
    rw [forall_mem_cons, forall_mem_append]
    obtain ⟨hend, hrest⟩ := ihrest hundo.2.2
    exact ⟨fun s3 hs3 => (hend s3 hs3).trans hback, by rintro _ ⟨⟩; exact hback, (ihinner hundo.2.1).2, hrest⟩

/-- A call that returns gives the advancement back, and the locks exactly if it found each as its first use requires. -/
theorem SearchCalls.backtracking_exact_iff {calls : List Call} (h : SearchCalls V calls) :
    (∀ c ∈ calls, ∀ s ∈ c.returned, s.advancement = c.entry.advancement) ∧
      ((∀ c ∈ calls, ∀ s ∈ c.returned, s.advancement = c.entry.advancement ∧ s.locked = c.entry.locked) ↔
        ∀ c ∈ calls, c.returned.isSome = true → c.undoable V = true) := by
  obtain ⟨r, hlog⟩ := h.log
  refine ⟨hlog.advancement_of_returned, fun hback => ?_, fun hundo c hc s hs => ?_⟩
  · exact hlog.undoable_of_returned fun c hc s hs => (hback c hc s hs).2
  · rw [(hlog.returned_of_undoable hundo).2 c hc s hs]
    exact ⟨rfl, rfl⟩

def joinedAfterUse : Configuration Unit := Configuration.after [.createThread .main worker,
  .initThread worker .main, .acquireLock worker 1, .releaseLock worker 1 false,
  .exitThread worker false, .joinThread .main worker]

def joinAfterUse : Event Unit := (joinedAfterUse.lastOfTid .main).getD Event.programInit

/-- The worker takes and frees the lock in one advance, which is undone. -/
theorem SearchCalls.backtracking_exact_iff_joinAfterUse :
    (runCompute (vectors joinAfterUse)).calls.length = 3 ∧
      ∀ c ∈ (runCompute (vectors joinAfterUse)).calls, ∀ s ∈ c.returned,
        s.advancement = c.entry.advancement ∧ s.locked = c.entry.locked :=
  ⟨by decide +kernel, (SearchCalls.backtracking_exact_iff (.inl rfl)).2.mpr (by decide +kernel)⟩

def joinedWhileLocked : Configuration Unit := Configuration.after [.createThread .main worker, .initThread worker .main,
  .createThread .main worker2, .initThread worker2 .main, .acquireLock worker 1, .releaseLock worker 1 false,
  .acquireLock .main 1, .exitThread worker2 false, .joinThread .main worker2, .releaseLock .main 1 false]

def releaseAfterJoin : Event Unit := (joinedWhileLocked.lastOfTid .main).getD Event.programInit

/-- An acquisition that begins its advance is not recorded, so undoing the release takes the lock. -/
theorem backtracking_takes_lock : Configuration.Reachable Configuration.startsThread joinedWhileLocked ∧
    releaseAfterJoin ∈ joinedWhileLocked ∧ ∃ V, csdSearchT releaseAfterJoin = some V ∧
      ∃ c ∈ (runCompute V).calls, ∃ s, c.returned = some s ∧ c.entry.locked 1 = false ∧ s.locked 1 = true := by
  have hcall : ((csdSearchT releaseAfterJoin).any fun V => (runCompute V).calls.any fun c =>
      c.returned.any fun s => !c.entry.locked 1 && s.locked 1) = true := by decide +kernel
  obtain ⟨V, hV, hcalls⟩ := (Option.any_eq_true _ _).mp hcall
  obtain ⟨c, hc, hback⟩ := any_eq_true.mp hcalls
  obtain ⟨s, hs, hl⟩ := (Option.any_eq_true _ _).mp hback
  rw [Bool.and_eq_true, Bool.not_eq_true'] at hl
  exact ⟨Configuration.reachable_startsThread (by decide), by decide +kernel, V, hV, c, hc, s, hs, hl⟩

/-- The searches recurse at most as deep as there are events. -/
theorem searches_end (V : Events D) {fuel : ℕ} (hfuel : V.size ≤ fuel) (t : ThreadId) (n limit : ℕ) :
    compute V fuel (initial V) t n = compute V V.size (initial V) t n ∧
      isAbove V limit fuel (initial V) t n = isAbove V limit V.size (initial V) t n := by
  have hle := (remaining_initial (V := V)).le
  exact ⟨compute_fuel (hle.trans hfuel) hle t n, isAbove_fuel (hle.trans hfuel) hle t n⟩

theorem searches_end_forkedInit : ∃ V, csdSearchT Configuration.forkedInit = some V ∧ V.size = 3 ∧
    compute V 9 (initial V) .main 5 = compute V 3 (initial V) .main 5 :=
  ⟨_, rfl, rfl, (searches_end _ (by decide) .main 5 0).1⟩

end CsdSearch
end Por
