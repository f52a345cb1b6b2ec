import PorSe.Por.CsdLocks

/-! Whether the limit tests agree with the computed degrees. The first pair of searches
does. The second pair walks the same tree of advances as long as the locks that are still to be
used are recorded, so that every call gives back the state it was started in. -/

namespace Por
open List Option
namespace CsdSearch
open Csd (Events add sub eventIsEnabled)
variable {D : Type} (V : Events D)

def alternatives (s : State) (t : ThreadId) (ts : List ThreadId) : List ThreadId :=
  ts.filter fun u => u ≠ t ∧ canAdvance V s u

variable {V} {s s1 : State} {t : ThreadId}

variable {f : ThreadId → ℕ} {ts : List ThreadId} {self : ThreadId} {budget csd v fuel limit : ℕ}

def runsAlone (x : Event D) : Bool := eventIsEnabled (fun _ => false) x

/-- A thread that used a lock where it had to wait for another one uses it again before it has to
wait the next time, if the lock is used later at all. -/
def LocksPassedOn (e : Event D) : Prop := ∀ x ≤ e, x.lockChange.isSome = true → runsAlone x = false →
  (∃ z ≤ e, x < z ∧ z.changesLock x.lid = true) → ∃ y ≤ e, y.tid = x.tid ∧ x < y ∧
    y.changesLock x.lid = true ∧ ∀ w, w.tid = x.tid → x < w → w ≤ y → runsAlone w = true

lemma isEnabled_of_runsAlone {x : Event D} (h : runsAlone x = true) (run : Event D → Bool) :
    eventIsEnabled run x = true :=
  Csd.isEnabled_mono (fun _ _ h => absurd h Bool.false_ne_true) h

lemma advanceLoop_stops {n m : ℕ} {w : Event D} (hm : (advanceLoop V t n s).1.advancement t = m + 1)
    (hw : (V.of t)[m]? = some w) :
    eventIsEnabled (hasRun V (advanceLoop V t n s).1.advancement) w = false := by
  induction n generalizing s with
  | zero => simp [advanceLoop] at hm
  | succ n ih =>
    cases hev : (V.of t)[n]? with
    | none =>
      simp only [advanceLoop, hev, Function.update_self, Nat.add_right_cancel_iff] at hm
      simp [← hm, hev] at hw
    | some ev =>
      simp only [advanceLoop, hev] at hm ⊢
      have hstop : ∀ s : State, eventPreemption V s ev ≠ .enabled →
          eventIsEnabled (hasRun V s.advancement) ev = false := by
        intro s h
        by_contra hen
        rw [eventPreemption, if_pos (by simpa using hen)] at h
        exact h rfl
      split at hm <;> rename_i hpre
      · obtain rfl : n = m := by simpa using hm
        cases hev.symm.trans hw
        exact hstop ⟨_, s.locked⟩ (by simp [hpre])
      · obtain rfl : n = m := by simpa using hm
        cases hev.symm.trans hw
        exact hstop ⟨_, s.locked⟩ (by simp [hpre])
      · exact ih hm

lemma Executes.next {a a' : ThreadId → ℕ} {xs : List (Event D)} {x : Event D}
    (h : Executes V t a (xs ++ [x]) a') : ∃ n, a t = n + 1 ∧ (V.of t)[n]? = some x := by
  generalize hys : xs ++ [x] = ys at h
  cases h with
  | refl => simp at hys
  | step hn hx =>
    obtain ⟨-, h⟩ := append_inj' hys rfl
    exact ⟨_, hn, by rw [hx, (cons.inj h).1]⟩

lemma Executes.mem_iff {a a' : ThreadId → ℕ} {xs : List (Event D)} {z : Event D} (h : Executes V t a xs a') :
    z ∈ executedEvents V a' ↔ z ∈ xs ∨ z ∈ executedEvents V a := by
  induction h with
  | refl => simp
  | step hn hx _ _ ih =>
    rw [ih, (executed_update_perm hn hx).mem_iff, mem_append, mem_singleton, mem_cons]
    tauto

section
variable [DecidableEq D] {e : Event D} (hV : Keeps e V)
include hV

omit [DecidableEq D] in
lemma Executes.not_mem {a a' : ThreadId → ℕ} {xs : List (Event D)} {z : Event D} (h : Executes V t a xs a')
    (hz : z ∈ xs) : z ∉ executedEvents V a := by
  induction h with
  | refl => simp at hz
  | step hn hx _ _ ih =>
    rcases mem_append.mp hz with hz | hz
    · exact fun h => ih hz ((executed_update_perm hn hx).mem_iff.mpr (mem_cons_of_mem _ h))
    · exact mem_singleton.mp hz ▸ next_not_executed hV hn hx

/-- The locks that are still to be used are recorded, and an advance begins with the use of a
lock only where the thread had to wait. -/
structure Recorded (e : Event D) (V : Events D) (s : State) : Prop where
  tracked : Tracked V s.advancement
  starts : ∀ {t n x}, s.advancement t = n + 1 → (V.of t)[n]? = some x → x.lockChange.isSome = true →
    runsAlone x = false
  ahead : ∀ {z l}, z ≤ e → z ∉ executedEvents V s.advancement → z.changesLock l = true →
    s.locked l = lockTaken V s.advancement l

variable (he : e.Rooted) (ho : e.LocksInOrder) {s' : State} {step : ℕ}
  (hs : Recorded e V s) (h : advanceThread V s t = some (s', step))
include he ho hs h

lemma Recorded.advance (hpass : LocksPassedOn e) : Recorded e V s' := by
  obtain ⟨xs, x, hexec, hlocked, -⟩ := advanceThread_executes h
  obtain ⟨htracked, htaken⟩ := hexec.tracked he ho hV hs.tracked
  obtain ⟨-, hupdate⟩ := hexec.advancement_eq
  have hstops : ∀ {m w}, s'.advancement t = m + 1 → (V.of t)[m]? = some w → runsAlone w = false := by
    intro m w hm hw
    rw [advanceThread] at h
    split_ifs at h
    by_contra halone
    have := isEnabled_of_runsAlone (by simpa using halone) (hasRun V s'.advancement)
    rw [show s' = (advanceLoop V t (s.advancement t - 1) s).1 by rw [some.inj h]] at this hm
    simp [advanceLoop_stops hm hw] at this
  refine ⟨htracked, fun {u m w} hm hw hk => ?_, fun {z l} hze hz hzl => ?_⟩
  · by_cases hu : u = t
    · exact hstops (hu ▸ hm) (hu ▸ hw)
    · exact hs.starts (by rw [← hm, hupdate, Function.update_of_ne hu]) hw hk
  · have hzs : z ∉ executedEvents V s.advancement := fun h => hz (hexec.mem_iff.mpr (.inr h))
    rw [hlocked, ListSearch.foldr_write_apply fun y m => recordLock_apply y m l, (htaken l).1, find?_append]
    cases hfind : xs.find? fun y => y.changesLock l with
    | some y => rfl
    | none =>
      cases hxl : x.changesLock l with
      | false =>
        rw [find?_cons, hxl, hs.ahead hze hzs hzl]
        rfl
      | true =>
        -- the thread goes on to the next use of the lock, so its change is recorded
        obtain ⟨hk, rfl⟩ := Event.changesLock_iff.mp hxl
        obtain ⟨hzk, hzlid⟩ := Event.changesLock_iff.mp hzl
        obtain ⟨n, hn, hx⟩ := hexec.next
        obtain ⟨hxe, hxt⟩ := hV.mem (mem_of_getElem? hx)
        have hxs' : x ∈ executedEvents V s'.advancement := hexec.mem_iff.mpr (.inl (by simp))
        have hzx : ¬ z ≤ x := not_le_of_executed he ho hV htracked hze hz hzk hxs' (hzlid ▸ hxl)
        have hxz : x < z := by
          rcases ho.le_lockPredecessor hxe hze (Event.lockHeadKind_of_change hk)
            (Event.lockHeadKind_of_change hzk) hzlid with h | ⟨p, hp, hzp⟩
          · exact lt_of_le_of_ne h fun heq => hzx heq.ge
          · exact absurd (hzp.trans (Event.lockPred_lt hp).le) hzx
        obtain ⟨y, hye, hyt, hxy, hyl, halone⟩ := hpass x hxe hk (hs.starts hn hx hk) ⟨z, hze, hxz, hzl⟩
        have hyV : y ∈ V.of t := hxt ▸ hyt ▸ hV.of_lockChange hye (Event.changesLock_iff.mp hyl).1
        have hys' : y ∉ executedEvents V s'.advancement := by
          intro hy
          rcases hexec.mem_iff.mp hy with hy | hy
          · rcases mem_append.mp hy with hy | hy
            · exact find?_eq_none.mp hfind y hy hyl
            · exact hxy.ne (mem_singleton.mp hy).symm
          · exact lt_asymm hxy (lt_next hV hn hx hy (hyt.trans hxt))
        -- otherwise it has stopped at an event that runs alone
        obtain ⟨m, hm⟩ : ∃ m, s'.advancement t = m + 1 := by
          refine Nat.exists_eq_succ_of_ne_zero fun h0 => hys' ?_
          rwa [mem_executedEvents hV, hyt, hxt, h0, drop_zero]
        have hlt : m < (V.of t).length := by
          have := (List.getElem?_eq_some_iff.mp hx).1
          have := hexec.advancement_eq.1
          omega
        have hw := getElem?_eq_getElem hlt
        obtain ⟨hwe, hwt⟩ := hV.mem (getElem_mem hlt)
        have hwy : (V.of t)[m] ≤ y := by
          by_contra hnot
          have hyw := (he.le_total hye hwe ((hyt.trans hxt).trans hwt.symm)).resolve_right hnot
          exact hys' (mem_executedEvents_of_lt hV hm hw hyV (lt_of_le_of_ne hyw fun h => hnot h.ge))
        have := halone _ (hwt.trans hxt.symm) (lt_next hV hm hw hxs' hxt) hwy
        simp [hstops hm hw] at this

end

/-! ## Calls -/

section
variable {α β : Type} {r : Outcome α} {s' : State}

end

/-! ## `compute_csd_2` -/

section
variable [DecidableEq D] {e : Event D} (hV : Keeps e V) (he : e.Rooted) (ho : e.LocksInOrder)
  (hpass : LocksPassedOn e)
include hV he ho hpass

end

/-! ## `is_above_csd_limit_2` -/

section
variable [DecidableEq D] {e : Event D} (hV : Keeps e V) (he : e.Rooted) (ho : e.LocksInOrder)
  (hpass : LocksPassedOn e)
include hV he ho hpass

end

section
variable [DecidableEq D] {e : Event D}

end

end CsdSearch
end Por
