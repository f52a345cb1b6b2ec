import PorSe.Por.LockOrder

/-! Conflicting extensions of lock acquisitions: `cex_acquire` replaces the lock
predecessor of a lock_acquire or wait2 by earlier events that left the lock free. -/

namespace Por
open List Event Option ListSearch
namespace Configuration
variable {D : Type} [DecidableEq D]

def freeKinds : List Kind := [.lockRelease, .wait1, .lockCreate]

/-- `lock_acquire::alloc` or `wait2::alloc` with another lock predecessor. -/
def allocAcquire (e et : Event D) (es r : Option (Event D)) : Option (Event D) :=
  match e.kind, es, r with
  | .lockAcquire, _, r => allocLockAcquire e.tid e.lid et r
  | .wait2, some es, some r => allocWait2 e.tid e.cid e.lid et r es
  | _, _, _ => none

/-- The event at the boundary of the past of `et` and `es`. For a wait2 the source takes a lock_release only. -/
def cexBoundary (e et : Event D) (es em : Option (Event D)) : Option (List (Event D)) :=
  match em with
  | none => if e.kind = .lockAcquire then (allocAcquire e et es none).map ([·]) else none
  | some m =>
    if m.kind = .lockRelease ∨ m.kind = .wait1 then
      if e.kind = .lockAcquire ∨ m.kind = .lockRelease then (allocAcquire e et es (some m)).map ([·]) else some []
    else if m.kind = .lockCreate then
      if e.kind = .lockAcquire then (allocAcquire e et es (some m)).map ([·]) else none
    else some []

def cexAcquire (isCutoff : Event D → Bool) (e : Event D) : Option (List (Event D)) := do
  let et ← e.threadPredecessor
  let er := e.lockPredecessor
  if isCutoff et then some []
  else if e.kind = .wait2 ∧ e.notifyingPredecessor.any isCutoff then some []
  else
    let es := e.notifyingPredecessor
    -- descend the chain of lock events until em is in the past of et or es
    let em := (er.elim [] lockChain).find? fun m => m.isLessThanEq et || es.any fun s => m.isLessThan s
    if em = er then some []
    else
      let boundary ← cexBoundary e et es em
      let eps := (er.elim [] lockChain).tail.takeWhile fun p =>
        em.all (fun m => !p.isLessThanEq m) && es.all fun s => !p.isLessThanEq s
      let above ← (eps.filter fun p => p.kind ∈ freeKinds).mapM fun p => allocAcquire e et es (some p)
      some (boundary ++ above)

/-! ## The positions at which the lock could have been taken -/

/-- `r` is a maximal event of `K` on the lock, `none` that there is no event on it. -/
def IsLastOn (K : Set (Event D)) (l : LockId) : Option (Event D) → Prop
  | none => ∀ x ∈ K, x.lid ≠ l
  | some r => Maximal (fun x => x ∈ K ∧ x.lid = l) r

variable (e : Event D)

def past : Set (Event D) :=
  {x | (∃ et, e.threadPredecessor = some et ∧ x ≤ et) ∨ ∃ es, e.notifyingPredecessor = some es ∧ x ≤ es}

/-- Some causally closed part of `C` that `e` could follow leaves the lock free after `r`. -/
def FreePosition (C : Configuration D) (e : Event D) (r : Option (Event D)) : Prop :=
  (∀ m, r = some m → m.kind ∈ freeKinds) ∧
    ∃ K : Set (Event D), (∀ x ∈ K, x ∈ C) ∧ IsLowerSet K ∧ (∀ et, e.threadPredecessor = some et → et ∈ K) ∧
      (∀ es, e.notifyingPredecessor = some es → es ∈ K) ∧ e ∉ K ∧ IsLastOn K e.lid r

def replaceLockPredecessor (r : Option (Event D)) : Event D :=
  ⟨e.tid, e.label, (e.threadPredecessor.toList ++ e.notifyingPredecessor.toList) ++ r.toList⟩

omit [DecidableEq D] in
lemma lt_of_mem_past {e x : Event D} (hx : x ∈ past e) : x < e := by
  rcases hx with ⟨et, het, hx⟩ | ⟨es, hes, hx⟩
  · exact hx.trans_lt (threadPred_lt het)
  · exact hx.trans_lt (lt_of_mem_preds (notifyingPred_mem hes))

omit [DecidableEq D] in
lemma isLowerSet_past {e : Event D} : IsLowerSet (past e) := by
  rintro a b hba (⟨et, het, ha⟩ | ⟨es, hes, ha⟩)
  · exact .inl ⟨et, het, hba.trans ha⟩
  · exact .inr ⟨es, hes, hba.trans ha⟩

/-! ## Lock events below an event -/

def lockEventsBelow : List (Event D) := e.lockPredecessor.elim [] lockChain

lemma lockChain_eq_cons : e.lockChain = e :: lockEventsBelow e := lockChain_eq e

lemma pairwise_lockEventsBelow : (lockEventsBelow e).Pairwise fun a b => b < a := by
  have h := pairwise_chain lockPred_mem e
  rw [show e.chain lockPredecessor = _ from lockChain_eq_cons e] at h
  exact (pairwise_cons.mp h).2

section
variable {C : Configuration D} (hW : C.WellFormed) (hL : C.LockOrdered) {e : Event D} (he : e ∈ C)
  (hk : e.kind ∈ lockHeadKinds)
include hW hL he hk

lemma mem_lockEventsBelow {x : Event D} : x ∈ lockEventsBelow e ↔ x < e ∧ x.lid = e.lid := by
  have hchain := hL.mem_lockChain_iff hW he hk (x := x)
  have hpw := pairwise_chain lockPred_mem e
  rw [show e.chain lockPredecessor = _ from lockChain_eq_cons e] at hpw
  rw [lockChain_eq_cons, mem_cons] at hchain
  constructor
  · intro hx
    exact ⟨(pairwise_cons.mp hpw).1 x hx, (hchain.mp (.inr hx)).2⟩
  · rintro ⟨hxe, hxl⟩
    exact (hchain.mpr ⟨hxe.le, hxl⟩).resolve_left hxe.ne

omit hW in
lemma lt_of_mem_closed {K : Set (Event D)} (hKC : ∀ x ∈ K, x ∈ C) (hK : IsLowerSet K) (heK : e ∉ K) {r : Event D}
    (hr : r ∈ K) (hrl : r.lid = e.lid) (hkr : r.kind ∈ lockHeadKinds) : r < e := by
  rcases hL.le_total (hKC r hr) he hrl hkr hk with h | h
  · exact lt_of_le_of_ne h fun h => heK (h ▸ hr)
  · exact absurd (hK h hr) heK

omit hL in
lemma inPast_iff {x et : Event D} (het : e.threadPredecessor = some et) (hxe : x < e ∧ x.lid = e.lid) :
    (x.isLessThanEq et || e.notifyingPredecessor.any fun s => x.isLessThan s) = true ↔ x ∈ past e := by
  have hxC := hW.mem_of_le hxe.1.le he
  have hetC := hW.closed he (threadPred_mem het)
  rw [Bool.or_eq_true, hW.isLessThanEq_iff hxC hetC]
  refine or_congr ⟨fun h => ⟨et, het, h⟩, ?_⟩ ?_
  · rintro ⟨et', het', h⟩
    obtain rfl : et = et' := some.inj (het.symm.trans het')
    exact h
  · rw [Option.any_eq_true]
    refine exists_congr fun s => and_congr_right fun hs => ?_
    rw [hW.isLessThan_iff hxC (hW.closed he (notifyingPred_mem hs))]
    refine ⟨le_of_lt, fun h => lt_of_le_of_ne h ?_⟩
    rintro rfl
    -- a notification is no lock event
    obtain ⟨-, -, -, -, -, hks, -⟩ := notifying_of_checks (hW.checks he) hs
    have hl : x.lid = 0 := lid_eq_zero (by rcases hks with hks | hks <;> simp [hks])
    exact lid_ne_zero (hW.checks he) hk (hxe.2.symm.trans hl)

lemma isLastOn_past {et : Event D} {em : Option (Event D)} (het : e.threadPredecessor = some et)
    (hem : em = (lockEventsBelow e).find? fun m =>
      m.isLessThanEq et || e.notifyingPredecessor.any fun s => m.isLessThan s) : IsLastOn (past e) e.lid em := by
  have hmem : ∀ {x}, x ∈ past e → x.lid = e.lid → x ∈ lockEventsBelow e := fun hx hl =>
    (mem_lockEventsBelow hW hL he hk).mpr ⟨lt_of_mem_past hx, hl⟩
  have htest : ∀ {x}, x ∈ lockEventsBelow e → ((x.isLessThanEq et ||
      e.notifyingPredecessor.any fun s => x.isLessThan s) = true ↔ x ∈ past e) := fun hx =>
    inPast_iff hW he hk het ((mem_lockEventsBelow hW hL he hk).mp hx)
  cases em with
  | none =>
    intro x hx hl
    exact find?_eq_none.mp hem.symm x (hmem hx hl) ((htest (hmem hx hl)).mpr hx)
  | some m =>
    have hm := mem_of_find?_eq_some hem.symm
    have hq := find?_some hem.symm
    refine ⟨⟨(htest hm).mp hq, ((mem_lockEventsBelow hW hL he hk).mp hm).2⟩, ?_⟩
    rintro y ⟨hy, hyl⟩ -
    have hyL := hmem hy hyl
    rcases eq_or_rel_of_find? (pairwise_lockEventsBelow e) hem.symm hyL ((htest hyL).mpr hy)
      with rfl | h
    · exact le_rfl
    · exact h.le

lemma le_of_isLastOn_past {m x : Event D} (hm : IsLastOn (past e) e.lid (some m)) (hx : x ∈ past e)
    (hl : x.lid = e.lid) : x ≤ m := by
  have hkind : ∀ {y}, y ∈ past e → y.lid = e.lid → y ∈ C ∧ y.kind ∈ lockHeadKinds := by
    intro y hy hyl
    have hyC := hW.mem_of_le (lt_of_mem_past hy).le he
    exact ⟨hyC, hL.lockHeadKind_of_le hyC he hyl hk (lid_ne_zero (hW.checks he) hk) (lt_of_mem_past hy).le⟩
  obtain ⟨hxC, hkx⟩ := hkind hx hl
  obtain ⟨hmC, hkm⟩ := hkind hm.1.1 hm.1.2
  rcases hL.le_total hxC hmC (hl.trans hm.1.2.symm) hkx hkm with h | h
  · exact h
  · exact hm.2 ⟨hx, hl⟩ h

lemma isLastOn_past_unique {m m' : Option (Event D)} (hm : IsLastOn (past e) e.lid m)
    (hm' : IsLastOn (past e) e.lid m') : m = m' := by
  cases m with
  | none =>
    cases m' with
    | none => rfl
    | some b => exact absurd hm'.1.2 (hm b hm'.1.1)
  | some a =>
    cases m' with
    | none => exact absurd hm.1.2 (hm' a hm.1.1)
    | some b =>
      have hab := le_of_isLastOn_past hW hL he hk hm' hm.1.1 hm.1.2
      have hba := le_of_isLastOn_past hW hL he hk hm hm'.1.1 hm'.1.2
      rw [le_antisymm hab hba]

/-- They are the free lock events below `e` and not below the past, and the start when the past has no lock event. -/
lemma freePosition_iff {m r : Option (Event D)} (hm : IsLastOn (past e) e.lid m) :
    C.FreePosition e r ↔ (∀ x, r = some x → x.kind ∈ freeKinds ∧ x ∈ lockEventsBelow e ∧ ∀ y, m = some y → y ≤ x) ∧
      (r = none → m = none) := by
  have hfree : ∀ {x : Event D}, x.kind ∈ freeKinds → x.kind ∈ lockHeadKinds := by
    intro x hx
    simp only [freeKinds, mem_cons, not_mem_nil, or_false] at hx
    rcases hx with hx | hx | hx <;> simp [hx, lockHeadKinds]
  constructor
  · rintro ⟨hkr, K, hKC, hK, het, hes, heK, hlast⟩
    have hpast : ∀ {x}, x ∈ past e → x ∈ K := by
      rintro x (⟨et, h, hx⟩ | ⟨es, h, hx⟩)
      · exact hK hx (het et h)
      · exact hK hx (hes es h)
    constructor
    · rintro x rfl
      have hkx := hkr x rfl
      have hxe := lt_of_mem_closed hL he hk hKC hK heK hlast.1.1 hlast.1.2 (hfree hkx)
      refine ⟨hkx, (mem_lockEventsBelow hW hL he hk).mpr ⟨hxe, hlast.1.2⟩, ?_⟩
      rintro y rfl
      have hyK := hpast hm.1.1
      have hkm := hL.lockHeadKind_of_le (hKC y hyK) he hm.1.2 hk (lid_ne_zero (hW.checks he) hk)
        (lt_of_mem_past hm.1.1).le
      rcases hL.le_total (hKC y hyK) (hKC x hlast.1.1) (hm.1.2.trans hlast.1.2.symm) hkm (hfree hkx) with h | h
      · exact h
      · exact hlast.2 ⟨hyK, hm.1.2⟩ h
    · rintro rfl
      cases m with
      | none => rfl
      | some y => exact absurd hm.1.2 (hlast y (hpast hm.1.1))
  · rintro ⟨hsome, hnone⟩
    refine ⟨fun x hx => (hsome x hx).1, past e ∪ {y | ∃ x, r = some x ∧ y ≤ x}, ?_, ?_, ?_, ?_, ?_, ?_⟩
    · rintro y (hy | ⟨x, hx, hyx⟩)
      · exact hW.mem_of_le (lt_of_mem_past hy).le he
      · exact hW.mem_of_le (hyx.trans ((mem_lockEventsBelow hW hL he hk).mp (hsome x hx).2.1).1.le) he
    · rintro a b hba (ha | ⟨x, hx, hax⟩)
      · exact .inl (isLowerSet_past hba ha)
      · exact .inr ⟨x, hx, hba.trans hax⟩
    · exact fun et h => .inl (.inl ⟨et, h, le_rfl⟩)
    · exact fun es h => .inl (.inr ⟨es, h, le_rfl⟩)
    · rintro (h | ⟨x, hx, hex⟩)
      · exact lt_irrefl _ (lt_of_mem_past h)
      · exact absurd hex (not_le_of_gt ((mem_lockEventsBelow hW hL he hk).mp (hsome x hx).2.1).1)
    · cases r with
      | none =>
        obtain rfl := hnone rfl
        rintro y (hy | ⟨x, hx, -⟩)
        · exact hm y hy
        · simp at hx
      | some x =>
        obtain ⟨-, hxL, hmx⟩ := hsome x rfl
        refine ⟨⟨.inr ⟨x, rfl, le_rfl⟩, ((mem_lockEventsBelow hW hL he hk).mp hxL).2⟩, ?_⟩
        rintro y ⟨hy | ⟨z, hz, hyz⟩, hyl⟩ -
        · cases m with
          | none => exact absurd hyl (hm y hy)
          | some z => exact (le_of_isLastOn_past hW hL he hk hm hy hyl).trans (hmx z rfl)
        · cases hz
          exact hyz

lemma freePosition_of_isLastOn {m : Option (Event D)} (hm : IsLastOn (past e) e.lid m)
    (hfree : ∀ x, m = some x → x.kind ∈ freeKinds) : C.FreePosition e m := by
  refine (freePosition_iff hW hL he hk hm).mpr ⟨?_, id⟩
  rintro x rfl
  refine ⟨hfree x rfl, (mem_lockEventsBelow hW hL he hk).mpr ⟨lt_of_mem_past hm.1.1, hm.1.2⟩, fun y hy => ?_⟩
  exact (some.inj hy).ge

end

/-! ## What `cex_acquire` returns -/

lemma acquire_shape {e : Event D} (hc : e.checks = true) (hk : e.kind = .lockAcquire ∨ e.kind = .wait2) :
    (∃ t l et, ∃ er : Option (Event D), e = ⟨t, .lockAcquire l, et :: er.toList⟩) ∨
      ∃ t c l et es er, e = ⟨t, .wait2 c l, [et, es, er]⟩ := by
  obtain ⟨t, lb, ps⟩ := e
  cases lb with
  | lockAcquire l =>
    left
    have hlen : ps.length = 1 ∨ ps.length = 2 := by
      simp [checks] at hc
      tauto
    rcases hlen with h | h
    · obtain ⟨a, rfl⟩ := length_eq_one_iff.mp h
      exact ⟨t, l, a, none, rfl⟩
    · obtain ⟨a, b, rfl⟩ := length_eq_two.mp h
      exact ⟨t, l, a, some b, rfl⟩
  | wait2 c l =>
    right
    have hlen : ps.length = 3 := length_preds_of_wait2 hc rfl
    obtain ⟨a, b, d, rfl⟩ := length_eq_three.mp hlen
    exact ⟨t, c, l, a, b, d, rfl⟩
  | _ => simp at hk

lemma allocAcquire_eq_some {e et : Event D} {r : Option (Event D)} (hc : e.checks = true)
    (hk : e.kind = .lockAcquire ∨ e.kind = .wait2) (het : e.threadPredecessor = some et)
    (hr : ∀ x, r = some x → x.kind ∈ freeKinds ∧ x.lid = e.lid)
    (hw : e.kind = .wait2 → ∃ x, r = some x ∧ x.kind ≠ .lockCreate) :
    allocAcquire e et e.notifyingPredecessor r = some (replaceLockPredecessor e r) := by
  rcases acquire_shape hc hk with ⟨t, l, p, er, rfl⟩ | ⟨t, c, l, p, es, er, rfl⟩
  · obtain rfl : p = et := by simpa [threadPredecessor] using het
    have heq : replaceLockPredecessor ⟨t, .lockAcquire l, p :: er.toList⟩ r = ⟨t, .lockAcquire l, p :: r.toList⟩ := by
      simp [replaceLockPredecessor, threadPredecessor, notifyingPredecessor]
    rw [heq]
    refine alloc_eq_some.mpr ⟨rfl, ?_⟩
    simp only [checks, Bool.and_eq_true] at hc ⊢
    refine ⟨⟨?_, hc.1.2⟩, hc.2⟩
    cases r with
    | none => simp
    | some x =>
      obtain ⟨hkx, hxl⟩ := hr x rfl
      simp [lockPredecessorChecks, lockPredecessor] at hxl ⊢
      simp [freeKinds] at hkx
      exact ⟨by tauto, decide_eq_true hxl⟩
  · obtain rfl : p = et := by simpa [threadPredecessor] using het
    obtain ⟨x, rfl, hx⟩ := hw rfl
    have heq : replaceLockPredecessor ⟨t, .wait2 c l, [p, es, er]⟩ (some x) = ⟨t, .wait2 c l, [p, es, x]⟩ := by
      simp [replaceLockPredecessor, threadPredecessor, notifyingPredecessor]
    rw [heq]
    refine alloc_eq_some.mpr ⟨rfl, ?_⟩
    obtain ⟨hkx, hxl⟩ := hr x rfl
    simp only [checks, Bool.and_eq_true] at hc ⊢
    refine ⟨⟨⟨⟨rfl, hc.1.1.1.2⟩, ?_⟩, hc.1.2⟩, hc.2⟩
    simp [lockPredecessorChecks, lockPredecessor] at hxl ⊢
    simp [freeKinds] at hkx
    exact ⟨by tauto, decide_eq_true hxl⟩

omit [DecidableEq D] in
lemma lockPred_of_lockCreate {e : Event D} (hk : e.kind = .lockCreate) : e.lockPredecessor = none := by
  obtain ⟨t, l, ps⟩ := e
  cases l <;> simp [lockPredecessor] at hk ⊢

omit [DecidableEq D] in
lemma lockHeadKind_of_acquire {e : Event D} (hk : e.kind = .lockAcquire ∨ e.kind = .wait2) :
    e.kind ∈ lockHeadKinds := by
  rcases hk with hk | hk <;> simp [hk, lockHeadKinds]

lemma eq_lockPred_of_le {e : Event D} {m r : Option (Event D)}
    (hsome : ∀ x, r = some x → x.kind ∈ freeKinds ∧ x ∈ lockEventsBelow e ∧ ∀ y, m = some y → y ≤ x)
    (hnone : r = none → m = none) (hm : m = e.lockPredecessor) : r = e.lockPredecessor := by
  cases r with
  | none => rw [← hm, hnone rfl]
  | some x =>
    obtain ⟨-, hx, hmx⟩ := hsome x rfl
    unfold lockEventsBelow at hx
    cases hp : e.lockPredecessor with
    | none => simp [hp] at hx
    | some p =>
      rw [hp] at hx
      have hxp := le_of_mem_chain lockPred_mem hx
      rw [le_antisymm hxp (hmx p (hm.trans hp))]

section
variable {C : Configuration D} (hW : C.WellFormed) (hL : C.LockOrdered) {e et : Event D} (he : e ∈ C)
  (hk : e.kind = .lockAcquire ∨ e.kind = .wait2) (het : e.threadPredecessor = some et) {m : Option (Event D)}
  (hm : IsLastOn (past e) e.lid m)

def freeAbove (e : Event D) (m : Option (Event D)) : List (Event D) :=
  ((lockEventsBelow e).tail.takeWhile fun p =>
    m.all (fun y => !p.isLessThanEq y) && e.notifyingPredecessor.all fun s => !p.isLessThanEq s).filter
      fun p => p.kind ∈ freeKinds

include hW hL he hk hm

lemma mem_freeAbove {p : Event D} : p ∈ freeAbove e m ↔
    p.kind ∈ freeKinds ∧ p ∈ lockEventsBelow e ∧ some p ≠ e.lockPredecessor ∧ ∀ y, m = some y → y < p := by
  have hlk := lockHeadKind_of_acquire hk
  have hbelow : ∀ {x}, x ∈ lockEventsBelow e → x ∈ C := fun hx =>
    hW.mem_of_le ((mem_lockEventsBelow hW hL he hlk).mp hx).1.le he
  have hmL : ∀ {y}, m = some y → y ∈ lockEventsBelow e := by
    rintro y rfl
    exact (mem_lockEventsBelow hW hL he hlk).mpr ⟨lt_of_mem_past hm.1.1, hm.1.2⟩
  have htail : p ∈ (lockEventsBelow e).tail ↔ p ∈ lockEventsBelow e ∧ some p ≠ e.lockPredecessor := by
    unfold lockEventsBelow
    cases hr : e.lockPredecessor with
    | none => simp
    | some r =>
      have hpw := pairwise_chain lockPred_mem r
      rw [show r.chain lockPredecessor = _ from lockChain_eq_cons r] at hpw
      rw [elim_some, lockChain_eq_cons, mem_cons]
      constructor
      · intro hp
        exact ⟨.inr hp, fun h => ((pairwise_cons.mp hpw).1 p hp).ne (some.inj h)⟩
      · rintro ⟨rfl | hp, hne⟩
        · exact absurd rfl hne
        · exact hp
  have htest : ∀ {p}, p ∈ lockEventsBelow e → ((m.all (fun y => !p.isLessThanEq y) &&
      e.notifyingPredecessor.all fun s => !p.isLessThanEq s) = true ↔ ∀ y, m = some y → y < p) := by
    intro p hp
    obtain ⟨_, hpl⟩ := (mem_lockEventsBelow hW hL he hlk).mp hp
    rw [Bool.and_eq_true, Option.all_eq_true, Option.all_eq_true]
    constructor
    · rintro ⟨h, -⟩ y hy
      have hpy : ¬ p ≤ y := by
        rw [← hW.isLessThanEq_iff (hbelow hp) (hbelow (hmL hy))]
        simpa using h y hy
      rcases rel_or_rel_of_mem (pairwise_lockEventsBelow e) (hmL hy) hp with rfl | h | h
      · exact absurd le_rfl hpy
      · exact absurd h.le hpy
      · exact h
    · intro h
      refine ⟨fun y hy => ?_, fun s hs => ?_⟩
      · have := mt (hW.isLessThanEq_iff (hbelow hp) (hbelow (hmL hy))).mp (not_le_of_gt (h y hy))
        simpa using this
      · have hsC := hW.closed he (notifyingPred_mem hs)
        have : ¬ p ≤ s := by
          intro hps
          have hpast : p ∈ past e := .inr ⟨s, hs, hps⟩
          cases m with
          | none => exact hm p hpast hpl
          | some y => exact absurd (le_of_isLastOn_past hW hL he hlk hm hpast hpl) (not_le_of_gt (h y rfl))
        simpa using mt (hW.isLessThanEq_iff (hbelow hp) hsC).mp this
  unfold freeAbove
  rw [mem_filter, decide_eq_true_eq, mem_takeWhile_iff (pairwise_lockEventsBelow e).tail, htail]
  · constructor
    · rintro ⟨⟨⟨hp, hne⟩, hq⟩, hkp⟩
      exact ⟨hkp, hp, hne, (htest hp).mp hq⟩
    · rintro ⟨hkp, hp, hne, h⟩
      exact ⟨⟨⟨hp, hne⟩, (htest hp).mpr h⟩, hkp⟩
  · intro a b ha hb hba hq
    have hq := (htest (mem_of_mem_tail hb)).mp hq
    exact (htest (mem_of_mem_tail ha)).mpr fun y hy => (hq y hy).trans hba

include het

lemma cexAcquire_eq {isCutoff : Event D → Bool} (hcut : isCutoff et = false)
    (hcut' : ∀ es, e.notifyingPredecessor = some es → isCutoff es = false) :
    cexAcquire isCutoff e = if m = e.lockPredecessor then some [] else
      (cexBoundary e et e.notifyingPredecessor m).bind fun boundary =>
        ((freeAbove e m).mapM fun p => allocAcquire e et e.notifyingPredecessor (some p)).bind fun above =>
          some (boundary ++ above) := by
  have hlk := lockHeadKind_of_acquire hk
  have hem := isLastOn_past_unique hW hL he hlk hm (isLastOn_past hW hL he hlk het rfl)
  have hany : ¬ (e.kind = .wait2 ∧ e.notifyingPredecessor.any isCutoff = true) := by
    rintro ⟨-, h⟩
    obtain ⟨es, hes, h⟩ := (any_eq_true _ _).mp h
    simp [hcut' es hes] at h
  unfold cexAcquire
  simp only [het, bind_eq_bind, bind_some, hcut, hany]
  rw [hem]
  rfl

omit hL hm in
lemma cexBoundary_eq_some (hgood : e.kind = .wait2 → ∃ y, m = some y ∧ y.kind ≠ .wait1 ∧ y.kind ≠ .lockCreate)
    (hml : ∀ y, m = some y → y.lid = e.lid) : ∃ bs, cexBoundary e et e.notifyingPredecessor m = some bs ∧
      ∀ x, x ∈ bs ↔ (∀ y, m = some y → y.kind ∈ freeKinds) ∧ x = replaceLockPredecessor e m := by
  have halloc := allocAcquire_eq_some (hW.checks he) hk het (r := m)
  cases m with
  | none =>
    have hka : e.kind = .lockAcquire := hk.resolve_right fun h => by simpa using hgood h
    rw [cexBoundary, if_pos hka, halloc (by simp) (by simp [hka])]
    exact ⟨_, rfl, by simp⟩
  | some y =>
    by_cases hy : y.kind ∈ freeKinds
    · have hcond : e.kind = .lockAcquire ∨ y.kind = .lockRelease := by
        rcases hk with h | h
        · exact .inl h
        · obtain ⟨z, hz, hz1, hz2⟩ := hgood h
          cases hz
          simp [freeKinds, hz1, hz2] at hy
          exact .inr hy
      have hsome := halloc (fun x hx => by obtain rfl := some.inj hx; exact ⟨hy, hml y rfl⟩) (fun h => by
        obtain ⟨z, hz, -, hz2⟩ := hgood h
        exact ⟨z, hz, hz2⟩)
      refine ⟨[replaceLockPredecessor e (some y)], ?_, by simp [hy]⟩
      simp only [freeKinds, mem_cons, not_mem_nil, or_false] at hy
      simp only [cexBoundary, hsome, map_some]
      rcases hy with hy | hy | hy <;> simp only [hy, reduceCtorEq, or_false, or_true, if_true, if_false] at hcond ⊢
      · rw [if_pos hcond]
      · rw [if_pos hcond]
    · refine ⟨[], ?_, by simp [hy]⟩
      simp only [freeKinds, mem_cons, not_or] at hy
      simp [cexBoundary, hy]

lemma allocAcquire_of_mem_freeAbove {p : Event D} (hp : p ∈ freeAbove e m)
    (hw : e.kind = .wait2 → ∃ y, m = some y) :
    allocAcquire e et e.notifyingPredecessor (some p) = some (replaceLockPredecessor e (some p)) := by
  have hlk := lockHeadKind_of_acquire hk
  obtain ⟨hkp, hpL, -, hlt⟩ := (mem_freeAbove hW hL he hk hm).mp hp
  obtain ⟨hpe, hpl⟩ := (mem_lockEventsBelow hW hL he hlk).mp hpL
  refine allocAcquire_eq_some (hW.checks he) hk het ?_ fun h => ⟨p, rfl, fun hc => ?_⟩
  · intro x hx
    cases hx
    exact ⟨hkp, hpl⟩
  · -- the boundary is below p, so p does not create the lock
    obtain ⟨y, rfl⟩ := hw h
    have hpC := hW.mem_of_le hpe.le he
    have hkp' := hL.lockHeadKind_of_le hpC he hpl hlk (lid_ne_zero (hW.checks he) hlk) hpe.le
    obtain ⟨q, hq, -⟩ := hL.exists_lockPred_of_lt (hW.mem_of_le (hlt y rfl).le hpC) hpC
      (hm.1.2.trans hpl.symm) hkp' (lid_ne_zero (hW.checks hpC) hkp') (hlt y rfl)
    simp [lockPred_of_lockCreate hc] at hq

lemma cexAcquire_complete {isCutoff : Event D → Bool} (hcut : isCutoff et = false)
    (hcut' : ∀ es, e.notifyingPredecessor = some es → isCutoff es = false)
    (hgood : e.kind = .wait2 → m ≠ e.lockPredecessor → ∃ y, m = some y ∧ y.kind ≠ .wait1 ∧ y.kind ≠ .lockCreate) :
    ∃ xs, cexAcquire isCutoff e = some xs ∧ ∀ x, x ∈ xs ↔
      ∃ r, C.FreePosition e r ∧ r ≠ e.lockPredecessor ∧ x = replaceLockPredecessor e r := by
  have hlk := lockHeadKind_of_acquire hk
  have hml : ∀ y, m = some y → y.lid = e.lid := by
    rintro y rfl
    exact hm.1.2
  rw [cexAcquire_eq hW hL he hk het hm hcut hcut']
  split_ifs with hmr
  · refine ⟨[], rfl, fun x => ⟨fun hx => by simp at hx, ?_⟩⟩
    rintro ⟨r, hr, hne, -⟩
    obtain ⟨hsome, hnone⟩ := (freePosition_iff hW hL he hlk hm).mp hr
    exact absurd (eq_lockPred_of_le hsome hnone hmr) hne
  · obtain ⟨bs, hbs, hmem⟩ := cexBoundary_eq_some hW he hk het (fun h => hgood h hmr) hml
    have hfree := @mem_freeAbove _ _ _ hW hL _ he hk _ hm
    have hall : ∀ p ∈ freeAbove e m, allocAcquire e et e.notifyingPredecessor (some p) =
        some (replaceLockPredecessor e (some p)) := fun p hp =>
      allocAcquire_of_mem_freeAbove hW hL he hk het hm hp fun h => (hgood h hmr).imp fun _ => And.left
    rw [hbs, mapM_eq_some_map hall]
    refine ⟨_, rfl, fun x => ?_⟩
    rw [mem_append, hmem, List.mem_map]
    constructor
    · rintro (⟨hkm, rfl⟩ | ⟨p, hp, rfl⟩)
      · exact ⟨m, freePosition_of_isLastOn hW hL he hlk hm hkm, hmr, rfl⟩
      · obtain ⟨hkp, hpL, hne, hlt⟩ := hfree.mp hp
        refine ⟨some p, (freePosition_iff hW hL he hlk hm).mpr ⟨?_, by simp⟩, hne, rfl⟩
        rintro y hy
        cases hy
        exact ⟨hkp, hpL, fun z hz => (hlt z hz).le⟩
    · rintro ⟨r, hr, hne, rfl⟩
      obtain ⟨hsome, hnone⟩ := (freePosition_iff hW hL he hlk hm).mp hr
      by_cases hrm : m = r
      · subst hrm
        exact .inl ⟨fun y hy => (hsome y hy).1, rfl⟩
      · cases r with
        | none => exact absurd (hnone rfl) hrm
        | some p =>
          obtain ⟨hkp, hpL, hle⟩ := hsome p rfl
          refine .inr ⟨p, hfree.mpr ⟨hkp, hpL, hne, fun y hy => lt_of_le_of_ne (hle y hy) ?_⟩, rfl⟩
          rintro rfl
          exact hrm hy

/-- Below a wait2 a wait1 at the boundary is left out; without a lock_release or wait1 an assertion fails. -/
lemma cexAcquire_incomplete {isCutoff : Event D → Bool} (hcut : isCutoff et = false)
    (hcut' : ∀ es, e.notifyingPredecessor = some es → isCutoff es = false) (hw : e.kind = .wait2)
    (hne : m ≠ e.lockPredecessor) (hbad : ∀ y, m = some y → y.kind = .wait1 ∨ y.kind = .lockCreate) :
    ¬ ∃ xs, cexAcquire isCutoff e = some xs ∧ ∀ x, x ∈ xs ↔
      ∃ r, C.FreePosition e r ∧ r ≠ e.lockPredecessor ∧ x = replaceLockPredecessor e r := by
  have hlk := lockHeadKind_of_acquire hk
  rintro ⟨xs, hxs, hmem⟩
  rw [cexAcquire_eq hW hL he hk het hm hcut hcut', if_neg hne, bind_eq_some_iff] at hxs
  obtain ⟨bs, hbs, habove⟩ := hxs
  obtain ⟨as, has, happ⟩ := bind_eq_some_iff.mp habove
  cases m with
  | none => simp [cexBoundary, hw] at hbs
  | some y =>
    rcases hbad y rfl with hy | hy
    · obtain rfl : bs = [] := by simpa [cexBoundary, hw, hy] using hbs.symm
      cases happ
      have hpos : C.FreePosition e (some y) :=
        freePosition_of_isLastOn hW hL he hlk hm fun z hz => by simp [← some.inj hz, freeKinds, hy]
      have hx := (hmem (replaceLockPredecessor e (some y))).mpr ⟨some y, hpos, hne, rfl⟩
      rw [nil_append, mem_of_mapM has] at hx
      obtain ⟨p, hp, halloc⟩ := hx
      have hyp : y < p := ((mem_freeAbove hW hL he hk hm).mp hp).2.2.2 y rfl
      rw [allocAcquire_of_mem_freeAbove hW hL he hk het hm hp fun _ => ⟨y, rfl⟩] at halloc
      have hpreds := congrArg preds (some.inj halloc)
      have hpy : p = y := by simpa [replaceLockPredecessor] using hpreds
      exact hyp.ne hpy.symm
    · simp [cexBoundary, hw, hy] at hbs

end

/-- Complete exactly when the boundary of a wait2 is no wait1 (or the lock was created or never used before). -/
theorem Reachable.cexAcquire_complete_iff {C : Configuration D} (hC : Reachable anyOp C) {e : Event D} (he : e ∈ C)
    (hk : e.kind = .lockAcquire ∨ e.kind = .wait2) {isCutoff : Event D → Bool}
    (hcut : ∀ et, e.threadPredecessor = some et → isCutoff et = false)
    (hcut' : ∀ es, e.notifyingPredecessor = some es → isCutoff es = false) :
    (∃ xs, cexAcquire isCutoff e = some xs ∧ ∀ x, x ∈ xs ↔
        ∃ r, C.FreePosition e r ∧ r ≠ e.lockPredecessor ∧ x = replaceLockPredecessor e r) ↔
      (e.kind = .wait2 → ∀ m, IsLastOn (past e) e.lid m → m ≠ e.lockPredecessor →
        ∃ y, m = some y ∧ y.kind ≠ .wait1 ∧ y.kind ≠ .lockCreate) := by
  have hlk := lockHeadKind_of_acquire hk
  obtain ⟨et, het, -⟩ := threadPred_of_checks (hC.wellFormed.checks he)
    (by rcases hk with hk | hk <;> simp [hk]) (by rcases hk with hk | hk <;> simp [hk])
  have hm := isLastOn_past hC.wellFormed hC.lockOrdered he hlk het rfl
  constructor
  · intro hcomplete hw m' hm' hne
    obtain rfl := isLastOn_past_unique hC.wellFormed hC.lockOrdered he hlk hm' hm
    by_contra hbad
    refine cexAcquire_incomplete hC.wellFormed hC.lockOrdered he hk het hm (hcut et het) hcut' hw hne ?_ hcomplete
    intro y hy
    by_contra h
    rw [not_or] at h
    exact hbad ⟨y, hy, h⟩
  · intro hgood
    exact cexAcquire_complete hC.wellFormed hC.lockOrdered he hk het hm (hcut et het) hcut' fun hw => hgood hw _ hm

/-- The main thread is notified while the lock is free and wakes up after the worker has used the lock. -/
def lateWakeup : List (Op Unit) :=
  [.createThread .main worker, .initThread worker .main, .acquireLock .main 1, .wait1 .main 1 1,
    .signalThread worker 1 .main, .acquireLock worker 1, .releaseLock worker 1 false, .wait2 .main 1 1]

def lateWait2 : Event Unit := ((after lateWakeup).lastOfTid .main).getD programInit

/-- The wait2 could have followed its own wait1, but no conflicting extension is found. -/
theorem cexAcquire_misses_wait1 : Reachable anyOp (after lateWakeup) ∧ lateWait2 ∈ after lateWakeup ∧
    lateWait2.kind = .wait2 ∧ (after lateWakeup).FreePosition lateWait2 lateWait2.threadPredecessor ∧
    lateWait2.threadPredecessor ≠ lateWait2.lockPredecessor ∧ cexAcquire (fun _ => false) lateWait2 = some [] := by
  have hC := reachable_after lateWakeup
  have he : lateWait2 ∈ after lateWakeup := by decide
  have hlk : lateWait2.kind ∈ lockHeadKinds := by decide
  have het : lateWait2.threadPredecessor = some (lateWait2.threadPredecessor.getD programInit) := by decide
  have hm : IsLastOn (past lateWait2) lateWait2.lid lateWait2.threadPredecessor :=
    isLastOn_past hC.wellFormed hC.lockOrdered he hlk het (by decide)
  refine ⟨hC, he, by decide, ?_, by decide, by decide⟩
  refine freePosition_of_isLastOn hC.wellFormed hC.lockOrdered he hlk hm fun x hx => ?_
  cases het.symm.trans hx
  decide

/-- The main thread is notified by the holder of the lock, which both workers have used when it
wakes up. -/
def wokenByHolder : List (Op Unit) :=
  [.createThread .main worker, .initThread worker .main, .createThread .main worker2,
    .initThread worker2 .main, .acquireLock .main 1, .wait1 .main 1 1, .acquireLock worker 1,
    .signalThread worker 1 .main, .releaseLock worker 1 false, .acquireLock worker2 1,
    .releaseLock worker2 1 false, .wait2 .main 1 1]

def heldWait2 : Event Unit := ((after wokenByHolder).lastOfTid .main).getD programInit

/-- The boundary is the worker's acquisition, and the wait2 after its release is found. -/
theorem Reachable.cexAcquire_complete_iff_wokenByHolder : heldWait2.kind = .wait2 ∧
    ∃ xs, cexAcquire (fun _ => false) heldWait2 = some xs ∧ xs ≠ [] ∧ ∀ x, x ∈ xs ↔ ∃ r,
      (after wokenByHolder).FreePosition heldWait2 r ∧ r ≠ heldWait2.lockPredecessor ∧
        x = replaceLockPredecessor heldWait2 r := by
  have hC := reachable_after wokenByHolder
  have he : heldWait2 ∈ after wokenByHolder := by decide +kernel
  have hlk : heldWait2.kind ∈ lockHeadKinds := by decide +kernel
  have het : heldWait2.threadPredecessor = some (heldWait2.threadPredecessor.getD programInit) := by
    decide +kernel
  have hm := isLastOn_past hC.wellFormed hC.lockOrdered he hlk het rfl
  obtain ⟨xs, hxs, hiff⟩ := (Reachable.cexAcquire_complete_iff hC he (by decide +kernel)
    (fun _ _ => rfl) (fun _ _ => rfl)).mpr fun _ m hm' _ => by
      rw [isLastOn_past_unique hC.wellFormed hC.lockOrdered he hlk hm' hm]
      exact ⟨_, Option.eq_some_of_isSome (by decide +kernel), by decide +kernel, by decide +kernel⟩
  refine ⟨by decide +kernel, xs, hxs, ?_, hiff⟩
  rintro rfl
  exact absurd hxs (by decide +kernel)

end Configuration
end Por
