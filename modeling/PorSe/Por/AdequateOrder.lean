import PorSe.Por.EventIds
import PorSe.Por.LocalConfiguration

/-! The order that decides which of two events with the same state is the cutoff. Local
configurations are compared by size, then by their events in a fixed order, then level by
level. -/

namespace Por
open List Option

/-! ## Comparing sequences -/

def lexCompare {α : Type} (comp : α → α → Ordering) : List α → List α → Ordering
  | [], [] => .eq
  | [], _ :: _ => .lt
  | _ :: _, [] => .gt
  | a :: as, b :: bs =>
    match comp a b with
    | .eq => lexCompare comp as bs
    | res => res

def ComparesBy {α β : Type} [LT β] (comp : α → α → Ordering) (key : α → β) (a b : α) : Prop :=
  (comp a b = .lt ↔ key a < key b) ∧ (comp a b = .eq ↔ key a = key b)

lemma lexCompare_comparesBy {α β : Type} [LinearOrder β] {comp : α → α → Ordering} {key : α → β} {as bs : List α}
    (h : ∀ a ∈ as, ∀ b ∈ bs, ComparesBy comp key a b) : ComparesBy (lexCompare comp) (List.map key) as bs := by
  induction as generalizing bs with
  | nil => cases bs <;> simp [ComparesBy, lexCompare]
  | cons a as ih =>
    cases bs with
    | nil => simp [ComparesBy, lexCompare]
    | cons b bs =>
      obtain ⟨hlt, heq⟩ := h a mem_cons_self b mem_cons_self
      obtain ⟨ihlt, iheq⟩ := ih fun x hx y hy => h x (mem_cons_of_mem a hx) y (mem_cons_of_mem b hy)
      simp only [ComparesBy, lexCompare, map_cons, cons_lt_cons_iff, cons.injEq, ← hlt, ← heq, ← ihlt, ← iheq]
      cases comp a b <;> simp

namespace Unfolding
variable {D M : Type} [DecidableEq D]

/-! ## The order on events -/

def compEventTotalOrder (U : Unfolding D M) (a b : Event D) : Ordering :=
  if a = b then .eq
  else if a.kind ≠ b.kind then if a.kind.ctorIdx < b.kind.ctorIdx then .lt else .gt
  else if a.lid ≠ b.lid then if a.lid < b.lid then .lt else .gt
  else if a.cid ≠ b.cid then if a.cid < b.cid then .lt else .gt
  else if a.tid ≠ b.tid then if a.tid < b.tid then .lt else .gt
  else if U.idOf a < U.idOf b then .lt else .gt

def eventKey (U : Unfolding D M) (e : Event D) : ℕ ×ₗ LockId ×ₗ CondId ×ₗ ThreadId ×ₗ ℕ :=
  toLex (e.kind.ctorIdx, toLex (e.lid, toLex (e.cid, toLex (e.tid, U.idOf e))))

lemma kind_eq_of_ctorIdx {k k' : Kind} (h : k.ctorIdx = k'.ctorIdx) : k = k' := by
  cases k <;> cases k' <;> first | rfl | exact absurd h (by decide)

lemma eq_of_eventKey_eq {U : Unfolding D M} {x y : Event D} (hid : x ≠ y → U.idOf x ≠ U.idOf y)
    (h : U.eventKey x = U.eventKey y) : x = y := by
  by_contra hne
  simp only [eventKey, EmbeddingLike.apply_eq_iff_eq, Prod.mk.injEq] at h
  exact hid hne h.2.2.2.2

lemma compEventTotalOrder_comparesBy {U : Unfolding D M} {a b : Event D} (hid : a ≠ b → U.idOf a ≠ U.idOf b) :
    ComparesBy U.compEventTotalOrder U.eventKey a b := by
  by_cases hab : a = b
  · simp [ComparesBy, compEventTotalOrder, hab]
  have hkind : a.kind ≠ b.kind → a.kind.ctorIdx ≠ b.kind.ctorIdx := fun h h' => h (kind_eq_of_ctorIdx h')
  have hkey : U.eventKey a ≠ U.eventKey b := fun h => hab (eq_of_eventKey_eq hid h)
  rw [ComparesBy, compEventTotalOrder]
  constructor
  · simp only [eventKey, Prod.Lex.toLex_lt_toLex]
    split_ifs <;> grind
  · refine iff_of_false ?_ hkey
    split_ifs <;> simp

/-! ## The order on local configurations -/

def parikhVector (U : Unfolding D M) (es : List (Event D)) : List (Event D) :=
  es.insertionSort fun a b => U.compEventTotalOrder a b = .lt

def foataLevels (U : Unfolding D M) : ℕ → Comb D → Option (List (List (Event D)))
  | fuel, C => do
    if ← C.isEmpty then some []
    else
      match fuel with
      | 0 => none
      | fuel + 1 => do
        let level := U.parikhVector (← C.min)
        let rest ← U.foataLevels fuel (← C.removeAll level)
        some (level :: rest)

def foataNormalForm (U : Unfolding D M) (e : Event D) : Option (List (List (Event D))) := do
  let es ← e.localConfiguration
  U.foataLevels es.length (Comb.ofEvents es).sort

/-- `operator<`: the first level that differs decides. -/
def foataLess (U : Unfolding D M) : List (List (Event D)) → List (List (Event D)) → Bool
  | as :: ass, bs :: bss =>
    match lexCompare U.compEventTotalOrder as bs with
    | .eq => U.foataLess ass bss
    | res => res = .lt
  | _, _ => false

def compareAdequateTotalOrder (U : Unfolding D M) (a b : Event D) : Option Bool := do
  let as ← a.localConfiguration
  let bs ← b.localConfiguration
  if as.length = bs.length then
    match lexCompare U.compEventTotalOrder (U.parikhVector as) (U.parikhVector bs) with
    | .eq => some (U.foataLess (← U.foataNormalForm a) (← U.foataNormalForm b))
    | res => some (res = .lt)
  else some (as.length < bs.length)

lemma parikhVector_perm (U : Unfolding D M) (es : List (Event D)) : (U.parikhVector es).Perm es :=
  perm_insertionSort _ es

lemma exists_foataLevels (U : Unfolding D M) {fuel : ℕ} {C : Comb D} (hC : C.Tidy) (hfuel : C.events.length ≤ fuel) :
    ∃ levels, U.foataLevels fuel C = some levels := by
  induction fuel generalizing C with
  | zero =>
    have hnil : C.entries = [] := by
      by_contra hne
      obtain ⟨es, -, hes, hmem⟩ := hC.min_eq_some hne
      obtain ⟨e, _, rfl⟩ := exists_cons_of_ne_nil hes
      have := length_pos_of_mem (hmem e mem_cons_self)
      omega
    exact ⟨[], by simp [foataLevels, hC.isEmpty_eq, hnil]⟩
  | succ fuel ih =>
    by_cases hnil : C.entries = []
    · exact ⟨[], by simp [foataLevels, hC.isEmpty_eq, hnil]⟩
    · obtain ⟨es, hes, hne, hmem⟩ := hC.min_eq_some hnil
      obtain ⟨C', hC', htidy, hperm⟩ := hC.removeAll (U.parikhVector es)
      have hlt : C'.events.length ≤ fuel := by
        have hpv : U.parikhVector es ≠ [] := fun h => hne (List.Perm.nil_eq (h ▸ U.parikhVector_perm es)).symm
        obtain ⟨e, rest, hpv⟩ := exists_cons_of_ne_nil hpv
        have he : e ∈ C.events := hmem e ((U.parikhVector_perm es).mem_iff.mp (hpv ▸ mem_cons_self))
        have hle := ((C.events.erase e).diff_sublist rest).length_le
        rw [hperm.length_eq, hpv, diff_cons]
        rw [length_erase_of_mem he] at hle
        omega
      obtain ⟨levels, hlevels⟩ := ih htidy hlt
      exact ⟨U.parikhVector es :: levels, by simp [foataLevels, hC.isEmpty_eq, hnil, hes, hC', hlevels]⟩

lemma exists_foataNormalForm (U : Unfolding D M) {e : Event D} (he : e.Rooted) :
    ∃ levels, U.foataNormalForm e = some levels := by
  obtain ⟨es, hes, -⟩ := he.localConfig_spec
  rw [foataNormalForm, hes]
  refine U.exists_foataLevels (Comb.tidy_sort_ofEvents es) ?_
  rw [Comb.length_events_sort]
  exact Comb.length_ofEvents_le es

lemma foataLess_self (U : Unfolding D M) (levels : List (List (Event D))) : U.foataLess levels levels = false := by
  have hself : ∀ es : List (Event D), lexCompare U.compEventTotalOrder es es = .eq := by
    intro es
    induction es with
    | nil => rfl
    | cons e es ih => simp [lexCompare, compEventTotalOrder, ih]
  induction levels with
  | nil => rfl
  | cons _ levels ih => rw [foataLess, hself, ih]

/-! ## The order is total and refines inclusion -/

/-- The stored events were explored, and their predecessors are stored. -/
structure Explores (U : Unfolding D M) : Prop where
  explored : ∀ e ∈ U.events, Configuration.Explored e
  closed : ∀ e ∈ U.events, ∀ p ∈ e.preds, p ∈ U.events

lemma Explores.mem_of_le {U : Unfolding D M} (hU : U.Explores) {a e : Event D} (hae : a ≤ e) (he : e ∈ U.events) :
    a ∈ U.events :=
  Event.of_le_of_closed hU.closed hae he

def adequateKey (U : Unfolding D M) (e : Event D) : ℕ ×ₗ List (ℕ ×ₗ LockId ×ₗ CondId ×ₗ ThreadId ×ₗ ℕ) :=
  toLex ((e.localConfiguration.getD []).length, (U.parikhVector (e.localConfiguration.getD [])).map U.eventKey)

section
variable {U : Unfolding D M} (hU : U.Explores)
  (hid : ∀ x ∈ U.events, ∀ y ∈ U.events, x ≠ y → U.idOf x ≠ U.idOf y) {a b : Event D} (ha : a ∈ U.events)
  (hb : b ∈ U.events)
include hU hid ha hb

lemma le_of_map_eventKey_eq {as bs : List (Event D)} (has : ∀ x, x ∈ as ↔ x ≤ a) (hbs : ∀ x, x ∈ bs ↔ x ≤ b)
    (h : (U.parikhVector as).map U.eventKey = (U.parikhVector bs).map U.eventKey) : a ≤ b := by
  have hkey : U.eventKey a ∈ (U.parikhVector bs).map U.eventKey := by
    rw [← h]
    exact mem_map_of_mem ((U.parikhVector_perm as).mem_iff.mpr ((has a).mpr le_rfl))
  obtain ⟨x, hx, hxa⟩ := mem_map.mp hkey
  have hxb := (hbs x).mp ((U.parikhVector_perm bs).mem_iff.mp hx)
  rwa [← eq_of_eventKey_eq (hid x (hU.mem_of_le hxb hb) a ha) hxa]

lemma adequateKey_injective (h : U.adequateKey a = U.adequateKey b) : a = b := by
  obtain ⟨as, has, -, hamem⟩ := (hU.explored a ha).rooted.localConfig_spec
  obtain ⟨bs, hbs, -, hbmem⟩ := (hU.explored b hb).rooted.localConfig_spec
  simp only [adequateKey, has, hbs, EmbeddingLike.apply_eq_iff_eq, Prod.mk.injEq] at h
  exact le_antisymm (le_of_map_eventKey_eq hU hid ha hb hamem hbmem h.2)
    (le_of_map_eventKey_eq hU hid hb ha hbmem hamem h.2.symm)

lemma compareAdequate_eq :
    U.compareAdequateTotalOrder a b = some (decide (U.adequateKey a < U.adequateKey b)) := by
  obtain ⟨as, has, -, hamem⟩ := (hU.explored a ha).rooted.localConfig_spec
  obtain ⟨bs, hbs, -, hbmem⟩ := (hU.explored b hb).rooted.localConfig_spec
  have hcomp : ComparesBy (lexCompare U.compEventTotalOrder) (map U.eventKey) (U.parikhVector as)
      (U.parikhVector bs) := by
    refine lexCompare_comparesBy fun x hx y hy => compEventTotalOrder_comparesBy (hid x ?_ y ?_)
    · exact hU.mem_of_le ((hamem x).mp ((U.parikhVector_perm as).mem_iff.mp hx)) ha
    · exact hU.mem_of_le ((hbmem y).mp ((U.parikhVector_perm bs).mem_iff.mp hy)) hb
  have hlt : U.adequateKey a < U.adequateKey b ↔ as.length < bs.length ∨ as.length = bs.length ∧
      (U.parikhVector as).map U.eventKey < (U.parikhVector bs).map U.eventKey := by
    simp only [adequateKey, has, hbs, getD_some, Prod.Lex.toLex_lt_toLex]
  simp only [compareAdequateTotalOrder, has, hbs, bind_eq_bind, bind_some]
  split_ifs with hsize
  · cases hres : lexCompare U.compEventTotalOrder (U.parikhVector as) (U.parikhVector bs) with
    | lt => simp [hlt, hsize, hcomp.1.mp hres]
    | gt =>
      have : ¬ (U.parikhVector as).map U.eventKey < (U.parikhVector bs).map U.eventKey := by
        rw [← hcomp.1, hres]
        simp
      simp [hlt, hsize, this]
    | eq =>
      obtain rfl : a = b := adequateKey_injective hU hid ha hb (by
        simp only [adequateKey, has, hbs, getD_some, hsize, hcomp.2.mp hres])
      obtain ⟨_, hlevels⟩ := U.exists_foataNormalForm (hU.explored a ha).rooted
      simp [hlevels, foataLess_self]
  · rw [some.injEq, decide_eq_decide, hlt]
    simp [hsize]

omit hid in
lemma adequateKey_lt_of_ssubset (h : Set.Iic a ⊂ Set.Iic b) : U.adequateKey a < U.adequateKey b := by
  obtain ⟨as, has, hand, hamem⟩ := (hU.explored a ha).rooted.localConfig_spec
  obtain ⟨bs, hbs, -, hbmem⟩ := (hU.explored b hb).rooted.localConfig_spec
  obtain ⟨hsub, x, hxb, hxa⟩ := Set.ssubset_iff_exists.mp h
  have hlen : (x :: as).length ≤ bs.length := by
    refine (subperm_of_subset (nodup_cons.mpr ⟨fun hx => hxa ((hamem x).mp hx), hand⟩) ?_).length_le
    intro y hy
    rcases mem_cons.mp hy with rfl | hy
    · exact (hbmem _).mpr hxb
    · exact (hbmem y).mpr (hsub ((hamem y).mp hy))
  simp only [adequateKey, has, hbs, Prod.Lex.toLex_lt_toLex]
  exact .inl hlen

end

/-- On explored events with distinct ids, a strict total order that refines the inclusion of local configurations. -/
theorem Explores.adequate_total_order {U : Unfolding D M} (hU : U.Explores)
    (hid : ∀ x ∈ U.events, ∀ y ∈ U.events, x ≠ y → U.idOf x ≠ U.idOf y) :
    (∀ a ∈ U.events, U.compareAdequateTotalOrder a a = some false) ∧
    (∀ a ∈ U.events, ∀ b ∈ U.events, ∀ c ∈ U.events, U.compareAdequateTotalOrder a b = some true →
      U.compareAdequateTotalOrder b c = some true → U.compareAdequateTotalOrder a c = some true) ∧
    (∀ a ∈ U.events, ∀ b ∈ U.events, a ≠ b →
      U.compareAdequateTotalOrder a b = some true ∧ U.compareAdequateTotalOrder b a = some false ∨
        U.compareAdequateTotalOrder a b = some false ∧ U.compareAdequateTotalOrder b a = some true) ∧
    (∀ a ∈ U.events, ∃ as, a.localConfiguration = some as ∧ ∀ x, x ∈ as ↔ x ∈ Set.Iic a) ∧
    ∀ a ∈ U.events, ∀ b ∈ U.events, Set.Iic a ⊂ Set.Iic b →
      U.compareAdequateTotalOrder a b = some true ∧ U.compareAdequateTotalOrder b a = some false := by
  have htrue : ∀ {a b}, a ∈ U.events → b ∈ U.events →
      (U.compareAdequateTotalOrder a b = some true ↔ U.adequateKey a < U.adequateKey b) := fun ha hb => by
    rw [compareAdequate_eq hU hid ha hb, some.injEq, decide_eq_true_eq]
  have hfalse : ∀ {a b}, a ∈ U.events → b ∈ U.events →
      (U.compareAdequateTotalOrder a b = some false ↔ ¬ U.adequateKey a < U.adequateKey b) := fun ha hb => by
    rw [compareAdequate_eq hU hid ha hb, some.injEq, decide_eq_false_iff_not]
  refine ⟨fun a ha => (hfalse ha ha).mpr (lt_irrefl _), fun a ha b hb c hc hab hbc => ?_, fun a ha b hb hne => ?_,
    fun a ha => ?_, fun a ha b hb h => ?_⟩
  · exact (htrue ha hc).mpr (((htrue ha hb).mp hab).trans ((htrue hb hc).mp hbc))
  · rcases lt_or_gt_of_ne fun h => hne (adequateKey_injective hU hid ha hb h) with h | h
    · exact .inl ⟨(htrue ha hb).mpr h, (hfalse hb ha).mpr h.asymm⟩
    · exact .inr ⟨(hfalse ha hb).mpr h.asymm, (htrue hb ha).mpr h⟩
  · obtain ⟨as, has, -, hmem⟩ := (hU.explored a ha).rooted.localConfig_spec
    exact ⟨as, has, hmem⟩
  · have hlt := adequateKey_lt_of_ssubset hU ha hb h
    exact ⟨(htrue ha hb).mpr hlt, (hfalse hb ha).mpr hlt.asymm⟩

def forkedStore : Unfolding Unit Unit where
  events := Configuration.forked.events
  successors _ := []
  immediateConflicts _ := []
  isCutoff _ := false
  metadata e := ⟨(), SortedMap.empty, e.depth⟩
  size := 4

lemma explores_forkedStore : forkedStore.Explores where
  explored e he := ⟨Configuration.forked, Configuration.reachable_forked, .inl he⟩
  closed := by decide

theorem Explores.adequate_total_order_forkedStore :
    forkedStore.compareAdequateTotalOrder Configuration.forkedCreate Configuration.forkedInit = some true ∧
      forkedStore.compareAdequateTotalOrder Configuration.forkedInit Configuration.forkedCreate = some false := by
  refine (explores_forkedStore.adequate_total_order (by decide)).2.2.2.2 _ (by decide) _ (by decide) ?_
  exact Set.Iic_ssubset_Iic.mpr (Event.lt_of_mem_preds mem_cons_self)

end Unfolding
end Por
