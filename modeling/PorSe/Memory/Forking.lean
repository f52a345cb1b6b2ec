import PorSe.Lib.EpochOwnership
import PorSe.Memory.AddressSpace

/-! The address spaces of a tree of forked states, and that what one of them writes stays
invisible to the others. -/

namespace Klee
open Option Function SortedMap AddressSpace Nat
variable {V : Type}

structure Store (V : Type) where
  spaces : SortedMap ℕ AddressSpace
  heap : Heap V

inductive Action (V : Type)
  | copy (i j : ℕ)
  | destroy (i : ℕ)
  | bindObject (i : ℕ) (mo : MemoryObject) (os : ℕ) (v : V)
  | unbindObject (i : ℕ) (mo : MemoryObject)
  | getWriteable (i : ℕ) (mo : MemoryObject) (fresh : ℕ)
  | update (i : ℕ) (mo : MemoryObject) (v : V) (readOnly : Bool)

def Action.isCopy : Action V → Bool
  | .copy _ _ => true
  | _ => false

namespace Store

def init : Store V := ⟨SortedMap.empty.insert 0 .new, .empty⟩

def isBound (s : Store V) (r : ℕ) : Bool := s.spaces.values.any fun a => a.objects.values.any fun p => p.2 == r

/-- `getWriteable` on a binding; a new object state is placed where no live one is. -/
def getWriteable (s : Store V) (i : ℕ) (mo : MemoryObject) (fresh : ℕ) : Option (ℕ × Store V) := do
  let a ← s.spaces.find? i
  let os ← a.findObject mo
  guard !s.isBound fresh
  let (r, a', heap) ← a.getWriteable s.heap mo os fresh
  some (r, ⟨s.spaces.insert i a', heap⟩)

def step (s : Store V) : Action V → Option (Store V)
  | .copy i j => do
    let b ← s.spaces.find? i
    guard (s.spaces.find? j).isNone
    some { s with spaces := (s.spaces.insert i b.copy.1).insert j b.copy.2 }
  | .destroy i => some { s with spaces := s.spaces.erase i }
  | .bindObject i mo os v => do
    let a ← s.spaces.find? i
    guard !s.isBound os
    let (a', heap) ← a.bindObject (s.heap.insert os (.new v)) mo os
    some ⟨s.spaces.insert i a', heap⟩
  | .unbindObject i mo => do
    let a ← s.spaces.find? i
    some { s with spaces := s.spaces.insert i (a.unbindObject mo) }
  | .getWriteable i mo fresh => (s.getWriteable i mo fresh).map Prod.snd
  -- what is done with an object state that `bindObject` or `getWriteable` made the space's own
  | .update i mo v readOnly => do
    let a ← s.spaces.find? i
    let os ← a.findObject mo
    let o ← s.heap.find? os
    guard (o.copyOnWriteOwner = a.cowKey)
    some { s with heap := s.heap.insert os { o with contents := v, readOnly } }

end Store

/-! ## What the address spaces bind -/

variable (a : AddressSpace)

def AddressSpace.Binds (r : ℕ) : Prop := ∃ address mo, a.objects.find? address = some (mo, r)

def AddressSpace.Separate : Prop :=
  ∀ x y mo mo' r, a.objects.find? x = some (mo, r) → a.objects.find? y = some (mo', r) → x = y

namespace AddressSpace
variable {a : AddressSpace} {mo : MemoryObject} {os r : ℕ}

lemma binds_of_findObject (h : a.findObject mo = some os) : a.Binds os := by
  obtain ⟨p, hp, rfl⟩ := map_eq_some_iff.mp h
  exact ⟨mo.address, p.1, hp⟩

lemma Binds.of_replace (h : (a.replace mo os).Binds r) : a.Binds r ∨ r = os := by
  obtain ⟨address, mo', h⟩ := h
  rw [find?_replace] at h
  split_ifs at h
  · cases h
    exact .inr rfl
  · exact .inl ⟨address, mo', h⟩

lemma Binds.of_unbindObject (h : (a.unbindObject mo).Binds r) : a.Binds r := by
  obtain ⟨address, mo', h⟩ := h
  rw [find?_unbindObject] at h
  split_ifs at h
  exact ⟨address, mo', h⟩

lemma Separate.replace (h : a.Separate) (hr : ¬a.Binds r) : (a.replace mo r).Separate := by
  intro x y mo1 mo2 c hx hy
  rw [find?_replace] at hx hy
  split_ifs at hx hy with h1 h2 h2
  · exact h1.symm.trans h2
  · cases hx
    exact absurd ⟨y, mo2, hy⟩ hr
  · cases hy
    exact absurd ⟨x, mo1, hx⟩ hr
  · exact h x y mo1 mo2 c hx hy

lemma Separate.unbindObject (h : a.Separate) : (a.unbindObject mo).Separate := by
  intro x y mo1 mo2 c hx hy
  rw [find?_unbindObject] at hx hy
  split_ifs at hx hy
  exact h x y mo1 mo2 c hx hy

end AddressSpace

namespace Store
variable {s s' : Store V} {i j r fresh : ℕ} {mo : MemoryObject} {a : AddressSpace}

def Bound (s : Store V) (i r : ℕ) : Prop := ∃ a, s.spaces.find? i = some a ∧ a.Binds r

def key (s : Store V) (i : ℕ) : ℕ := (s.spaces.find? i).elim 0 fun a => a.cowKey.toNat

def owner (s : Store V) (r : ℕ) : ℕ := (s.heap.find? r).elim 0 fun o => o.copyOnWriteOwner.toNat

lemma key_eq (h : s.spaces.find? i = some a) : s.key i = a.cowKey.toNat := by rw [key, h, elim_some]

lemma owner_eq {o : ObjectState V} (h : s.heap.find? r = some o) : s.owner r = o.copyOnWriteOwner.toNat := by
  rw [owner, h, elim_some]

lemma not_bound_of_isBound (h : s.isBound r = false) (j : ℕ) : ¬s.Bound j r := by
  rintro ⟨a, ha, address, mo, hmo⟩
  have hbound : s.isBound r = true := by
    refine List.any_eq_true.mpr ⟨a, mem_values_iff.mpr ⟨j, ha⟩, ?_⟩
    exact List.any_eq_true.mpr ⟨(mo, r), mem_values_iff.mpr ⟨address, hmo⟩, beq_self_eq_true r⟩
  exact absurd hbound (by rw [h]; exact Bool.false_ne_true)

lemma bound_insert {heap : Heap V} (h : (Store.mk (s.spaces.insert i a) heap).Bound j r) :
    j = i ∧ a.Binds r ∨ s.Bound j r := by
  obtain ⟨b, hb, hr⟩ := h
  rw [find?_insert] at hb
  split_ifs at hb with hij
  · cases hb
    exact .inl ⟨hij.symm, hr⟩
  · exact .inr ⟨b, hb, hr⟩

lemma getWriteable_spec (h : s.getWriteable i mo fresh = some (r, s')) :
    ∃ a os o, s.spaces.find? i = some a ∧ a.findObject mo = some os ∧ s.heap.find? os = some o ∧
      (o.copyOnWriteOwner = a.cowKey ∧ r = os ∧ s' = s ∨ s.isBound fresh = false ∧ r = fresh ∧
          s' = ⟨s.spaces.insert i (a.replace mo fresh), s.heap.insert fresh ⟨a.cowKey, o.readOnly, o.contents⟩⟩) := by
  simp only [getWriteable, bind_eq_bind, bind_eq_some_iff, guard_eq_some', Bool.not_eq_true'] at h
  obtain ⟨a, ha, os, hos, -, hfresh, ⟨r', a', _⟩, hw, h⟩ := h
  cases h
  obtain ⟨o, ho, hwrite, ⟨howner, rfl, rfl, rfl⟩ | ⟨-, rfl, rfl, rfl⟩⟩ := getWriteable_spec hw
  · refine ⟨_, _, o, ha, hos, ho, .inl ⟨howner, rfl, ?_⟩⟩
    rw [insert_eq_self ha]
  · exact ⟨a, os, o, ha, hos, ho, .inr ⟨hfresh, rfl, by rw [hwrite]⟩⟩

lemma bindObject_spec {os : ℕ} {v : V} (h : s.step (.bindObject i mo os v) = some s') :
    ∃ a, s.spaces.find? i = some a ∧ s.isBound os = false ∧
      s' = ⟨s.spaces.insert i (a.replace mo os), s.heap.insert os ⟨a.cowKey, false, v⟩⟩ := by
  simp only [step, bind_eq_bind, bind_eq_some_iff, guard_eq_some', Bool.not_eq_true'] at h
  obtain ⟨a, ha, -, hfresh, ⟨a', _⟩, hb, h⟩ := h
  cases h
  obtain ⟨o, ho, -, rfl, rfl⟩ := bindObject_spec hb
  rw [find?_insert_self] at ho
  cases ho
  rw [insert_insert]
  exact ⟨a, ha, hfresh, rfl⟩

lemma update_spec {v : V} {ro : Bool} (h : s.step (.update i mo v ro) = some s') :
    ∃ a os o, s.spaces.find? i = some a ∧ a.findObject mo = some os ∧ s.heap.find? os = some o ∧
      o.copyOnWriteOwner = a.cowKey ∧ s' = { s with heap := s.heap.insert os ⟨o.copyOnWriteOwner, ro, v⟩ } := by
  simp only [step, bind_eq_bind, bind_eq_some_iff, guard_eq_some', some.injEq] at h
  obtain ⟨a, ha, os, hos, o, ho, -, howner, rfl⟩ := h
  exact ⟨a, os, o, ha, hos, ho, howner, rfl⟩

lemma copy_spec (h : s.step (.copy i j) = some s') : ∃ b, s.spaces.find? i = some b ∧ s.spaces.find? j = none ∧
      s' = { s with spaces := (s.spaces.insert i b.copy.1).insert j b.copy.2 } := by
  simp only [step, bind_eq_bind, bind_eq_some_iff, guard_eq_some', isNone_iff_eq_none, some.injEq] at h
  obtain ⟨b, hb, -, hj, rfl⟩ := h
  exact ⟨b, hb, hj, rfl⟩

/-! ## The invariant -/

structure Invariant (s : Store V) (n : ℕ) : Prop where
  exclusive : Exclusive s.Bound s.key s.owner
  separate : ∀ i a, s.spaces.find? i = some a → a.Separate
  allocated : ∀ i r, s.Bound i r → ∃ o, s.heap.find? r = some o
  key_le : ∀ i, s.key i ≤ n + 1

namespace Invariant
variable {n : ℕ}

lemma init : (init : Store V).Invariant 0 := by
  have hempty : ∀ i r, ¬(Store.init : Store V).Bound i r := by
    rintro i r ⟨a, ha, _, mo, hmo⟩
    rw [Store.init, find?_insert] at ha
    split_ifs at ha
    · cases ha
      cases hmo
    · cases ha
  refine ⟨⟨fun i r h => (hempty i r h).elim, fun i _ r _ h => (hempty i r h).elim⟩, ?_,
    fun i r h => (hempty i r h).elim, ?_⟩
  · intro i a ha x _ mo _ r hx
    exact (hempty i r ⟨a, ha, x, mo, hx⟩).elim
  intro i
  rw [key, Store.init, find?_insert]
  split_ifs
  · exact le_refl 1
  · exact zero_le 1

section
variable (h : s.Invariant n)
include h

lemma separate_insert (ha : a.Separate) (j : ℕ) (b : AddressSpace)
    (hb : (s.spaces.insert i a).find? j = some b) : b.Separate := by
  rw [find?_insert] at hb
  split_ifs at hb
  · cases hb
    exact ha
  · exact h.separate j b hb

lemma replace (ha : s.spaces.find? i = some a) (hr : ∀ j, ¬s.Bound j r) {o : ObjectState V}
    (ho : o.copyOnWriteOwner = a.cowKey) :
    (Store.mk (s.spaces.insert i (a.replace mo r)) (s.heap.insert r o)).Invariant n := by
  have hkey : (Store.mk (s.spaces.insert i (a.replace mo r)) (s.heap.insert r o)).key = s.key := by
    funext j
    by_cases hij : i = j
    · subst hij
      rw [key_eq ha, key_eq (find?_insert_self _ _ _), replace_cowKey]
    · rw [key, find?_insert_ne _ _ hij, key]
  have hbound : ∀ j c, (Store.mk (s.spaces.insert i (a.replace mo r)) (s.heap.insert r o)).Bound j c →
      s.Bound j c ∨ j = i ∧ c = r := by
    intro j c hc
    obtain ⟨rfl, hnew⟩ | hold := bound_insert hc
    · exact hnew.of_replace.imp (fun hc => ⟨a, ha, hc⟩) fun hc => ⟨rfl, hc⟩
    · exact .inl hold
  refine ⟨?_, ?_, ?_, fun j => hkey ▸ h.key_le j⟩
  · rw [hkey]
    refine h.exclusive.bind hr hbound ?_ ?_
    · rw [owner_eq (find?_insert_self _ _ _), ho, key_eq ha]
    · intro c hc
      rw [owner, find?_insert_ne _ _ (Ne.symm hc), owner]
  · apply h.separate_insert
    exact (h.separate i a ha).replace fun hc => hr i ⟨a, ha, hc⟩
  · intro j c hc
    by_cases hcr : r = c
    · subst hcr
      exact ⟨o, find?_insert_self _ _ _⟩
    · obtain hc | ⟨-, rfl⟩ := hbound j c hc
      · rw [find?_insert_ne _ _ hcr]
        exact h.allocated j c hc
      · exact absurd rfl hcr

lemma mono (hheap : s'.heap = s.heap) (hbound : ∀ j c, s'.Bound j c → s.Bound j c)
    (hseparate : ∀ j b, s'.spaces.find? j = some b → b.Separate)
    (hkey : ∀ j, s'.key j = s.key j ∨ s'.key j = 0 ∧ ∀ c, ¬s'.Bound j c) : s'.Invariant n := by
  have howner : s'.owner = s.owner := by
    funext c
    rw [owner, owner, hheap]
  refine ⟨?_, hseparate, fun j c hc => hheap ▸ h.allocated j c (hbound j c hc), ?_⟩
  · rw [howner]
    refine h.exclusive.mono hbound fun j c hc => ?_
    obtain hj | ⟨-, hj⟩ := hkey j
    · exact hj.ge
    · exact absurd hc (hj c)
  · intro j
    obtain hj | ⟨hj, -⟩ := hkey j
    · exact hj.trans_le (h.key_le j)
    · exact hj.trans_le (zero_le _)

/-- The bound keeps the new key from wrapping around to zero. -/
lemma copy (hn : n + 2 < 2 ^ 32) (hstep : s.step (.copy i j) = some s') : s'.Invariant (n + 1) := by
  obtain ⟨b, hb, hj, rfl⟩ := copy_spec hstep
  have hij : j ≠ i := by
    rintro rfl
    rw [hb] at hj
    cases hj
  have hnext : (b.cowKey + 1).toNat = s.key i + 1 := by
    have hle := h.key_le i
    rw [key_eq hb] at hle ⊢
    rw [BitVec.toNat_add, mod_eq_of_lt]
    · rfl
    · exact Nat.lt_of_le_of_lt (Nat.add_le_add_right hle 1) hn
  set t : Store V := { s with spaces := (s.spaces.insert i b.copy.1).insert j b.copy.2 } with ht
  have hkeyj : t.key j = s.key i + 1 := (key_eq (find?_insert_self _ _ _)).trans hnext
  have hkeyi : t.key i = s.key i + 1 := by
    refine (key_eq (a := b.copy.1) ?_).trans hnext
    rw [find?_insert_ne _ _ hij, find?_insert_self]
  have hkey : ∀ k, k ≠ i → k ≠ j → t.key k = s.key k := by
    intro k hki hkj
    rw [key, find?_insert_ne _ _ (Ne.symm hkj), find?_insert_ne _ _ (Ne.symm hki), key]
  have hbound : ∀ k c, t.Bound k c → s.Bound k c ∨ k = j ∧ s.Bound i c := by
    intro k c hc
    obtain ⟨rfl, hnew⟩ | hold := bound_insert (s := { s with spaces := s.spaces.insert i b.copy.1 }) hc
    · exact .inr ⟨rfl, b, hb, hnew⟩
    · obtain ⟨rfl, hnew⟩ | hold := bound_insert hold
      · exact .inl ⟨b, hb, hnew⟩
      · exact .inl hold
  refine ⟨?_, ?_, ?_, ?_⟩
  · refine h.exclusive.fork ?_ hbound (hkeyi ▸ lt_succ_self _) (hkeyj ▸ lt_succ_self _) ?_
    · rintro c ⟨a, ha, -⟩
      rw [hj] at ha
      cases ha
    · intro k hkj
      by_cases hki : k = i
      · subst hki
        exact hkeyi ▸ le_succ _
      · exact (hkey k hki hkj).ge
  · intro k d hd
    have hcopy : b.copy.1.Separate := h.separate i b hb
    rw [find?_insert] at hd
    split_ifs at hd
    · cases hd
      exact hcopy
    · exact h.separate_insert hcopy k d hd
  · intro k c hc
    obtain hc | ⟨-, hc⟩ := hbound k c hc
    · exact h.allocated k c hc
    · exact h.allocated i c hc
  · intro k
    by_cases hkj : k = j
    · exact hkj ▸ hkeyj.trans_le (succ_le_succ (h.key_le i))
    by_cases hki : k = i
    · exact hki ▸ hkeyi.trans_le (succ_le_succ (h.key_le i))
    · exact (hkey k hki hkj).trans_le ((h.key_le k).trans (le_succ _))

lemma unbindObject (ha : s.spaces.find? i = some a) :
    (Store.mk (s.spaces.insert i (a.unbindObject mo)) s.heap).Invariant n := by
  refine h.mono rfl ?_ (h.separate_insert (h.separate i a ha).unbindObject) fun j => .inl ?_
  · intro j c hc
    obtain ⟨rfl, hnew⟩ | hold := bound_insert hc
    · exact ⟨a, ha, hnew.of_unbindObject⟩
    · exact hold
  · by_cases hij : i = j
    · subst hij
      rw [key_eq ha, key_eq (find?_insert_self _ _ _), unbindObject_cowKey]
    · rw [key, find?_insert_ne _ _ hij, key]

lemma destroy (i : ℕ) : (Store.mk (s.spaces.erase i) s.heap).Invariant n := by
  have hfind : ∀ j, (s.spaces.erase i).find? j = if i = j then none else s.spaces.find? j := find?_erase _ _
  refine h.mono rfl ?_ ?_ ?_
  · rintro j c ⟨b, hb, hc⟩
    rw [hfind] at hb
    split_ifs at hb
    exact ⟨b, hb, hc⟩
  · intro j b hb
    rw [hfind] at hb
    split_ifs at hb
    exact h.separate j b hb
  · intro j
    by_cases hij : i = j
    · refine .inr ⟨?_, ?_⟩
      · rw [key, hfind, if_pos hij, elim_none]
      · rintro c ⟨b, hb, -⟩
        rw [hfind, if_pos hij] at hb
        cases hb
    · rw [key, hfind, if_neg hij]
      exact .inl rfl

lemma update {o : ObjectState V} (ho : s.heap.find? r = some o) (v : V) (ro : Bool) :
    ({ s with heap := s.heap.insert r ⟨o.copyOnWriteOwner, ro, v⟩ } : Store V).Invariant n := by
  have howner : ({ s with heap := s.heap.insert r ⟨o.copyOnWriteOwner, ro, v⟩ } : Store V).owner = s.owner := by
    funext c
    by_cases hrc : r = c
    · subst hrc
      rw [owner_eq ho, owner_eq (find?_insert_self _ _ _)]
    · rw [owner, find?_insert_ne _ _ hrc, owner]
  refine ⟨?_, h.separate, ?_, h.key_le⟩
  · rw [howner]
    exact h.exclusive
  · intro i c hc
    by_cases hrc : r = c
    · exact hrc ▸ ⟨_, find?_insert_self _ _ _⟩
    · rw [find?_insert_ne _ _ hrc]
      exact h.allocated i c hc

lemma step {act : Action V} (hn : n + 1 + (if act.isCopy then 1 else 0) < 2 ^ 32)
    (hstep : s.step act = some s') : s'.Invariant (n + if act.isCopy then 1 else 0) := by
  cases act with
  | copy i j => exact h.copy hn hstep
  | destroy i =>
    cases hstep
    exact h.destroy i
  | bindObject i mo os v =>
    obtain ⟨a, ha, hfresh, rfl⟩ := bindObject_spec hstep
    exact h.replace ha (not_bound_of_isBound hfresh) rfl
  | unbindObject i mo =>
    obtain ⟨a, ha, hs⟩ := bind_eq_some_iff.mp hstep
    cases hs
    exact h.unbindObject ha
  | getWriteable i mo _ =>
    obtain ⟨⟨r, t⟩, hw, rfl⟩ := map_eq_some_iff.mp hstep
    obtain ⟨a, os, o, ha, -, -, ⟨-, -, rfl⟩ | ⟨hfresh, rfl, rfl⟩⟩ := getWriteable_spec hw
    · exact h
    · exact h.replace ha (not_bound_of_isBound hfresh) rfl
  | update i mo v ro =>
    obtain ⟨a, os, o, -, -, ho, -, rfl⟩ := update_spec hstep
    exact h.update ho v ro

end

lemma run : ∀ {acts : List (Action V)} {s : Store V} {n : ℕ}, s.Invariant n →
    n + 1 + acts.countP Action.isCopy < 2 ^ 32 → acts.foldlM Store.step s = some s' →
    s'.Invariant (n + acts.countP Action.isCopy)
  | [], _, _, h, _, hrun => by
    cases hrun
    exact h
  | act :: acts, s, n, h, hn, hrun => by
    rw [List.countP_cons] at hn ⊢
    obtain ⟨t, hstep, hrun⟩ := bind_eq_some_iff.mp hrun
    have ht := h.step (by omega) hstep
    have hs := run ht (by omega) hrun
    rwa [add_assoc, add_comm _ (acts.countP _)] at hs

end Invariant

end Store

/-! ## What is seen through an address space -/

def AddressSpace.view (heap : Heap V) (address : ℕ) : Option (V × Bool) :=
  (a.objects.find? address).bind fun p => (heap.find? p.2).map fun o => (o.contents, o.readOnly)

def Store.view (s : Store V) (i : ℕ) : Option (ℕ → Option (V × Bool)) := (s.spaces.find? i).map (·.view s.heap)

def Action.apply (act : Action V) (memory : ℕ → Option (ℕ → Option (V × Bool))) : ℕ → Option (ℕ → Option (V × Bool)) :=
  match act with
  | .copy i j => Function.update memory j (memory i)
  | .destroy i => Function.update memory i none
  | .bindObject i mo _ v =>
    Function.update memory i ((memory i).map fun m => Function.update m mo.address (some (v, false)))
  | .unbindObject i mo => Function.update memory i ((memory i).map fun m => Function.update m mo.address none)
  | .getWriteable _ _ _ => memory
  | .update i mo v readOnly =>
    Function.update memory i ((memory i).map fun m => Function.update m mo.address (some (v, readOnly)))

namespace AddressSpace
variable {a : AddressSpace} {heap heap' : Heap V} {mo : MemoryObject} {r : ℕ}

lemma view_congr (h : ∀ r, a.Binds r → heap'.find? r = heap.find? r) : a.view heap' = a.view heap := by
  funext address
  apply Option.bind_congr
  rintro ⟨mo, r⟩ hr
  rw [h r ⟨address, mo, hr⟩]

lemma view_replace (heap : Heap V) (o : ObjectState V) (hr : ¬a.Binds r) : (a.replace mo r).view (heap.insert r o) =
      update (a.view heap) mo.address (some (o.contents, o.readOnly)) := by
  have hheap : a.view (heap.insert r o) = a.view heap :=
    view_congr fun c hc => find?_insert_ne _ _ fun h => hr (h ▸ hc)
  funext address
  rw [view, find?_replace, update_apply]
  split_ifs with h1 h2 h2
  · rw [bind_some, find?_insert_self, map_some]
  · exact absurd h1.symm h2
  · exact absurd h2.symm h1
  · exact congrFun hheap address

lemma view_unbindObject (heap : Heap V) : (a.unbindObject mo).view heap = update (a.view heap) mo.address none := by
  funext address
  rw [view, find?_unbindObject, update_apply]
  split_ifs with h1 h2 h2
  · rfl
  · exact absurd h1.symm h2
  · exact absurd h2.symm h1
  · rfl

lemma view_update {o : ObjectState V} (h : a.Separate) (hfound : a.findObject mo = some r) :
    a.view (heap.insert r o) = update (a.view heap) mo.address (some (o.contents, o.readOnly)) := by
  obtain ⟨⟨mo', r⟩, hmo, rfl⟩ := map_eq_some_iff.mp hfound
  funext address
  rw [update_apply]
  split_ifs with haddress
  · rw [haddress, view, hmo, bind_some, find?_insert_self, map_some]
  · -- another address has another object state
    rw [view, view]
    cases hfind : a.objects.find? address with
    | none => rfl
    | some p =>
      have hne : r ≠ p.2 := fun hp => haddress (h address mo.address p.1 mo' r (hp ▸ hfind) hmo)
      rw [bind_some, bind_some, find?_insert_ne _ _ hne]

end AddressSpace

namespace Store
variable {s s' : Store V} {i j r fresh n : ℕ} {mo : MemoryObject} {a : AddressSpace}

lemma view_eq (h : s.spaces.find? i = some a) : s.view i = some (a.view s.heap) := by
  rw [view, h, map_some]

lemma view_insert {heap : Heap V} (hheap : ∀ j c, j ≠ i → s.Bound j c → heap.find? c = s.heap.find? c) :
    (Store.mk (s.spaces.insert i a) heap).view = update s.view i (some (a.view heap)) := by
  funext j
  rw [update_apply]
  split_ifs with hij
  · rw [hij, view_eq (find?_insert_self _ _ _)]
  · rw [view, find?_insert_ne _ _ (Ne.symm hij)]
    refine map_congr fun b hb => ?_
    exact view_congr fun c hc => hheap j c hij ⟨b, hb, hc⟩

lemma view_replace (hr : ∀ j, ¬s.Bound j r) (ha : s.spaces.find? i = some a) (o : ObjectState V) :
    (Store.mk (s.spaces.insert i (a.replace mo r)) (s.heap.insert r o)).view = update s.view i
        ((s.view i).map fun m => update m mo.address (some (o.contents, o.readOnly))) := by
  rw [view_insert, view_eq ha, AddressSpace.view_replace _ _ fun hc => hr i ⟨a, ha, hc⟩, map_some]
  intro j c _ hc
  exact find?_insert_ne _ _ fun h => hr j (h ▸ hc)

lemma view_getWriteable (hw : s.getWriteable i mo fresh = some (r, s')) : s'.view = s.view := by
  obtain ⟨a, os, o, ha, hos, ho, ⟨-, -, rfl⟩ | ⟨hfresh, rfl, rfl⟩⟩ := getWriteable_spec hw
  · rfl
  · obtain ⟨p, hp, rfl⟩ := map_eq_some_iff.mp hos
    rw [view_replace (not_bound_of_isBound hfresh) ha, view_eq ha, map_some]
    have hsame : a.view s.heap mo.address = some (o.contents, o.readOnly) := by
      rw [AddressSpace.view, hp, bind_some, ho, map_some]
    rw [← hsame, update_eq_self, ← view_eq ha, update_eq_self]

lemma Invariant.view_step (h : s.Invariant n) {act : Action V} (hstep : s.step act = some s') :
    s'.view = act.apply s.view := by
  cases act with
  | copy i j =>
    obtain ⟨b, hb, -, rfl⟩ := copy_spec hstep
    rw [view_insert (s := { s with spaces := s.spaces.insert i b.copy.1 }) fun _ _ _ _ => rfl,
      view_insert fun _ _ _ _ => rfl]
    have hsame : some (b.copy.1.view s.heap) = s.view i := (view_eq hb).symm
    rw [hsame, update_eq_self, Action.apply, view_eq hb]
    rfl
  | destroy i =>
    cases hstep
    funext j
    rw [view, find?_erase, Action.apply, update_apply]
    split_ifs with h1 h2 h2
    · rfl
    · exact absurd h1.symm h2
    · exact absurd h2.symm h1
    · rfl
  | bindObject i mo os v =>
    obtain ⟨a, ha, hfresh, rfl⟩ := bindObject_spec hstep
    exact view_replace (not_bound_of_isBound hfresh) ha _
  | unbindObject i mo =>
    obtain ⟨a, ha, hs⟩ := bind_eq_some_iff.mp hstep
    cases hs
    rw [view_insert fun _ _ _ _ => rfl, view_unbindObject, Action.apply, view_eq ha, map_some]
  | getWriteable i mo _ =>
    obtain ⟨⟨r, t⟩, hw, rfl⟩ := map_eq_some_iff.mp hstep
    exact view_getWriteable hw
  | update i mo v ro =>
    obtain ⟨a, os, o, ha, hos, ho, howner, rfl⟩ := update_spec hstep
    have hown : s.owner os = s.key i := by rw [owner_eq ho, key_eq ha, howner]
    have hbound : s.Bound i os := ⟨a, ha, binds_of_findObject hos⟩
    have hother : ∀ j c, j ≠ i → s.Bound j c →
        (s.heap.insert os ⟨o.copyOnWriteOwner, ro, v⟩).find? c = s.heap.find? c := by
      intro j c hji hc
      refine find?_insert_ne _ _ fun hoc => hji ?_
      exact h.exclusive.eq_of_bound hbound hown (hoc ▸ hc)
    have hview := view_insert (a := a) hother
    rw [insert_eq_self ha, view_update (h.separate i a ha) hos] at hview
    rw [Action.apply, view_eq ha]
    exact hview

lemma Invariant.view_run : ∀ {acts : List (Action V)} {s : Store V} {n : ℕ}, s.Invariant n →
    n + 1 + acts.countP Action.isCopy < 2 ^ 32 → acts.foldlM Store.step s = some s' →
    s'.view = acts.foldl (fun memory act => act.apply memory) s.view
  | [], _, _, _, _, hrun => by
    cases hrun
    rfl
  | act :: acts, s, n, h, hn, hrun => by
    rw [List.countP_cons] at hn
    obtain ⟨t, hstep, hrun⟩ := bind_eq_some_iff.mp hrun
    have ht := h.step (by omega) hstep
    rw [List.foldl_cons, ← h.view_step hstep]
    exact view_run ht (by omega) hrun

lemma Invariant.owner_le_cowKey (h : s.Invariant n) (ha : s.spaces.find? i = some a) (hr : a.Binds r) :
    ∃ o, s.heap.find? r = some o ∧ o.copyOnWriteOwner ≤ a.cowKey := by
  obtain ⟨o, ho⟩ := h.allocated i r ⟨a, ha, hr⟩
  have hle := h.exclusive.owner_le i r ⟨a, ha, hr⟩
  rw [owner_eq ho, key_eq ha] at hle
  exact ⟨o, ho, hle⟩

lemma Invariant.eq_of_getWriteable (h : s.Invariant n) (hw : s.getWriteable i mo fresh = some (r, s'))
    (hj : s'.Bound j r) : j = i := by
  obtain ⟨a, os, o, ha, hos, ho, ⟨howner, rfl, rfl⟩ | ⟨hfresh, rfl, rfl⟩⟩ := getWriteable_spec hw
  · refine h.exclusive.eq_of_bound ⟨a, ha, binds_of_findObject hos⟩ ?_ hj
    rw [owner_eq ho, key_eq ha, howner]
  · obtain ⟨hji, -⟩ | hj := bound_insert hj
    · exact hji
    · exact absurd hj (not_bound_of_isBound hfresh j)

theorem getWriteable_isolated (acts : List (Action V)) (hcopies : acts.countP Action.isCopy < 2 ^ 32 - 1)
    (hrun : acts.foldlM step init = some s) :
    (∀ i a, s.spaces.find? i = some a → ∀ r, a.Binds r → ∃ o, s.heap.find? r = some o ∧ o.copyOnWriteOwner ≤ a.cowKey) ∧
    ∀ i mo fresh r s', s.getWriteable i mo fresh = some (r, s') →
      s'.Bound i r ∧ (∀ j, s'.Bound j r → j = i) ∧ s'.view = s.view := by
  have h := Invariant.init.run (by omega) hrun
  refine ⟨fun i a ha r hr => h.owner_le_cowKey ha hr, fun i mo fresh r s' hw => ⟨?_, ?_, view_getWriteable hw⟩⟩
  · obtain ⟨a, os, o, ha, hos, -, ⟨-, rfl, rfl⟩ | ⟨-, rfl, rfl⟩⟩ := getWriteable_spec hw
    · exact ⟨a, ha, binds_of_findObject hos⟩
    · refine ⟨_, find?_insert_self _ _ _, mo.address, mo, ?_⟩
      rw [find?_replace, if_pos rfl]
  · exact fun j hj => h.eq_of_getWriteable hw hj

theorem getWriteable_isolated_fork : ∃ s s' : Store ℕ,
      [Action.bindObject 0 ⟨0, 16, 4⟩ 0 10, .copy 0 1].foldlM step init = some s ∧
      s.getWriteable 1 ⟨0, 16, 4⟩ 1 = some (1, s') ∧ s.Bound 1 0 ∧ s'.Bound 1 1 ∧
        (∀ j, s'.Bound j 1 → j = 1) ∧ s'.view = s.view := by
  refine ⟨_, _, rfl, rfl, ⟨_, rfl, 16, _, rfl⟩, ?_⟩
  exact (getWriteable_isolated [Action.bindObject 0 ⟨0, 16, 4⟩ 0 10, .copy 0 1] (by decide) rfl).2 1
    ⟨0, 16, 4⟩ 1 1 _ rfl

/-- Copies that share object states until one is written behave as memories of their own. -/
theorem copies_as_memories (acts : List (Action V)) (hcopies : acts.countP Action.isCopy < 2 ^ 32 - 1)
    (hrun : acts.foldlM step init = some s) : s.view = acts.foldl (fun memory act => act.apply memory) init.view :=
  Invariant.init.view_run (by omega) hrun

theorem copies_as_memories_written : ∃ s : Store ℕ,
    (s.view 0).bind (· 16) = some (10, false) ∧ (s.view 1).bind (· 16) = some (20, false) := by
  have h := copies_as_memories [Action.bindObject 0 ⟨0, 16, 4⟩ 0 10, .copy 0 1, .getWriteable 1 ⟨0, 16, 4⟩ 1,
    .update 1 ⟨0, 16, 4⟩ 20 false] (by decide) rfl
  exact ⟨_, by rw [h]; rfl, by rw [h]; rfl⟩

end Store

end Klee
