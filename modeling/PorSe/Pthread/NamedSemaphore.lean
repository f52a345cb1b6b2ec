import PorSe.Pthread.Semaphore

/-! The named semaphores of `runtime/POSIX/pthread/semaphore.c`. The functions hold the lock of the list, so that
they run one after the other. -/

namespace Pthread.NamedSemaphore
open List Function
open Semaphore (semValueMax)
variable {A N : Type*}

/-- The semaphore, its first value and the address of its name. The last field remembers the string there. -/
structure Sem (A N : Type*) where
  id : ℕ
  value : ℕ
  name : A
  created : N

structure State (A N : Type*) where
  memory : A → N
  openSemaphores : List (Sem A N)
  next : ℕ

inductive Errno
  | EEXIST
  | ENOENT
  | EINVAL
  deriving DecidableEq

section
variable [DecidableEq A] [DecidableEq N] (s : State A N)

variable (name : A)

def found (x : Sem A N) : Bool := !(decide (name ≠ x.name) || decide (s.memory name ≠ s.memory x.name))

def findSemByName : Option (Sem A N) := s.openSemaphores.find? (found s name)

def semOpen (createSet exclSet : Bool) (value : ℕ) : State A N × Except Errno (Sem A N) :=
  match findSemByName s name with
  | some sem => (s, if createSet && exclSet then .error .EEXIST else .ok sem)
  | none =>
    if !createSet then (s, .error .ENOENT)
    else if value > semValueMax then (s, .error .EINVAL)
    else
      let sem : Sem A N := ⟨s.next, value, name, s.memory name⟩
      ({ s with openSemaphores := s.openSemaphores ++ [sem], next := s.next + 1 }, .ok sem)

def semUnlink : State A N × Option Errno :=
  match findSemByName s name with
  | some _ => ({ s with openSemaphores := s.openSemaphores.eraseP (found s name) }, none)
  | none => (s, some .ENOENT)

def semClose (sem : Sem A N) : State A N × Option Errno := semUnlink s sem.name

end

inductive Call (A N : Type*)
  | open (name : A) (createSet exclSet : Bool) (value : ℕ)
  | close (sem : Sem A N)
  | unlink (name : A)
  /-- The program stores a string. -/
  | store (a : A) (n : N)

/-- With the semaphore that each name stands for: that of the last successful `sem_open`, until `sem_unlink`. -/
structure World (A N : Type*) where
  state : State A N
  linked : N → Option ℕ

section
variable [DecidableEq A] [DecidableEq N]

def step (w : World A N) : Call A N → World A N
  | .open name createSet exclSet value =>
    let r := semOpen w.state name createSet exclSet value
    match r.2 with
    | .ok sem => ⟨r.1, update w.linked (w.state.memory name) (some sem.id)⟩
    | .error _ => ⟨r.1, w.linked⟩
  | .close sem => ⟨(semClose w.state sem).1, w.linked⟩
  | .unlink name => ⟨(semUnlink w.state name).1, update w.linked (w.state.memory name) none⟩
  | .store a n => ⟨{ w.state with memory := update w.state.memory a n }, w.linked⟩

end

def initial (memory : A → N) : World A N := ⟨⟨memory, [], 0⟩, fun _ => none⟩

/-! ## Names and addresses -/

/-- A semaphore in the list has the address exactly if it was created under the string there. -/
def Agrees (w : World A N) (name : A) : Prop :=
  ∀ x ∈ w.state.openSemaphores, name = x.name ↔ w.state.memory name = x.created

/-- Addresses agree with strings, no semaphore whose name is in use is closed, and first values are in range. -/
def Allowed (w : World A N) : Call A N → Prop
  | .open name createSet _ value => Agrees w name ∧ (createSet = true → value ≤ semValueMax)
  | .close sem => ∀ x ∈ w.state.openSemaphores, sem.name ≠ x.name
  | .unlink name => Agrees w name
  | .store _ _ => True

inductive Reaches [DecidableEq A] [DecidableEq N] (P : World A N → Call A N → Prop) (w₀ : World A N) : World A N → Prop
  | refl : Reaches P w₀ w₀
  | step {w : World A N} {c : Call A N} : Reaches P w₀ w → Allowed w c → P w c → Reaches P w₀ (step w c)

structure Invariant (w : World A N) : Prop where
  created : (w.state.openSemaphores.map Sem.created).Nodup
  ids : (w.state.openSemaphores.map Sem.id).Nodup
  id_lt : ∀ x ∈ w.state.openSemaphores, x.id < w.state.next
  linked : ∀ n k, w.linked n = some k ↔ ∃ x ∈ w.state.openSemaphores, x.created = n ∧ x.id = k

variable {w : World A N} {name : A}

lemma invariant_initial (memory : A → N) : Invariant (initial memory) :=
  ⟨nodup_nil, nodup_nil, fun _ hx => absurd hx not_mem_nil, fun _ _ => ⟨nofun, fun ⟨_, hx, _⟩ => absurd hx not_mem_nil⟩⟩

variable [DecidableEq A] [DecidableEq N]

lemma found_iff (hagrees : Agrees w name) {x : Sem A N} (hx : x ∈ w.state.openSemaphores) :
    found w.state name x = true ↔ x.created = w.state.memory name := by
  rw [found, Bool.not_eq_true', Bool.or_eq_false_iff, decide_eq_false_iff_not, not_not,
    decide_eq_false_iff_not, not_not,
    hagrees x hx, eq_comm (a := x.created)]
  refine ⟨And.left, fun heq => ⟨heq, ?_⟩⟩
  rw [← (hagrees x hx).mpr heq]

lemma Invariant.findSemByName (h : Invariant w) (hagrees : Agrees w name) :
    (findSemByName w.state name).map Sem.id = w.linked (w.state.memory name) := by
  cases hfind : NamedSemaphore.findSemByName w.state name with
  | some x =>
    have hx := mem_of_find?_eq_some hfind
    have hcreated := (found_iff hagrees hx).mp (find?_some hfind)
    exact ((h.linked _ x.id).mpr ⟨x, hx, hcreated, rfl⟩).symm
  | none =>
    cases hlinked : w.linked (w.state.memory name) with
    | none => rfl
    | some k =>
      obtain ⟨x, hx, hcreated, _⟩ := (h.linked _ k).mp hlinked
      exact absurd ((found_iff hagrees hx).mpr hcreated) (find?_eq_none.mp hfind x hx)

def openId (w : World A N) (name : A) (createSet exclSet : Bool) (value : ℕ) : Except Errno ℕ :=
  (semOpen w.state name createSet exclSet value).2.map Sem.id

variable {createSet exclSet : Bool} {value : ℕ}

lemma Invariant.openId_eq (h : Invariant w) (hallowed : Allowed w (.open name createSet exclSet value)) :
    openId w name createSet exclSet value = match w.linked (w.state.memory name) with
      | some k => if createSet && exclSet then .error .EEXIST else .ok k
      | none => if createSet then .ok w.state.next else .error .ENOENT := by
  obtain ⟨hagrees, hvalue⟩ := hallowed
  rw [← h.findSemByName hagrees, openId, semOpen]
  cases NamedSemaphore.findSemByName w.state name with
  | some x =>
    rw [apply_ite (Except.map Sem.id)]
    rfl
  | none =>
    cases createSet with
    | false => rfl
    | true =>
      have hle : ¬ value > semValueMax := not_lt.mpr (hvalue rfl)
      simp only [Bool.not_true, hle]
      rfl

lemma open_cases (w : World A N) (name : A) (createSet exclSet : Bool) (value : ℕ) :
    (∃ e, openId w name createSet exclSet value = .error e ∧ step w (.open name createSet exclSet value) = w) ∨
    (∃ x, findSemByName w.state name = some x ∧ openId w name createSet exclSet value = .ok x.id ∧
      step w (.open name createSet exclSet value) = ⟨w.state, update w.linked (w.state.memory name) (some x.id)⟩) ∨
    findSemByName w.state name = none ∧ openId w name createSet exclSet value = .ok w.state.next ∧
      step w (.open name createSet exclSet value) = ⟨{ w.state with
        openSemaphores := w.state.openSemaphores ++ [⟨w.state.next, value, name, w.state.memory name⟩]
        next := w.state.next + 1 }, update w.linked (w.state.memory name) (some w.state.next)⟩ := by
  rw [openId, step, semOpen]
  cases findSemByName w.state name with
  | some x =>
    cases createSet && exclSet with
    | true => exact .inl ⟨.EEXIST, rfl, rfl⟩
    | false => exact .inr (.inl ⟨x, rfl, rfl, rfl⟩)
  | none =>
    cases createSet with
    | false => exact .inl ⟨.ENOENT, rfl, rfl⟩
    | true =>
      by_cases hvalue : value > semValueMax
      · simp only [hvalue]
        exact .inl ⟨.EINVAL, rfl, rfl⟩
      · simp only [hvalue]
        exact .inr (.inr ⟨trivial, rfl, rfl⟩)

/-! ## Steps -/

variable {sem : Sem A N} {P : World A N → Call A N → Prop} {k : ℕ} {w' : World A N}

omit [DecidableEq A] in
lemma Invariant.create (h : Invariant w) (hid : sem.id = w.state.next)
    (hnew : ∀ x ∈ w.state.openSemaphores, x.created ≠ sem.created) :
    Invariant ⟨{ w.state with openSemaphores := w.state.openSemaphores ++ [sem], next := w.state.next + 1 },
      update w.linked sem.created (some sem.id)⟩ := by
  refine ⟨?_, ?_, fun x hx => ?_, fun n k => ?_⟩
  · rw [map_append, nodup_append_comm]
    refine nodup_cons.mpr ⟨fun hmem => ?_, h.created⟩
    obtain ⟨x, hx, heq⟩ := mem_map.mp hmem
    exact hnew x hx heq
  · rw [map_append, nodup_append_comm]
    refine nodup_cons.mpr ⟨fun hmem => ?_, h.ids⟩
    obtain ⟨x, hx, heq⟩ := mem_map.mp hmem
    exact (h.id_lt x hx).ne (heq.trans hid)
  · obtain hx | hx := mem_append.mp hx
    · exact Nat.lt_succ_of_lt (h.id_lt x hx)
    · rw [mem_singleton.mp hx, hid]
      exact Nat.lt_succ_self _
  · show update w.linked sem.created (some sem.id) n = some k ↔
      ∃ x ∈ w.state.openSemaphores ++ [sem], x.created = n ∧ x.id = k
    simp only [mem_append, mem_singleton, or_and_right, exists_or, exists_eq_left]
    by_cases hn : n = sem.created
    · rw [hn, update_self, Option.some.injEq]
      refine ⟨fun hk => .inr ⟨rfl, hk⟩, ?_⟩
      rintro (⟨x, hx, hcreated, _⟩ | ⟨_, hk⟩)
      · exact absurd hcreated (hnew x hx)
      · exact hk
    · rw [update_of_ne hn, h.linked]
      refine ⟨.inl, ?_⟩
      rintro (hx | ⟨hcreated, _⟩)
      · exact hx
      · exact absurd hcreated.symm hn

lemma Invariant.open (h : Invariant w) (hagrees : Agrees w name) (createSet exclSet : Bool) (value : ℕ) :
    Invariant (step w (.open name createSet exclSet value)) := by
  have hfind := h.findSemByName hagrees
  obtain ⟨_, _, heq⟩ | ⟨x, hx, _, heq⟩ | ⟨hnone, _, heq⟩ := open_cases w name createSet exclSet value
  · rw [heq]
    exact h
  · -- the name stands for the semaphore already
    rw [hx] at hfind
    rw [heq, update_eq_self_iff.mpr hfind]
    exact h
  · rw [heq]
    refine h.create rfl fun x hx hcreated => ?_
    exact find?_eq_none.mp hnone x hx ((found_iff hagrees hx).mpr hcreated)

variable (s : State A N)

lemma semUnlink_cases (name : A) : (findSemByName s name = none ∧ semUnlink s name = (s, some .ENOENT)) ∨
    ∃ x l, found s name x = true ∧ s.openSemaphores.Perm (x :: l) ∧
      semUnlink s name = ({ s with openSemaphores := l }, none) := by
  rw [semUnlink]
  cases hfind : findSemByName s name with
  | none => exact .inl ⟨rfl, rfl⟩
  | some x =>
    obtain ⟨y, pre, post, _, hy, heq, herase⟩ := exists_of_eraseP (mem_of_find?_eq_some hfind) (find?_some hfind)
    refine .inr ⟨y, pre ++ post, hy, heq ▸ perm_middle, ?_⟩
    rw [← herase]

lemma semUnlink_spec (name : A) : (semUnlink s name).1.memory = s.memory ∧ (semUnlink s name).1.next = s.next ∧
      (semUnlink s name).1.openSemaphores ⊆ s.openSemaphores := by
  obtain ⟨_, heq⟩ | ⟨x, l, _, hperm, heq⟩ := semUnlink_cases s name
  · rw [heq]
    exact ⟨rfl, rfl, fun _ h => h⟩
  · rw [heq]
    exact ⟨rfl, rfl, fun _ h => hperm.mem_iff.mpr (mem_cons_of_mem x h)⟩

lemma Invariant.unlink (h : Invariant w) (hagrees : Agrees w name) : Invariant (step w (.unlink name)) := by
  rw [step]
  obtain ⟨hnone, heq⟩ | ⟨x, l, hfound, hperm, heq⟩ := semUnlink_cases w.state name
  · have hlinked := h.findSemByName hagrees
    rw [hnone] at hlinked
    rw [heq, update_eq_self_iff.mpr hlinked]
    exact h
  · have hcreated := (found_iff hagrees (hperm.mem_iff.mpr mem_cons_self)).mp hfound
    obtain ⟨hnew, hl⟩ := nodup_cons.mp ((hperm.map Sem.created).nodup_iff.mp h.created)
    obtain ⟨_, hids⟩ := nodup_cons.mp ((hperm.map Sem.id).nodup_iff.mp h.ids)
    rw [heq]
    refine ⟨hl, hids, fun y hy => h.id_lt y (hperm.mem_iff.mpr (mem_cons_of_mem x hy)), fun n k => ?_⟩
    show update w.linked (w.state.memory name) none n = some k ↔ ∃ y ∈ l, y.created = n ∧ y.id = k
    rw [hcreated] at hnew
    by_cases hn : n = w.state.memory name
    · rw [hn, update_self]
      refine ⟨nofun, ?_⟩
      rintro ⟨y, hy, hcreated, _⟩
      exact absurd (mem_map.mpr ⟨y, hy, hcreated⟩) hnew
    · simp only [update_of_ne hn, h.linked, hperm.mem_iff, mem_cons, exists_eq_or_imp, hcreated]
      exact or_iff_right fun hx => hn hx.1.symm

lemma step_close (hallowed : Allowed w (.close sem)) : step w (.close sem) = w := by
  have hnone : findSemByName w.state sem.name = none := by
    refine find?_eq_none.mpr fun x hx hfound => ?_
    rw [found, Bool.not_eq_true', Bool.or_eq_false_iff, decide_eq_false_iff_not, not_not] at hfound
    exact hallowed x hx hfound.1
  rw [step, semClose, semUnlink, hnone]

lemma Invariant.step {c : Call A N} (h : Invariant w) (hallowed : Allowed w c) : Invariant (step w c) := by
  cases c with
  | «open» name createSet exclSet value => exact h.open hallowed.1 createSet exclSet value
  | close _ =>
    rw [step_close hallowed]
    exact h
  | unlink name => exact h.unlink hallowed
  | store a n => exact ⟨h.created, h.ids, h.id_lt, h.linked⟩

lemma Reaches.invariant {w₀ : World A N} (h : Reaches P w₀ w) (h0 : Invariant w₀) : Invariant w := by
  induction h with
  | refl => exact h0
  | step _ hallowed _ ih => exact ih.step hallowed

/-! ## Runs -/

lemma linked_open (hopen : openId w name createSet exclSet value = .ok k) :
    (step w (.open name createSet exclSet value)).linked = update w.linked (w.state.memory name) (some k) := by
  obtain ⟨_, hid, _⟩ | ⟨_, _, hid, heq⟩ | ⟨_, hid, heq⟩ := open_cases w name createSet exclSet value
  · exact nomatch hopen.symm.trans hid
  · rw [heq, Except.ok.inj (hopen.symm.trans hid)]
  · rw [heq, Except.ok.inj (hopen.symm.trans hid)]

lemma linked_step (h : Invariant w) {c : Call A N} (hallowed : Allowed w c) {n : N}
    (hlinked : w.linked n = some k) (hkeep : ∀ name, c = .unlink name → w.state.memory name ≠ n) :
    (step w c).linked n = some k := by
  cases c with
  | «open» name createSet exclSet value =>
    have hfind := h.findSemByName hallowed.1
    obtain ⟨_, _, heq⟩ | ⟨x, hx, _, heq⟩ | ⟨hnone, _, heq⟩ := open_cases w name createSet exclSet value
    · rw [heq, hlinked]
    · rw [hx] at hfind
      rw [heq, update_eq_self_iff.mpr hfind, hlinked]
    · have hn : n ≠ w.state.memory name := by
        rintro rfl
        rw [hnone, hlinked] at hfind
        exact nomatch hfind
      rw [heq]
      exact (update_of_ne hn _ _).trans hlinked
  | close _ => exact hlinked
  | unlink name =>
    show update w.linked (w.state.memory name) none n = some k
    rw [update_of_ne (hkeep name rfl).symm]
    exact hlinked
  | store a n => exact hlinked

def Gone (k : ℕ) (w : World A N) : Prop := k < w.state.next ∧ ∀ x ∈ w.state.openSemaphores, x.id ≠ k

lemma Gone.step (h : Gone k w) (c : Call A N) : Gone k (step w c) := by
  have hunlink : ∀ name, Gone k ⟨(semUnlink w.state name).1, w.linked⟩ := by
    intro name
    obtain ⟨_, hnext, hsub⟩ := semUnlink_spec w.state name
    exact ⟨hnext.symm ▸ h.1, fun y hy => h.2 y (hsub hy)⟩
  cases c with
  | «open» name createSet exclSet value =>
    obtain ⟨_, _, heq⟩ | ⟨_, _, _, heq⟩ | ⟨_, _, heq⟩ := open_cases w name createSet exclSet value
    · rw [heq]
      exact h
    · rw [heq]
      exact h
    · rw [heq]
      refine ⟨Nat.lt_succ_of_lt h.1, fun y hy => ?_⟩
      obtain hy | hy := mem_append.mp hy
      · exact h.2 y hy
      · rw [mem_singleton.mp hy]
        exact h.1.ne'
  | close sem => exact hunlink sem.name
  | unlink name => exact hunlink name
  | store a n => exact h

lemma Gone.openId_ne (h : Gone k w) (name : A) (createSet exclSet : Bool) (value : ℕ) :
    openId w name createSet exclSet value ≠ .ok k := by
  intro hopen
  obtain ⟨_, hid, _⟩ | ⟨x, hx, hid, _⟩ | ⟨_, hid, _⟩ := open_cases w name createSet exclSet value
  · exact nomatch hopen.symm.trans hid
  · exact h.2 x (mem_of_find?_eq_some hx) (Except.ok.inj (hid.symm.trans hopen))
  · exact h.1.ne' (Except.ok.inj (hid.symm.trans hopen))

lemma Invariant.gone (h : Invariant w) (hagrees : Agrees w name)
    (hlinked : w.linked (w.state.memory name) = some k) : Gone k (NamedSemaphore.step w (.unlink name)) := by
  obtain ⟨x, hx, hcreated, hid⟩ := (h.linked _ k).mp hlinked
  obtain ⟨_, hnext, hsub⟩ := semUnlink_spec w.state name
  refine ⟨hid ▸ hnext ▸ h.id_lt x hx, fun y hy heq => ?_⟩
  obtain rfl : y = x := inj_on_of_nodup_map h.ids (hsub hy) hx (heq.trans hid.symm)
  -- the name is not linked any more
  have hlinked' := ((h.unlink hagrees).linked (w.state.memory name) k).mpr ⟨y, hy, hcreated, heq⟩
  change update w.linked (w.state.memory name) none (w.state.memory name) = some k at hlinked'
  rw [update_self] at hlinked'
  exact nomatch hlinked'

lemma Reaches.gone (hreach : Reaches P w w') (h : Gone k w) : Gone k w' := by
  induction hreach with
  | refl => exact h
  | step _ _ _ ih => exact ih.step _

lemma Reaches.linked {n : N}
    (hreach : Reaches (fun w c => ∀ name, c = .unlink name → w.state.memory name ≠ n) w w') (h : Invariant w)
    (hlinked : w.linked n = some k) : w'.linked n = some k := by
  induction hreach with
  | refl => exact hlinked
  | step hreach hallowed hkeep ih => exact linked_step (hreach.invariant h) hallowed ih hkeep

lemma Invariant.eq_of_linked (h : Invariant w) (hallowed : Allowed w (.open name createSet exclSet value))
    {k' : ℕ} (hlinked : w.linked (w.state.memory name) = some k)
    (hopen : openId w name createSet exclSet value = .ok k') : k' = k := by
  rw [h.openId_eq hallowed, hlinked] at hopen
  simp only at hopen
  split_ifs at hopen
  exact (Except.ok.inj hopen).symm

lemma Invariant.exclusive (h : Invariant w) (hallowed : Allowed w (.open name true true value)) :
    (∃ e, openId w name true true value = .error e) ↔ (w.linked (w.state.memory name)).isSome := by
  rw [h.openId_eq hallowed]
  cases w.linked (w.state.memory name) with
  | some k => exact ⟨fun _ => rfl, fun _ => ⟨.EEXIST, rfl⟩⟩
  | none => exact ⟨nofun, nofun⟩

lemma Invariant.openId_unlink (h : Invariant w) (hagrees : Agrees w name) {name' : A} (hagrees' : Agrees w name')
    (hne : w.state.memory name' ≠ w.state.memory name) :
    openId (NamedSemaphore.step w (.unlink name)) name' false false 0 = openId w name' false false 0 := by
  obtain ⟨hmemory, _, hsub⟩ := semUnlink_spec w.state name
  have hmemory' : (NamedSemaphore.step w (.unlink name)).state.memory = w.state.memory := hmemory
  have hlinked : (NamedSemaphore.step w (.unlink name)).linked (w.state.memory name') =
      w.linked (w.state.memory name') := by
    show update w.linked (w.state.memory name) none (w.state.memory name') = _
    rw [update_of_ne hne]
  have hallowed : Allowed (NamedSemaphore.step w (.unlink name)) (.open name' false false 0) := by
    refine ⟨fun x hx => ?_, nofun⟩
    rw [hmemory']
    exact hagrees' x (hsub hx)
  have hallowed' : Allowed w (.open name' false false 0) := ⟨hagrees', nofun⟩
  rw [(h.unlink hagrees).openId_eq hallowed, h.openId_eq hallowed', hmemory', hlinked]
  cases w.linked (w.state.memory name') <;> rfl

/-- If names agree with addresses, two calls of `sem_open` with one name return one semaphore unless `sem_unlink`
comes in between, and an exclusive call fails exactly if the name is linked. -/
theorem semaphores_by_name {memory : A → N} (hw : Reaches (fun _ _ => True) (initial memory) w) :
    (∀ name createSet exclSet value k, Allowed w (.open name createSet exclSet value) →
      openId w name createSet exclSet value = .ok k →
      ∀ w', Reaches (fun w' c => ∀ name', c = .unlink name' → w'.state.memory name' ≠ w.state.memory name)
        (step w (.open name createSet exclSet value)) w' →
      ∀ name' createSet' exclSet' value' k', Allowed w' (.open name' createSet' exclSet' value') →
        w'.state.memory name' = w.state.memory name → openId w' name' createSet' exclSet' value' = .ok k' → k' = k) ∧
    (∀ name value, Allowed w (.open name true true value) →
      ((∃ e, openId w name true true value = .error e) ↔ (w.linked (w.state.memory name)).isSome)) ∧
    ∀ name, Allowed w (.unlink name) → (∀ k, w.linked (w.state.memory name) = some k →
        ∀ w', Reaches (fun _ _ => True) (step w (.unlink name)) w' →
        ∀ name' createSet exclSet value, openId w' name' createSet exclSet value ≠ .ok k) ∧
      ∀ name', Agrees w name' → w.state.memory name' ≠ w.state.memory name →
        openId (step w (.unlink name)) name' false false 0 = openId w name' false false 0 := by
  have hinv := hw.invariant (invariant_initial memory)
  refine ⟨?_, fun name value => hinv.exclusive, fun name hallowed => ⟨?_, fun name' => hinv.openId_unlink hallowed⟩⟩
  · intro name createSet exclSet value k hallowed hopen w' hreach name' createSet' exclSet' value'
      k' hallowed' hname hopen'
    have hinv' := hinv.step hallowed
    have hlinked : (step w (.open name createSet exclSet value)).linked (w.state.memory name) = some k := by
      rw [linked_open hopen, update_self]
    have hlinked' := hreach.linked hinv' hlinked
    rw [← hname] at hlinked'
    exact (hreach.invariant hinv').eq_of_linked hallowed' hlinked' hopen'
  · intro k hlinked w' hreach
    exact (hreach.gone (hinv.gone hallowed hlinked)).openId_ne

theorem semaphores_by_name_twice :
    ∃ w : World Bool Unit, Reaches (fun _ _ => True) (initial fun _ => ()) w ∧ w.linked () = some 0 ∧
      ∃ e, openId w true true true 1 = .error e := by
  have hreach : Reaches (fun _ _ => True) (initial fun _ => ()) (step (initial fun _ => () : World Bool Unit)
      (.open true true false 1)) := .step .refl ⟨fun x hx => absurd hx not_mem_nil, fun _ => by decide⟩ trivial
  refine ⟨_, hreach, rfl, ((semaphores_by_name hreach).2.1 true 1 ⟨fun x hx => ?_, fun _ => by decide⟩).mpr rfl⟩
  obtain rfl := mem_singleton.mp hx
  exact ⟨fun _ => rfl, fun _ => rfl⟩

/-- Two addresses with equal strings, for which two semaphores are opened. -/
theorem semOpen_address : ∃ w : World Bool Unit, step (initial fun _ => ()) (.open true true false 1) = w ∧
      openId (initial fun _ => () : World Bool Unit) true true false 1 = .ok 0 ∧
      w.state.memory false = w.state.memory true ∧ openId w false true false 1 = .ok 1 :=
  ⟨_, rfl, rfl, rfl, rfl⟩

end Pthread.NamedSemaphore
