import Mathlib

/-! Thread-specific data, `runtime/POSIX/pthread/misc/key.c`. The functions hold the lock of the metadata, or
use the data of their own thread only, so that they run one after the other. -/

namespace Pthread.Specific
open List Option Function
variable {T D V : Type*}

def PTHREAD_DESTRUCTOR_ITERATIONS : ℕ := 16

def PTHREAD_KEYS_MAX : ℕ := 256

instance : NeZero PTHREAD_KEYS_MAX := ⟨by decide⟩

structure KeyData (V : Type*) where
  generation : ℕ
  value : Option V

structure KeyMetadata (D : Type*) where
  used : Bool
  generation : ℕ
  destructor : Option D

structure Key where
  index : Fin PTHREAD_KEYS_MAX
  generation : ℕ
  deriving DecidableEq

/-- The slots, the data of each thread, the allocated keys, and what each thread has last stored under a key. -/
structure State (T D V : Type*) where
  metadata : Fin PTHREAD_KEYS_MAX → KeyMetadata D
  data : T → Fin PTHREAD_KEYS_MAX → KeyData V
  keys : Finset Key
  stored : T → Key → Option V

def initial : State T D V := ⟨fun _ => ⟨false, 0, none⟩, fun _ _ => ⟨0, none⟩, ∅, fun _ _ => none⟩

/-! ## The functions -/

/-- The first unused slot is taken; without one, `EAGAIN` is returned. -/
def pthreadKeyCreate (s : State T D V) (destructor : Option D) : State T D V × Option Key :=
  match (List.finRange PTHREAD_KEYS_MAX).find? fun i => !(s.metadata i).used with
  | none => (s, none)
  | some i =>
    let generation := (s.metadata i).generation + 1
    let key : Key := ⟨i, generation⟩
    ({ s with
        metadata := update s.metadata i ⟨true, generation, destructor⟩
        keys := insert key s.keys }, some key)

/-- The second component says whether the key was valid. -/
def pthreadKeyDelete (s : State T D V) (key : Key) : State T D V × Bool :=
  let meta' := s.metadata key.index
  if meta'.generation ≠ key.generation ∨ meta'.used = false then (s, false)
  else
    ({ s with
        metadata := update s.metadata key.index { meta' with used := false, destructor := none }
        keys := s.keys.erase key }, true)

def kprGetData (key : Key) (data : KeyData V) : KeyData V :=
  if key.generation > data.generation then ⟨key.generation, none⟩ else data

variable [DecidableEq T]

def setData (s : State T D V) (t : T) (i : Fin PTHREAD_KEYS_MAX) (data : KeyData V) : State T D V :=
  { s with data := update s.data t (update (s.data t) i data) }

def pthreadGetspecific (s : State T D V) (t : T) (key : Key) : State T D V × Option V :=
  let data := kprGetData key (s.data t key.index)
  (setData s t key.index data, data.value)

def pthreadSetspecific (s : State T D V) (t : T) (key : Key) (value : Option V) : State T D V :=
  let data := kprGetData key (s.data t key.index)
  { setData s t key.index { data with value := value } with
    stored := update s.stored t (update (s.stored t) key value) }

inductive Action (T D V : Type*)
  | create (destructor : Option D)
  | delete (key : Key)
  | getspecific (t : T) (key : Key)
  | setspecific (t : T) (key : Key) (value : Option V)

def step (s : State T D V) : Action T D V → Option (State T D V)
  | .create destructor => some (pthreadKeyCreate s destructor).1
  | .delete key => if key ∈ s.keys then some (pthreadKeyDelete s key).1 else none
  | .getspecific t key => if key ∈ s.keys then some (pthreadGetspecific s t key).1 else none
  | .setspecific t key value => if key ∈ s.keys then some (pthreadSetspecific s t key value) else none

def run (s : State T D V) (actions : List (Action T D V)) : Option (State T D V) := actions.foldlM step s

/-- What a thread has stored under a key, after a call of any thread. -/
def storedBy (t : T) (key : Key) (value : Option V) : Action T D V → Option V
  | .setspecific u key' value' => if u = t ∧ key' = key then value' else value
  | _ => value

omit [DecidableEq T]

structure Call (D V : Type*) where
  slot : Fin PTHREAD_KEYS_MAX
  destructor : D
  value : V
  deriving DecidableEq

/-- The variables of `kpr_key_clear_data_of_thread`, and its calls so far. -/
structure Clearing (D V : Type*) where
  allCleaned : Bool
  calls : List (Call D V)
  data : Fin PTHREAD_KEYS_MAX → KeyData V

section
variable (metadata : Fin PTHREAD_KEYS_MAX → KeyMetadata D)

def clearSlot (r : Clearing D V) (i : Fin PTHREAD_KEYS_MAX) : Clearing D V :=
  match (r.data i).value with
  | none => r
  | some v =>
    if (metadata i).used = false then { r with data := update r.data i { r.data i with value := none } }
    else
      match (metadata i).destructor with
      | some d => { r with allCleaned := false, calls := r.calls ++ [⟨i, d, v⟩] }
      | none => { r with allCleaned := false, data := update r.data i { r.data i with value := none } }

def clearRound (calls : List (Call D V)) (data : Fin PTHREAD_KEYS_MAX → KeyData V) : Clearing D V :=
  (List.finRange PTHREAD_KEYS_MAX).foldl (clearSlot metadata) ⟨true, calls, data⟩

def clearRounds : ℕ → List (Call D V) → (Fin PTHREAD_KEYS_MAX → KeyData V) → List (Call D V)
  | 0, calls, _ => calls
  | n + 1, calls, data =>
    let r := clearRound metadata calls data
    if r.allCleaned then r.calls else clearRounds n r.calls r.data

variable (data : Fin PTHREAD_KEYS_MAX → KeyData V)

/-- The calls it makes, of destructors that store nothing. -/
def kprKeyClearDataOfThread : List (Call D V) :=
  if ∀ i, (data i).value.isNone then [] else clearRounds metadata PTHREAD_DESTRUCTOR_ITERATIONS [] data

/-! ## What is called -/

def pending (i : Fin PTHREAD_KEYS_MAX) : Option (Call D V) :=
  if (metadata i).used then
    (data i).value.bind fun v => (metadata i).destructor.map fun d => ⟨i, d, v⟩
  else none

def cleared (i : Fin PTHREAD_KEYS_MAX) : KeyData V :=
  if (pending metadata data i).isSome then data i else { data i with value := none }

end

variable {metadata : Fin PTHREAD_KEYS_MAX → KeyMetadata D} {data : Fin PTHREAD_KEYS_MAX → KeyData V}
  {r : Clearing D V} {i : Fin PTHREAD_KEYS_MAX}

variable {c : Call D V} {key : Key} {t : T}

lemma pending_eq_some : pending metadata data i = some c ↔ c.slot = i ∧ (metadata i).used = true ∧
      (metadata i).destructor = some c.destructor ∧ (data i).value = some c.value := by
  rw [pending, ite_none_right_eq_some]
  constructor
  · rintro ⟨hused, h⟩
    obtain ⟨v, hv, h⟩ := bind_eq_some_iff.mp h
    obtain ⟨d, hd, rfl⟩ := map_eq_some_iff.mp h
    exact ⟨rfl, hused, hd, hv⟩
  · rintro ⟨rfl, hused, hd, hv⟩
    rw [hd, hv]
    exact ⟨hused, rfl⟩

lemma pending_congr {data' : Fin PTHREAD_KEYS_MAX → KeyData V} (h : data' i = data i) :
    pending metadata data' i = pending metadata data i := by rw [pending, pending, h]

variable (metadata data) in
lemma pending_cleared : pending metadata (cleared metadata data) i = pending metadata data i := by
  cases h : pending metadata data i with
  | some c =>
    have hsame : cleared metadata data i = data i := if_pos (by rw [h]; rfl)
    rw [pending_congr hsame, h]
  | none =>
    have hnone : cleared metadata data i = { data i with value := none } := if_neg (by rw [h]; exact Bool.false_ne_true)
    rw [pending, hnone]
    exact ite_self none

variable (metadata r i) in
lemma clearSlot_spec : (clearSlot metadata r i).calls = r.calls ++ (pending metadata r.data i).toList ∧
    (clearSlot metadata r i).data = update r.data i (cleared metadata r.data i) ∧
    ((clearSlot metadata r i).allCleaned = true → r.allCleaned = true ∧ pending metadata r.data i = none) := by
  rw [clearSlot, cleared]
  cases hvalue : (r.data i).value with
  | none =>
    have hnone : pending metadata r.data i = none := by
      rw [pending, hvalue]
      exact ite_self none
    have hsame : { r.data i with value := none } = r.data i := by rw [← hvalue]
    rw [hnone, hsame]
    simp
  | some v =>
    cases hused : (metadata i).used with
    | false =>
      have hnone : pending metadata r.data i = none := by
        rw [pending, hused]
        rfl
      simp [hnone]
    | true =>
      cases hd : (metadata i).destructor with
      | none =>
        have hnone : pending metadata r.data i = none := by
          rw [pending, hd, hvalue]
          exact ite_self none
        simp [hnone]
      | some d =>
        have hsome : pending metadata r.data i = some ⟨i, d, v⟩ := pending_eq_some.mpr ⟨rfl, hused, hd, hvalue⟩
        simp [hsome]

variable (metadata) in
lemma foldl_clearSlot {l : List (Fin PTHREAD_KEYS_MAX)} (hl : l.Nodup) (r : Clearing D V) :
    (l.foldl (clearSlot metadata) r).calls = r.calls ++ l.filterMap (pending metadata r.data) ∧
    (∀ i, (l.foldl (clearSlot metadata) r).data i = if i ∈ l then cleared metadata r.data i else r.data i) ∧
    ((l.foldl (clearSlot metadata) r).allCleaned = true →
      r.allCleaned = true ∧ ∀ i ∈ l, pending metadata r.data i = none) := by
  induction l generalizing r with
  | nil => exact ⟨(append_nil _).symm, fun i => rfl, fun h => ⟨h, fun i hi => absurd hi not_mem_nil⟩⟩
  | cons j l ih =>
    obtain ⟨hj, hl⟩ := nodup_cons.mp hl
    obtain ⟨hcalls, hdata, hcleaned⟩ := clearSlot_spec metadata r j
    obtain ⟨hcalls', hdata', hcleaned'⟩ := ih hl (clearSlot metadata r j)
    -- the slots of the rest are as they were
    have hrest : ∀ i ∈ l, (clearSlot metadata r j).data i = r.data i := fun i hi => by
      have hij : i ≠ j := fun hij => hj (hij ▸ hi)
      rw [hdata, update_of_ne hij]
    have hpending : ∀ i ∈ l, pending metadata (clearSlot metadata r j).data i = pending metadata r.data i :=
      fun i hi => pending_congr (hrest i hi)
    rw [foldl_cons]
    refine ⟨?_, fun i => ?_, fun h => ?_⟩
    · rw [hcalls', hcalls, filterMap_congr hpending, append_assoc, filterMap_cons]
      cases pending metadata r.data j <;> rfl
    · rw [hdata' i]
      by_cases hi : i ∈ l
      · rw [if_pos hi, if_pos (mem_cons_of_mem j hi), cleared, cleared, hpending i hi, hrest i hi]
      · rw [if_neg hi, hdata]
        by_cases hij : i = j
        · rw [hij, update_self, if_pos mem_cons_self]
        · rw [update_of_ne hij, if_neg fun h => (mem_cons.mp h).elim hij hi]
    · obtain ⟨h, hnone⟩ := hcleaned' h
      obtain ⟨h, hj⟩ := hcleaned h
      refine ⟨h, forall_mem_cons.mpr ⟨hj, fun i hi => ?_⟩⟩
      rw [← hpending i hi]
      exact hnone i hi

variable (metadata data) in
def pendingCalls : List (Call D V) := (List.finRange PTHREAD_KEYS_MAX).filterMap (pending metadata data)

lemma mem_pendingCalls : c ∈ pendingCalls metadata data ↔ (metadata c.slot).used = true ∧
      (metadata c.slot).destructor = some c.destructor ∧ (data c.slot).value = some c.value := by
  rw [pendingCalls, mem_filterMap]
  constructor
  · rintro ⟨i, _, hc⟩
    obtain ⟨rfl, h⟩ := pending_eq_some.mp hc
    exact h
  · intro h
    exact ⟨c.slot, mem_finRange _, pending_eq_some.mpr ⟨rfl, h⟩⟩

variable (metadata data) in
lemma clearRound_spec (calls : List (Call D V)) :
    (clearRound metadata calls data).calls = calls ++ pendingCalls metadata data ∧
    pendingCalls metadata (clearRound metadata calls data).data = pendingCalls metadata data ∧
    ((clearRound metadata calls data).allCleaned = true → pendingCalls metadata data = []) := by
  obtain ⟨hcalls, hdata, hcleaned⟩ := foldl_clearSlot metadata (nodup_finRange PTHREAD_KEYS_MAX) ⟨true, calls, data⟩
  refine ⟨hcalls, ?_, fun h => ?_⟩
  · refine filterMap_congr fun i hi => ?_
    rw [← pending_cleared metadata data]
    refine pending_congr ?_
    rw [clearRound, hdata i, if_pos hi]
  · exact filterMap_eq_nil_iff.mpr (hcleaned h).2

lemma clearRounds_eq (n : ℕ) (calls : List (Call D V)) (data : Fin PTHREAD_KEYS_MAX → KeyData V) :
    clearRounds metadata n calls data = calls ++ (List.replicate n (pendingCalls metadata data)).flatten := by
  induction n generalizing calls data with
  | zero => exact (append_nil calls).symm
  | succ n ih =>
    obtain ⟨hcalls, hpending, hcleaned⟩ := clearRound_spec metadata data calls
    rw [clearRounds]
    split_ifs with h
    · rw [hcalls, hcleaned h, flatten_replicate_nil]
    · rw [ih, hpending, hcalls, replicate_succ, flatten_cons, append_assoc]

/-- Every pending call is made in each of the rounds, because the value stays. -/
lemma clearDataOfThread_eq : kprKeyClearDataOfThread metadata data =
      (List.replicate PTHREAD_DESTRUCTOR_ITERATIONS (pendingCalls metadata data)).flatten := by
  rw [kprKeyClearDataOfThread]
  split_ifs with h
  · have hnil : pendingCalls metadata data = [] := by
      refine eq_nil_iff_forall_not_mem.mpr fun c hc => ?_
      have hvalue := h c.slot
      rw [(mem_pendingCalls.mp hc).2.2] at hvalue
      exact nomatch hvalue
    rw [hnil, flatten_replicate_nil]
  · rw [clearRounds_eq, nil_append]

/-! ## Runs -/

/-- An allocated key is that of its slot; what a thread has stored under it is the thread's value. -/
structure Invariant (s : State T D V) : Prop where
  slot : ∀ key ∈ s.keys, (s.metadata key.index).used = true ∧ (s.metadata key.index).generation = key.generation
  value : ∀ key ∈ s.keys, ∀ t v, s.stored t key = some v → s.data t key.index = ⟨key.generation, some v⟩
  unborn : ∀ key t, (s.metadata key.index).generation < key.generation → s.stored t key = none
  data_le : ∀ t i, (s.data t i).generation ≤ (s.metadata i).generation

variable {s s' : State T D V}

lemma eq_of_kprGetData {data : KeyData V} {v : V} (hle : data.generation ≤ key.generation)
    (h : (kprGetData key data).value = some v) : data = ⟨key.generation, some v⟩ := by
  obtain ⟨g, value⟩ := data
  rw [kprGetData] at h
  split_ifs at h with hlt
  obtain rfl : g = key.generation := le_antisymm hle (not_lt.mp hlt)
  obtain rfl : value = some v := h
  rfl

/-- What a thread has stored under an allocated key is what it reads. -/
structure Exact (s : State T D V) : Prop extends Invariant s where
  reads : ∀ key ∈ s.keys, ∀ t, (kprGetData key (s.data t key.index)).value = s.stored t key
  value key hkey t _ hv :=
    eq_of_kprGetData ((data_le t key.index).trans (slot key hkey).2.le) ((reads key hkey t).trans hv)

lemma exact_initial : Exact (initial : State T D V) where
  slot key hkey := absurd hkey (Finset.notMem_empty key)
  reads key hkey := absurd hkey (Finset.notMem_empty key)
  unborn _ _ _ := rfl
  data_le _ _ := le_rfl

section
variable (h : Exact s)
include h

lemma Exact.key_eq {key' : Key} (hkey : key ∈ s.keys) (hkey' : key' ∈ s.keys)
    (hindex : key'.index = key.index) : key' = key := by
  obtain ⟨i, g⟩ := key
  obtain ⟨i', g'⟩ := key'
  obtain rfl : i' = i := hindex
  have hg : g' = g := (h.slot _ hkey').2.symm.trans (h.slot _ hkey).2
  rw [hg]

lemma Exact.create (destructor : Option D) : Exact (pthreadKeyCreate s destructor).1 := by
  rw [pthreadKeyCreate]
  split
  case h_1 => exact h
  case h_2 i hi =>
    have hunused : (s.metadata i).used = false := by simpa using find?_some hi
    have hother : ∀ key ∈ s.keys, key.index ≠ i := by
      rintro key hkey rfl
      exact nomatch hunused.symm.trans (h.slot key hkey).1
    have hle : ∀ j, (s.metadata j).generation ≤
        (update s.metadata i ⟨true, (s.metadata i).generation + 1, destructor⟩ j).generation := by
      intro j
      by_cases hj : j = i
      · rw [hj, update_self]
        exact Nat.le_succ _
      · rw [update_of_ne hj]
    refine { slot := fun key hkey => ?_, reads := fun key hkey t => ?_,
             unborn := fun key t hlt => h.unborn key t ((hle key.index).trans_lt hlt),
             data_le := fun t j => (h.data_le t j).trans (hle j) }
    · obtain rfl | hkey := Finset.mem_insert.mp hkey
      · simp
      · simp only [update_of_ne (hother key hkey)]
        exact h.slot key hkey
    · obtain rfl | hkey := Finset.mem_insert.mp hkey
      · -- the data of the slot is older than the key
        rw [kprGetData, if_pos (Nat.lt_succ_of_le (h.data_le t i))]
        exact (h.unborn _ t (Nat.lt_succ_self _)).symm
      · exact h.reads key hkey t

lemma Exact.delete (hkey : key ∈ s.keys) : Exact (pthreadKeyDelete s key).1 := by
  rw [pthreadKeyDelete]
  split_ifs with hvalid
  · exact h
  · have hgeneration : ∀ j, (update s.metadata key.index { s.metadata key.index with
        used := false, destructor := none } j).generation = (s.metadata j).generation := by
      intro j
      by_cases hj : j = key.index
      · rw [hj, update_self]
      · rw [update_of_ne hj]
    refine { slot := fun key' hkey' => ?_, reads := fun key' hkey' => h.reads key' (Finset.mem_of_mem_erase hkey'),
             unborn := fun key' t hlt => h.unborn key' t (hgeneration _ ▸ hlt),
             data_le := fun t j => (h.data_le t j).trans (hgeneration j).ge }
    obtain ⟨hne, hkey'⟩ := Finset.mem_erase.mp hkey'
    have hindex : key'.index ≠ key.index := fun hindex => hne (h.key_eq hkey hkey' hindex)
    simp only [update_of_ne hindex]
    exact h.slot key' hkey'

lemma Exact.kprGetData_generation (hkey : key ∈ s.keys) (t : T) :
    (kprGetData key (s.data t key.index)).generation = key.generation := by
  have hle := h.data_le t key.index
  rw [(h.slot key hkey).2] at hle
  rw [kprGetData]
  split_ifs with hlt
  · rfl
  · exact le_antisymm hle (not_lt.mp hlt)

lemma Exact.access (hkey : key ∈ s.keys) {data : T → Fin PTHREAD_KEYS_MAX → KeyData V}
    {stored : T → Key → Option V} (hother : ∀ u j, ¬ (u = t ∧ j = key.index) → data u j = s.data u j)
    (hstored : ∀ u key', ¬ (u = t ∧ key' = key) → stored u key' = s.stored u key')
    (hdata : data t key.index = ⟨key.generation, stored t key⟩) : Exact { s with data := data, stored := stored } := by
  refine { slot := h.slot, unborn := fun key' u hlt => ?_, data_le := fun u j => ?_, reads := fun key' hkey' u => ?_ }
  · have hne : ¬ (u = t ∧ key' = key) := by
      rintro ⟨_, rfl⟩
      exact hlt.ne (h.slot key' hkey).2
    exact (hstored u key' hne).trans (h.unborn key' u hlt)
  · change (data u j).generation ≤ (s.metadata j).generation
    by_cases hsame : u = t ∧ j = key.index
    · obtain ⟨rfl, rfl⟩ := hsame
      rw [hdata]
      exact (h.slot key hkey).2.ge
    · rw [hother u j hsame]
      exact h.data_le u j
  · change (kprGetData key' (data u key'.index)).value = stored u key'
    by_cases hsame : u = t ∧ key' = key
    · obtain ⟨rfl, rfl⟩ := hsame
      rw [hdata, kprGetData, if_neg (lt_irrefl _)]
    · have hindex : ¬ (u = t ∧ key'.index = key.index) := fun ⟨hu, hindex⟩ => hsame ⟨hu, h.key_eq hkey hkey' hindex⟩
      rw [hother u key'.index hindex, hstored u key' hsame]
      exact h.reads key' hkey' u

end

section
variable [DecidableEq T]

lemma update_update_of_ne {α β : Type*} [DecidableEq α] (f : T → α → β) {u : T} {a b : α}
    (h : ¬ (u = t ∧ b = a)) (c : β) : update f t (update (f t) a c) u b = f u b := by
  by_cases hu : u = t
  · subst hu
    rw [update_self, update_of_ne fun hb => h ⟨rfl, hb⟩]
  · rw [update_of_ne hu]

lemma update_update_self {α β : Type*} [DecidableEq α] (f : T → α → β) (t : T) (a : α) (c : β) :
    update f t (update (f t) a c) t a = c := by rw [update_self, update_self]

lemma Exact.step {a : Action T D V} (h : Exact s) (hstep : step s a = some s') :
    Exact s' ∧ ∀ t key, s'.stored t key = storedBy t key (s.stored t key) a := by
  cases a with
  | create destructor =>
    cases hstep
    refine ⟨h.create destructor, fun t key => ?_⟩
    rw [pthreadKeyCreate]
    split <;> rfl
  | delete key =>
    obtain ⟨hkey, ⟨⟩⟩ := ite_none_right_eq_some.mp hstep
    refine ⟨h.delete hkey, fun t key' => ?_⟩
    rw [pthreadKeyDelete]
    split_ifs <;> rfl
  | getspecific t key =>
    obtain ⟨hkey, ⟨⟩⟩ := ite_none_right_eq_some.mp hstep
    refine ⟨h.access hkey (fun u j hne => update_update_of_ne s.data hne _) (fun _ _ _ => rfl) ?_, fun _ _ => rfl⟩
    rw [update_update_self, ← h.reads key hkey t, ← h.kprGetData_generation hkey t]
  | setspecific t key value =>
    obtain ⟨hkey, ⟨⟩⟩ := ite_none_right_eq_some.mp hstep
    refine ⟨h.access hkey (fun u j hne => update_update_of_ne s.data hne _)
      (fun u _ hne => update_update_of_ne s.stored hne _) ?_, fun u key' => ?_⟩
    · simp [setData, update_update_self, h.kprGetData_generation hkey t]
    · rw [storedBy]
      split_ifs with hsame
      · obtain ⟨rfl, rfl⟩ := hsame
        exact update_update_self s.stored t key value
      · exact update_update_of_ne s.stored (fun ⟨hu, hkey⟩ => hsame ⟨hu.symm, hkey.symm⟩) value

lemma exact_run {actions : List (Action T D V)} (h : Exact s) (hrun : run s actions = some s') :
    Exact s' ∧ ∀ t key, s'.stored t key = actions.foldl (storedBy t key) (s.stored t key) := by
  induction actions generalizing s with
  | nil =>
    cases hrun
    exact ⟨h, fun _ _ => rfl⟩
  | cons a actions ih =>
    obtain ⟨s1, hstep, hrun⟩ := bind_eq_some_iff.mp hrun
    obtain ⟨h1, hstored1⟩ := h.step hstep
    obtain ⟨h', hstored⟩ := ih h1 hrun
    refine ⟨h', fun t key => ?_⟩
    rw [hstored, hstored1, foldl_cons]

/-! ## The values -/

/-- A thread reads what it has last stored under an allocated key since its creation. -/
theorem pthreadGetspecific_last {s0 s₁ : State T D V} {before actions : List (Action T D V)} {destructor : Option D}
    (hbefore : run initial before = some s0) (hcreate : pthreadKeyCreate s0 destructor = (s₁, some key))
    (hrun : run s₁ actions = some s) (hkey : key ∈ s.keys) (t : T) :
    (pthreadGetspecific s t key).2 = actions.foldl (storedBy t key) none := by
  have h0 := (exact_run exact_initial hbefore).1
  have h1 := h0.create destructor
  rw [hcreate] at h1
  obtain ⟨h, hstored⟩ := exact_run h1 hrun
  have hnone : s₁.stored t key = none := by
    rw [pthreadKeyCreate] at hcreate
    split at hcreate
    case h_1 => exact nomatch (Prod.mk.inj hcreate).2
    case h_2 i _ =>
      obtain ⟨rfl, hkey⟩ := Prod.mk.inj hcreate
      cases hkey
      exact h0.unborn _ t (Nat.lt_succ_self _)
  rw [← hnone, ← hstored]
  exact h.reads key hkey t

theorem pthreadGetspecific_last_again : ∃ s0 s₁ s : State Bool Unit ℕ,
    run initial [.create none, .setspecific true ⟨0, 1⟩ (some 7), .delete ⟨0, 1⟩] = some s0 ∧
    pthreadKeyCreate s0 none = (s₁, some ⟨0, 2⟩) ∧
    run s₁ [.setspecific false ⟨0, 2⟩ (some 8)] = some s ∧
    (pthreadGetspecific s true ⟨0, 2⟩).2 = none ∧ (pthreadGetspecific s false ⟨0, 2⟩).2 = some 8 := by
  refine ⟨?_, ?_, ?_, ?before, ?create, ?run, pthreadGetspecific_last ?before ?create ?run ?key true,
    pthreadGetspecific_last ?before ?create ?run ?key false⟩
  case before => rfl
  case create => rfl
  case run => rfl
  case key => decide

end

/-! ## The destructors -/

def exitCalls (s : State T D V) (t : T) : List (Call D V) := kprKeyClearDataOfThread s.metadata (s.data t)

/-- For each key with a value of the thread there is one call of the destructor, with the value last stored. -/
structure DestructorsRun (s : State T D V) (t : T) : Prop where
  once : ∀ key ∈ s.keys, ∀ d v, (s.metadata key.index).destructor = some d → s.stored t key = some v →
    (exitCalls s t).filter (·.slot = key.index) = [⟨key.index, d, v⟩]
  current : ∀ c ∈ exitCalls s t, ∃ key ∈ s.keys, key.index = c.slot ∧
    (s.metadata key.index).destructor = some c.destructor ∧ s.stored t key = some c.value

lemma mem_exitCalls : c ∈ exitCalls s t ↔ c ∈ pendingCalls s.metadata (s.data t) := by
  rw [exitCalls, clearDataOfThread_eq, mem_flatten]
  constructor
  · rintro ⟨l, hl, hc⟩
    rwa [eq_of_mem_replicate hl] at hc
  · intro hc
    exact ⟨_, mem_replicate.mpr ⟨by decide, rfl⟩, hc⟩

lemma exitCalls_filter_ne (hc : c ∈ exitCalls s t) : (exitCalls s t).filter (·.slot = c.slot) ≠ [c] := by
  intro heq
  have hpending := mem_exitCalls.mp hc
  have hlength := congrArg length heq
  rw [exitCalls, clearDataOfThread_eq, filter_flatten, map_replicate, length_flatten,
    map_replicate, sum_replicate_nat, length_singleton] at hlength
  rw [PTHREAD_DESTRUCTOR_ITERATIONS] at hlength
  omega

/-- Exactly if none is to be called: no value is left in a slot whose key has a destructor. -/
theorem destructorsRun_iff [DecidableEq T] {actions : List (Action T D V)}
    (hrun : run initial actions = some s) (t : T) :
    DestructorsRun s t ↔ ∀ i d, (s.metadata i).used = true → (s.metadata i).destructor = some d →
      (s.data t i).value = none := by
  have hinv := (exact_run exact_initial hrun).1
  constructor
  · intro h i d hused hd
    by_contra hvalue
    obtain ⟨v, hv⟩ := ne_none_iff_exists'.mp hvalue
    have hcall : (⟨i, d, v⟩ : Call D V) ∈ exitCalls s t := mem_exitCalls.mpr (mem_pendingCalls.mpr ⟨hused, hd, hv⟩)
    obtain ⟨key, hkey, hindex, hd', hstored⟩ := h.current _ hcall
    have honce := h.once key hkey d v hd' hstored
    rw [hindex] at honce
    exact exitCalls_filter_ne hcall honce
  · intro h
    have hnone : exitCalls s t = [] := by
      refine eq_nil_iff_forall_not_mem.mpr fun c hc => ?_
      obtain ⟨hused, hd, hv⟩ := mem_pendingCalls.mp (mem_exitCalls.mp hc)
      exact nomatch hv.symm.trans (h c.slot c.destructor hused hd)
    refine ⟨fun key hkey d v hd hv => ?_, fun c hc => ?_⟩
    · have hvalue := h key.index d (hinv.slot key hkey).1 hd
      rw [hinv.value key hkey t v hv] at hvalue
      exact nomatch hvalue
    · rw [hnone] at hc
      exact absurd hc not_mem_nil

theorem destructorsRun_created :
    ∃ s : State Unit Unit Unit, run initial
      [.create (some ()), .create none, .setspecific () ⟨1, 1⟩ (some ())] = some s ∧
      s.stored () ⟨1, 1⟩ = some () ∧ DestructorsRun s () := by
  refine ⟨?_, ?run, ?stored, (destructorsRun_iff ?run ()).mpr ?none⟩
  case run => rfl
  case stored => rfl
  case none =>
    rintro i ⟨⟩
    revert i
    decide +kernel

/-- A destructor is called in each round with the stored value, and after a deletion that of the next key is. -/
theorem destructor_called_again :
    (∃ s : State Unit Unit Bool, run initial [.create (some ()), .setspecific () ⟨0, 1⟩ (some true)] = some s ∧
      exitCalls s () = List.replicate 16 ⟨0, (), true⟩) ∧
    ∃ s : State Unit Unit Bool, run initial [.create (some ()), .setspecific () ⟨0, 1⟩ (some true), .delete ⟨0, 1⟩,
        .create (some ())] = some s ∧
      s.keys = {⟨0, 2⟩} ∧ s.stored () ⟨0, 2⟩ = none ∧ exitCalls s () = List.replicate 16 ⟨0, (), true⟩ := by
  have hcalls : ∀ {s : State Unit Unit Bool}, pendingCalls s.metadata (s.data ()) = [⟨0, (), true⟩] →
      exitCalls s () = replicate 16 ⟨0, (), true⟩ := by
    intro s hpending
    rw [exitCalls, clearDataOfThread_eq, hpending, flatten_replicate_singleton]
    rfl
  constructor
  · refine ⟨_, rfl, hcalls ?_⟩
    decide +kernel
  · refine ⟨_, rfl, ?_, rfl, hcalls ?_⟩
    · decide +kernel
    · decide +kernel

end Pthread.Specific
