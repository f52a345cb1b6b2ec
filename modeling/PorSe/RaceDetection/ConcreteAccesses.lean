import PorSe.RaceDetection.Ownership
import PorSe.RaceDetection.AccessList

/-! Operations with a concrete offset. A call makes of spaced entries what `record` says, and acquires the list before
it changes it, except on two paths. -/

namespace RaceDetection.Heap
open List Option Bool
variable {I E : Type} [LinearOrder E] {H H0 : Heap I E} {i b e : ℕ} {incoming : MemoryOperation I E}
  {key : Option ℕ} {pre rest entries : List (ℕ × Access I)} {plain : Prop}

/-- Ends in `H` or in a list of its own, with the entries if `plain` holds, or at an assertion outside of `mut()`. -/
def Ends (H0 H : Heap I E) (i : ℕ) (plain : Prop) (entries : List (ℕ × Access I)) : Except Fault (Heap I E) → Prop
  | .ok H' => (H' = H ∨ Owned H0 i H') ∧ (plain → (H'.operations i).symbolic = (H.operations i).symbolic ∧
      (H'.operations i).concrete.entries = entries)
  | .error f => f = .assertion ∧ ¬ plain

lemma Ends.imp {H1 : Heap I E} {plain1 : Prop} {entries1 : List (ℕ × Access I)} {r : Except Fault (Heap I E)}
    (hr : Ends H0 H1 i plain1 entries1 r) (hH : H1 = H ∨ Owned H0 i H1)
    (hsym : (H1.operations i).symbolic = (H.operations i).symbolic) (h : plain → plain1 ∧ entries1 = entries) :
    Ends H0 H i plain entries r := by
  cases r with
  | ok H' =>
    refine ⟨?_, fun hp => ?_⟩
    · rcases hr.1 with rfl | h'
      · exact hH
      · exact .inr h'
    · obtain ⟨hp1, rfl⟩ := h hp
      exact ⟨(hr.2 hp1).1.trans hsym, (hr.2 hp1).2⟩
  | error f => exact ⟨hr.1, fun hp => hr.2 (h hp).1⟩

lemma Ends.isolated {r : Except Fault (Heap I E)} (hr : Ends H0 H i plain entries r) (h : Framed H0 i H) :
    Isolated H0 i r := by
  cases r with
  | ok H' =>
    rcases hr.1 with rfl | h'
    · exact h
    · exact h'.toFramed
  | error f => exact hr.1

lemma ends_emplaceHint {k : ℕ} (it : Iterator) (acc : Access I) (h : Owned H0 i H) (hit : it.list = H.self i)
    (hat : (H.operations i).concrete.At key pre rest)
    (hk : plain → (∀ p ∈ pre, p.1 < k) ∧ ∀ p ∈ rest, k < p.1) :
    Ends H0 H i plain (pre ++ (k, acc) :: rest) (H.emplaceHint i it k acc) := by
  obtain ⟨H', heq, howned, -, hops⟩ := emplaceHint_owned it k acc h hit
  rw [heq]
  refine ⟨.inr howned, fun hp => ?_⟩
  rw [hops, (hat.emplace (hk hp).1 (hk hp).2).entries, append_assoc]
  exact ⟨rfl, rfl⟩

/-! ## The conflicts to the right -/

lemma exists_insertRemaining (h : Framed H0 i H) (hat : (H.operations i).concrete.At key pre rest) :
    ∃ H', Owned H0 i H' ∧ H'.operations i = H.operations i ∧ H.insertRemaining i ⟨H.self i, key⟩ b e incoming =
      H'.emplaceHint i ⟨H'.self i, key⟩ b (incoming.access (e - b)) := by
  cases key with
  | none =>
    rw [insertRemaining, if_pos rfl, ok_bind, acquireEnd]
    obtain ⟨howned, hacq⟩ | ⟨-, H', hacq, howned, hops⟩ := acquire_cases h
    · exact ⟨H, howned, rfl, by rw [hacq]⟩
    · exact ⟨H', howned, hops, by rw [hacq]⟩
  | some k =>
    obtain ⟨_, hfind⟩ := hat.exists_find?
    obtain ⟨H', hacq, howned, hops⟩ := acquireAt_entry h hfind
    refine ⟨H', howned, hops, ?_⟩
    rw [insertRemaining, if_neg (by simp), hacq, ok_bind]

lemma ends_insertRemaining (h : Framed H0 i H) (hat : (H.operations i).concrete.At key pre rest)
    (hk : plain → (∀ p ∈ pre, p.1 < b) ∧ ∀ p ∈ rest, b < p.1) :
    Ends H0 H i plain (pre ++ (b, incoming.access (e - b)) :: rest)
      (H.insertRemaining i ⟨H.self i, key⟩ b e incoming) := by
  obtain ⟨H', howned, hops, heq⟩ := exists_insertRemaining h hat
  rw [heq]
  exact (ends_emplaceHint _ _ howned rfl (hops ▸ hat) hk).imp (.inr howned) (by rw [hops]) fun hp => ⟨hp, rfl⟩

/-- The bytes covered from `incomingBegin` on end inside the read, at a gap before a write that begins inside it. -/
def gapBeforeWrite (incomingEnd : ℕ) (incoming : MemoryOperation I E) : List (ℕ × Access I) → ℕ → Bool
  | [], _ => false
  | (itBegin, acc) :: rest, incomingBegin =>
    isRead incoming.type && decide (itBegin < incomingEnd) &&
      if itBegin = incomingBegin then gapBeforeWrite incomingEnd incoming rest (add64 itBegin acc.numBytes)
      else decide (incomingBegin < itBegin) && !isRead acc.type

omit [LinearOrder E] in
lemma gapBeforeWrite_of_not_isRead (h : isRead incoming.type = false) (rest : List (ℕ × Access I)) (b : ℕ) :
    gapBeforeWrite e incoming rest b = false := by
  cases rest with
  | nil => rfl
  | cons q rest => rw [gapBeforeWrite, h]; rfl

omit [LinearOrder E] in
lemma of_gapBeforeWrite (h : gapBeforeWrite e incoming rest b = true) :
    b < e ∧ isRead incoming.type = true ∧ ∀ p ∈ rest.head?, b ≤ p.1 := by
  cases rest with
  | nil => simp [gapBeforeWrite] at h
  | cons q rest =>
    simp only [gapBeforeWrite, and_eq_true, decide_eq_true_eq] at h
    obtain ⟨⟨hread, hlt⟩, h⟩ := h
    have hle : b ≤ q.1 := by
      split_ifs at h with hb
      · exact hb.ge
      · rw [and_eq_true, decide_eq_true_eq] at h
        exact h.1.le
    exact ⟨hle.trans_lt hlt, hread, by simpa using hle⟩

def Ahead (e b : ℕ) (pre rest : List (ℕ × Access I)) : Prop := Spaced b rest ∧ (∀ p ∈ pre, p.1 < b) ∧ b < e

lemma ends_rightConflicts (fuel : ℕ) (h : Framed H0 i H) (hat : (H.operations i).concrete.At key pre rest)
    (hfuel : rest.length < fuel) (hrw : (isRead incoming.type || isWrite incoming.type) = true)
    (hgap : 1 < H.useCount (H.self i) → gapBeforeWrite e incoming rest b = false) :
    Ends H0 H i (Ahead e b pre rest) (pre ++ sweep e incoming b rest)
      (rightConflicts i e incoming fuel H ⟨H.self i, key⟩ b) := by
  induction rest generalizing fuel H key b pre with
  | nil =>
    obtain ⟨fuel, rfl⟩ := Nat.exists_eq_add_of_lt hfuel
    obtain rfl : key = none := hat.position
    rw [rightConflicts, current_end]
    exact ends_insertRemaining h hat fun ha => ⟨ha.2.1, by simp⟩
  | cons q rest ih =>
    obtain ⟨k, acc⟩ := q
    obtain ⟨fuel, rfl⟩ := Nat.exists_eq_succ_of_ne_zero (Nat.ne_zero_of_lt hfuel)
    have hfuel' : rest.length < fuel := by simpa using hfuel
    obtain rfl : key = some k := hat.position
    have hle : ∀ p ∈ (k, acc) :: rest, k ≤ p.1 :=
      forall_mem_cons.mpr ⟨le_rfl, fun p hp => (hat.lt_of_mem_tail hp).le⟩
    have hadd : Ahead e b pre ((k, acc) :: rest) → add64 k acc.numBytes = k + acc.numBytes := fun ha =>
      add64_eq ha.1.2.2.1
    -- the loop goes on behind the entry
    have hbehind : ∀ {m : SortedMap ℕ (Access I)} {pre1}, m.At (some k) pre1 ((k, acc) :: rest) →
        add64 k acc.numBytes < e → Ahead e b pre ((k, acc) :: rest) →
        Ahead e (add64 k acc.numBytes) (pre1 ++ [(k, acc)]) rest := by
      intro m pre1 hat1 hlt ha
      rw [hadd ha] at hlt ⊢
      have hk : k < k + acc.numBytes := Nat.lt_add_of_pos_right ha.1.2.1
      refine ⟨ha.1.2.2.2.2, forall_mem_append.mpr ⟨fun p hp => ?_, by simpa using ha.1.2.1⟩, hlt⟩
      exact (hat1.lt_of_mem hp mem_cons_self).trans hk
    -- the loop goes on after the entry was extracted from the own list
    have hextract : ∀ {H1 : Heap I E}, Owned H0 i H1 → H1.operations i = H.operations i →
        (Ahead e b pre ((k, acc) :: rest) → sweep e incoming b ((k, acc) :: rest) = sweep e incoming b rest) →
        Ends H0 H i (Ahead e b pre ((k, acc) :: rest)) (pre ++ sweep e incoming b ((k, acc) :: rest))
          (H1.extract i ⟨H1.self i, some k⟩ >>= fun r =>
            rightConflicts i e incoming fuel r.1 (H1.nextOf ⟨H1.self i, some k⟩) b) := by
      intro H1 h₁ hops hsweep
      obtain ⟨H2, heq, h₂, hself, hsym, hat2⟩ := extract_at h₁ (hops ▸ hat)
      rw [heq, nextOf_key, ← hself]
      refine (ih fuel h₂.toFramed hat2 hfuel' fun hshared => absurd h₂.useCount hshared.ne').imp (.inr h₂)
        (by rw [hsym, hops]) fun ha => ⟨⟨ha.1.2.2.2.2.mono ?_, ha.2⟩, by rw [hsweep ha]⟩
      exact ha.1.1.trans (Nat.le_add_right _ _)
    -- the rest of the entry is inserted behind the operation
    have hinsert : ∀ {H1 : Heap I E} {key1 pre1} (it : Iterator), Owned H0 i H1 → it.list = H1.self i →
        (H1.operations i).symbolic = (H.operations i).symbolic → (H1.operations i).concrete.At key1 pre1 rest →
        ((∀ p ∈ pre, p.1 < b) → pre1 = pre ++ [(b, incoming.access (e - b))]) → e < add64 k acc.numBytes →
        (Ahead e b pre ((k, acc) :: rest) → sweep e incoming b ((k, acc) :: rest) =
          (b, incoming.access (e - b)) :: (e, acc) :: rest) →
        Ends H0 H i (Ahead e b pre ((k, acc) :: rest)) (pre ++ sweep e incoming b ((k, acc) :: rest))
          (H1.emplaceHint i it e acc) := by
      intro H1 key1 pre1 it h₁ hit hsym hat1 hpre1 hlt hsweep
      refine (ends_emplaceHint it acc h₁ hit hat1 fun ha => ⟨?_, fun p hp => ?_⟩).imp (.inr h₁) hsym
        fun ha => ⟨ha, by simp [hsweep ha, hpre1 ha.2.1]⟩
      · rw [hpre1 ha.2.1]
        exact forall_mem_append.mpr ⟨fun p hp => (ha.2.1 p hp).trans ha.2.2, by simpa using ha.2.2⟩
      · exact ((hadd ha) ▸ hlt).trans_le (ha.1.2.2.2.2.le_of_mem hp)
    rw [rightConflicts, current_entry hat.find?, ok_bind]
    dsimp only
    by_cases h1 : k < e
    swap
    · rw [if_neg h1]
      refine (ends_insertRemaining h hat fun ha => ⟨ha.2.1, fun p hp => ?_⟩).imp (.inl rfl) rfl
        fun ha => ⟨ha, by simp [sweep, h1]⟩
      exact ha.2.2.trans_le ((not_lt.mp h1).trans (hle p hp))
    rw [if_pos h1]
    by_cases h2 : k = b
    · subst h2
      rw [if_pos rfl]
      by_cases h3 : (isRead incoming.type || isWrite acc.type) = true
      · rw [if_pos h3]
        by_cases h4 : e ≤ add64 k acc.numBytes
        · rw [if_pos h4]
          exact ⟨.inl rfl, fun ha => ⟨rfl, by rw [hadd ha] at h4; simp [sweep, h1, h3, h4, hat.entries]⟩⟩
        · rw [if_neg h4]
          refine (ih fuel h hat.upperBound hfuel' fun hshared => ?_).imp (.inl rfl) rfl
            fun ha => ⟨hbehind hat (not_le.mp h4) ha, ?_⟩
          · cases hread : isRead incoming.type with
            | false => exact gapBeforeWrite_of_not_isRead hread rest _
            | true => simpa [gapBeforeWrite, hread, h1] using hgap hshared
          · rw [hadd ha] at h4 ⊢
            simp [sweep, h1, h3, h4]
      · rw [if_neg h3]
        obtain ⟨H', hacq, howned, hops⟩ := acquireAt_entry h hat.find?
        rw [hacq, ok_bind]
        split_ifs with h4 h5
        · rw [assign_entry (hops ▸ hat.find?)]
          refine ⟨.inr (howned.setConcrete _), fun ha => ?_⟩
          rw [ops_setConcrete, hops, (hat.replace _).entries]
          rw [hadd ha] at h4
          exact ⟨rfl, by simp [sweep, h1, h3, h4]⟩
        · refine hextract howned hops fun ha => ?_
          rw [hadd ha] at h4 h5
          simp [sweep, h1, h3, h4, h5]
        · obtain ⟨H1, heq1, h₁, hself1, hsym1, hat1⟩ := extract_at howned (hops ▸ hat)
          obtain ⟨H2, _, heq2, h₂, hself2, hsym2, hat2, hpre2⟩ := emplaceHint_at (H'.nextOf ⟨H'.self i, some k⟩)
            (incoming.access (e - k)) h₁ hself1.symm hat1 fun p hp => hat.lt_of_mem_tail hp
          rw [heq1, ok_bind]
          rw [heq2]
          refine hinsert _ h₂ (hself1.symm.trans hself2.symm) (by rw [hsym2, hsym1, hops]) hat2 hpre2 (by omega)
            fun ha => ?_
          rw [hadd ha] at h4 h5
          simp [sweep, h1, h3, h4, h5]
    · rw [if_neg h2]
      by_cases hassert : k < b
      · rw [if_pos hassert]
        exact ⟨rfl, fun ha => ha.1.1.not_gt hassert⟩
      have hbefore : ∀ p ∈ (k, acc) :: rest, b < p.1 := fun p hp =>
        (lt_of_le_of_ne (not_lt.mp hassert) (Ne.symm h2)).trans_le (hle p hp)
      by_cases h3 : (isWrite incoming.type || isRead acc.type) = true
      · rw [if_pos h3]
        obtain ⟨H', hacq, howned, hops⟩ := acquireAt_entry h hat.find?
        rw [hacq, ok_bind]
        split_ifs with h4
        · refine hextract howned hops fun ha => ?_
          rw [hadd ha] at h4
          simp [sweep, h1, h2, h3, h4]
        · obtain ⟨H1, pre1, heq1, h₁, hself1, hsym1, hat1, hpre1⟩ := emplaceHint_at ⟨H'.self i, some k⟩
            (incoming.access (e - b)) howned rfl (hops ▸ hat) hbefore
          obtain ⟨H2, heq2, h₂, hself2, hsym2, hat2⟩ := extract_at h₁ hat1
          rw [heq1, ok_bind, ← hself1, heq2]
          refine hinsert _ h₂ hself2.symm (by rw [hsym2, hsym1, hops]) hat2 hpre1 (not_le.mp h4) fun ha => ?_
          rw [hadd ha] at h4
          simp [sweep, h1, h2, h3, h4]
      · rw [if_neg h3]
        obtain ⟨hwrite, hacc⟩ : isWrite incoming.type = false ∧ isRead acc.type = false := by simpa using h3
        have hread : isRead incoming.type = true := by simpa [hwrite] using hrw
        -- no call to `acquire` precedes this insertion
        have howned : Owned H0 i H := by
          obtain ⟨howned, -⟩ | ⟨hshared, -⟩ := acquire_cases h
          · exact howned
          · have hkb : k ≤ b := by simpa [gapBeforeWrite, hread, h1, h2, hacc] using hgap hshared
            exact absurd hkb (hbefore _ mem_cons_self).not_ge
        obtain ⟨H1, pre1, heq1, h₁, hself1, hsym1, hat1, hpre1⟩ := emplaceHint_at ⟨H.self i, some k⟩
          (incoming.access (k - b)) howned rfl hat hbefore
        rw [heq1, ok_bind]
        split_ifs with h4
        · refine ⟨.inr h₁, fun ha => ⟨hsym1, ?_⟩⟩
          rw [hadd ha] at h4
          simp [hat1.entries, hpre1 ha.2.1, sweep, h1, h2, hwrite, hacc, h4]
        · rw [← hself1]
          refine (ih fuel h₁.toFramed hat1.upperBound hfuel' fun hshared => absurd h₁.useCount hshared.ne').imp
            (.inr h₁) hsym1 fun ha => ⟨hbehind hat1 (not_le.mp h4) ha, ?_⟩
          rw [hadd ha] at h4 ⊢
          simp [hpre1 ha.2.1, sweep, h1, h2, hwrite, hacc, h4]

lemma rightConflicts_notOwned (fuel : ℕ) (hat : (H.operations i).concrete.At key pre rest)
    (hfuel : rest.length < fuel) (hshared : 1 < H.useCount (H.self i))
    (hgap : gapBeforeWrite e incoming rest b = true) :
    rightConflicts i e incoming fuel H ⟨H.self i, key⟩ b = .error .notOwned := by
  induction rest generalizing fuel key b pre with
  | nil => simp [gapBeforeWrite] at hgap
  | cons q rest ih =>
    obtain ⟨k, acc⟩ := q
    obtain ⟨fuel, rfl⟩ := Nat.exists_eq_succ_of_ne_zero (Nat.ne_zero_of_lt hfuel)
    have hfuel' : rest.length < fuel := by simpa using hfuel
    obtain rfl : key = some k := hat.position
    simp only [gapBeforeWrite, and_eq_true, decide_eq_true_eq] at hgap
    obtain ⟨⟨hread, hlt⟩, hgap⟩ := hgap
    rw [rightConflicts, current_entry hat.find?, ok_bind]
    dsimp only
    rw [if_pos hlt]
    by_cases hbegin : k = b
    · rw [if_pos hbegin] at hgap
      have hend : add64 k acc.numBytes < e := (of_gapBeforeWrite hgap).1
      rw [if_pos hbegin, hread, Bool.true_or, if_neg (not_le.mpr hend)]
      exact ih fuel hat.upperBound hfuel' hgap
    · rw [if_neg hbegin, and_eq_true, decide_eq_true_eq, not_eq_true'] at hgap
      have hwrite : isWrite incoming.type = false := by
        cases htype : incoming.type <;> simp_all [isRead, isWrite]
      rw [if_neg hbegin, if_neg hgap.1.not_gt, hwrite, hgap.2, emplaceHint_shared hshared]
      rfl

/-! ## The conflict to the left -/

variable (m : SortedMap ℕ (Access I))

variable (incomingBegin : ℕ)

/-- The entry that begins before `incomingBegin`, unless one begins there. -/
def leftEntry : Option (ℕ × Access I) :=
  if m.lowerBound incomingBegin = some incomingBegin then none else m.prev (m.lowerBound incomingBegin)

/-- The first byte from `incomingBegin` on that the entry to the left does not cover. -/
def leftEnd : ℕ :=
  match leftEntry m incomingBegin with
  | none => incomingBegin
  | some (prevBegin, acc) => max incomingBegin (add64 prevBegin acc.numBytes)

/-- A write that begins inside a read after which no entry begins. -/
def splitsLastRead (incoming : MemoryOperation I E) : Bool :=
  m.lowerBound incomingBegin = none && (leftEntry m incomingBegin).any fun p =>
    incomingBegin < add64 p.1 p.2.numBytes && !(isWrite p.2.type || isRead incoming.type)

/-- The two ways in which a call misses that it has to acquire the list. -/
def missesAcquire (incoming : MemoryOperation I E) : Bool :=
  splitsLastRead m incomingBegin incoming ||
    gapBeforeWrite (add64 incomingBegin incoming.numBytes) incoming
      (m.entries.filter fun p => decide (incomingBegin ≤ p.1)) (leftEnd m incomingBegin)

section
variable {prevBegin : ℕ} {acc : Access I}

lemma prevOf_self : H.prevOf ⟨H.self i, key⟩ =
    ((H.operations i).concrete.prev key).map fun entry => ⟨H.self i, some entry.1⟩ := rfl

omit [LinearOrder E] in
lemma exists_of_leftEntry {m : SortedMap ℕ (Access I)} {entry : ℕ × Access I} (hat : m.At (m.lowerBound b) pre rest)
    (hleft : leftEntry m b = some entry) : ∃ ps, pre = ps ++ [entry] ∧ m.At (some entry.1) ps (entry :: rest) := by
  rw [leftEntry] at hleft
  split_ifs at hleft
  rw [hat.prev, getLast?_eq_some_iff] at hleft
  obtain ⟨ps, rfl⟩ := hleft
  exact ⟨ps, rfl, by rw [hat.entries, append_assoc]; rfl, rfl⟩

lemma leftConflict_none (hleft : leftEntry (H.operations i).concrete b = none) :
    H.leftConflict i ⟨H.self i, (H.operations i).concrete.lowerBound b⟩ b e incoming =
      .ok (.inr (H, ⟨H.self i, (H.operations i).concrete.lowerBound b⟩, b)) := by
  rw [leftEntry] at hleft
  rw [leftConflict]
  split_ifs at hleft ⊢
  · rfl
  · rw [prevOf_self, hleft]
    rfl

lemma leftConflict_some (hleft : leftEntry (H.operations i).concrete b = some (prevBegin, acc))
    (hfind : (H.operations i).concrete.find? prevBegin = some acc) :
    H.leftConflict i ⟨H.self i, (H.operations i).concrete.lowerBound b⟩ b e incoming =
    if b < add64 prevBegin acc.numBytes then
      if isWrite acc.type || isRead incoming.type then
        if e ≤ add64 prevBegin acc.numBytes then .ok (.inl H)
        else .ok (.inr (H, ⟨H.self i, (H.operations i).concrete.lowerBound b⟩, add64 prevBegin acc.numBytes))
      else H.splitLeft i ⟨H.self i, (H.operations i).concrete.lowerBound b⟩ ⟨H.self i, some prevBegin⟩ prevBegin acc b e
        incoming
    else .ok (.inr (H, ⟨H.self i, (H.operations i).concrete.lowerBound b⟩, b)) := by
  rw [leftEntry] at hleft
  split_ifs at hleft with hk
  rw [leftConflict, if_neg hk, prevOf_self, hleft]
  simp only [map_some]
  rw [deref_entry hfind]
  rfl

lemma splitLeft_framed (b e : ℕ) (incoming : MemoryOperation I E) (h : Framed H0 i H)
    (hat : (H.operations i).concrete.At (some prevBegin) pre ((prevBegin, acc) :: rest))
    (hit : (H.operations i).concrete.At key (pre ++ [(prevBegin, acc)]) rest)
    (hsplit : 1 < H.useCount (H.self i) → key ≠ none) :
    ∃ H', Owned H0 i H' ∧ (H'.operations i).symbolic = (H.operations i).symbolic ∧
      (H'.operations i).concrete.At key (pre ++ [(prevBegin, { acc with numBytes := b - prevBegin })]) rest ∧
      H.splitLeft i ⟨H.self i, key⟩ ⟨H.self i, some prevBegin⟩ prevBegin acc b e incoming =
        if e < add64 prevBegin acc.numBytes then do
          let H ← H'.emplaceHint i ⟨H'.self i, key⟩ b (incoming.access incoming.numBytes)
          let H ← H.emplaceHint i ⟨H'.self i, key⟩ e { acc with numBytes := add64 prevBegin acc.numBytes - e }
          return .inl H
        else return .inr (H', ⟨H'.self i, key⟩, b) := by
  have hat' : ∀ {H' : Heap I E}, H'.operations i = H.operations i →
      ((H'.setConcrete (H'.self i) ((H'.operations i).concrete.insert prevBegin
        { acc with numBytes := b - prevBegin })).operations i).concrete.At key
        (pre ++ [(prevBegin, { acc with numBytes := b - prevBegin })]) rest := by
    intro H' hops
    rw [ops_setConcrete, hops]
    refine ⟨?_, hit.position⟩
    rw [(hat.replace _).entries, append_assoc]
    rfl
  obtain ⟨howned, hacq⟩ | ⟨hshared, H', hacq, howned, hops⟩ := acquire_cases h
  · refine ⟨_, howned.setConcrete _, by rw [ops_setConcrete], hat' rfl, ?_⟩
    rw [splitLeft, hacq]
    simp only [false_eq_true, if_false]
    rw [assign_entry hat.find?]
    rfl
  · refine ⟨_, howned.setConcrete _, by rw [ops_setConcrete, hops], hat' hops, ?_⟩
    obtain ⟨k, rfl⟩ := ne_none_iff_exists'.mp (hsplit hshared)
    have hk : ((H'.operations i).concrete.find? k).isSome := by
      obtain ⟨_, hfind⟩ := hit.exists_find?
      rw [hops, hfind]
      rfl
    have hprev : H'.prevOf ⟨H'.self i, some k⟩ = some ⟨H'.self i, some prevBegin⟩ := by
      rw [prevOf_self, hops, hit.prev]
      simp
    rw [splitLeft, hacq]
    simp only [if_true, relocate, hk, ok_bind, hprev, getD_some]
    rw [assign_entry (hops ▸ hat.find?)]
    rfl

omit [LinearOrder E] in
lemma record_eq_sweep (h : ∀ p ∈ pre.getLast?, p.1 + p.2.numBytes ≤ b) :
    record b e incoming pre rest = pre ++ sweep e incoming b rest := by
  cases hlast : pre.getLast? with
  | none => simp [record, getLast?_eq_none_iff.mp hlast]
  | some entry => simp only [record, hlast, if_neg (h entry hlast).not_gt]

end

def Regular (b : ℕ) (incoming : MemoryOperation I E) (entries : List (ℕ × Access I)) : Prop :=
  Spaced 0 entries ∧ 0 < incoming.numBytes ∧ b + incoming.numBytes < 2 ^ 64

lemma ends_registerConcrete (h : Framed H0 i H)
    (hat : (H.operations i).concrete.At ((H.operations i).concrete.lowerBound b) pre rest)
    (hpre : ∀ p ∈ pre, p.1 < b) (hrest : ∀ p ∈ rest, b ≤ p.1)
    (hrw : (isRead incoming.type || isWrite incoming.type) = true)
    (hmiss : 1 < H.useCount (H.self i) → missesAcquire (H.operations i).concrete b incoming = false) :
    Ends H0 H i (Regular b incoming (pre ++ rest)) (record b (b + incoming.numBytes) incoming pre rest)
      (H.registerConcreteMemoryOperation i b incoming) := by
  have hadd : b + incoming.numBytes < 2 ^ 64 → add64 b incoming.numBytes = b + incoming.numBytes := add64_eq
  have hspaced : Spaced 0 (pre ++ rest) → Spaced b rest := by
    intro hs
    cases rest with
    | nil => trivial
    | cons q rest => exact ⟨hrest q mem_cons_self, hs.suffix.2⟩
  have hgap : 1 < H.useCount (H.self i) → gapBeforeWrite (add64 b incoming.numBytes) incoming rest
      (leftEnd (H.operations i).concrete b) = false := by
    intro hshared
    rw [← hat.filter_eq hpre hrest]
    exact (or_eq_false_iff.mp (hmiss hshared)).2
  rw [registerConcreteMemoryOperation]
  -- the loop over the conflicts to the right, from what the conflict to the left leaves
  have hloop : ∀ {H1 : Heap I E} {pre1 : List (ℕ × Access I)} {b1 : ℕ}, (H1 = H ∨ Owned H0 i H1) →
      (H1.operations i).symbolic = (H.operations i).symbolic →
      (H1.operations i).concrete.At ((H.operations i).concrete.lowerBound b) pre1 rest →
      (1 < H1.useCount (H1.self i) → H1 = H ∧ b1 = leftEnd (H.operations i).concrete b) →
      (Regular b incoming (pre ++ rest) → Ahead (b + incoming.numBytes) b1 pre1 rest ∧
        pre1 ++ sweep (b + incoming.numBytes) incoming b1 rest = record b (b + incoming.numBytes) incoming pre rest) →
      Ends H0 H i (Regular b incoming (pre ++ rest)) (record b (b + incoming.numBytes) incoming pre rest)
        (if ((H.operations i).concrete.lowerBound b).all (b1 ≤ ·) then
          rightConflicts i (add64 b incoming.numBytes) incoming ((H1.operations i).concrete.size + 1) H1
            ⟨H1.self i, (H.operations i).concrete.lowerBound b⟩ b1
        else .error .assertion) := by
    intro H1 pre1 b1 hH hsym hat1 hb1 hplain
    have hframed : Framed H0 i H1 := by
      rcases hH with rfl | h1
      · exact h
      · exact h1.toFramed
    split_ifs with hall
    · refine (ends_rightConflicts _ hframed hat1 ?_ hrw fun hshared => ?_).imp hH hsym fun hp => ?_
      · rw [SortedMap.size, hat1.entries, length_append]
        omega
      · obtain ⟨rfl, rfl⟩ := hb1 hshared
        exact hgap hshared
      · rw [hadd hp.2.2]
        exact hplain hp
    · refine ⟨rfl, fun hp => hall ?_⟩
      rw [hat.position, Option.all_map, Option.all_eq_true]
      exact fun q hq => decide_eq_true ((hplain hp).1.1.le_of_mem (mem_of_mem_head? hq))
  -- no conflict to the left
  have hnone : leftEnd (H.operations i).concrete b = b →
      (Spaced 0 (pre ++ rest) → ∀ p ∈ pre.getLast?, p.1 + p.2.numBytes ≤ b) → Ends H0 H i _ _ _ := fun hend hlast =>
    hloop (.inl rfl) rfl hat (fun _ => ⟨rfl, hend.symm⟩) fun hp =>
      ⟨⟨hspaced hp.1, hpre, Nat.lt_add_of_pos_right hp.2.1⟩, (record_eq_sweep (hlast hp.1)).symm⟩
  cases hleft : leftEntry (H.operations i).concrete b with
  | none =>
    rw [leftConflict_none hleft]
    refine hnone (by rw [leftEnd, hleft]) fun hs p hp => ?_
    rw [leftEntry, hat.prev, ite_eq_left_iff] at hleft
    obtain ⟨ps, rfl⟩ := getLast?_eq_some_iff.mp hp
    have hlower : (H.operations i).concrete.lowerBound b = some b := by
      by_contra hne
      simp [hleft hne] at hp
    rw [hat.position] at hlower
    cases rest with
    | nil => cases hlower
    | cons q rest =>
      rw [append_assoc] at hs
      exact (hs.suffix.2.2.2.2.le_of_mem mem_cons_self).trans_eq (some.inj hlower)
  | some entry =>
    obtain ⟨prevBegin, acc⟩ := entry
    obtain ⟨ps, rfl, hat'⟩ := exists_of_leftEntry hat hleft
    have hs' : Spaced 0 (ps ++ [(prevBegin, acc)] ++ rest) → add64 prevBegin acc.numBytes = prevBegin + acc.numBytes ∧
        Spaced (prevBegin + acc.numBytes) rest := by
      intro hs
      rw [append_assoc] at hs
      exact ⟨add64_eq hs.suffix.2.2.1, hs.suffix.2.2.2.2⟩
    rw [leftConflict_some hleft hat'.find?]
    by_cases hlt : b < add64 prevBegin acc.numBytes
    swap
    · rw [if_neg hlt]
      refine hnone (by simp only [leftEnd, hleft]; omega) fun hs p hp => ?_
      obtain rfl : (prevBegin, acc) = p := by simpa using hp
      rw [← (hs' hs).1]
      exact not_lt.mp hlt
    by_cases hkeep : (isWrite acc.type || isRead incoming.type) = true
    · rw [if_pos hkeep]
      split_ifs with hcov
      · refine ⟨.inl rfl, fun hp => ⟨rfl, ?_⟩⟩
        rw [(hs' hp.1).1] at hlt hcov
        simp [record, hlt, hkeep, hadd hp.2.2 ▸ hcov, hat.entries]
      · refine hloop (.inl rfl) rfl hat (fun _ => ⟨rfl, ?_⟩) fun hp => ?_
        · simp only [leftEnd, hleft]
          omega
        · obtain ⟨hadd', hsrest⟩ := hs' hp.1
          rw [hadd', hadd hp.2.2] at hcov
          rw [hadd'] at hlt ⊢
          exact ⟨⟨hsrest, fun p hp => (hpre p hp).trans hlt, not_le.mp hcov⟩, by simp [record, hlt, hkeep, hcov]⟩
    · rw [if_neg hkeep]
      have hend : 1 < H.useCount (H.self i) → (H.operations i).concrete.lowerBound b ≠ none := by
        intro hshared hend
        obtain ⟨hwrite, hread⟩ : isWrite acc.type = false ∧ isRead incoming.type = false := by simpa using hkeep
        have hsplit := (or_eq_false_iff.mp (hmiss hshared)).1
        simp [splitsLastRead, hend, hleft, hlt, hwrite, hread] at hsplit
      obtain ⟨H1, h1, hsym1, hat1, heq1⟩ := splitLeft_framed b (add64 b incoming.numBytes) incoming h hat' hat hend
      have hpre1 : ∀ p ∈ ps ++ [(prevBegin, { acc with numBytes := b - prevBegin })], p.1 < b :=
        forall_mem_append.mpr ⟨(forall_mem_append.mp hpre).1, by simpa using hpre (prevBegin, acc) (by simp)⟩
      rw [heq1]
      split_ifs with hcov
      · obtain ⟨H2, heq2, h2, hself2, hops2⟩ := emplaceHint_owned ⟨H1.self i, (H.operations i).concrete.lowerBound b⟩ b
          (incoming.access incoming.numBytes) h1 rfl
        obtain ⟨H3, heq3, h3, -, hops3⟩ := emplaceHint_owned ⟨H1.self i, (H.operations i).concrete.lowerBound b⟩
          (add64 b incoming.numBytes) { acc with numBytes := add64 prevBegin acc.numBytes - add64 b incoming.numBytes }
          h2 hself2.symm
        rw [heq2, ok_bind, heq3]
        refine ⟨.inr h3, fun hp => ?_⟩
        obtain ⟨hadd', hsrest⟩ := hs' hp.1
        rw [hops3, hops2, hadd hp.2.2, hadd']
        rw [hadd', hadd hp.2.2] at hcov
        rw [hadd'] at hlt
        have hb : b < b + incoming.numBytes := Nat.lt_add_of_pos_right hp.2.1
        have hbehind : ∀ p ∈ rest, b + incoming.numBytes < p.1 := fun p hp => hcov.trans_le (hsrest.le_of_mem hp)
        have hat2 := hat1.emplace (v := incoming.access incoming.numBytes) hpre1 fun p hp => hb.trans (hbehind p hp)
        refine ⟨hsym1, ?_⟩
        rw [(hat2.emplace (forall_mem_append.mpr
          ⟨fun p hp => (hpre1 p hp).trans hb, by simpa using hb⟩) hbehind).entries]
        simp [record, hlt, hkeep, hcov]
      · refine hloop (.inr h1) hsym1 hat1 (fun hshared => absurd h1.useCount hshared.ne') fun hp => ?_
        rw [(hs' hp.1).1] at hlt hcov
        exact ⟨⟨hspaced hp.1, hpre1, Nat.lt_add_of_pos_right hp.2.1⟩,
          by rw [hadd hp.2.2] at hcov; simp [record, hlt, hkeep, hcov]⟩

lemma registerConcrete_isolated (h : Framed H0 i H)
    (hrw : (isRead incoming.type || isWrite incoming.type) = true)
    (hmiss : 1 < H.useCount (H.self i) → missesAcquire (H.operations i).concrete b incoming = false) :
    Isolated H0 i (H.registerConcreteMemoryOperation i b incoming) := by
  obtain ⟨_, _, hat, hpre, hrest⟩ := (H.operations i).concrete.at_lowerBound b
  exact (ends_registerConcrete h hat hpre hrest hrw hmiss).isolated h

lemma leftConflict_read (hat : (H.operations i).concrete.At
      ((H.operations i).concrete.lowerBound b) pre rest) (hread : isRead incoming.type = true)
    (hend : leftEnd (H.operations i).concrete b < e) :
    H.leftConflict i ⟨H.self i, (H.operations i).concrete.lowerBound b⟩ b e incoming = .ok
      (.inr (H, ⟨H.self i, (H.operations i).concrete.lowerBound b⟩,
        leftEnd (H.operations i).concrete b)) := by
  cases hleft : leftEntry (H.operations i).concrete b with
  | none => rw [leftConflict_none hleft, leftEnd, hleft]
  | some entry =>
    obtain ⟨prevBegin, acc⟩ := entry
    obtain ⟨ps, -, hprev⟩ := exists_of_leftEntry hat hleft
    have hmax : leftEnd (H.operations i).concrete b = max b (add64 prevBegin acc.numBytes) := by rw [leftEnd, hleft]
    rw [hmax] at hend ⊢
    rw [leftConflict_some hleft hprev.find?, hread, Bool.or_true, if_pos rfl]
    split_ifs with hlt hle
    · omega
    · rw [max_eq_right hlt.le]
    · rw [max_eq_left (not_lt.mp hlt)]

/-- On a shared list one path looks up where `end()` points, the other changes the list without owning it. -/
lemma registerConcrete_missed (hshared : 1 < H.useCount (H.self i))
    (hmiss : missesAcquire (H.operations i).concrete b incoming = true) :
    H.registerConcreteMemoryOperation i b incoming = .error .endDereferenced ∨
      H.registerConcreteMemoryOperation i b incoming = .error .notOwned := by
  obtain ⟨_, rest, hat, hpre, hrest⟩ := (H.operations i).concrete.at_lowerBound b
  rw [registerConcreteMemoryOperation]
  by_cases hsplit : splitsLastRead (H.operations i).concrete b incoming = true
  · left
    simp only [splitsLastRead, Bool.and_eq_true, decide_eq_true_eq, Option.any_eq_true] at hsplit
    obtain ⟨hend, ⟨_, acc⟩, hleft, hlt, hkeep⟩ := hsplit
    obtain ⟨ps, -, hprev⟩ := exists_of_leftEntry hat hleft
    have hkeep' : ¬ (isWrite acc.type || isRead incoming.type) = true := by simpa using hkeep
    rw [leftConflict_some hleft hprev.find?, if_pos hlt, if_neg hkeep', splitLeft, acquire, if_pos hshared, hend]
    rfl
  · right
    have hgap : gapBeforeWrite (add64 b incoming.numBytes) incoming rest
        (leftEnd (H.operations i).concrete b) = true := by
      rw [missesAcquire, Bool.or_eq_true] at hmiss
      rw [← hat.filter_eq hpre hrest]
      exact hmiss.resolve_left hsplit
    obtain ⟨hend, hread, hbegin⟩ := of_gapBeforeWrite hgap
    have hall : ((H.operations i).concrete.lowerBound b).all
        (leftEnd (H.operations i).concrete b ≤ ·) = true := by
      rw [hat.position]
      simpa [Option.all_eq_true] using hbegin
    rw [leftConflict_read hat hread hend, ok_bind]
    dsimp only
    rw [if_pos hall]
    refine rightConflicts_notOwned _ hat ?_ hshared hgap
    rw [SortedMap.size, hat.entries, length_append]
    omega

end RaceDetection.Heap
