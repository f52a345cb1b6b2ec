import PorSe.RaceDetection.ObjectAccesses

/-! The concrete accesses as a list of intervals. `record` is what one operation makes
of the list; unless it moves a key, the bytes of the entries change as they should. -/

namespace RaceDetection
open List
variable {I E : Type}

variable (types : AccessType → Bool)

variable (entries : List (ℕ × Access I))

def Covered (x : ℕ) : Prop :=
  ∃ p ∈ entries, types p.2.type = true ∧ p.1 ≤ x ∧ x < p.1 + p.2.numBytes

@[simp] lemma covered_nil (x : ℕ) : ¬ Covered types ([] : List (ℕ × Access I)) x := by
  simp [Covered]

@[simp] lemma covered_cons (p : ℕ × Access I) (ps : List (ℕ × Access I)) (x : ℕ) : Covered types (p :: ps) x ↔
      (types p.2.type = true ∧ p.1 ≤ x ∧ x < p.1 + p.2.numBytes) ∨ Covered types ps x := by
  simp [Covered]

@[simp] lemma covered_append (ps qs : List (ℕ × Access I)) (x : ℕ) :
    Covered types (ps ++ qs) x ↔ Covered types ps x ∨ Covered types qs x := by
  simp only [Covered, mem_append, or_and_right, exists_or]

/-- Entries from `b` on, one after the other, non-empty reads or writes that end below `2 ^ 64`. -/
def Spaced : ℕ → List (ℕ × Access I) → Prop
  | _, [] => True
  | b, (k, acc) :: rest => b ≤ k ∧ 0 < acc.numBytes ∧ k + acc.numBytes < 2 ^ 64 ∧
      (isRead acc.type || isWrite acc.type) = true ∧ Spaced (k + acc.numBytes) rest

/-- The entries that the loop over the conflicts to the right leaves. -/
def sweep (e : ℕ) (op : MemoryOperation I E) : ℕ → List (ℕ × Access I) → List (ℕ × Access I)
  | b, [] => [(b, op.access (e - b))]
  | b, (k, acc) :: rest =>
    if k < e then
      if k = b then
        if isRead op.type || isWrite acc.type then
          if e ≤ k + acc.numBytes then (k, acc) :: rest else (k, acc) :: sweep e op (k + acc.numBytes) rest
        else if k + acc.numBytes = e then (k, { acc with instruction := op.instruction, type := op.type }) :: rest
        else if k + acc.numBytes < e then sweep e op b rest
        else (b, op.access (e - b)) :: (e, acc) :: rest
      else if isWrite op.type || isRead acc.type then
        if k + acc.numBytes ≤ e then sweep e op b rest
        else (b, op.access (e - b)) :: (e, acc) :: rest
      else if e ≤ k + acc.numBytes then (b, op.access (k - b)) :: (k, acc) :: rest
      else (b, op.access (k - b)) :: (k, acc) :: sweep e op (k + acc.numBytes) rest
    else (b, op.access (e - b)) :: (k, acc) :: rest

/-- The loop gives an entry the key `e` without shortening it. -/
def movesIn (e : ℕ) (op : MemoryOperation I E) : ℕ → List (ℕ × Access I) → Bool
  | _, [] => false
  | b, (k, acc) :: rest =>
    decide (k < e) &&
      if k = b then
        if isRead op.type || isWrite acc.type then
          decide (k + acc.numBytes < e) && movesIn e op (k + acc.numBytes) rest
        else decide (e < k + acc.numBytes) || decide (k + acc.numBytes < e) && movesIn e op b rest
      else if isWrite op.type || isRead acc.type then decide (e < k + acc.numBytes) || movesIn e op b rest
      else decide (k + acc.numBytes < e) && movesIn e op (k + acc.numBytes) rest

variable {b x e k : ℕ} {ps rest qs pre : List (ℕ × Access I)} {types : AccessType → Bool} {op : MemoryOperation I E}
  {acc : Access I}

lemma Spaced.mono {b' : ℕ} (h : Spaced b ps) (hb : b' ≤ b) : Spaced b' ps := by
  cases ps with
  | nil => trivial
  | cons p ps => exact ⟨hb.trans h.1, h.2⟩

lemma Spaced.of_le {b' : ℕ} (h : Spaced b' ps) (hb : ∀ p ∈ ps, b ≤ p.1) : Spaced b ps := by
  cases ps with
  | nil => trivial
  | cons p ps => exact ⟨hb p mem_cons_self, h.2⟩

lemma Spaced.le_of_covered (h : Spaced b ps) (hx : Covered types ps x) : b ≤ x := by
  induction ps generalizing b with
  | nil => exact absurd hx (covered_nil types x)
  | cons p ps ih =>
    obtain ⟨hb, _, -, -, hps⟩ := h
    rcases (covered_cons types p ps x).mp hx with ⟨-, hp, -⟩ | hx
    · exact hb.trans hp
    · have := ih hps hx
      omega

lemma isWrite_eq_not {t : AccessType} (h : (isRead t || isWrite t) = true) : isWrite t = !isRead t := by
  cases t <;> simp_all [isRead, isWrite]

lemma Spaced.access (h : Spaced k rest) (hb : b < k) (hk : k < 2 ^ 64)
    (hop : (isRead op.type || isWrite op.type) = true) : Spaced b ((b, op.access (k - b)) :: rest) := by
  have hend : b + (k - b) = k := by omega
  refine ⟨le_rfl, Nat.sub_pos_of_lt hb, ?_, hop, ?_⟩ <;> simpa only [MemoryOperation.access, hend]

lemma sweep_spec (hs : Spaced b rest) (hb : b < e) (he : e < 2 ^ 64)
    (hop : (isRead op.type || isWrite op.type) = true) (hmoves : movesIn e op b rest = false) :
    Spaced b (sweep e op b rest) ∧
    (∀ x, Covered isWrite (sweep e op b rest) x ↔ Covered isWrite rest x ∨ isWrite op.type = true ∧ b ≤ x ∧ x < e) ∧
    ∀ x, Covered isRead (sweep e op b rest) x ↔ Covered isRead rest x ∧ ¬ (isWrite op.type = true ∧ b ≤ x ∧ x < e) ∨
        isRead op.type = true ∧ b ≤ x ∧ x < e ∧ ¬ Covered isWrite rest x := by
  have hw := isWrite_eq_not hop
  induction rest generalizing b with
  | nil =>
    refine ⟨Spaced.access trivial hb he hop, fun x => ?_, fun x => ?_⟩
    all_goals simp only [sweep, MemoryOperation.access, covered_cons, covered_nil]
    all_goals grind
  | cons p rest ih =>
    obtain ⟨k, acc⟩ := p
    obtain ⟨hbk, hpos, hend, hacc, hrest⟩ := hs
    have haw := isWrite_eq_not hacc
    have hle : ∀ types x, Covered types rest x → k + acc.numBytes ≤ x := fun _ _ hx => hrest.le_of_covered hx
    simp only [movesIn] at hmoves
    simp only [sweep]
    split_ifs with h1 h2 h3 h4 h5 h6 h7 h8 h9
    · refine ⟨⟨hbk, hpos, hend, hacc, hrest⟩, fun x => ?_, fun x => ?_⟩
      all_goals simp only [covered_cons]
      all_goals grind
    · obtain ⟨ihs, _, _⟩ := ih hrest (not_le.mp h4) (by grind)
      refine ⟨⟨hbk, hpos, hend, hacc, ihs⟩, fun x => ?_, fun x => ?_⟩
      all_goals simp only [covered_cons]
      all_goals grind
    · refine ⟨⟨hbk, hpos, hend, hop, hrest⟩, fun x => ?_, fun x => ?_⟩
      all_goals simp only [covered_cons]
      all_goals grind
    · obtain ⟨ihs, _, _⟩ := ih (hrest.mono (by omega)) hb (by grind)
      refine ⟨ihs, fun x => ?_, fun x => ?_⟩
      all_goals simp only [covered_cons]
      all_goals grind
    · grind
    · obtain ⟨ihs, _, _⟩ := ih (hrest.mono (by omega)) hb (by grind)
      refine ⟨ihs, fun x => ?_, fun x => ?_⟩
      all_goals simp only [covered_cons]
      all_goals grind
    · grind
    · refine ⟨Spaced.access ⟨le_rfl, hpos, hend, hacc, hrest⟩ (by omega) (by omega) hop, fun x => ?_, fun x => ?_⟩
      all_goals simp only [covered_cons, MemoryOperation.access]
      all_goals grind
    · obtain ⟨ihs, _, _⟩ := ih hrest (by omega) (by grind)
      refine ⟨Spaced.access ⟨le_rfl, hpos, hend, hacc, ihs⟩ (by omega) (by omega) hop, fun x => ?_, fun x => ?_⟩
      all_goals simp only [covered_cons, MemoryOperation.access]
      all_goals grind
    · refine ⟨Spaced.access ⟨not_lt.mp h1, hpos, hend, hacc, hrest⟩ hb he hop, fun x => ?_, fun x => ?_⟩
      all_goals simp only [covered_cons, MemoryOperation.access]
      all_goals grind

lemma exists_moved (hmoves : movesIn e op b rest = true) :
    ∃ ps k acc qs qs', rest = ps ++ (k, acc) :: qs ∧ sweep e op b rest = qs' ++ (e, acc) :: qs ∧
      k < e ∧ e < k + acc.numBytes := by
  induction rest generalizing b with
  | nil => simp [movesIn] at hmoves
  | cons p rest ih =>
    obtain ⟨k, acc⟩ := p
    -- the entry moved lies further to the right
    have hlater : ∀ {b' : ℕ} (kept : List (ℕ × Access I)), movesIn e op b' rest = true →
        ∃ ps k' acc' qs qs', (k, acc) :: rest = ps ++ (k', acc') :: qs ∧
          kept ++ sweep e op b' rest = qs' ++ (e, acc') :: qs ∧ k' < e ∧ e < k' + acc'.numBytes := by
      intro b' kept hm
      obtain ⟨ps, k', acc', qs, qs', hrest, hsweep, hlt⟩ := ih hm
      exact ⟨(k, acc) :: ps, k', acc', qs, kept ++ qs', by rw [hrest]; rfl, by rw [hsweep, append_assoc], hlt⟩
    simp only [movesIn, Bool.and_eq_true, decide_eq_true_eq] at hmoves
    obtain ⟨hk, hmoves⟩ := hmoves
    simp only [sweep, if_pos hk]
    by_cases h2 : k = b
    · rw [if_pos h2] at hmoves ⊢
      by_cases h3 : (isRead op.type || isWrite acc.type) = true
      · rw [if_pos h3, Bool.and_eq_true, decide_eq_true_eq] at hmoves
        rw [if_pos h3, if_neg (not_le.mpr hmoves.1)]
        exact hlater [(k, acc)] hmoves.2
      · rw [if_neg h3, Bool.or_eq_true, Bool.and_eq_true, decide_eq_true_eq, decide_eq_true_eq] at hmoves
        split_ifs with h4 h5
        · omega
        · exact hlater [] (hmoves.resolve_left (by omega)).2
        · exact ⟨[], k, acc, rest, [(b, op.access (e - b))], rfl, rfl, hk, by omega⟩
    · rw [if_neg h2] at hmoves ⊢
      by_cases h3 : (isWrite op.type || isRead acc.type) = true
      · rw [if_pos h3, Bool.or_eq_true, decide_eq_true_eq] at hmoves
        split_ifs with h4
        · exact hlater [] (hmoves.resolve_left (by omega))
        · exact ⟨[], k, acc, rest, [(b, op.access (e - b))], rfl, rfl, hk, by omega⟩
      · rw [if_neg h3, Bool.and_eq_true, decide_eq_true_eq] at hmoves
        rw [if_neg h3, if_neg (not_le.mpr hmoves.1)]
        exact hlater [(b, op.access (k - b)), (k, acc)] hmoves.2

lemma Spaced.le_of_mem (h : Spaced b ps) {p : ℕ × Access I} (hp : p ∈ ps) : b ≤ p.1 := by
  induction ps generalizing b with
  | nil => simp at hp
  | cons q ps ih =>
    obtain ⟨hb, _, -, -, hps⟩ := h
    rcases mem_cons.mp hp with rfl | hp
    · exact hb
    · have := ih hps hp
      omega

/-- The operation ends inside an entry that begins inside it, which gets that end as its key. -/
def MovesKey (b e : ℕ) (op : MemoryOperation I E) : Prop :=
  ∃ p ∈ entries, b ≤ p.1 ∧ p.1 < e ∧ e < p.1 + p.2.numBytes ∧ if isRead p.2.type then
      isWrite op.type = true ∨ ∃ x, b ≤ x ∧ x < p.1 ∧ ¬ Covered (fun _ => true) entries x ∧
        ∀ y, x < y → y < p.1 → ¬ Covered isWrite entries y
    else isWrite op.type = true ∧ ∃ x, b ≤ x ∧ x < p.1 ∧ ¬ Covered isWrite entries x

lemma movesIn_write_iff (hs : Spaced b rest) (hop : isWrite op.type = true) : movesIn e op b rest = true ↔
    ∃ p ∈ rest, p.1 < e ∧ e < p.1 + p.2.numBytes ∧
      (isRead p.2.type = true ∨ ∃ x, b ≤ x ∧ x < p.1 ∧ ¬ Covered isWrite rest x) := by
  have hread : isRead op.type = false := by
    cases htype : op.type <;> simp_all [isRead, isWrite]
  induction rest generalizing b with
  | nil => simp [movesIn]
  | cons q rest ih =>
    obtain ⟨k, acc⟩ := q
    obtain ⟨_, _, _, hacc, hrest⟩ := hs
    have haw := isWrite_eq_not hacc
    have hle : ∀ x, Covered isWrite rest x → k + acc.numBytes ≤ x := fun x hx => hrest.le_of_covered hx
    have hmem : ∀ p ∈ rest, k + acc.numBytes ≤ p.1 := fun p hp => hrest.le_of_mem hp
    have ih1 := ih hrest
    have ih2 := ih (hrest.mono (show b ≤ _ by omega))
    simp only [movesIn, hread, Bool.false_or, Bool.and_eq_true, decide_eq_true_eq,
      mem_cons, exists_eq_or_imp, covered_cons]
    by_cases hkb : k = b
    · by_cases hw : isWrite acc.type = true
      · rw [if_pos hkb, if_pos hw, Bool.and_eq_true, decide_eq_true_eq]
        constructor
        · rintro ⟨hk, -, hm⟩
          obtain ⟨p, hp, hpe, hep, h⟩ := ih1.mp hm
          refine .inr ⟨p, hp, hpe, hep, h.imp_right ?_⟩
          rintro ⟨x, hx, hxp, hc⟩
          exact ⟨x, by omega, hxp, by grind⟩
        · rintro (⟨hk, he, h⟩ | ⟨p, hp, hpe, hep, h⟩)
          · grind
          · have := hmem p hp
            refine ⟨by omega, by omega, ih1.mpr ⟨p, hp, hpe, hep, h.imp_right ?_⟩⟩
            rintro ⟨x, hx, hxp, hc⟩
            exact ⟨x, by grind, hxp, by grind⟩
      · rw [if_pos hkb, if_neg hw]
        grind
    · rw [if_neg hkb]
      have hb : ¬ Covered isWrite rest b := fun hc => by have := hle b hc; omega
      grind

lemma movesIn_read_iff (hs : Spaced b rest) (hop : isRead op.type = true) : movesIn e op b rest = true ↔
    ∃ p ∈ rest, p.1 < e ∧ e < p.1 + p.2.numBytes ∧ isRead p.2.type = true ∧
      ∃ x, b ≤ x ∧ x < p.1 ∧ ¬ Covered (fun _ => true) rest x ∧ ∀ y, x < y → y < p.1 → ¬ Covered isWrite rest y := by
  have hwrite : isWrite op.type = false := by
    cases htype : op.type <;> simp_all [isRead, isWrite]
  induction rest generalizing b with
  | nil => simp [movesIn]
  | cons q rest ih =>
    obtain ⟨k, acc⟩ := q
    obtain ⟨_, _, _, hacc, hrest⟩ := hs
    have haw := isWrite_eq_not hacc
    have hle : ∀ types x, Covered types rest x → k + acc.numBytes ≤ x := fun _ _ hx => hrest.le_of_covered hx
    have hmem : ∀ p ∈ rest, k + acc.numBytes ≤ p.1 := fun p hp => hrest.le_of_mem hp
    have ih1 := ih hrest
    have ih2 := ih (hrest.mono (show b ≤ _ by omega))
    simp only [movesIn, hop, hwrite, Bool.false_or, Bool.true_or, Bool.and_eq_true, if_true,
      mem_cons, exists_eq_or_imp, covered_cons]
    by_cases hkb : k = b
    · simp only [if_pos hkb, Bool.and_eq_true, decide_eq_true_eq, ih1]
      constructor
      · rintro ⟨hk, -, p, hp, hpe, hep, hr, x, hx, hxp, hc, hy⟩
        exact .inr ⟨p, hp, hpe, hep, hr, x, by omega, hxp, by grind, by grind⟩
      · rintro (⟨hk, he, hr, x, hx, hxp, hc⟩ | ⟨p, hp, hpe, hep, hr, x, hx, hxp, hc, hy⟩)
        · grind
        · have := hmem p hp
          exact ⟨by omega, by omega, p, hp, hpe, hep, hr, x, by grind, hxp, by grind, by grind⟩
    · rw [if_neg hkb]
      by_cases hr : isRead acc.type = true
      · simp only [if_pos hr, Bool.or_eq_true, decide_eq_true_eq, ih2]
        constructor
        · rintro ⟨hk, he | ⟨p, hp, hpe, hep, hrp, x, hx, hxp, hc, hy⟩⟩
          · exact .inl ⟨hk, he, hr, b, le_rfl, by omega, by grind, by grind⟩
          · -- the byte may lie in the entry, but then `incomingBegin` will do
            by_cases hxk : x < k + acc.numBytes
            · exact .inr ⟨p, hp, hpe, hep, hrp, b, le_rfl, by omega, by grind, by grind⟩
            · exact .inr ⟨p, hp, hpe, hep, hrp, x, hx, hxp, by grind, by grind⟩
        · rintro (⟨hk, he, -⟩ | ⟨p, hp, hpe, hep, hrp, x, hx, hxp, hc, hy⟩)
          · exact ⟨hk, .inl he⟩
          · have := hmem p hp
            exact ⟨by omega, .inr ⟨p, hp, hpe, hep, hrp, x, hx, hxp, by grind, by grind⟩⟩
      · simp only [if_neg hr, Bool.and_eq_true, decide_eq_true_eq, ih1]
        constructor
        · rintro ⟨hk, -, p, hp, hpe, hep, hrp, x, hx, hxp, hc, hy⟩
          exact .inr ⟨p, hp, hpe, hep, hrp, x, by omega, hxp, by grind, by grind⟩
        · rintro (⟨-, -, hr', -⟩ | ⟨p, hp, hpe, hep, hrp, x, hx, hxp, hc, hy⟩)
          · exact absurd hr' hr
          · have := hmem p hp
            have hx' : k + acc.numBytes ≤ x := by
              by_contra hlt
              exact hy k (by grind) (by omega) (.inl ⟨by grind, le_rfl, by omega⟩)
            exact ⟨by omega, by omega, p, hp, hpe, hep, hrp, x, hx', hxp, by grind, by grind⟩

/-- What a call leaves, from the entries that begin before the operation and the others. -/
def record (b e : ℕ) (op : MemoryOperation I E) (pre rest : List (ℕ × Access I)) : List (ℕ × Access I) :=
  match pre.getLast? with
  | none => sweep e op b rest
  | some (prevBegin, acc) =>
    if b < prevBegin + acc.numBytes then
      if isWrite acc.type || isRead op.type then
        if e ≤ prevBegin + acc.numBytes then pre ++ rest else pre ++ sweep e op (prevBegin + acc.numBytes) rest
      else if e < prevBegin + acc.numBytes then
        pre.dropLast ++ (prevBegin, { acc with numBytes := b - prevBegin }) :: (b, op.access op.numBytes) ::
          (e, { acc with numBytes := prevBegin + acc.numBytes - e }) :: rest
      else pre.dropLast ++ (prevBegin, { acc with numBytes := b - prevBegin }) :: sweep e op b rest
    else pre ++ sweep e op b rest

section
variable (h : Spaced b (ps ++ (k, acc) :: qs))
include h

lemma Spaced.suffix : Spaced k ((k, acc) :: qs) := by
  induction ps generalizing b with
  | nil => exact ⟨le_rfl, h.2⟩
  | cons p ps ih => exact ih h.2.2.2.2

lemma Spaced.replace {qs' : List (ℕ × Access I)} (h' : Spaced k qs') : Spaced b (ps ++ qs') := by
  induction ps generalizing b with
  | nil => exact h'.mono h.1
  | cons p ps ih => exact ⟨h.1, h.2.1, h.2.2.1, h.2.2.2.1, ih h.2.2.2.2⟩

lemma Spaced.lt_of_covered (hx : Covered types ps x) : x < k := by
  induction ps generalizing b with
  | nil => exact absurd hx (covered_nil types x)
  | cons p ps ih =>
    rcases (covered_cons types p ps x).mp hx with ⟨-, -, hp⟩ | hx
    · have := h.2.2.2.2.le_of_mem (p := (k, acc)) (by simp)
      exact hp.trans_le this
    · exact ih h.2.2.2.2 hx

end

/-- What an operation on the bytes from `b` to `e` has to make of the entries. -/
structure Records (b e : ℕ) (op : MemoryOperation I E) (entries entries' : List (ℕ × Access I)) : Prop where
  spaced : Spaced 0 entries'
  write : ∀ x, Covered isWrite entries' x ↔ Covered isWrite entries x ∨ isWrite op.type = true ∧ b ≤ x ∧ x < e
  read : ∀ x, Covered isRead entries' x ↔ Covered isRead entries x ∧ ¬ (isWrite op.type = true ∧ b ≤ x ∧ x < e) ∨
      isRead op.type = true ∧ b ≤ x ∧ x < e ∧ ¬ Covered isWrite entries x

def sweepBegin (b : ℕ) (op : MemoryOperation I E) (pre : List (ℕ × Access I)) : ℕ :=
  match pre.getLast? with
  | none => b
  | some (prevBegin, acc) =>
    if isWrite acc.type || isRead op.type then max b (prevBegin + acc.numBytes) else b

lemma record_spec (hs : Spaced 0 (pre ++ rest)) (hpre : ∀ p ∈ pre, p.1 < b) (hrest : ∀ p ∈ rest, b ≤ p.1)
    (hb : b < e) (he : e < 2 ^ 64) (hnum : e = b + op.numBytes) (hop : (isRead op.type || isWrite op.type) = true)
    (hmoves : movesIn e op (sweepBegin b op pre) rest = false) :
    Records b e op (pre ++ rest) (record b e op pre rest) := by
  have hw := isWrite_eq_not hop
  rcases eq_nil_or_concat' pre with rfl | ⟨ps, ⟨prevBegin, acc⟩, rfl⟩
  · obtain ⟨h1, h2, h3⟩ := sweep_spec (hs.of_le hrest) hb he hop hmoves
    exact ⟨h1.mono (Nat.zero_le b), h2, h3⟩
  · rw [append_assoc, singleton_append] at hs
    have hprev : prevBegin < b := hpre (prevBegin, acc) (by simp)
    obtain ⟨-, hpos, hend, hacc, hsrest⟩ := hs.suffix
    have haw := isWrite_eq_not hacc
    have hlt : ∀ types x, Covered types ps x → x < prevBegin := fun _ _ hx => hs.lt_of_covered hx
    have hle : ∀ types x, Covered types rest x → prevBegin + acc.numBytes ≤ x := fun _ _ hx => hsrest.le_of_covered hx
    simp only [sweepBegin, getLast?_concat] at hmoves
    simp only [record, getLast?_concat, dropLast_concat]
    have hsb : Spaced b rest := hsrest.of_le hrest
    split_ifs with h1 h2 h3 h4
    · refine ⟨by simpa using hs, fun x => ?_, fun x => ?_⟩
      all_goals simp only [covered_append, covered_cons, covered_nil]
      all_goals grind
    · rw [if_pos h2, max_eq_right h1.le] at hmoves
      obtain ⟨h4, h5, h6⟩ := sweep_spec hsrest (not_le.mp h3) he hop hmoves
      refine ⟨?_, fun x => ?_, fun x => ?_⟩
      · rw [append_assoc]
        exact hs.replace ⟨le_rfl, hpos, hend, hacc, h4⟩
      all_goals simp only [covered_append, covered_cons, covered_nil]
      all_goals grind
    · refine ⟨hs.replace ⟨le_rfl, ?_, ?_, hacc, ?_, ?_, ?_, hop, ?_, ?_, ?_, hacc, ?_⟩, fun x => ?_, fun x => ?_⟩
      all_goals simp only [MemoryOperation.access, covered_append, covered_cons, covered_nil]
      all_goals first | omega | skip
      · exact hsrest.mono (by omega)
      · grind
      · grind
    · rw [if_neg h2] at hmoves
      obtain ⟨h4, h5, h6⟩ := sweep_spec hsb hb he hop hmoves
      refine ⟨hs.replace ⟨le_rfl, by simp; omega, by simp; omega, hacc, h4.mono (by simp; omega)⟩,
        fun x => ?_, fun x => ?_⟩
      all_goals simp only [covered_append, covered_cons, covered_nil]
      all_goals grind
    · have hb' : (if isWrite acc.type || isRead op.type then max b (prevBegin + acc.numBytes) else b) = b := by
        split_ifs
        · exact max_eq_left (not_lt.mp h1)
        · rfl
      rw [hb'] at hmoves
      obtain ⟨h4, h5, h6⟩ := sweep_spec hsb hb he hop hmoves
      refine ⟨?_, fun x => ?_, fun x => ?_⟩
      · rw [append_assoc]
        exact hs.replace ⟨le_rfl, hpos, hend, hacc, h4.mono (not_lt.mp h1)⟩
      all_goals simp only [covered_append, covered_cons, covered_nil]
      all_goals grind

lemma spaced_sweepBegin (hs : Spaced 0 (pre ++ rest)) (hrest : ∀ p ∈ rest, b ≤ p.1) :
    Spaced (sweepBegin b op pre) rest := by
  cases rest with
  | nil => trivial
  | cons q rest =>
    have hq := hrest q mem_cons_self
    refine ⟨?_, hs.suffix.2⟩
    rcases eq_nil_or_concat' pre with rfl | ⟨ps, ⟨prevBegin, acc⟩, rfl⟩
    · exact hq
    · have hle : prevBegin + acc.numBytes ≤ q.1 := by
        rw [append_assoc] at hs
        exact hs.suffix.2.2.2.2.le_of_mem (by simp)
      simp only [sweepBegin, getLast?_concat]
      split_ifs
      · exact max_le hq hle
      · exact hq

section
lemma le_sweepBegin : b ≤ sweepBegin b op pre := by
  rw [sweepBegin]
  split
  · exact le_rfl
  · split_ifs
    · exact le_max_left _ _
    · exact le_rfl

lemma covered_before (hs : Spaced 0 (pre ++ rest)) (types : AccessType → Bool) (hx : b ≤ x)
    (hpre : ∀ p ∈ pre, p.1 < b) :
    Covered types pre x ↔ ∃ p ∈ pre.getLast?, types p.2.type = true ∧ x < p.1 + p.2.numBytes := by
  rcases eq_nil_or_concat' pre with rfl | ⟨ps, ⟨prevBegin, acc⟩, rfl⟩
  · simp
  · have hprev : prevBegin < b := hpre (prevBegin, acc) (by simp)
    rw [append_assoc] at hs
    have hps : ¬ Covered types ps x := fun hc => by have := hs.lt_of_covered hc; omega
    simp only [covered_append, hps, covered_cons, covered_nil, or_false, false_or, getLast?_concat,
      Option.mem_some_iff, exists_eq_left']
    exact ⟨fun h => ⟨h.1, h.2.2⟩, fun h => ⟨h.1, by omega, h.2⟩⟩

lemma movesIn_sweepBegin_iff (hs : Spaced 0 (pre ++ rest)) (hpre : ∀ p ∈ pre, p.1 < b)
    (hrest : ∀ p ∈ rest, b ≤ p.1) (hop : (isRead op.type || isWrite op.type) = true) :
    movesIn e op (sweepBegin b op pre) rest = true ↔ MovesKey (pre ++ rest) b e op := by
  have hmem : ∀ p, p ∈ pre ++ rest ∧ b ≤ p.1 ↔ p ∈ rest := by
    intro p
    refine ⟨fun ⟨hp, hle⟩ => (mem_append.mp hp).resolve_left fun hp => ?_, fun hp =>
      ⟨mem_append_right pre hp, hrest p hp⟩⟩
    exact absurd (hpre p hp) (not_lt.mpr hle)
  have hsb : Spaced (sweepBegin b op pre) rest := spaced_sweepBegin hs hrest
  have hle : b ≤ sweepBegin b op pre := le_sweepBegin
  cases hread : isRead op.type with
  | true =>
    have hwrite : isWrite op.type = false := by rw [isWrite_eq_not hop, hread]; rfl
    have hfree : ∀ x, b ≤ x → (¬ Covered (fun _ => true) (pre ++ rest) x ↔
        sweepBegin b op pre ≤ x ∧ ¬ Covered (fun _ => true) rest x) := by
      intro x hx
      rw [covered_append, covered_before hs _ hx hpre, sweepBegin]
      cases pre.getLast? <;> simp [hread, hx]
    have hsame : ∀ y, sweepBegin b op pre ≤ y → (Covered isWrite (pre ++ rest) y ↔ Covered isWrite rest y) := by
      intro y hy
      rw [covered_append, covered_before hs _ (hle.trans hy) hpre]
      rw [sweepBegin] at hy
      cases hlast : pre.getLast? <;> simp_all
    rw [movesIn_read_iff hsb hread]
    constructor
    · rintro ⟨p, hp, hpe, hep, hr, x, hx, hxp, hc, hy⟩
      refine ⟨p, ((hmem p).mpr hp).1, hrest p hp, hpe, hep, ?_⟩
      rw [if_pos hr]
      refine .inr ⟨x, hle.trans hx, hxp, (hfree x (hle.trans hx)).mpr ⟨hx, hc⟩, fun y hxy hyp => ?_⟩
      rw [hsame y (hx.trans hxy.le)]
      exact hy y hxy hyp
    · rintro ⟨p, hp, hbp, hpe, hep, h⟩
      have hp' := (hmem p).mp ⟨hp, hbp⟩
      simp only [hwrite, Bool.false_eq_true, false_or, false_and] at h
      split_ifs at h with hr
      obtain ⟨x, hx, hxp, hc, hy⟩ := h
      obtain ⟨hx', hc'⟩ := (hfree x hx).mp hc
      refine ⟨p, hp', hpe, hep, hr, x, hx', hxp, hc', fun y hxy hyp => ?_⟩
      rw [← hsame y (hx'.trans hxy.le)]
      exact hy y hxy hyp
  | false =>
    have hwrite : isWrite op.type = true := by rw [isWrite_eq_not hop, hread]; rfl
    have hfree : ∀ x, b ≤ x → (¬ Covered isWrite (pre ++ rest) x ↔
        sweepBegin b op pre ≤ x ∧ ¬ Covered isWrite rest x) := by
      intro x hx
      rw [covered_append, covered_before hs _ hx hpre, sweepBegin]
      cases pre.getLast? with
      | none => simp [hx]
      | some p => by_cases hp : isWrite p.2.type = true <;> simp [hread, hx, hp]
    rw [movesIn_write_iff hsb hwrite]
    constructor
    · rintro ⟨p, hp, hpe, hep, h⟩
      refine ⟨p, ((hmem p).mpr hp).1, hrest p hp, hpe, hep, ?_⟩
      split_ifs with hr
      · exact .inl hwrite
      · obtain ⟨x, hx, hxp, hc⟩ := h.resolve_left hr
        exact ⟨hwrite, x, hle.trans hx, hxp, (hfree x (hle.trans hx)).mpr ⟨hx, hc⟩⟩
    · rintro ⟨p, hp, hbp, hpe, hep, h⟩
      refine ⟨p, (hmem p).mp ⟨hp, hbp⟩, hpe, hep, ?_⟩
      split_ifs at h with hr
      · exact .inl hr
      · obtain ⟨-, x, hx, hxp, hc⟩ := h
        obtain ⟨hx', hc'⟩ := (hfree x hx).mp hc
        exact .inr ⟨x, hx', hxp, hc'⟩

lemma exists_moved_record (hs : Spaced 0 (pre ++ rest))
    (hmoves : movesIn e op (sweepBegin b op pre) rest = true) :
    ∃ ps k acc qs qs', rest = ps ++ (k, acc) :: qs ∧ record b e op pre rest = qs' ++ (e, acc) :: qs ∧
      k < e ∧ e < k + acc.numBytes := by
  obtain ⟨ps, k, acc, qs, qs', heq, hsweep, hk, hend⟩ := exists_moved hmoves
  have hkmem : (k, acc) ∈ rest := by rw [heq]; simp
  have key : ∃ pre', record b e op pre rest = pre' ++ sweep e op (sweepBegin b op pre) rest := by
    rcases eq_nil_or_concat' pre with rfl | ⟨init, ⟨prevBegin, prev⟩, rfl⟩
    · exact ⟨[], rfl⟩
    · have hlast : prevBegin + prev.numBytes ≤ k := by
        rw [append_assoc] at hs
        exact hs.suffix.2.2.2.2.le_of_mem hkmem
      simp only [sweepBegin, record, getLast?_concat, dropLast_concat]
      split_ifs with h1 h2 h3 h4 h5
      · omega
      · exact ⟨_, by rw [max_eq_right h1.le]⟩
      · omega
      · exact ⟨init ++ [_], by rw [append_assoc]; rfl⟩
      · exact ⟨_, by rw [max_eq_left (not_lt.mp h1)]⟩
      · exact ⟨_, rfl⟩
  obtain ⟨pre', hrec⟩ := key
  exact ⟨ps, k, acc, qs, pre' ++ qs', heq, by rw [hrec, hsweep, append_assoc], hk, hend⟩

end

/-! ## Histories -/

section
variable [Offset E] {ops : List (MemoryOperation I E)} {entries entries' : List (ℕ × Access I)}

def MemoryOperation.Touches (op : MemoryOperation I E) (x : ℕ) : Prop :=
  ∃ offset, Offset.constantValue op.offset = some offset ∧ offset ≤ x ∧ x < offset + op.numBytes

def Tracked (types : AccessType → Bool) (ops : List (MemoryOperation I E)) (x : ℕ) : Prop :=
  ∃ op ∈ ops, types op.type = true ∧ op.Touches x

/-- Disjoint entries that tell exactly which bytes were written, and which were read and not written. -/
structure ByteExact (entries : List (ℕ × Access I)) (ops : List (MemoryOperation I E)) : Prop where
  disjoint : entries.Pairwise fun p q =>
    ∀ x, p.1 ≤ x → x < p.1 + p.2.numBytes → q.1 ≤ x → ¬ x < q.1 + q.2.numBytes
  write : ∀ x, Covered isWrite entries x ↔ Tracked isWrite ops x
  read : ∀ x, Covered isRead entries x ↔ Tracked isRead ops x ∧ ¬ Tracked isWrite ops x

lemma Spaced.disjoint (h : Spaced b ps) : ps.Pairwise fun p q =>
    ∀ x, p.1 ≤ x → x < p.1 + p.2.numBytes → q.1 ≤ x → ¬ x < q.1 + q.2.numBytes := by
  induction ps generalizing b with
  | nil => exact List.Pairwise.nil
  | cons p ps ih =>
    obtain ⟨-, -, -, -, hps⟩ := h
    refine pairwise_cons.mpr ⟨fun q hq x _ hx _ => ?_, ih hps⟩
    have := hps.le_of_mem hq
    omega

lemma tracked_concat (types : AccessType → Bool) (x : ℕ) :
    Tracked types (ops ++ [op]) x ↔ Tracked types ops x ∨ types op.type = true ∧ op.Touches x := by
  simp [Tracked]

lemma MemoryOperation.touches_iff (hb : Offset.constantValue op.offset = some b) (x : ℕ) :
    op.Touches x ↔ b ≤ x ∧ x < b + op.numBytes := by
  simp [Touches, hb]

lemma ByteExact.concat (h : ByteExact entries ops) (hb : Offset.constantValue op.offset = some b)
    (hop : (isRead op.type || isWrite op.type) = true)
    (hr : Records b (b + op.numBytes) op entries entries') : ByteExact entries' (ops ++ [op]) := by
  have hw := isWrite_eq_not hop
  refine ⟨hr.spaced.disjoint, fun x => ?_, fun x => ?_⟩
  · rw [hr.write, h.write, tracked_concat, op.touches_iff hb]
  · rw [hr.read, h.read, h.write, tracked_concat, tracked_concat, op.touches_iff hb]
    grind

/-- It overlaps the next entry or covers a byte that no operation touched. -/
lemma ByteExact.not_concat_of_moved (h : ByteExact entries ops) (hs : Spaced 0 entries)
    (hb : Offset.constantValue op.offset = some b) {qs' : List (ℕ × Access I)}
    (hentries : entries = ps ++ (k, acc) :: qs) (hentries' : entries' = qs' ++ (b + op.numBytes, acc) :: qs)
    (hk : k < b + op.numBytes) (hend : b + op.numBytes < k + acc.numBytes) : ¬ ByteExact entries' (ops ++ [op]) := by
  intro h'
  subst hentries hentries'
  obtain ⟨-, -, -, hacc, _⟩ := hs.suffix
  -- the byte behind the old entry
  have hold : ∀ types, Covered types (ps ++ (k, acc) :: qs) (k + acc.numBytes) →
      Covered types qs (k + acc.numBytes) := by
    intro types hc
    rw [covered_append, covered_cons] at hc
    rcases hc with hc | ⟨-, -, hc⟩ | hc
    · have := hs.lt_of_covered hc
      omega
    · exact absurd hc (lt_irrefl _)
    · exact hc
  have hnew : ∀ types, types acc.type = true →
      Covered types (qs' ++ (b + op.numBytes, acc) :: qs) (k + acc.numBytes) := by
    intro types ht
    rw [covered_append, covered_cons]
    exact .inr (.inl ⟨ht, hend.le, by dsimp only; omega⟩)
  have hfar : ¬ op.Touches (k + acc.numBytes) := by
    rw [op.touches_iff hb]
    omega
  have hnext : ∃ types, Covered types qs (k + acc.numBytes) := by
    rcases Bool.or_eq_true_iff.mp hacc with ht | ht
    · refine ⟨isRead, hold isRead ((h.read _).mpr ?_)⟩
      have := (h'.read _).mp (hnew isRead ht)
      rw [tracked_concat, tracked_concat] at this
      exact ⟨this.1.resolve_right fun h => hfar h.2, fun h => this.2 (.inl h)⟩
    · refine ⟨isWrite, hold isWrite ((h.write _).mpr ?_)⟩
      have := (h'.write _).mp (hnew isWrite ht)
      rw [tracked_concat] at this
      exact this.resolve_right fun h => hfar h.2
  obtain ⟨types, q, hq, -, hle, hlt⟩ := hnext
  have hdisj := (pairwise_cons.mp (pairwise_append.mp h'.disjoint).2.1).1 q hq
  exact hdisj (k + acc.numBytes) hend.le (by dsimp only; omega) hle hlt

end
end RaceDetection
