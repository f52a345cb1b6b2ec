import PorSe.Por.ThreadId

/-! Thread ids are compared by one loop per operator, printed as decimal numbers between commas,
and read back. -/

namespace Por
namespace ThreadId
open List Nat

/-! ## The operators -/

/-- `before` decides at the first difference, `size` if there is none. -/
def compareIds (before : Fin 65536 → Fin 65536 → Bool) (size : ℕ → ℕ → Bool) :
    List (Fin 65536) → List (Fin 65536) → Bool
  | a :: as, b :: bs => if before a b then true else if before b a then false else compareIds before size as bs
  | as, bs => size as.length bs.length

variable (l r : ThreadId)

def lessThan : Bool := compareIds (· < ·) (· < ·) l.ids r.ids
def greaterThan : Bool := compareIds (· > ·) (· > ·) l.ids r.ids
def lessEqual : Bool := compareIds (· < ·) (· ≤ ·) l.ids r.ids
def greaterEqual : Bool := compareIds (· > ·) (· ≥ ·) l.ids r.ids

/-- `operator==`, where `memcmp` compares as many ids as either side has. -/
def equal : Bool := l.ids.length = r.ids.length && l.ids = r.ids

lemma compareIds_flip (before : Fin 65536 → Fin 65536 → Bool) (size : ℕ → ℕ → Bool) (as bs : List (Fin 65536)) :
    compareIds (fun a b => before b a) (fun m n => size n m) as bs = compareIds before size bs as := by
  induction as generalizing bs with
  | nil => cases bs <;> rfl
  | cons a as ih =>
    cases bs with
    | nil => rfl
    | cons b bs => rw [compareIds, compareIds, ih]

lemma compareIds_le (as bs : List (Fin 65536)) :
    compareIds (· < ·) (· ≤ ·) as bs = !compareIds (· < ·) (· < ·) bs as := by
  induction as generalizing bs with
  | nil => cases bs <;> simp [compareIds]
  | cons a as ih =>
    cases bs with
    | nil => simp [compareIds]
    | cons b bs =>
      rw [compareIds, compareIds, ih]
      rcases lt_trichotomy a b with h | rfl | h
      · simp [h.not_gt]
      · simp
      · simp [h.not_gt]

lemma compareIds_lt_iff {as bs : List (Fin 65536)} : compareIds (· < ·) (· < ·) as bs = true ↔ as < bs := by
  induction as generalizing bs with
  | nil => cases bs <;> simp [compareIds]
  | cons a as ih =>
    cases bs with
    | nil => simp [compareIds]
    | cons b bs =>
      rw [compareIds, cons_lt_cons_iff]
      rcases lt_trichotomy a b with h | rfl | h
      · simp [h]
      · simp [ih]
      · simp [h, h.ne']

lemma lessThan_iff {l r : ThreadId} : l.lessThan r = true ↔ l < r := compareIds_lt_iff

variable {t tid : ThreadId} {s f : List Char} {i : Fin 65536} {fuel : ℕ} {fields : List (List Char)}
  {is : List (Fin 65536)}

lemma lessThan_of_prefix {d : ThreadId} (h : t.ids <+: d.ids) (hne : t ≠ d) : t.lessThan d = true := by
  obtain ⟨s, hs⟩ := h
  have hpos : 0 < s.length := by
    refine length_pos_iff.mpr fun hnil => hne (ids_injective ?_)
    rw [← hs, hnil, append_nil]
  have hloop : ∀ as : List (Fin 65536), compareIds (· < ·) (· < ·) as (as ++ s) = true := by
    intro as
    induction as with
    | nil => cases s <;> simp_all [compareIds]
    | cons a as ih => simpa [compareIds] using ih
  rw [lessThan, ← hs]
  exact hloop t.ids

/-! ## Texts -/

/-- `operator<<`. -/
def toString (t : ThreadId) : List Char := [','].intercalate (t.ids.map fun i => Nat.toDigits 10 i.val)

/-- `sstream >> lid` and its tests: a decimal number of at most 16 bits other than zero. -/
def readId (s : List Char) : Option ({i : Fin 65536 // i ≠ 0} × List Char) :=
  let digits := s.takeWhile Char.isDigit
  let lid := Nat.ofDigitChars 10 digits 0
  if digits = [] then none
  else if h : lid < 65536 ∧ lid ≠ 0 then
    some (⟨⟨lid, h.1⟩, fun h0 => h.2 (congrArg Fin.val h0)⟩, s.dropWhile Char.isDigit)
  else none

def readIds : ℕ → List Char → ThreadId → Option ThreadId
  | 0, _, _ => none
  | fuel + 1, s, tid => do
    let (lid, rest) ← readId s
    match rest with
    | [] => some (tid.child lid.1 lid.2)
    | c :: rest => if c = ',' then readIds fuel rest (tid.child lid.1 lid.2) else none

def fromString (s : List Char) : Option ThreadId := readIds (s.length + 1) s empty

structure Field (f : List Char) (i : Fin 65536) : Prop where
  ne_nil : f ≠ []
  digits : ∀ c ∈ f, c.isDigit = true
  value : Nat.ofDigitChars 10 f 0 = i
  ne_zero : i ≠ 0

lemma readId_eq_some_iff {rest : List Char} {i : {i : Fin 65536 // i ≠ 0}} : readId s = some (i, rest) ↔
    ∃ f, s = f ++ rest ∧ Field f i ∧ rest.takeWhile Char.isDigit = [] := by
  have hsplit : s.takeWhile Char.isDigit ++ s.dropWhile Char.isDigit = s := takeWhile_append_dropWhile
  constructor
  · intro h
    unfold readId at h
    dsimp only at h
    split_ifs at h with hnil hlid
    cases h
    refine ⟨_, hsplit.symm, ⟨hnil, fun c hc => ?_, rfl, fun h0 => hlid.2 (congrArg Fin.val h0)⟩, ?_⟩
    · exact all_eq_true.mp all_takeWhile c hc
    · rw [takeWhile_eq_nil_iff]
      exact fun hl => by simpa [head_eq_getElem] using head_dropWhile_not Char.isDigit (ne_nil_of_length_pos hl)
  · rintro ⟨f, rfl, hf, hrest⟩
    have htake : (f ++ rest).takeWhile Char.isDigit = f := by
      rw [takeWhile_append_of_pos hf.digits, hrest, append_nil]
    rw [htake] at hsplit
    unfold readId
    simp only [htake, append_cancel_left hsplit, hf.value]
    rw [if_neg hf.ne_nil, dif_pos ⟨i.1.isLt, fun h => i.2 (Fin.ext h)⟩]

lemma readIds_eq_some_iff : readIds (fuel + 1) s tid = some t ↔
    ∃ i rest, readId s = some (i, rest) ∧ (rest = [] ∧ tid.child i.1 i.2 = t ∨
      ∃ s', rest = ',' :: s' ∧ readIds fuel s' (tid.child i.1 i.2) = some t) := by
  rw [readIds, Option.bind_eq_bind, Option.bind_eq_some_iff, Prod.exists]
  refine exists_congr fun i => exists_congr fun rest => and_congr_right fun _ => ?_
  cases rest with
  | nil | cons c rest => simp

lemma readIds_intercalate (h : Forall₂ Field fields is) (hne : fields ≠ []) (hfuel : fields.length ≤ fuel)
    (tid : ThreadId) : ∃ t, readIds fuel ([','].intercalate fields) tid = some t ∧ t.ids = tid.ids ++ is := by
  induction h generalizing fuel tid with
  | nil => exact absurd rfl hne
  | @cons f i fields is hf h ih =>
    obtain ⟨fuel, rfl⟩ := Nat.exists_eq_succ_of_ne_zero (Nat.ne_zero_of_lt hfuel)
    rcases eq_or_ne fields [] with rfl | hrest
    · obtain rfl := forall₂_nil_left_iff.mp h
      refine ⟨tid.child i hf.ne_zero, readIds_eq_some_iff.mpr ⟨⟨i, hf.ne_zero⟩, [], ?_, .inl ⟨rfl, rfl⟩⟩, rfl⟩
      exact readId_eq_some_iff.mpr ⟨f, by simp, hf, rfl⟩
    · obtain ⟨t, ht, hids⟩ := ih hrest (le_of_succ_le_succ hfuel) (tid.child i hf.ne_zero)
      refine ⟨t, readIds_eq_some_iff.mpr ⟨⟨i, hf.ne_zero⟩, _, ?_, .inr ⟨_, rfl, ht⟩⟩, by simp [hids, child]⟩
      exact readId_eq_some_iff.mpr ⟨f, by simp [intercalate_cons_of_ne_nil hrest], hf, rfl⟩

lemma exists_fields (h : readIds fuel s tid = some t) :
    ∃ fields is, fields ≠ [] ∧ Forall₂ Field fields is ∧ s = [','].intercalate fields ∧ t.ids = tid.ids ++ is := by
  induction fuel generalizing s tid with
  | zero => simp [readIds] at h
  | succ fuel ih =>
    obtain ⟨i, _, hread, hcase⟩ := readIds_eq_some_iff.mp h
    clear h
    obtain ⟨f, rfl, hf, -⟩ := readId_eq_some_iff.mp hread
    rcases hcase with ⟨rfl, rfl⟩ | ⟨s', rfl, h⟩
    · exact ⟨[f], [i.1], by simp, .cons hf .nil, by simp, rfl⟩
    · obtain ⟨fields, is, hne, hfields, rfl, hids⟩ := ih h
      exact ⟨f :: fields, i.1 :: is, by simp, .cons hf hfields, by simp [intercalate_cons_of_ne_nil hne],
        by simp [hids, child]⟩

/-! ## Printed numbers -/

lemma head?_toDigits {n : ℕ} (h : n ≠ 0) : (Nat.toDigits 10 n).head? ≠ some '0' := by
  have hsmall : ∀ n < 10, n ≠ 0 → [n.digitChar].head? ≠ some '0' := by decide
  induction n using Nat.strong_induction_on with
  | _ n ih =>
    rcases lt_or_ge n 10 with hn | hn
    · rw [toDigits_of_lt_base hn]
      exact hsmall n hn h
    · rw [toDigits_of_base_le (by decide) hn, head?_append_of_ne_nil _ toDigits_ne_nil]
      exact ih (n / 10) (by omega) (by omega)

lemma toDigits_of_isDigit {c : Char} (hc : c.isDigit = true) :
    c.toNat - 48 < 10 ∧ Nat.toDigits 10 (c.toNat - 48) = [c] := by
  have hall : ∀ n < 58, 48 ≤ n → toDigits 10 (n - 48) = [Char.ofNat n] := by decide
  obtain ⟨hlow, _⟩ : 48 ≤ c.toNat ∧ c.toNat ≤ 57 := by
    simpa [Char.isDigit, UInt32.le_iff_toNat_le] using hc
  refine ⟨by omega, ?_⟩
  rw [hall c.toNat (by omega) hlow, Char.ofNat_toNat]

lemma toDigits_ofDigitChars (hne : f ≠ []) (hf : ∀ c ∈ f, c.isDigit = true) (hhead : f.head? ≠ some '0') :
    Nat.toDigits 10 (Nat.ofDigitChars 10 f 0) = f := by
  induction f using reverseRecOn with
  | nil => exact absurd rfl hne
  | append_singleton g c ih =>
    obtain ⟨hlt, hc⟩ := toDigits_of_isDigit (hf c (mem_append_right g mem_cons_self))
    have hvalue : Nat.ofDigitChars 10 (g ++ [c]) 0 = 10 * Nat.ofDigitChars 10 g 0 + (c.toNat - 48) := by
      rw [Nat.ofDigitChars_append, Nat.ofDigitChars_cons]
      rfl
    rw [hvalue]
    rcases eq_or_ne g [] with rfl | hg
    · rw [Nat.ofDigitChars_nil, Nat.zero_add, hc, nil_append]
    · have hdigits := ih hg (fun d hd => hf d (mem_append_left _ hd)) (by rwa [head?_append_of_ne_nil _ hg] at hhead)
      have hpos : 0 < Nat.ofDigitChars 10 g 0 := by
        refine Nat.pos_of_ne_zero fun h0 => ?_
        rw [h0] at hdigits
        simp [← hdigits] at hhead
      rw [← Nat.toDigits_append_toDigits (by decide) hpos hlt, hdigits, hc]

lemma field_toDigits (h : i ≠ 0) : Field (Nat.toDigits 10 i) i where
  ne_nil := toDigits_ne_nil
  digits _ hc := isDigit_of_mem_toDigits (by decide) (by decide) hc
  value := ofDigitChars_ten_toDigits
  ne_zero := h

lemma Field.toDigits_eq_iff (h : Field f i) : Nat.toDigits 10 i = f ↔ f.head? ≠ some '0' := by
  constructor
  · rintro rfl
    exact head?_toDigits fun h0 => h.ne_zero (Fin.ext h0)
  · intro hhead
    rw [← h.value]
    exact toDigits_ofDigitChars h.ne_nil h.digits hhead

lemma map_toDigits_eq_iff (h : Forall₂ Field fields is) :
    (is.map fun i => Nat.toDigits 10 i.val) = fields ↔ ∀ f ∈ fields, f.head? ≠ some '0' := by
  induction h with
  | nil => simp
  | cons hf _ ih => rw [map_cons, cons.injEq, hf.toDigits_eq_iff, ih, forall_mem_cons]

lemma fromString_toString (h : t ≠ empty) : fromString t.toString = some t := by
  have hfields : Forall₂ Field (t.ids.map fun i => toDigits 10 i.val) t.ids := by
    rw [forall₂_map_left_iff, forall₂_same]
    exact fun i hi => field_toDigits fun h0 => t.ids_ne_zero (h0 ▸ hi)
  have hne : (t.ids.map fun i => toDigits 10 i.val) ≠ [] := by
    rw [Ne, map_eq_nil_iff]
    exact fun hnil => h (ids_injective hnil)
  have hlen : ∀ {fields : List (List Char)}, (∀ f ∈ fields, f ≠ []) →
      fields.length ≤ ([','].intercalate fields).length + 1 := by
    intro fields hf
    induction fields with
    | nil => simp
    | cons f fields ih =>
      rcases eq_or_ne fields [] with rfl | hrest
      · simp
      · have := ih fun g hg => hf g (mem_cons_of_mem f hg)
        simp [intercalate_cons_of_ne_nil hrest]
        omega
  have hfields_ne : ∀ f ∈ t.ids.map fun i => toDigits 10 i.val, f ≠ [] := by
    intro f hf
    obtain ⟨i, -, rfl⟩ := mem_map.mp hf
    exact toDigits_ne_nil
  obtain ⟨t', ht', hids⟩ := readIds_intercalate hfields hne (hlen hfields_ne) empty
  have heq : t' = t := ids_injective hids
  rw [fromString, toString, ht', heq]

lemma toString_eq_iff (h : fromString s = some t) : t.toString = s ↔ ∀ f ∈ s.splitOn ',', f.head? ≠ some '0' := by
  obtain ⟨fields, is, hne, hfields, rfl, hids⟩ := exists_fields h
  obtain rfl : t.ids = is := hids
  have hdigit : ∀ {f : List Char}, (∀ c ∈ f, c.isDigit = true) → ',' ∉ f := fun hf hc => absurd (hf _ hc) (by decide)
  have hsplit : ([','].intercalate fields).splitOn ',' = fields :=
    splitOn_intercalate ',' (fun f hf => hdigit
      (((forall₂_and_left _ _).mp (hfields.imp fun _ _ h => ⟨h.digits, h⟩)).1 f hf))
      hne
  have hsplit' : t.toString.splitOn ',' = t.ids.map fun i => toDigits 10 i.val := by
    refine splitOn_intercalate ',' (fun f hf => ?_) ?_
    · obtain ⟨i, -, rfl⟩ := mem_map.mp hf
      exact hdigit fun c hc => isDigit_of_mem_toDigits (by decide) (by decide) hc
    · rintro hnil
      exact hne (by simpa [map_eq_nil_iff.mp hnil] using hfields)
  rw [hsplit]
  have hiff : t.toString = [','].intercalate fields ↔ (t.ids.map fun i => toDigits 10 i.val) = fields :=
    ⟨fun heq => by rw [← hsplit', heq, hsplit], fun heq => congrArg _ heq⟩
  rw [hiff, map_toDigits_eq_iff hfields]

/-- The operators agree, `<` is a strict total order with ids below their descendants, and texts and ids are read back
unless a number has a leading zero. -/
theorem operators_and_texts (l r : ThreadId) (s : List Char) :
    IsStrictTotalOrder ThreadId (fun l r => l.lessThan r = true) ∧
    ((l.equal r = true ↔ l = r) ∧ l.greaterThan r = r.lessThan l ∧
      l.lessEqual r = (l.lessThan r || l.equal r) ∧ l.greaterEqual r = (l.greaterThan r || l.equal r)) ∧
    (l.ids <+: r.ids → l ≠ r → l.lessThan r = true) ∧
    (l ≠ empty → fromString l.toString = some l) ∧
    ∀ t, fromString s = some t → (t.toString = s ↔ ∀ f ∈ s.splitOn ',', f.head? ≠ some '0') := by
  have hequal : ∀ {l r : ThreadId}, l.equal r = true ↔ l = r := by
    intro l r
    simp only [equal, Bool.and_eq_true, decide_eq_true_eq, ids_injective.eq_iff]
    exact and_iff_right_of_imp fun h => h ▸ rfl
  have hgreater : ∀ l r : ThreadId, l.greaterThan r = r.lessThan l := fun l r => compareIds_flip _ _ l.ids r.ids
  have hle : ∀ l r : ThreadId, l.lessEqual r = (l.lessThan r || l.equal r) := by
    intro l r
    rw [Bool.eq_iff_iff, lessEqual, compareIds_le, Bool.not_eq_true', ← Bool.not_eq_true, compareIds_lt_iff,
      Bool.or_eq_true, lessThan_iff, hequal]
    change ¬ r < l ↔ _
    exact not_lt.trans le_iff_lt_or_eq
  refine ⟨?_, ⟨hequal, hgreater l r, hle l r, ?_⟩, lessThan_of_prefix, fromString_toString,
    fun t h => toString_eq_iff h⟩
  · simp only [lessThan_iff]
    infer_instance
  · have hflip : l.greaterEqual r = r.lessEqual l := compareIds_flip _ _ l.ids r.ids
    rw [hflip, hle, hgreater, Bool.eq_iff_iff, Bool.or_eq_true, Bool.or_eq_true, hequal, hequal, @eq_comm _ r]

/-- A leading zero is accepted and lost. -/
theorem fromString_leading_zero : fromString ['0', '1'] = some main ∧ main.toString ≠ ['0', '1'] := by decide

end ThreadId
end Por
