import Mathlib

/-! Streams that are written and read item by item. A writer appends what it writes to the stream, a
reader takes what it reads from the front, and either may fail. -/

namespace Stdio
open List Option
universe u
variable {α β : Type u}

def fwrite (data : List β) (size nmemb : ℕ) (f : List β) : ℕ × List β :=
  if size * nmemb = 0 then (0, f) else (nmemb, f ++ data.take (size * nmemb))

def fread (size nmemb : ℕ) (f : List β) : ℕ × List β × List β :=
  if size * nmemb = 0 then (0, [], f)
  else (min nmemb (f.length / size), f.take (size * nmemb), f.drop (size * nmemb))

abbrev Writer (β : Type u) := List β → Option (List β)

abbrev Reader (β α : Type u) := StateT (List β) Option α

def putItems (data : List β) (size nmemb : ℕ) : Writer β := fun f =>
  if (fwrite data size nmemb f).1 = nmemb then some (fwrite data size nmemb f).2 else none

def takeItem (size : ℕ) : Reader β (List β) := fun f =>
  if (fread size 1 f).1 = 1 then some (fread size 1 f).2 else none

def times (r : Reader β α) : (n : ℕ) → Reader β { l : List α // l.length = n }
  | 0 => pure ⟨[], rfl⟩
  | n + 1 => do
    let a ← r
    let l ← times r n
    pure ⟨a :: l.1, congrArg (· + 1) l.2⟩

/-! ## What is written -/

/-- The writer writes the data on the condition, and else fails. -/
structure Writes (w : Writer β) (p : Prop) (xs : List β) : Prop where
  done : p → ∀ f, w f = some (f ++ xs)
  fails : ¬ p → ∀ f, w f = none

section
variable {w w' : Writer β} {p q : Prop} {xs ys : List β}

lemma Writes.congr {f g : Writer β} (h : Writes f p xs) (heq : ∀ x, g x = f x) (hp : p ↔ q) : Writes g q xs :=
  ⟨fun hq x => (heq x).trans (h.done (hp.mpr hq) x), fun hq x => (heq x).trans (h.fails (fun h => hq (hp.mp h)) x)⟩

lemma writes_putItems (data : List β) (size : ℕ) {nmemb : ℕ} (hn : nmemb ≠ 0) :
    Writes (putItems data size nmemb) (size ≠ 0) (data.take (size * nmemb)) := by
  refine ⟨fun hs f => ?_, fun hs f => ?_⟩
  · have hne : size * nmemb ≠ 0 := Nat.mul_ne_zero hs hn
    rw [putItems, fwrite, if_neg hne]
    exact if_pos rfl
  · have hzero : size * nmemb = 0 := by rw [not_not.mp hs, Nat.zero_mul]
    rw [putItems, fwrite, if_pos hzero]
    exact if_neg hn.symm

lemma Writes.andThen (h : Writes w p xs) (h' : Writes w' q ys) :
    Writes (fun f => (w f).bind w') (p ∧ q) (xs ++ ys) := by
  refine ⟨fun ⟨hp, hq⟩ f => ?_, fun hpq f => ?_⟩
  · show (w f).bind w' = some (f ++ (xs ++ ys))
    rw [h.done hp, bind_some, h'.done hq, append_assoc]
  · show (w f).bind w' = none
    by_cases hp : p
    · rw [h.done hp]
      exact h'.fails (fun hq => hpq ⟨hp, hq⟩) _
    · rw [h.fails hp, bind_none]

lemma writes_foldlM {w : α → Writer β} {p : α → Prop} {xs : α → List β} (h : ∀ a, Writes (w a) (p a) (xs a))
    (l : List α) : Writes (fun f => l.foldlM (fun f a => w a f) f) (∀ a ∈ l, p a) (l.flatMap xs) := by
  induction l with
  | nil =>
    refine ⟨fun _ f => ?_, fun hnot => absurd (fun a ha => absurd ha not_mem_nil) hnot⟩
    show some f = some (f ++ [])
    rw [append_nil]
  | cons a l ih =>
    refine ((h a).andThen ih).congr (fun f => ?_) ?_
    · rw [foldlM_cons]
      rfl
    · exact forall_mem_cons.symm

end

/-! ## What is read -/

/-- The reader reads the value from the data on the condition, and else fails there. -/
structure Reads (r : Reader β α) (p : Prop) (xs : List β) (a : α) : Prop where
  done : p → ∀ rest, r (xs ++ rest) = some (a, rest)
  fails : ¬ p → ∀ rest, r (xs ++ rest) = none

section
variable {γ : Type u} {r : Reader β α} {p q : Prop} {xs ys : List β} {a : α}

lemma Reads.of_iff (h : Reads r p xs a) (hp : p ↔ q) : Reads r q xs a :=
  ⟨fun hq => h.done (hp.mpr hq), fun hq => h.fails fun h => hq (hp.mp h)⟩

lemma reads_pure (a : α) : Reads (pure a : Reader β α) True [] a :=
  ⟨fun _ _ => rfl, fun h => absurd trivial h⟩

lemma Reads.bind (f : α → Reader β γ) {c : γ} (h : Reads r p xs a) (h' : Reads (f a) q ys c) :
    Reads (r >>= f) (p ∧ q) (xs ++ ys) c := by
  have hrun : ∀ x, (r >>= f) x = (r x).bind fun y => f y.1 y.2 := fun _ => rfl
  refine ⟨fun ⟨hp, hq⟩ rest => ?_, fun hpq rest => ?_⟩
  · rw [hrun, append_assoc, h.done hp, bind_some, h'.done hq]
  · rw [hrun, append_assoc]
    by_cases hp : p
    · rw [h.done hp]
      exact h'.fails (fun hq => hpq ⟨hp, hq⟩) rest
    · rw [h.fails hp, bind_none]

lemma Reads.map (f : α → γ) (h : Reads r p xs a) : Reads (r >>= fun a => pure (f a)) p xs (f a) := by
  have hbind := h.bind (fun a => pure (f a)) (reads_pure (f a))
  rwa [append_nil, and_true] at hbind

lemma Reads.guard (c : Prop) [Decidable c] (h : Reads r p xs a) : Reads (if c then failure else r) (¬ c ∧ p) xs a := by
  by_cases hc : c
  · rw [if_pos hc]
    exact ⟨fun h => absurd hc h.1, fun _ _ => rfl⟩
  · rw [if_neg hc]
    exact h.of_iff (and_iff_right hc).symm

lemma reads_takeItem (xs : List β) : Reads (takeItem xs.length) (xs ≠ []) xs xs := by
  refine ⟨fun hne rest => ?_, fun hne rest => ?_⟩
  · have hpos : 0 < xs.length := length_pos_iff.mpr hne
    have hmany : 1 ≤ (xs ++ rest).length / xs.length := by
      rw [Nat.le_div_iff_mul_le hpos, Nat.one_mul, length_append]
      exact Nat.le_add_right _ _
    rw [takeItem, fread, Nat.mul_one, if_neg (Nat.ne_of_gt hpos)]
    simp only [Nat.min_eq_left hmany, if_true, take_left', drop_left']
  · obtain rfl := not_not.mp hne
    rfl

lemma reads_times {enc : α → List β} {dec : α → α} {p : α → Prop} (h : ∀ a, Reads r (p a) (enc a) (dec a))
    (l : List α) {n : ℕ} (hn : l.length = n) :
    Reads (times r n) (∀ a ∈ l, p a) (l.flatMap enc) ⟨l.map dec, (length_map dec).trans hn⟩ := by
  subst hn
  induction l with
  | nil => exact ⟨fun _ _ => rfl, fun hnot => absurd (fun a ha => absurd ha not_mem_nil) hnot⟩
  | cons a l ih =>
    apply Reads.of_iff
    · rw [flatMap_cons]
      apply Reads.bind _ (h a)
      exact ih.map _
    · exact forall_mem_cons.symm

end

end Stdio
