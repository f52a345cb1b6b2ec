import Mathlib

/-! Texts of decimal numbers with a blank between any two, lists that are preceded by their
length, and the words of a bit vector: each can be read back. -/

namespace Fields
open List Nat

variable (ns : List ℕ)

def text : String := " ".intercalate (ns.map toString)

lemma toList_text : (text ns).toList = [' '].intercalate (ns.map (Nat.toDigits 10)) := by
  rw [text, String.toList_intercalate, map_map]
  congr 1
  apply map_congr_left
  intro n _
  exact String.toList_ofList

lemma text_concat (n : ℕ) : text (ns ++ [n]) = if ns = [] then toString n else text ns ++ " " ++ toString n := by
  induction ns with
  | nil => rfl
  | cons m ms ih =>
    rw [← String.toList_inj]
    cases ms with
    | nil =>
      simp only [toList_text, reduceCtorEq, if_false, String.toList_append]
      simp
    | cons m' ms =>
      have htail := congrArg String.toList ih
      simp only [reduceCtorEq, if_false, toList_text, String.toList_append, cons_append, map_cons,
        intercalate_cons_cons] at htail ⊢
      rw [htail]
      simp

lemma blank_notMem_toDigits (n : ℕ) : ' ' ∉ Nat.toDigits 10 n := fun h =>
  absurd (isDigit_of_mem_toDigits (by decide) (by decide) h) (by decide)

lemma splitOn_text {ns : List ℕ} (h : ns ≠ []) : (text ns).toList.splitOn ' ' = ns.map (Nat.toDigits 10) := by
  rw [toList_text]
  apply splitOn_intercalate
  · intro _ hdigits
    obtain ⟨n, -, rfl⟩ := mem_map.mp hdigits
    exact blank_notMem_toDigits n
  · exact fun hnil => h (map_eq_nil_iff.mp hnil)

lemma text_injOn {ns ms : List ℕ} (hns : ns ≠ []) (hms : ms ≠ []) (h : text ns = text ms) : ns = ms := by
  have hdigits : ns.map (toDigits 10) = ms.map (toDigits 10) := by
    rw [← splitOn_text hns, ← splitOn_text hms, h]
  refine map_injective_iff.mpr ?_ hdigits
  intro n m hnm
  rw [← ofDigitChars_ten_toDigits (n := n), hnm, ofDigitChars_ten_toDigits]

def counted : List ℕ := ns.length :: ns

lemma counted_append_inj {ns ms rest rest' : List ℕ} (h : counted ns ++ rest = counted ms ++ rest') :
    ns = ms ∧ rest = rest' := by
  rw [counted, counted, cons_append, cons_append, cons.injEq] at h
  exact append_inj h.2 h.1

def words {w : ℕ} (v : BitVec w) : List ℕ := (List.range ((w + 63) / 64)).map fun i => (v.extractLsb' (64 * i) 64).toNat

lemma words_injective {w : ℕ} : Function.Injective (words : BitVec w → List ℕ) := by
  intro v v' h
  apply BitVec.eq_of_getLsbD_eq
  intro i hi
  have hword : i / 64 < (w + 63) / 64 := by omega
  have hi' : 64 * (i / 64) + i % 64 = i := div_add_mod i 64
  have hsame : v.extractLsb' (64 * (i / 64)) 64 = v'.extractLsb' (64 * (i / 64)) 64 := by
    apply BitVec.eq_of_toNat_eq
    exact map_inj_left.mp h (i / 64) (mem_range.mpr hword)
  have hbit := congrArg (fun u => BitVec.getLsbD u (i % 64)) hsame
  simpa [mod_lt, hi'] using hbit

end Fields
