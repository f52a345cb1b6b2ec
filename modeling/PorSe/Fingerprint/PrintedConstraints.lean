import PorSe.Fingerprint.ConstraintOrder
import PorSe.Expr.Printer
import PorSe.Expr.Order

/-! Path constraints as expressions: equal expressions that share their update nodes in
different ways are printed differently. -/

namespace Fingerprint
open Klee

instance : Expression (Term ℕ) Klee.Array Expr where
  key := Term.erase
  usedArrays e := e.scan.usedArrays
  name := Klee.Array.name
  printSingleExpr e := e.printSingleExpr false
  usedArrays_congr {a b} h v := by
    rw [a.mem_usedArrays_scan, b.mem_usedArrays_scan, ← a.erase_arrays, h, b.erase_arrays]

namespace SharedUpdates

def bytes (address : ℕ) (name : String) : Klee.Array :=
  ⟨address, name, 4, 32, 8, [], .inl rfl, by decide, by decide, by decide⟩

def updates (node : ℕ) : UpdateNodes ℕ :=
  .node node (.zext (.read (bytes 1 "B") .nil (.constant 32 0)) 32) (.constant 8 7) .nil

def constraint (node : ℕ) : Term ℕ :=
  .binary .eq (.read (bytes 0 "A") (updates 0) (.constant 32 0)) (.read (bytes 0 "A") (updates node) (.constant 32 1))

lemma mem_usedArrays (node : ℕ) (v : Klee.Array) :
    v ∈ Expression.usedArrays (constraint node) ↔ v ∈ [bytes 1 "B", bytes 0 "A"] := by
  refine ((constraint node).mem_usedArrays_scan v).trans ?_
  simp [constraint, updates, Term.arrays, UpdateNodes.arrays]
  tauto

lemma namesDistinct {fp : MemoryFingerprint StringSet Klee.Array} {es : List (Term ℕ)}
    (hfp : fp.referenced = [bytes 0 "A"])
    (hes : ∀ e ∈ es, ∀ v ∈ Expression.usedArrays e, v ∈ [bytes 1 "B", bytes 0 "A"]) :
    fp.NamesDistinct es := by
  have harrays : ∀ v, fp.Connected es v → v ∈ [bytes 1 "B", bytes 0 "A"] := by
    intro v hv
    rcases MemoryFingerprint.connected_iff.mp hv with hv | ⟨e, he, hv⟩
    · exact List.mem_cons_of_mem _ (hfp ▸ hv)
    · exact hes e he.1 v hv
  have hnames : ∀ a ∈ [bytes 1 "B", bytes 0 "A"], ∀ b ∈ [bytes 1 "B", bytes 0 "A"], a.name = b.name → a = b := by decide
  exact fun a b ha hb => hnames a (harrays a ha) b (harrays b hb)

lemma exists_run : ∃ (S : Store Unit Unit Klee.Array) (calls : List (Operation Unit Unit × Fragment Klee.Array)),
    Run S calls ∧ (∀ s ∈ (S.fingerprints ()).symbolicReferences.entries, 0 < s.2.toInt) ∧
      (S.fingerprints ()).referenced = [bytes 0 "A"] ∧
      ((S.fingerprints ()).getFingerprint stringSet [constraint 0, constraint 1]).isSome = true ∧
      ((S.fingerprints ()).getFingerprint stringSet [constraint 1, constraint 0]).isSome = true ∧
      ((S.fingerprints ()).getFingerprint stringSet [constraint 0, constraint 1]).map (fun r => r.1.entries) ≠
        ((S.fingerprints ()).getFingerprint stringSet [constraint 1, constraint 0]).map fun r => r.1.entries := by
  refine ⟨_, _, .step (.addToFingerprint ()) (.updateExpr () "x" [bytes 0 "A"] .start) rfl, ?_, rfl, ?_, ?_, ?_⟩
  · decide +kernel
  · decide +kernel
  · decide +kernel
  · decide +kernel

end SharedUpdates

open SharedUpdates

theorem getFingerprint_order :
    ∃ (S : Store Unit Unit Klee.Array) (calls : List (Operation Unit Unit × Fragment Klee.Array)), Run S calls ∧
      (∀ s ∈ (S.fingerprints ()).symbolicReferences.entries, 0 < s.2.toInt) ∧
      (S.fingerprints ()).NamesDistinct [constraint 0, constraint 1] ∧
      ((S.fingerprints ()).getFingerprint stringSet [constraint 0, constraint 1]).isSome = true ∧
      ((S.fingerprints ()).getFingerprint stringSet [constraint 1, constraint 0]).isSome = true ∧
      ((S.fingerprints ()).getFingerprint stringSet [constraint 0, constraint 1]).map (fun r => r.1.entries) ≠
        ((S.fingerprints ()).getFingerprint stringSet [constraint 1, constraint 0]).map fun r => r.1.entries := by
  obtain ⟨S, calls, hrun, hpos, hreferenced, hcalls⟩ := exists_run
  refine ⟨S, calls, hrun, hpos, namesDistinct hreferenced ?_, hcalls⟩
  simp only [List.forall_mem_cons]
  exact ⟨fun v => (mem_usedArrays 0 v).mp, fun v => (mem_usedArrays 1 v).mp, by simp⟩

def zeroByte : Term ℕ := .binary .eq (.constant 8 0) (.read (bytes 0 "A") .nil (.constant 32 0))

/-- Two constraints on the array, in any order and number. -/
theorem getFingerprint_two :
    ∃ (S : Store Unit Unit Klee.Array) (calls : List (Operation Unit Unit × Fragment Klee.Array)),
      Run S calls ∧ (S.fingerprints ()).referenced ≠ [] ∧
        ∃ value, (S.fingerprints ()).OrderIndependent [constraint 0, zeroByte] value := by
  obtain ⟨S, calls, hrun, hpos, hreferenced, -⟩ := exists_run
  have hzero : ∀ v ∈ Expression.usedArrays zeroByte, v ∈ [bytes 1 "B", bytes 0 "A"] := by decide
  have hnames : (S.fingerprints ()).NamesDistinct [constraint 0, zeroByte] := namesDistinct hreferenced
    (by simpa only [List.forall_mem_cons] using ⟨fun v => (mem_usedArrays 0 v).mp, hzero, by simp⟩)
  obtain ⟨value, _, _, -, -, -, -, hiff⟩ :=
    hrun.getFingerprint_exact () [constraint 0, zeroByte] hpos hnames
  refine ⟨S, calls, hrun, by simp [hreferenced], value, hiff.mpr ?_⟩
  intro a b ha hb hkey
  have hall : ∀ a ∈ [constraint 0, zeroByte], ∀ b ∈ [constraint 0, zeroByte],
    a.erase = b.erase → a = b := by decide
  rw [hall a ha.1 b hb.1 hkey]

end Fingerprint
