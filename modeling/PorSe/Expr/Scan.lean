import PorSe.Expr.Eval

/-! The scan before an expression is printed: it finds the arrays that are used and what
occurs more than once. Expressions are compared by their structure, update nodes by their
addresses. -/

namespace Klee
open List Nat
variable {N : Type} [DecidableEq N]

structure Scan (N : Type) where
  couldPrint : List Expr
  shouldPrint : List Expr
  couldPrintUpdates : List (UpdateNodes N)
  shouldPrintUpdates : List (UpdateNodes N)
  usedArrays : List Array

namespace Scan

def initial : Scan N := ⟨[], [], [], [], []⟩

/-- Goes on to the kids when an expression is seen for the first time. -/
def visit (s : Scan N) (e : Expr) (kids : Scan N → Scan N) : Scan N :=
  if e ∈ s.couldPrint then { s with shouldPrint := s.shouldPrint.insert e }
  else kids { s with couldPrint := e :: s.couldPrint }

def visitUpdate (s : Scan N) (un : UpdateNodes N) (kids : Scan N → Scan N) : Scan N :=
  if un ∈ s.couldPrintUpdates then { s with shouldPrintUpdates := s.shouldPrintUpdates.insert un }
  else kids { s with couldPrintUpdates := un :: s.couldPrintUpdates }

def useArray (s : Scan N) (root : Array) : Scan N := { s with usedArrays := s.usedArrays.insert root }

end Scan

mutual

def Term.scan1 : Term N → Scan N → Scan N
  | .constant _ _, s => s
  | .notOptimized src, s => s.visit (Term.notOptimized src).erase fun s => src.scan1 s
  | .read root head index, s =>
    s.visit (Term.read root head index).erase fun s => head.scanUpdate ((index.scan1 s).useArray root)
  | .select cond trueExpr falseExpr, s =>
    s.visit (Term.select cond trueExpr falseExpr).erase fun s => falseExpr.scan1 (trueExpr.scan1 (cond.scan1 s))
  | .concat left right, s => s.visit (Term.concat left right).erase fun s => right.scan1 (left.scan1 s)
  | .extract expr offset width, s => s.visit (Term.extract expr offset width).erase fun s => expr.scan1 s
  | .zext src width, s => s.visit (Term.zext src width).erase fun s => src.scan1 s
  | .sext src width, s => s.visit (Term.sext src width).erase fun s => src.scan1 s
  | .not expr, s => s.visit (Term.not expr).erase fun s => expr.scan1 s
  | .binary kind left right, s => s.visit (Term.binary kind left right).erase fun s => right.scan1 (left.scan1 s)

def UpdateNodes.scanUpdate : UpdateNodes N → Scan N → Scan N
  | .nil, s => s
  | .node id index value next, s =>
    s.visitUpdate (.node id index value next) fun s => value.scan1 (index.scan1 (next.scanUpdate s))

end

def Term.scan (e : Term N) : Scan N := e.scan1 .initial

/-! ## The arrays that are used -/

mutual

def Term.arrays {N : Type} : Term N → List Array
  | .constant _ _ => []
  | .notOptimized src => src.arrays
  | .read root head index => index.arrays ++ root :: head.arrays
  | .select cond trueExpr falseExpr => cond.arrays ++ trueExpr.arrays ++ falseExpr.arrays
  | .concat left right => left.arrays ++ right.arrays
  | .extract expr _ _ => expr.arrays
  | .zext src _ => src.arrays
  | .sext src _ => src.arrays
  | .not expr => expr.arrays
  | .binary _ left right => left.arrays ++ right.arrays

def UpdateNodes.arrays {N : Type} : UpdateNodes N → List Array
  | .nil => []
  | .node _ index value next => next.arrays ++ index.arrays ++ value.arrays

end

mutual

lemma Term.erase_arrays {N : Type} : ∀ e : Term N, e.erase.arrays = e.arrays
  | .constant _ _ => rfl
  | .notOptimized src => src.erase_arrays
  | .read root head index => by rw [Term.erase, Term.arrays, Term.arrays, index.erase_arrays, head.erase_arrays]
  | .select cond trueExpr falseExpr => by
    rw [Term.erase, Term.arrays, Term.arrays, cond.erase_arrays, trueExpr.erase_arrays, falseExpr.erase_arrays]
  | .concat left right => by rw [Term.erase, Term.arrays, Term.arrays, left.erase_arrays, right.erase_arrays]
  | .extract expr _ _ => expr.erase_arrays
  | .zext src _ | .sext src _ => src.erase_arrays
  | .not expr => expr.erase_arrays
  | .binary _ left right => by rw [Term.erase, Term.arrays, Term.arrays, left.erase_arrays, right.erase_arrays]

lemma UpdateNodes.erase_arrays {N : Type} : ∀ un : UpdateNodes N, un.erase.arrays = un.arrays
  | .nil => rfl
  | .node _ index value next => by
    rw [UpdateNodes.erase, UpdateNodes.arrays, UpdateNodes.arrays, next.erase_arrays,
      index.erase_arrays, value.erase_arrays]

end

mutual

lemma Term.erase_size {N : Type} : ∀ e : Term N, e.erase.size = e.size
  | .constant _ _ => rfl
  | .notOptimized src => by rw [Term.erase, Term.size, Term.size, src.erase_size]
  | .read root head index => by rw [Term.erase, Term.size, Term.size, index.erase_size, head.erase_size]
  | .select cond trueExpr falseExpr => by
    rw [Term.erase, Term.size, Term.size, cond.erase_size, trueExpr.erase_size, falseExpr.erase_size]
  | .concat left right => by rw [Term.erase, Term.size, Term.size, left.erase_size, right.erase_size]
  | .extract expr _ _ => by rw [Term.erase, Term.size, Term.size, expr.erase_size]
  | .zext src _ | .sext src _ => by rw [Term.erase, Term.size, Term.size, src.erase_size]
  | .not expr => by rw [Term.erase, Term.size, Term.size, expr.erase_size]
  | .binary _ left right => by rw [Term.erase, Term.size, Term.size, left.erase_size, right.erase_size]

lemma UpdateNodes.erase_size {N : Type} : ∀ un : UpdateNodes N, un.erase.size = un.size
  | .nil => rfl
  | .node _ index value next => by
    rw [UpdateNodes.erase, UpdateNodes.size, UpdateNodes.size, next.erase_size, index.erase_size, value.erase_size]

end

namespace Scan
variable {s s' s'' : Scan N} {as bs : List Array} {n m : ℕ} {kids : Scan N → Scan N}

/-- The arrays of seen expressions up to a size are known; larger ones may still be on the way. -/
structure Known (s : Scan N) (n : ℕ) : Prop where
  exprs : ∀ f ∈ s.couldPrint, f.size ≤ n → ∀ v ∈ f.arrays, v ∈ s.usedArrays
  updates : ∀ un ∈ s.couldPrintUpdates, un.size ≤ n → ∀ v ∈ un.arrays, v ∈ s.usedArrays

structure Scanned (s s' : Scan N) (as : List Array) : Prop where
  exprs : ∀ f ∈ s'.couldPrint, f ∈ s.couldPrint ∨ ∀ v ∈ f.arrays, v ∈ s'.usedArrays
  updates : ∀ un ∈ s'.couldPrintUpdates, un ∈ s.couldPrintUpdates ∨ ∀ v ∈ un.arrays, v ∈ s'.usedArrays
  used : ∀ v, v ∈ s'.usedArrays ↔ v ∈ s.usedArrays ∨ v ∈ as

section
omit [DecidableEq N]

lemma Known.mono (h : s.Known n) (hle : m ≤ n) : s.Known m :=
  ⟨fun f hf hm => h.exprs f hf (hm.trans hle), fun un hun hm => h.updates un hun (hm.trans hle)⟩

lemma Known.scanned (h : s.Known n) (hs : s.Scanned s' as) : s'.Known n where
  exprs f hf hn := by
    rcases hs.exprs f hf with hf | hf
    · exact fun v hv => (hs.used v).mpr (.inl (h.exprs f hf hn v hv))
    · exact hf
  updates un hun hn := by
    rcases hs.updates un hun with hun | hun
    · exact fun v hv => (hs.used v).mpr (.inl (h.updates un hun hn v hv))
    · exact hun

lemma Scanned.refl (s : Scan N) : s.Scanned s [] :=
  ⟨fun _ hf => .inl hf, fun _ hun => .inl hun, fun v => by simp⟩

lemma Scanned.trans (h : s.Scanned s' as) (h' : s'.Scanned s'' bs) : s.Scanned s'' (as ++ bs) where
  exprs f hf := by
    rcases h'.exprs f hf with hf | hf
    · exact (h.exprs f hf).imp_right fun hv v hmem => (h'.used v).mpr (.inl (hv v hmem))
    · exact .inr hf
  updates un hun := by
    rcases h'.updates un hun with hun | hun
    · exact (h.updates un hun).imp_right fun hv v hmem => (h'.used v).mpr (.inl (hv v hmem))
    · exact .inr hun
  used v := by rw [h'.used, h.used, mem_append, or_assoc]

lemma Scanned.useArray (h : s.Scanned s' as) (root : Array) : s.Scanned (s'.useArray root) (as ++ [root]) where
  exprs f hf := (h.exprs f hf).imp_right fun hv v hmem => mem_insert_of_mem (hv v hmem)
  updates un hun := (h.updates un hun).imp_right fun hv v hmem => mem_insert_of_mem (hv v hmem)
  used v := by
    show v ∈ s'.usedArrays.insert root ↔ _
    rw [mem_insert_iff, h.used, mem_append, mem_singleton]
    tauto

lemma scanned_visit (e : Term N) (h : s.Known e.size)
    (hkids : ∀ s : Scan N, s.Known (e.size - 1) → s.Scanned (kids s) e.arrays) (hpos : 0 < e.size) :
    s.Scanned (s.visit e.erase kids) e.arrays := by
  rw [visit]
  split_ifs with hmem
  · refine ⟨fun f hf => .inl hf, fun un hun => .inl hun, fun v => ⟨.inl, ?_⟩⟩
    rintro (hv | hv)
    · exact hv
    · exact h.exprs e.erase hmem e.erase_size.le v (e.erase_arrays ▸ hv)
  · have hknown : Scan.Known { s with couldPrint := e.erase :: s.couldPrint } (e.size - 1) := by
      refine ⟨fun f hf hn => ?_, fun un hun hn => h.updates un hun (by omega)⟩
      rcases mem_cons.mp hf with rfl | hf
      · rw [e.erase_size] at hn
        omega
      · exact h.exprs f hf (by omega)
    have hscanned := hkids _ hknown
    refine ⟨fun f hf => ?_, hscanned.updates, hscanned.used⟩
    rcases hscanned.exprs f hf with hf | hf
    · rcases mem_cons.mp hf with rfl | hf
      · exact .inr fun v hv => (hscanned.used v).mpr (.inr (e.erase_arrays ▸ hv))
      · exact .inl hf
    · exact .inr hf

end

lemma scanned_visitUpdate {un : UpdateNodes N} (h : s.Known un.size)
    (hkids : ∀ s : Scan N, s.Known (un.size - 1) → s.Scanned (kids s) un.arrays) (hpos : 0 < un.size) :
    s.Scanned (s.visitUpdate un kids) un.arrays := by
  rw [visitUpdate]
  split_ifs with hmem
  · refine ⟨fun f hf => .inl hf, fun un hun => .inl hun, fun v => ⟨.inl, ?_⟩⟩
    rintro (hv | hv)
    · exact hv
    · exact h.updates un hmem le_rfl v hv
  · have hknown : Scan.Known { s with couldPrintUpdates := un :: s.couldPrintUpdates } (un.size - 1) := by
      refine ⟨fun f hf hn => h.exprs f hf (by omega), fun un' hun hn => ?_⟩
      rcases mem_cons.mp hun with rfl | hun
      · omega
      · exact h.updates un' hun (by omega)
    have hscanned := hkids _ hknown
    refine ⟨hscanned.exprs, fun un' hun => ?_, hscanned.used⟩
    rcases hscanned.updates un' hun with hun | hun
    · rcases mem_cons.mp hun with rfl | hun
      · exact .inr fun v hv => (hscanned.used v).mpr (.inr hv)
      · exact .inl hun
    · exact .inr hun

end Scan

open Scan

mutual

lemma Term.scanned_scan1 : ∀ (e : Term N) (s : Scan N), s.Known e.size → s.Scanned (e.scan1 s) e.arrays
  | .constant _ _, s, _ => .refl s
  | .notOptimized src, s, h => by
    refine scanned_visit (.notOptimized src) h (fun s hs => ?_) (Nat.succ_pos _)
    exact src.scanned_scan1 s hs
  | .read root head index, s, h => by
    refine scanned_visit (.read root head index) h (fun s hs => ?_) (Nat.succ_pos _)
    simp only [Term.size, Nat.add_sub_cancel] at hs
    have hindex := (index.scanned_scan1 s (hs.mono (by omega))).useArray root
    have hhead := hindex.trans (head.scanned_scanUpdate _ ((hs.mono (by omega)).scanned hindex))
    rwa [append_assoc] at hhead
  | .select cond trueExpr falseExpr, s, h => by
    refine scanned_visit (.select cond trueExpr falseExpr) h (fun s hs => ?_) (succ_pos _)
    simp only [Term.size] at hs
    have hcond := cond.scanned_scan1 s (hs.mono (by omega))
    have htrue := hcond.trans (trueExpr.scanned_scan1 _ ((hs.mono (by omega)).scanned hcond))
    exact htrue.trans (falseExpr.scanned_scan1 _ ((hs.mono (by omega)).scanned htrue))
  | .concat left right, s, h => by
    refine scanned_visit (.concat left right) h (fun s hs => ?_) (succ_pos _)
    simp only [Term.size] at hs
    have hleft := left.scanned_scan1 s (hs.mono (by omega))
    exact hleft.trans (right.scanned_scan1 _ ((hs.mono (by omega)).scanned hleft))
  | .extract expr offset width, s, h => by
    refine scanned_visit (.extract expr offset width) h (fun s hs => ?_) (succ_pos _)
    exact expr.scanned_scan1 s hs
  | .zext src width, s, h => by
    refine scanned_visit (.zext src width) h (fun s hs => ?_) (succ_pos _)
    exact src.scanned_scan1 s hs
  | .sext src width, s, h => by
    refine scanned_visit (.sext src width) h (fun s hs => ?_) (succ_pos _)
    exact src.scanned_scan1 s hs
  | .not expr, s, h => by
    refine scanned_visit (.not expr) h (fun s hs => ?_) (succ_pos _)
    exact expr.scanned_scan1 s hs
  | .binary kind left right, s, h => by
    refine scanned_visit (.binary kind left right) h (fun s hs => ?_) (succ_pos _)
    simp only [Term.size] at hs
    have hleft := left.scanned_scan1 s (hs.mono (by omega))
    exact hleft.trans (right.scanned_scan1 _ ((hs.mono (by omega)).scanned hleft))

lemma UpdateNodes.scanned_scanUpdate : ∀ (un : UpdateNodes N) (s : Scan N), s.Known un.size →
    s.Scanned (un.scanUpdate s) un.arrays
  | .nil, s, _ => .refl s
  | .node id index value next, s, h => by
    refine scanned_visitUpdate h (fun s hs => ?_) (Nat.succ_pos _)
    simp only [UpdateNodes.size, Nat.add_sub_cancel] at hs
    have hnext := next.scanned_scanUpdate s (hs.mono (by omega))
    have hindex := hnext.trans (index.scanned_scan1 _ ((hs.mono (by omega)).scanned hnext))
    exact hindex.trans (value.scanned_scan1 _ ((hs.mono (by omega)).scanned hindex))

end

lemma Term.mem_usedArrays_scan (e : Term N) (v : Array) : v ∈ e.scan.usedArrays ↔ v ∈ e.arrays := by
  have hknown : Scan.Known (initial : Scan N) e.size := ⟨nofun, nofun⟩
  rw [scan, (e.scanned_scan1 _ hknown).used]
  exact or_iff_right not_mem_nil

section
variable {N : Type} {σ τ : Valuation}

mutual

lemma Term.eval_congr : ∀ (e : Term N) (w : ℕ), (∀ a ∈ e.arrays, σ a = τ a) → e.eval σ w = e.eval τ w
  | .constant _ _, _, _ => rfl
  | .read root head index, w, h => by
    rw [Term.arrays, forall_mem_append, forall_mem_cons] at h
    rw [Term.eval, Term.eval, index.eval_congr _ h.1, head.eval_congr root _ h.2.1 h.2.2]
  | .select cond trueExpr falseExpr, w, h => by
    rw [Term.arrays, forall_mem_append, forall_mem_append] at h
    rw [Term.eval, Term.eval, cond.eval_congr _ h.1.1, trueExpr.eval_congr _ h.1.2, falseExpr.eval_congr _ h.2]
  | .concat left right, w, h | .binary _ left right, w, h => by
    rw [Term.arrays, forall_mem_append] at h
    rw [Term.eval, Term.eval, left.eval_congr _ h.1, right.eval_congr _ h.2]
  | .notOptimized src, w, h | .extract src _ _, w, h | .zext src _, w, h | .sext src _, w, h | .not src, w, h => by
    rw [Term.eval, Term.eval, src.eval_congr _ h]

lemma UpdateNodes.eval_congr : ∀ (un : UpdateNodes N) (root : Array) (i : BitVec root.domain), σ root = τ root →
    (∀ a ∈ un.arrays, σ a = τ a) → un.eval σ root i = un.eval τ root i
  | .nil, root, i, hroot, _ => by rw [UpdateNodes.eval, UpdateNodes.eval, Array.contents, Array.contents, hroot]
  | .node _ index value next, root, i, hroot, h => by
    rw [UpdateNodes.arrays, forall_mem_append, forall_mem_append] at h
    rw [UpdateNodes.eval, UpdateNodes.eval, index.eval_congr _ h.1.2, value.eval_congr _ h.2,
      next.eval_congr root i hroot h.1.1]

end

end

/-- The value depends on no other arrays than those that the scan collects. -/
theorem Term.eval_usedArrays (σ τ : Valuation) (e : Term N) (w : ℕ) :
    e.eval (fun a => if a ∈ e.scan.usedArrays then σ a else τ a) w = e.eval σ w :=
  e.eval_congr w fun a ha => if_pos ((e.mem_usedArrays_scan a).mpr ha)

end Klee
