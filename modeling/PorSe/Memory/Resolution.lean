import PorSe.Lib.ListSearch
import PorSe.Memory.AddressSpace
import PorSe.Solver.TimingSolver

/-! Finding the objects that a pointer may point into. -/

namespace Klee
open List Option SortedMap Nat
open Klee.Expr

namespace MemoryObject
variable (constArrayOpt : Bool) (pointerWidth : ℕ) (mo : MemoryObject)

def getBaseExpr : Expr := .constant pointerWidth (.ofNat pointerWidth mo.address)

def getSizeExpr : Expr := .constant pointerWidth (.ofNat pointerWidth mo.size)

def getOffsetExpr (pointer : Expr) : Expr := subCreate constArrayOpt pointer (mo.getBaseExpr pointerWidth)

def getBoundsCheckOffset (offset : Expr) : Expr :=
  if mo.size = 0 then eqCreate constArrayOpt offset (.constant pointerWidth 0)
  else ultCreate constArrayOpt offset (mo.getSizeExpr pointerWidth)

def getBoundsCheckPointer (pointer : Expr) : Expr :=
  mo.getBoundsCheckOffset constArrayOpt pointerWidth (mo.getOffsetExpr constArrayOpt pointerWidth pointer)

/-- The addresses of an object, of which one without bytes has its own. -/
def Occupies (address : ℕ) : Prop := mo.address ≤ address ∧ address < mo.address + max mo.size 1

instance (address : ℕ) : Decidable (mo.Occupies address) := inferInstanceAs (Decidable (_ ∧ _))

structure Fits : Prop where
  size_lt : mo.size < 2 ^ pointerWidth
  end_le : mo.address + max mo.size 1 ≤ 2 ^ pointerWidth

end MemoryObject

abbrev ObjectPair := MemoryObject × ℕ
abbrev ResolutionList := List ObjectPair

/-- What `checkPointerInObject` returns: 0, 1 and 2. -/
inductive Resolution
  | complete
  | incomplete
  | undecided
deriving DecidableEq

namespace AddressSpace
variable (a : AddressSpace)

variable (address : ℕ)

def lookupPrevious : Option ObjectPair :=
  (a.objects.entries.takeWhile (·.1 ≤ address)).getLast?.map Prod.snd

def resolveOneConstant : Option ObjectPair := do
  let (mo, os) ← a.lookupPrevious address
  if (mo.size = 0 ∧ address = mo.address) ∨ address - mo.address < mo.size then some (mo, os) else none

def objectsBefore : List ObjectPair := (a.objects.entries.takeWhile (·.1 ≤ address)).reverse.map Prod.snd

def objectsFrom : List ObjectPair := (a.objects.entries.dropWhile (·.1 ≤ address)).map Prod.snd

section
variable (constArrayOpt : Bool) (pointerWidth : ℕ) (solver : TimingSolver) (constraints : List Expr)

def resolveOneBackwards (address : Expr) : List ObjectPair → Option (Option ObjectPair)
  | [] => some none
  | (mo, os) :: rest => do
    let mayBeTrue ←
      solver.mayBeTrue constArrayOpt constraints (mo.getBoundsCheckPointer constArrayOpt pointerWidth address)
    if mayBeTrue then some (some (mo, os))
    else
      let mustBeTrue ←
        solver.mustBeTrue constraints (binaryCreate constArrayOpt .uge address (mo.getBaseExpr pointerWidth))
      if mustBeTrue then some none else resolveOneBackwards address rest

def resolveOneForwards (address : Expr) : List ObjectPair → Option (Option ObjectPair)
  | [] => some none
  | (mo, os) :: rest => do
    let mustBeTrue ←
      solver.mustBeTrue constraints (binaryCreate constArrayOpt .ult address (mo.getBaseExpr pointerWidth))
    if mustBeTrue then some none
    else
      let mayBeTrue ←
        solver.mayBeTrue constArrayOpt constraints (mo.getBoundsCheckPointer constArrayOpt pointerWidth address)
      if mayBeTrue then some (some (mo, os)) else resolveOneForwards address rest

/-- The cheap search at a possible value, which leaves out objects without bytes, and then both directions. -/
def resolveOneFrom (address : Expr) (value : ℕ) : Option (Option ObjectPair) :=
  match (a.lookupPrevious value).filter fun op => value - op.1.address < op.1.size with
  | some op => some (some op)
  | none =>
    (resolveOneBackwards constArrayOpt pointerWidth solver constraints address (a.objectsBefore value)).bind fun
      | some op => some (some op)
      | none => resolveOneForwards constArrayOpt pointerWidth solver constraints address (a.objectsFrom value)

def resolveOne (address : Expr) : Option (Option ObjectPair) :=
  match address.constant? with
  | some ⟨_, c⟩ => some (a.resolveOneConstant c.toNat)
  | none =>
    (solver.getValue constraints address).bind fun cex =>
      a.resolveOneFrom constArrayOpt pointerWidth solver constraints address cex.2.toNat

def checkPointerInObject (p : Expr) (op : ObjectPair) (rl : ResolutionList) (maxResolutions : ℕ) :
    Resolution × ResolutionList :=
  let inBounds := op.1.getBoundsCheckPointer constArrayOpt pointerWidth p
  match solver.mayBeTrue constArrayOpt constraints inBounds with
  | none => (.incomplete, rl)
  | some false => (.undecided, rl)
  | some true =>
    let rl := rl ++ [op]
    if rl.length = 1 then
      match solver.mustBeTrue constraints inBounds with
      | none => (.incomplete, rl)
      | some true => (.complete, rl)
      | some false => (.undecided, rl)
    else if rl.length = maxResolutions then (.incomplete, rl)
    else (.undecided, rl)

/-- The search downwards; an error ends the whole search. `timeout` says that the time is up at an object. -/
def resolveBackwards (p : Expr) (maxResolutions : ℕ) (timeout : ObjectPair → Bool) :
    List ObjectPair → ResolutionList → Except (Bool × ResolutionList) ResolutionList
  | [], rl => .ok rl
  | op :: rest, rl =>
    if timeout op then .error (true, rl)
    else
      match checkPointerInObject constArrayOpt pointerWidth solver constraints p op rl maxResolutions with
      | (.incomplete, rl) => .error (true, rl)
      | (.complete, rl) => .error (false, rl)
      | (.undecided, rl) =>
        match solver.mustBeTrue constraints (binaryCreate constArrayOpt .uge p (op.1.getBaseExpr pointerWidth)) with
        | none => .error (true, rl)
        | some true => .ok rl
        | some false => resolveBackwards p maxResolutions timeout rest rl

def resolveForwards (p : Expr) (maxResolutions : ℕ) (timeout : ObjectPair → Bool) :
    List ObjectPair → ResolutionList → Except (Bool × ResolutionList) ResolutionList
  | [], rl => .ok rl
  | op :: rest, rl =>
    if timeout op then .error (true, rl)
    else
      match solver.mustBeTrue constraints (binaryCreate constArrayOpt .ult p (op.1.getBaseExpr pointerWidth)) with
      | none => .error (true, rl)
      | some true => .ok rl
      | some false =>
        match checkPointerInObject constArrayOpt pointerWidth solver constraints p op rl maxResolutions with
        | (.incomplete, rl) => .error (true, rl)
        | (.complete, rl) => .error (false, rl)
        | (.undecided, rl) => resolveForwards p maxResolutions timeout rest rl

def resolve (p : Expr) (rl : ResolutionList) (maxResolutions : ℕ) (timeout : ObjectPair → Bool) :
    Bool × ResolutionList :=
  match p.constant? with
  | some ⟨_, c⟩ => (false, rl ++ (a.resolveOneConstant c.toNat).toList)
  | none =>
    match solver.getValue constraints p with
    | none => (true, rl)
    | some cex =>
      let search := do
        let rl ← resolveBackwards constArrayOpt pointerWidth solver constraints p maxResolutions timeout
          (a.objectsBefore cex.2.toNat) rl
        resolveForwards constArrayOpt pointerWidth solver constraints p maxResolutions timeout
          (a.objectsFrom cex.2.toNat) rl
      match search with
      | .error r => r
      | .ok rl => (false, rl)

end

end AddressSpace

/-! ## What the solver answers -/

namespace MemoryObject
variable {opt : Bool} {w : ℕ} {mo : MemoryObject} {σ : Valuation} {p : Expr} {v : BitVec w}

lemma Fits.address_lt (h : mo.Fits w) : mo.address < 2 ^ w := by
  have hend := h.end_le
  omega

lemma denotes_getBaseExpr (hw : 0 < w) : Denotes σ (mo.getBaseExpr w) (BitVec.ofNat w mo.address) := .constant hw _

lemma Fits.denotes_boundsCheck (h : mo.Fits w) (hv : Denotes σ p v) :
    Denotes σ (mo.getBoundsCheckPointer opt w p) (BitVec.ofBool (decide (mo.Occupies v.toNat))) := by
  have hbase := h.address_lt
  have hend := h.end_le
  have hsize := h.size_lt
  have hoffset : Denotes σ (mo.getOffsetExpr opt w p) (v - BitVec.ofNat w mo.address) :=
    hv.subCreate (denotes_getBaseExpr hv.pos)
  have hsub : (v - BitVec.ofNat w mo.address).toNat =
      if mo.address ≤ v.toNat then v.toNat - mo.address else 2 ^ w - mo.address + v.toNat := by
    rw [BitVec.toNat_sub, BitVec.toNat_ofNat, mod_eq_of_lt hbase]
    split_ifs with hle
    · rw [show 2 ^ w - mo.address + v.toNat = v.toNat - mo.address + 2 ^ w by omega, add_mod_right,
        mod_eq_of_lt (by omega)]
    · exact mod_eq_of_lt (by omega)
  rw [getBoundsCheckPointer, getBoundsCheckOffset]
  split_ifs with hzero
  · refine (hoffset.eqCreate (.constant hv.pos 0)).congr (congrArg BitVec.ofBool ?_)
    rw [Bool.eq_iff_iff, beq_iff_eq, decide_eq_true_iff, ← BitVec.toNat_inj, hsub, Occupies]
    have hnil : (0 : BitVec w).toNat = 0 := by simp
    split_ifs <;> omega
  · refine (hoffset.ultCreate (.constant hv.pos _)).congr (congrArg BitVec.ofBool ?_)
    rw [Bool.eq_iff_iff, BitVec.ult, decide_eq_true_iff, decide_eq_true_iff, hsub, BitVec.toNat_ofNat,
      mod_eq_of_lt hsize, Occupies]
    split_ifs <;> omega

lemma Fits.denotes_uge_base (h : mo.Fits w) (hv : Denotes σ p v) :
    Denotes σ (binaryCreate opt .uge p (mo.getBaseExpr w)) (BitVec.ofBool (decide (mo.address ≤ v.toNat))) := by
  refine ((denotes_getBaseExpr hv.pos).uleCreate hv).congr (congrArg BitVec.ofBool ?_)
  rw [BitVec.ule, BitVec.toNat_ofNat, mod_eq_of_lt h.address_lt]

lemma Fits.denotes_ult_base (h : mo.Fits w) (hv : Denotes σ p v) :
    Denotes σ (binaryCreate opt .ult p (mo.getBaseExpr w)) (BitVec.ofBool (decide (v.toNat < mo.address))) := by
  refine (hv.ultCreate (denotes_getBaseExpr hv.pos)).congr (congrArg BitVec.ofBool ?_)
  rw [BitVec.ult, BitVec.toNat_ofNat, mod_eq_of_lt h.address_lt]

end MemoryObject

/-! ## The search -/

structure Pointer (solver : TimingSolver) (constraints : List Expr) (p : Expr) (w : ℕ) : Prop where
  correct : solver.Correct
  satisfiable : ∃ σ, Satisfies σ constraints
  hasValue : HasValue constraints p w

section
variable (constraints : List Expr) (p : Expr) (w : ℕ) (mo : MemoryObject)

def PointsInto : Prop := ∃ v : BitVec w, MayBe constraints p v ∧ mo.Occupies v.toNat

end

namespace Pointer
variable {solver : TimingSolver} {constraints : List Expr} {p : Expr} {w : ℕ} (opt : Bool) {mo : MemoryObject}
  (h : Pointer solver constraints p w)
include h

lemma mayBeTrue_inBounds (hmo : mo.Fits w) :
    ∃ answer, solver.mayBeTrue opt constraints (mo.getBoundsCheckPointer opt w p) = some answer ∧
      (answer = true ↔ PointsInto constraints p w mo) :=
  h.correct.mayBeTrue_test h.satisfiable h.hasValue fun _ _ hv => hmo.denotes_boundsCheck hv

lemma mustBeTrue_inBounds (hmo : mo.Fits w) :
    ∃ answer, solver.mustBeTrue constraints (mo.getBoundsCheckPointer opt w p) = some answer ∧
      (answer = true ↔ ∀ v : BitVec w, MayBe constraints p v → mo.Occupies v.toNat) :=
  h.correct.mustBeTrue_test h.satisfiable h.hasValue fun _ _ hv => hmo.denotes_boundsCheck hv

lemma mustBeTrue_uge (hmo : mo.Fits w) :
    ∃ answer, solver.mustBeTrue constraints (binaryCreate opt .uge p (mo.getBaseExpr w)) = some answer ∧
      (answer = true ↔ ∀ v : BitVec w, MayBe constraints p v → mo.address ≤ v.toNat) :=
  h.correct.mustBeTrue_test h.satisfiable h.hasValue fun _ _ hv => hmo.denotes_uge_base hv

lemma mustBeTrue_ult (hmo : mo.Fits w) :
    ∃ answer, solver.mustBeTrue constraints (binaryCreate opt .ult p (mo.getBaseExpr w)) = some answer ∧
      (answer = true ↔ ∀ v : BitVec w, MayBe constraints p v → v.toNat < mo.address) :=
  h.correct.mustBeTrue_test h.satisfiable h.hasValue fun _ _ hv => hmo.denotes_ult_base hv

end Pointer

namespace MemoryObject
variable {constraints : List Expr} {p : Expr} {w : ℕ} {mo mo' : MemoryObject}

def Below (mo mo' : MemoryObject) : Prop := mo.address + max mo.size 1 ≤ mo'.address

lemma Below.address_lt (h : mo.Below mo') : mo.address < mo'.address := by
  rw [Below] at h
  omega

lemma Below.not_pointsInto_of_le (h : mo.Below mo')
    (hle : ∀ v : BitVec w, MayBe constraints p v → mo'.address ≤ v.toNat) : ¬PointsInto constraints p w mo := by
  rintro ⟨v, hv, -, hlt⟩
  exact absurd (hlt.trans_le (h.trans (hle v hv))) (lt_irrefl _)

lemma Below.not_pointsInto_of_lt (h : mo.Below mo')
    (hlt : ∀ v : BitVec w, MayBe constraints p v → v.toNat < mo.address) : ¬PointsInto constraints p w mo' := by
  rintro ⟨v, hv, hle, -⟩
  exact absurd ((hlt v hv).trans (h.address_lt.trans_le hle)) (lt_irrefl _)

lemma not_pointsInto_of_lt {op : ObjectPair} {ops : List ObjectPair} (hops : ∀ op' ∈ ops, op.1.Below op'.1)
    (hlt : ∀ v : BitVec w, MayBe constraints p v → v.toNat < op.1.address) :
    ∀ op' ∈ op :: ops, ¬PointsInto constraints p w op'.1 := by
  refine forall_mem_cons.mpr ⟨?_, fun op' hop' => (hops op' hop').not_pointsInto_of_lt hlt⟩
  rintro ⟨v, hv, hle, -⟩
  exact absurd (hlt v hv) (not_lt.mpr hle)

end MemoryObject

section
variable (constraints : List Expr) (p : Expr) (w : ℕ) (ops : List ObjectPair)

/-- An object that the pointer may point into, unless there is none. -/
structure FindsOne (r : Option ObjectPair) : Prop where
  sound : ∀ op, r = some op → op ∈ ops ∧ PointsInto constraints p w op.1
  complete : r = none → ∀ op ∈ ops, ¬PointsInto constraints p w op.1

/-- All objects that the pointer may point into, in the order of the list. -/
structure FindsAll (found : ResolutionList) : Prop where
  sublist : found.Sublist ops
  mem_iff : ∀ op ∈ ops, op ∈ found ↔ PointsInto constraints p w op.1

end

section
variable {constraints : List Expr} {p : Expr} {w : ℕ} {ops ops' : List ObjectPair} {op : ObjectPair}

lemma FindsOne.of_mem (hop : op ∈ ops) (h : PointsInto constraints p w op.1) :
    FindsOne constraints p w ops (some op) where
  sound op' heq := by
    cases heq
    exact ⟨hop, h⟩
  complete := nofun

lemma FindsOne.none (h : ∀ op ∈ ops, ¬PointsInto constraints p w op.1) : FindsOne constraints p w ops none where
  sound := nofun
  complete _ := h

variable {r : Option ObjectPair} {found : ResolutionList}

lemma FindsOne.mono (h : FindsOne constraints p w ops r) (hsub : ∀ op ∈ ops, op ∈ ops')
    (hrest : ∀ op ∈ ops', op ∈ ops ∨ ¬PointsInto constraints p w op.1) : FindsOne constraints p w ops' r where
  sound op hop := ⟨hsub op (h.sound op hop).1, (h.sound op hop).2⟩
  complete hr op hop := (hrest op hop).elim (h.complete hr op) id

lemma FindsOne.skip (h : FindsOne constraints p w ops r) (hop : ¬PointsInto constraints p w op.1) :
    FindsOne constraints p w (op :: ops) r :=
  h.mono (fun _ => mem_cons_of_mem op) (forall_mem_cons.mpr ⟨.inr hop, fun _ => .inl⟩)

lemma FindsAll.nil (h : ∀ op ∈ ops, ¬PointsInto constraints p w op.1) : FindsAll constraints p w ops [] where
  sublist := nil_sublist _
  mem_iff op hop := iff_of_false not_mem_nil (h op hop)

section
variable (h : FindsAll constraints p w ops found)
include h

lemma FindsAll.mem_found_iff : op ∈ found ↔ op ∈ ops ∧ PointsInto constraints p w op.1 := by
  refine ⟨fun hop => ?_, fun ⟨hop, hpoints⟩ => (h.mem_iff op hop).mpr hpoints⟩
  have hops := h.sublist.subset hop
  exact ⟨hops, (h.mem_iff op hops).mp hop⟩

lemma FindsAll.skip (hop : ¬PointsInto constraints p w op.1) : FindsAll constraints p w (op :: ops) found where
  sublist := h.sublist.cons op
  mem_iff := forall_mem_cons.mpr ⟨iff_of_false (fun hmem => hop (h.mem_found_iff.mp hmem).2) hop, h.mem_iff⟩

lemma FindsAll.keep (hop : PointsInto constraints p w op.1) : FindsAll constraints p w (op :: ops) (op :: found) where
  sublist := h.sublist.cons_cons op
  mem_iff := by
    refine forall_mem_cons.mpr ⟨iff_of_true mem_cons_self hop, fun op' hop' => ?_⟩
    rw [mem_cons, ← h.mem_iff op' hop']
    exact or_iff_right_of_imp fun heq => (h.mem_iff op' hop').mpr (heq ▸ hop)

end

end

namespace AddressSpace
variable {a : AddressSpace} (opt : Bool) {w : ℕ} {solver : TimingSolver} {constraints : List Expr} {p : Expr}
  {ops : List ObjectPair}

section
variable (h : Pointer solver constraints p w) (hfits : ∀ op ∈ ops, op.1.Fits w)
include h hfits

lemma resolveOneBackwards_spec (hops : ops.Pairwise fun x y => y.1.Below x.1) :
    ∃ r, resolveOneBackwards opt w solver constraints p ops = some r ∧ FindsOne constraints p w ops r := by
  induction ops with
  | nil => exact ⟨none, rfl, .none nofun⟩
  | cons op ops ih =>
    obtain ⟨hop, hops⟩ := pairwise_cons.mp hops
    obtain ⟨hfit, hfits⟩ := forall_mem_cons.mp hfits
    obtain ⟨may, hmay, hmayiff⟩ := h.mayBeTrue_inBounds opt hfit
    obtain ⟨must, hmust, hmustiff⟩ := h.mustBeTrue_uge opt hfit
    simp only [resolveOneBackwards, hmay, hmust]
    cases may with
    | true => exact ⟨some op, rfl, .of_mem mem_cons_self (hmayiff.mp rfl)⟩
    | false =>
      have hnot : ¬PointsInto constraints p w op.1 := fun hpoints => Bool.false_ne_true (hmayiff.mpr hpoints)
      cases must with
      | true =>
        -- the remaining objects end below one that the pointer is never below
        refine ⟨none, rfl, .none (forall_mem_cons.mpr ⟨hnot, fun op' hop' => ?_⟩)⟩
        exact (hop op' hop').not_pointsInto_of_le (hmustiff.mp rfl)
      | false =>
        obtain ⟨r, hr, hfound⟩ := ih hfits hops
        exact ⟨r, hr, hfound.skip hnot⟩

lemma resolveOneForwards_spec (hops : ops.Pairwise fun x y => x.1.Below y.1) :
    ∃ r, resolveOneForwards opt w solver constraints p ops = some r ∧ FindsOne constraints p w ops r := by
  induction ops with
  | nil => exact ⟨none, rfl, .none nofun⟩
  | cons op ops ih =>
    obtain ⟨hop, hops⟩ := pairwise_cons.mp hops
    obtain ⟨hfit, hfits⟩ := forall_mem_cons.mp hfits
    obtain ⟨may, hmay, hmayiff⟩ := h.mayBeTrue_inBounds opt hfit
    obtain ⟨must, hmust, hmustiff⟩ := h.mustBeTrue_ult opt hfit
    simp only [resolveOneForwards, hmay, hmust]
    cases must with
    | true =>
      exact ⟨none, rfl, .none (MemoryObject.not_pointsInto_of_lt hop (hmustiff.mp rfl))⟩
    | false =>
      cases may with
      | true => exact ⟨some op, rfl, .of_mem mem_cons_self (hmayiff.mp rfl)⟩
      | false =>
        have hnot : ¬PointsInto constraints p w op.1 := fun hpoints => Bool.false_ne_true (hmayiff.mpr hpoints)
        obtain ⟨r, hr, hfound⟩ := ih hfits hops
        exact ⟨r, hr, hfound.skip hnot⟩

end

section
variable (h : Pointer solver constraints p w) {op : ObjectPair} (hfit : op.1.Fits w) (rl : ResolutionList)
include h hfit

/-- Without a limit, an object is kept exactly if the pointer may point into it; if it must, the search ends. -/
lemma checkPointer_spec : (¬PointsInto constraints p w op.1 ∧
        checkPointerInObject opt w solver constraints p op rl 0 = (.undecided, rl)) ∨
      (PointsInto constraints p w op.1 ∧
        (checkPointerInObject opt w solver constraints p op rl 0 = (.undecided, rl ++ [op]) ∨
          rl = [] ∧ (∀ v : BitVec w, MayBe constraints p v → op.1.Occupies v.toNat) ∧
            checkPointerInObject opt w solver constraints p op rl 0 = (.complete, [op]))) := by
  obtain ⟨may, hmay, hmayiff⟩ := h.mayBeTrue_inBounds opt hfit
  obtain ⟨must, hmust, hmustiff⟩ := h.mustBeTrue_inBounds opt hfit
  simp only [checkPointerInObject, hmay, hmust]
  cases may with
  | false => exact .inl ⟨fun hpoints => Bool.false_ne_true (hmayiff.mpr hpoints), rfl⟩
  | true =>
    refine .inr ⟨hmayiff.mp rfl, ?_⟩
    cases rl with
    | nil =>
      cases must with
      | false => exact .inl rfl
      | true => exact .inr ⟨rfl, hmustiff.mp rfl, rfl⟩
    | cons _ rl => exact .inl (by simp)

end

/-- After a search in one direction all objects of the list are known, or the pointer must be in the one found. -/
def Searched (constraints : List Expr) (p : Expr) (w : ℕ) (ops : List ObjectPair) (rl : ResolutionList)
    (r : Except (Bool × ResolutionList) ResolutionList) : Prop :=
  (∃ found, FindsAll constraints p w ops found ∧ r = .ok (rl ++ found)) ∨
    ∃ op ∈ ops, rl = [] ∧ (∀ v : BitVec w, MayBe constraints p v → op.1.Occupies v.toNat) ∧ r = .error (false, [op])

section
variable {op : ObjectPair} {rl : ResolutionList} {r : Except (Bool × ResolutionList) ResolutionList}

lemma Searched.nil (h : ∀ op ∈ ops, ¬PointsInto constraints p w op.1) : Searched constraints p w ops rl (.ok rl) :=
  .inl ⟨[], .nil h, by rw [append_nil]⟩

lemma Searched.skip (h : Searched constraints p w ops rl r) (hop : ¬PointsInto constraints p w op.1) :
    Searched constraints p w (op :: ops) rl r := by
  obtain ⟨found, hfound, hr⟩ | ⟨op', hop', hmust⟩ := h
  · exact .inl ⟨found, hfound.skip hop, hr⟩
  · exact .inr ⟨op', mem_cons_of_mem op hop', hmust⟩

lemma Searched.keep (h : Searched constraints p w ops (rl ++ [op]) r) (hop : PointsInto constraints p w op.1) :
    Searched constraints p w (op :: ops) rl r := by
  obtain ⟨found, hfound, hr⟩ | ⟨_, _, hrl, _⟩ := h
  · exact .inl ⟨op :: found, hfound.keep hop, by rw [hr, append_assoc, singleton_append]⟩
  · exact absurd hrl (append_ne_nil_of_right_ne_nil rl (cons_ne_nil op []))

end

section
variable (h : Pointer solver constraints p w) (hfits : ∀ op ∈ ops, op.1.Fits w) (timeout : ObjectPair → Bool)
  (htimeout : ∀ op, timeout op = false)
include h hfits htimeout

lemma resolveBackwards_spec (hops : ops.Pairwise fun x y => y.1.Below x.1) (rl : ResolutionList) :
    Searched constraints p w ops rl (resolveBackwards opt w solver constraints p 0 timeout ops rl) := by
  induction ops generalizing rl with
  | nil => exact .nil nofun
  | cons op ops ih =>
    obtain ⟨hop, hops⟩ := pairwise_cons.mp hops
    obtain ⟨hfit, hfits⟩ := forall_mem_cons.mp hfits
    obtain ⟨must, hmust, hmustiff⟩ := h.mustBeTrue_uge opt hfit
    -- the objects below one that the pointer is never below
    have hrest : must = true → ∀ op' ∈ ops, ¬PointsInto constraints p w op'.1 := fun hmust op' hop' =>
      (hop op' hop').not_pointsInto_of_le (hmustiff.mp hmust)
    rw [resolveBackwards, htimeout]
    obtain ⟨hnot, hcheck⟩ | ⟨hpoints, hcheck | ⟨rfl, hall, hcheck⟩⟩ :=
      checkPointer_spec opt h hfit rl
    · simp only [hcheck, hmust]
      cases must with
      | true => exact (Searched.nil (hrest rfl)).skip hnot
      | false => exact (ih hfits hops rl).skip hnot
    · simp only [hcheck, hmust]
      cases must with
      | true => exact (Searched.nil (hrest rfl)).keep hpoints
      | false => exact (ih hfits hops (rl ++ [op])).keep hpoints
    · simp only [hcheck]
      exact .inr ⟨op, mem_cons_self, rfl, hall, rfl⟩

lemma resolveForwards_spec (hops : ops.Pairwise fun x y => x.1.Below y.1) (rl : ResolutionList) :
    Searched constraints p w ops rl (resolveForwards opt w solver constraints p 0 timeout ops rl) := by
  induction ops generalizing rl with
  | nil => exact .nil nofun
  | cons op ops ih =>
    obtain ⟨hop, hops⟩ := pairwise_cons.mp hops
    obtain ⟨hfit, hfits⟩ := forall_mem_cons.mp hfits
    obtain ⟨must, hmust, hmustiff⟩ := h.mustBeTrue_ult opt hfit
    rw [resolveForwards, htimeout]
    simp only [hmust]
    cases must with
    | true =>
      exact Searched.nil (MemoryObject.not_pointsInto_of_lt hop (hmustiff.mp rfl))
    | false =>
      obtain ⟨hnot, hcheck⟩ | ⟨hpoints, hcheck | ⟨rfl, hall, hcheck⟩⟩ :=
        checkPointer_spec opt h hfit rl
      · simp only [hcheck]
        exact (ih hfits hops rl).skip hnot
      · simp only [hcheck]
        exact (ih hfits hops (rl ++ [op])).keep hpoints
      · simp only [hcheck]
        exact .inr ⟨op, mem_cons_self, rfl, hall, rfl⟩

end

/-! ## The objects of an address space -/

structure Disjoint (a : AddressSpace) (w : ℕ) : Prop where
  fits : ∀ op ∈ a.objects.values, op.1.Fits w
  disjoint : ∀ op ∈ a.objects.values, ∀ op' ∈ a.objects.values, op ≠ op' →
    ∀ address, ¬(op.1.Occupies address ∧ op'.1.Occupies address)

lemma values_eq (a : AddressSpace) (address : ℕ) :
    a.objects.values = (a.objectsBefore address).reverse ++ a.objectsFrom address := by
  rw [objectsBefore, objectsFrom, ← map_reverse, reverse_reverse, ← map_append, takeWhile_append_dropWhile, values]

lemma Disjoint.pairwise (h : a.Disjoint w) : a.objects.values.Pairwise fun x y => x.1.Below y.1 := by
  rw [values, pairwise_map]
  refine (List.Pairwise.and_mem.mp a.objects.sorted).imp ?_
  rintro ⟨x, mo, os⟩ ⟨y, mo', os'⟩ ⟨hx, hy, hlt⟩
  have hmo : mo.address = x := a.keyed (mem_entries_iff.mp hx)
  have hmo' : mo'.address = y := a.keyed (mem_entries_iff.mp hy)
  have haddress : mo.address < mo'.address := by
    rw [hmo, hmo']
    exact hlt
  by_contra hnot
  refine h.disjoint (mo, os) (mem_map_of_mem hx) (mo', os') (mem_map_of_mem hy) ?_ mo'.address ⟨?_, ?_⟩
  · rintro ⟨⟩
    exact haddress.false
  · exact ⟨haddress.le, not_le.mp hnot⟩
  · exact ⟨le_rfl, Nat.lt_add_of_pos_right (lt_max_of_lt_right Nat.one_pos)⟩

lemma lookupPrevious_eq (a : AddressSpace) (address : ℕ) :
    a.lookupPrevious address = (a.objectsBefore address).head? := by
  rw [lookupPrevious, objectsBefore, head?_map, head?_reverse]

variable {address : ℕ} {op : ObjectPair}

lemma decide_le_of_lt {x y : ℕ × ObjectPair} (hlt : x.1 < y.1) (hle : decide (y.1 ≤ address) = true) :
    decide (x.1 ≤ address) = true := decide_eq_true (hlt.le.trans (of_decide_eq_true hle))

lemma le_of_mem_objectsBefore (h : op ∈ a.objectsBefore address) : op.1.address ≤ address := by
  obtain ⟨⟨x, mo, os⟩, hx, rfl⟩ := mem_map.mp h
  rw [mem_reverse] at hx
  have hmo : mo.address = x := a.keyed (mem_entries_iff.mp ((takeWhile_sublist _).subset hx))
  rw [hmo]
  exact of_decide_eq_true
    ((ListSearch.mem_takeWhile_iff a.objects.sorted fun _ _ => decide_le_of_lt).mp hx).2

lemma lt_of_mem_objectsFrom (h : op ∈ a.objectsFrom address) : address < op.1.address := by
  obtain ⟨⟨x, mo, os⟩, hx, rfl⟩ := mem_map.mp h
  have hmo : mo.address = x := a.keyed (mem_entries_iff.mp ((dropWhile_sublist _).subset hx))
  rw [hmo]
  exact not_le.mp (of_decide_eq_false
    (ListSearch.eq_false_of_mem_dropWhile a.objects.sorted (fun _ _ => decide_le_of_lt) hx :))

section
variable (hlayout : a.Disjoint w) (address : ℕ)
include hlayout

lemma Disjoint.pairwise_objects : ((a.objectsBefore address).Pairwise fun x y => y.1.Below x.1) ∧
    (a.objectsFrom address).Pairwise fun x y => x.1.Below y.1 := by
  have hall := hlayout.pairwise
  rw [values_eq a address, pairwise_append, pairwise_reverse] at hall
  exact ⟨hall.1, hall.2.1⟩

omit hlayout in
lemma mem_values_iff {op : ObjectPair} :
    op ∈ a.objects.values ↔ op ∈ a.objectsBefore address ∨ op ∈ a.objectsFrom address := by
  rw [values_eq a address, mem_append, mem_reverse]

lemma Disjoint.eq_of_occupies {op' : ObjectPair} (hop : op ∈ a.objects.values) (hop' : op' ∈ a.objects.values)
    (h : op.1.Occupies address) (h' : op'.1.Occupies address) : op = op' := by
  by_contra hne
  exact hlayout.disjoint op hop op' hop' hne address ⟨h, h'⟩

lemma resolveConstant_iff :
    a.resolveOneConstant address = some op ↔ op ∈ a.objects.values ∧ op.1.Occupies address := by
  have htest : ∀ mo : MemoryObject, mo.address ≤ address →
      ((mo.size = 0 ∧ address = mo.address) ∨ address - mo.address < mo.size ↔ mo.Occupies address) := by
    intro mo hle
    rw [MemoryObject.Occupies]
    omega
  have hvalues : op ∈ a.objects.values ∧ op.1.Occupies address ↔
      op ∈ a.objectsBefore address ∧ op.1.Occupies address := by
    refine and_congr_left fun hoccupies => ?_
    rw [mem_values_iff address]
    exact or_iff_left fun hop => absurd (lt_of_mem_objectsFrom hop) (not_lt.mpr hoccupies.1)
  have hbelow := (hlayout.pairwise_objects address).1
  rw [hvalues, resolveOneConstant, lookupPrevious_eq]
  cases hbefore : a.objectsBefore address with
  | nil => exact iff_of_false nofun fun hop => not_mem_nil hop.1
  | cons first rest =>
    rw [hbefore] at hbelow
    have hle : first.1.address ≤ address := le_of_mem_objectsBefore (hbefore ▸ mem_cons_self)
    simp only [head?_cons, bind_eq_bind, bind_some, htest first.1 hle, mem_cons]
    -- an object before the first one ends below it
    have hrest : ¬ (op ∈ rest ∧ op.1.Occupies address) := fun ⟨hop, hoccupies⟩ =>
      absurd (hoccupies.2.trans_le (((pairwise_cons.mp hbelow).1 op hop).trans hle)) (lt_irrefl _)
    rw [or_and_right, or_iff_left hrest, ite_none_right_eq_some, some.injEq, eq_comm (a := first), and_comm]
    exact and_congr_right fun heq => by rw [heq]

lemma Disjoint.nodup : (a.objectsBefore address ++ a.objectsFrom address).Nodup := by
  have hperm : (a.objectsBefore address ++ a.objectsFrom address).Perm a.objects.values := by
    rw [values_eq a address]
    exact (reverse_perm _).symm.append_right _
  refine hperm.nodup_iff.mpr (hlayout.pairwise.imp ?_)
  rintro op _ hbelow rfl
  exact hbelow.address_lt.false

end

end AddressSpace

namespace Pointer
variable {solver : TimingSolver} {constraints : List Expr} {p : Expr} {w u : ℕ} {a : AddressSpace}
  (h : Pointer solver constraints p w)
include h

lemma exists_mayBe : ∃ v : BitVec w, MayBe constraints p v := by
  obtain ⟨σ, hσ⟩ := h.satisfiable
  obtain ⟨v, hv⟩ := h.hasValue σ hσ
  exact ⟨v, σ, hσ, hv⟩

lemma pointsInto_constant {c : BitVec u} (hc : p.constant? = some ⟨u, c⟩) (mo : MemoryObject) :
    PointsInto constraints p w mo ↔ mo.Occupies c.toNat := by
  have hvalue : ∀ v : BitVec w, MayBe constraints p v → v.toNat = c.toNat := by
    rintro v ⟨σ, -, hv⟩
    cases hv.of_constant? hc
    rfl
  constructor
  · rintro ⟨v, hv, hoccupies⟩
    rwa [hvalue v hv] at hoccupies
  · intro hoccupies
    obtain ⟨v, hv⟩ := h.exists_mayBe
    exact ⟨v, hv, by rwa [hvalue v hv]⟩

lemma mem_singleton_iff (hlayout : a.Disjoint w) {op : ObjectPair} (hop : op ∈ a.objects.values)
    (hall : ∀ v : BitVec w, MayBe constraints p v → op.1.Occupies v.toNat) (op' : ObjectPair) :
    op' ∈ [op] ↔ op' ∈ a.objects.values ∧ PointsInto constraints p w op'.1 := by
  rw [mem_singleton]
  constructor
  · rintro rfl
    obtain ⟨v, hv⟩ := h.exists_mayBe
    exact ⟨hop, v, hv, hall v hv⟩
  · rintro ⟨hop', v, hv, hoccupies⟩
    exact hlayout.eq_of_occupies v.toNat hop' hop hoccupies (hall v hv)

end Pointer

namespace AddressSpace
variable {a : AddressSpace} (opt : Bool) {w : ℕ} {solver : TimingSolver} {constraints : List Expr} {p : Expr}

section
variable (h : Pointer solver constraints p w) (hlayout : a.Disjoint w)
include h hlayout

lemma resolveOneFrom_spec {v : BitVec w} (hv : MayBe constraints p v) :
    ∃ r, a.resolveOneFrom opt w solver constraints p v.toNat = some r ∧
      FindsOne constraints p w a.objects.values r := by
  rw [resolveOneFrom]
  split
  case h_1 op hcheap =>
    obtain ⟨hprevious, hin⟩ := filter_eq_some_iff.mp hcheap
    rw [lookupPrevious_eq] at hprevious
    have hbefore := mem_of_mem_head? hprevious
    have hle := le_of_mem_objectsBefore hbefore
    refine ⟨_, rfl, .of_mem ((mem_values_iff v.toNat).mpr (.inl hbefore)) ⟨v, hv, hle, ?_⟩⟩
    have hlt : v.toNat - op.1.address < op.1.size := of_decide_eq_true hin
    omega
  case h_2 hcheap =>
    have hfits := hlayout.fits
    have hvalues := @mem_values_iff a v.toNat
    obtain ⟨hpairwise, hpairwise'⟩ := hlayout.pairwise_objects v.toNat
    obtain ⟨r, hr, hbefore⟩ := resolveOneBackwards_spec opt h
      (fun op hop => hfits op (hvalues.mpr (.inl hop))) hpairwise
    obtain ⟨r', hr', hfrom⟩ := resolveOneForwards_spec opt h
      (fun op hop => hfits op (hvalues.mpr (.inr hop))) hpairwise'
    rw [hr]
    cases r with
    | some op =>
      obtain ⟨hop, hpoints⟩ := hbefore.sound op rfl
      exact ⟨_, rfl, .of_mem (hvalues.mpr (.inl hop)) hpoints⟩
    | none =>
      refine ⟨r', hr', hfrom.mono (fun op hop => hvalues.mpr (.inr hop)) ?_⟩
      exact fun op hop => (hvalues.mp hop).symm.imp_right (hbefore.complete rfl op)

lemma resolveOne_spec :
    ∃ r, a.resolveOne opt w solver constraints p = some r ∧ FindsOne constraints p w a.objects.values r := by
  rw [resolveOne]
  split
  case h_1 u c hc =>
    refine ⟨_, rfl, ?_, ?_⟩
    · intro op hop
      rw [h.pointsInto_constant hc]
      exact (resolveConstant_iff hlayout _).mp hop
    · intro hnone op hop hpoints
      rw [h.pointsInto_constant hc] at hpoints
      have hsome := (resolveConstant_iff hlayout _).mpr ⟨hop, hpoints⟩
      rw [hnone] at hsome
      cases hsome
  case h_2 =>
    obtain ⟨v, hvalue, hv⟩ := h.correct.getValue constraints p w h.satisfiable h.hasValue
    rw [hvalue]
    exact resolveOneFrom_spec opt h hlayout hv

lemma resolve_spec (timeout : ObjectPair → Bool) (htimeout : ∀ op, timeout op = false) :
    ∃ rl, a.resolve opt w solver constraints p [] 0 timeout = (false, rl) ∧ rl.Nodup ∧
      ∀ op, op ∈ rl ↔ op ∈ a.objects.values ∧ PointsInto constraints p w op.1 := by
  rw [resolve]
  split
  case h_1 u c hc =>
    refine ⟨_, rfl, ?_, fun op => ?_⟩
    · cases a.resolveOneConstant c.toNat with
      | none => exact nodup_nil
      | some op => exact nodup_singleton op
    · rw [nil_append, mem_toList, resolveConstant_iff hlayout, h.pointsInto_constant hc]
  case h_2 =>
    obtain ⟨v, hvalue, -⟩ := h.correct.getValue constraints p w h.satisfiable h.hasValue
    have hfits := hlayout.fits
    have hvalues := @mem_values_iff a v.toNat
    obtain ⟨hpairwise, hpairwise'⟩ := hlayout.pairwise_objects v.toNat
    have hbefore := resolveBackwards_spec opt h (fun op hop => hfits op (hvalues.mpr (.inl hop))) timeout
      htimeout hpairwise []
    have hfrom := resolveForwards_spec opt h (fun op hop => hfits op (hvalues.mpr (.inr hop))) timeout
      htimeout hpairwise'
    simp only [hvalue]
    obtain ⟨found, hfound, hr⟩ | ⟨op, hop, -, hall, hr⟩ := hbefore
    · rw [nil_append] at hr
      rw [hr]
      obtain ⟨found', hfound', hr'⟩ | ⟨op, hop, -, hall, hr'⟩ := hfrom found
      · refine ⟨found ++ found', ?_, (hlayout.nodup v.toNat).sublist (hfound.sublist.append hfound'.sublist), ?_⟩
        · simp [bind, Except.bind, hr']
        · intro op
          rw [mem_append, hvalues, or_and_right, hfound.mem_found_iff, hfound'.mem_found_iff]
      · refine ⟨[op], ?_, nodup_singleton op, h.mem_singleton_iff hlayout (hvalues.mpr (.inr hop)) hall⟩
        simp [bind, Except.bind, hr']
    · refine ⟨[op], ?_, nodup_singleton op, h.mem_singleton_iff hlayout (hvalues.mpr (.inl hop)) hall⟩
      simp [hr, bind, Except.bind]

end

theorem resolution_exact (constArrayOpt : Bool) (hsolver : solver.Correct) (hsat : ∃ σ, Satisfies σ constraints)
    (hp : HasValue constraints p w) (hlayout : a.Disjoint w) (timeout : ObjectPair → Bool)
    (htimeout : ∀ op, timeout op = false) :
    (∃ rl, a.resolve constArrayOpt w solver constraints p [] 0 timeout = (false, rl) ∧ rl.Nodup ∧
      ∀ op, op ∈ rl ↔ op ∈ a.objects.values ∧ PointsInto constraints p w op.1) ∧
    ∃ r, a.resolveOne constArrayOpt w solver constraints p = some r ∧
      (r.isSome = true ↔ ∃ op ∈ a.objects.values, PointsInto constraints p w op.1) ∧
      ∀ op, r = some op → op ∈ a.objects.values ∧ PointsInto constraints p w op.1 := by
  have h : Pointer solver constraints p w := ⟨hsolver, hsat, hp⟩
  refine ⟨resolve_spec constArrayOpt h hlayout timeout htimeout, ?_⟩
  obtain ⟨r, hr, hfound⟩ := resolveOne_spec constArrayOpt h hlayout
  refine ⟨r, hr, ⟨?_, ?_⟩, hfound.sound⟩
  · intro hsome
    obtain ⟨op, hop⟩ := isSome_iff_exists.mp hsome
    exact ⟨op, hfound.sound op hop⟩
  · rintro ⟨op, hop, hpoints⟩
    cases r with
    | some _ => rfl
    | none => exact absurd hpoints (hfound.complete rfl op hop)

lemma domain_le : 32 ≤ 64 := by decide

def readPointer : Expr :=
  .read ⟨0, "p", 1, 32, 64, [], .inl rfl, by decide, domain_le, by decide⟩ .nil (.constant 32 0)

def pointsAt34 : Expr := .binary .eq (.constant 64 34) readPointer

lemma denotes_readPointer (σ : Valuation) : ∃ v : BitVec 64, Denotes σ readPointer v :=
  ⟨_, (Denotes.constant (by decide) 0).read trivial (show (0 : BitVec 32).toNat < 1 by decide)⟩

lemma satisfies_pointsAt34 {σ : Valuation} {v : BitVec 64} (h : Denotes σ readPointer v) :
    Satisfies σ [pointsAt34] ↔ v = 34 := by
  rw [Satisfies, forall_mem_singleton]
  have heq := (Denotes.constant (by decide) (34 : BitVec 64)).binary h (k := .eq) nofun
  constructor
  · intro hsat
    have hvalue : (BitVec.ofBool ((34 : BitVec 64) == v)).setWidth 1 = 1 :=
      heq.value.symm.trans hsat.value
    by_contra hne
    rw [beq_false_of_ne (Ne.symm hne)] at hvalue
    exact absurd hvalue (by decide)
  · rintro rfl
    exact heq

def twoObjects : AddressSpace := (AddressSpace.new.replace ⟨0, 16, 4⟩ 0).replace ⟨1, 32, 8⟩ 1

/-- The path condition leaves the second object only, which both searches find. -/
theorem resolution_exact_second : ∃ solver : TimingSolver, solver.Correct ∧
    (∃ rl, twoObjects.resolve true 64 solver [pointsAt34] readPointer [] 0 (fun _ => false) =
      (false, rl) ∧ ∀ op, op ∈ rl ↔ op = (⟨1, 32, 8⟩, 1)) ∧
    twoObjects.resolveOne true 64 solver [pointsAt34] readPointer = some (some (⟨1, 32, 8⟩, 1)) := by
  obtain ⟨solver, hsolver⟩ := TimingSolver.exists_correct
  have hvalues : twoObjects.objects.values = [(⟨0, 16, 4⟩, 0), (⟨1, 32, 8⟩, 1)] := rfl
  have hv : Denotes (fun a _ => BitVec.ofNat a.range 34) readPointer (34 : BitVec 64) :=
    (Denotes.constant (by decide) 0).read trivial (show (0 : BitVec 32).toNat < 1 by decide)
  have hsat : ∃ σ, Satisfies σ [pointsAt34] := ⟨_, (satisfies_pointsAt34 hv).mpr rfl⟩
  have hpoints : ∀ mo, PointsInto [pointsAt34] readPointer 64 mo ↔ mo.Occupies 34 := by
    intro mo
    constructor
    · rintro ⟨v, ⟨σ, hσ, hv⟩, hocc⟩
      rwa [(satisfies_pointsAt34 hv).mp hσ] at hocc
    · exact fun hocc => ⟨34, ⟨_, (satisfies_pointsAt34 hv).mpr rfl, hv⟩, hocc⟩
  have hlayout : twoObjects.Disjoint 64 := by
    constructor <;> rw [hvalues]
    · simp only [forall_mem_cons]
      exact ⟨⟨by decide, by decide⟩, ⟨by decide, by decide⟩, nofun⟩
    · intro op hop op' hop' hne address
      rcases mem_pair.mp hop with rfl | rfl <;> rcases mem_pair.mp hop' with rfl | rfl <;>
        simp [MemoryObject.Occupies] at hne ⊢ <;> omega
  have hmem : ∀ op, op ∈ twoObjects.objects.values ∧
      PointsInto [pointsAt34] readPointer 64 op.1 ↔ op = (⟨1, 32, 8⟩, 1) := by
    intro op
    rw [hpoints, hvalues]
    constructor
    · rintro ⟨hop, hocc⟩
      rcases mem_pair.mp hop with rfl | rfl
      · exact absurd hocc (by decide)
      · rfl
    · rintro rfl
      exact ⟨by simp, by decide⟩
  obtain ⟨⟨rl, hrl, -, hiff⟩, r, hr, hsome, hsound⟩ := resolution_exact true hsolver hsat
    (fun σ _ => denotes_readPointer σ) hlayout (fun _ => false) fun _ => rfl
  obtain ⟨op, rfl⟩ := Option.isSome_iff_exists.mp (hsome.mpr ⟨_, (hmem _).mpr rfl⟩)
  rw [(hmem op).mp (hsound op rfl)] at hr
  exact ⟨solver, hsolver, ⟨rl, hrl, fun op => (hiff op).trans (hmem op)⟩, hr⟩

end AddressSpace

end Klee
