import PorSe.Expr.Denotes

/-! The smart constructors return expressions that denote the value of the operator. -/

namespace Klee
open BitVec List
open Term Klee.Expr

namespace Denotes
variable {σ : Valuation} {e l r : Expr} {w u : ℕ} {v a b : BitVec w} {x y : BitVec 1} {k : BinaryKind}

lemma widen (h : Denotes σ e v) : Denotes σ e (v.setWidth w) := h.congr (setWidth_eq v).symm

lemma narrow (h : Denotes σ e (v.setWidth w)) : Denotes σ e v := h.congr (setWidth_eq v)

/-! ## Constants -/

lemma fold (hw : 0 < w) (a b : BitVec w) : Denotes σ (fold k a b) (k.denote a b (k.width w)) := by
  rw [Expr.fold, setWidth_eq]
  apply constant
  rw [BinaryKind.width]
  split_ifs
  · exact one_pos
  · exact hw

lemma trueConstant : Denotes σ trueConstant 1#1 := constant one_pos 1#1

lemma falseConstant : Denotes σ falseConstant 0#1 := constant one_pos 0#1

section
variable (hl : Denotes σ l a) (hr : Denotes σ r b)
include hl hr

lemma bcreateR {partialR : Expr → {w : ℕ} → BitVec w → Expr} {create : Expr → Expr → Expr}
    (hcomm : k.denote a b (k.width w) = k.denote b a (k.width w))
    (hstep : ∀ {e : Expr} {v : BitVec w}, Denotes σ e v → ∀ c : BitVec w,
      Denotes σ (partialR e c) (k.denote c v (k.width w)))
    (hcreate : Denotes σ (create l r) (k.denote a b (k.width w))) :
    Denotes σ (bcreateR k partialR create l r) (k.denote a b (k.width w)) := by
  rw [Expr.bcreateR]
  split
  case h_1 ca cb hca hcb =>
    obtain rfl := hl.of_constant? hca
    obtain rfl := hr.of_constant? hcb
    exact fold hl.pos a b
  case h_2 ca hca _ =>
    obtain rfl := hl.of_constant? hca
    exact hstep hr a
  case h_3 cb _ hcb =>
    obtain rfl := hr.of_constant? hcb
    rw [hcomm]
    exact hstep hl b
  case h_4 => exact hcreate

lemma bcreate {create : Expr → Expr → Expr} (hcreate : Denotes σ (create l r) (k.denote a b (k.width w))) :
    Denotes σ (bcreate k create l r) (k.denote a b (k.width w)) := by
  rw [Expr.bcreate]
  split
  case h_1 ca cb hca hcb =>
    obtain rfl := hl.of_constant? hca
    obtain rfl := hr.of_constant? hcb
    exact fold hl.pos a b
  case h_2 => exact hcreate

/-! ## And, Or -/

lemma and : Denotes σ (.binary .and l r) (a &&& b) :=
  (binary (k := .and) hl hr nofun).narrow

lemma or : Denotes σ (.binary .or l r) (a ||| b) :=
  (binary (k := .or) hl hr nofun).narrow

end

lemma andPartial (h : Denotes σ e v) (c : BitVec w) : Denotes σ (andPartial e c) (c &&& v) := by
  rw [Expr.andPartial]
  split_ifs with hones hzero
  · rw [hones, allOnes_and]
    exact h
  · rw [hzero]
    exact (constant h.pos 0).congr zero_and.symm
  · rw [BitVec.and_comm]
    exact h.and (constant h.pos c)

lemma andCreate (hl : Denotes σ l a) (hr : Denotes σ r b) : Denotes σ (andCreate l r) (a &&& b) := by
  refine (bcreateR (k := .and) hl hr ?_ (fun h c => ?_) ?_).narrow
  · exact congrArg (BitVec.setWidth w) (BitVec.and_comm a b)
  · exact (h.andPartial c).widen
  · exact binary hl hr nofun

lemma orPartial (h : Denotes σ e v) (c : BitVec w) : Denotes σ (orPartial e c) (c ||| v) := by
  rw [Expr.orPartial]
  split_ifs with hones hzero
  · rw [hones]
    exact (constant h.pos _).congr allOnes_or.symm
  · rw [hzero]
    exact h.congr zero_or.symm
  · rw [BitVec.or_comm]
    exact h.or (constant h.pos c)

lemma orCreate (hl : Denotes σ l a) (hr : Denotes σ r b) : Denotes σ (orCreate l r) (a ||| b) := by
  refine (bcreateR (k := .or) hl hr ?_ (fun h c => ?_) ?_).narrow
  · exact congrArg (BitVec.setWidth w) (BitVec.or_comm a b)
  · exact (h.orPartial c).widen
  · exact binary hl hr nofun

/-! ## Eq -/

variable {opt : Bool}

lemma eqAlloc (hl : Denotes σ l a) (hr : Denotes σ r b) : Denotes σ (eqAlloc l r) (BitVec.ofBool (a == b)) := by
  rw [Expr.eqAlloc]
  split_ifs with h
  · subst h
    have hab : a = b := hl.value.symm.trans hr.value
    rw [hab, beq_self_eq_true]
    exact trueConstant
  · exact (binary (k := .eq) hl hr nofun).narrow

lemma eqFold (h : Denotes σ e v) {a : Σ width, BitVec width} (ha : e.constant? = some a) (c : BitVec w) :
    Denotes σ (Expr.fold .eq a.2 c) (BitVec.ofBool (c == v)) := by
  obtain rfl := h.of_constant? ha
  refine (fold h.pos v c).congr ?_
  rw [Bool.beq_comm]
  exact setWidth_eq _

lemma eqKid (h : Denotes σ e v) (c : BitVec w) {e' : Expr}
    (he' : e.constant? = none → Denotes σ e' (BitVec.ofBool (c == v))) :
    Denotes σ (match e.constant? with
      | some a => Expr.fold .eq a.2 c
      | none => e') (BitVec.ofBool (c == v)) := by
  split
  case h_1 a ha => exact h.eqFold ha c
  case h_2 hnone => exact he' hnone

lemma constArrayMatches {mayBe : ℕ → Expr} {d : ℕ} {idx : BitVec d} {cl : BitVec w} {values : List (BitVec w)} {i m : ℕ}
    {res : Expr} (hmayBe : ∀ i, Denotes σ (mayBe i) (BitVec.ofBool (BitVec.ofNat d i == idx))) (hres : Denotes σ res x)
    (h : constArrayMatches mayBe cl values i m res = some e) :
    Denotes σ e (x ||| BitVec.ofBool ((values.zipIdx i).any fun p => cl == p.1 && BitVec.ofNat d p.2 == idx)) := by
  induction values generalizing i m res x with
  | nil =>
    cases h
    exact hres.congr (by simp)
  | cons _ values ih =>
    rw [constArrayMatches] at h
    rw [zipIdx_cons, any_cons]
    split_ifs at h with hvalue
    · refine (ih (hres.orCreate (hmayBe i)) h).congr ?_
      rw [BitVec.or_assoc, ofBool_or_ofBool, hvalue, beq_self_eq_true, Bool.true_and]
    · refine (ih hres h).congr ?_
      rw [beq_eq_false_iff_ne.mpr hvalue, Bool.false_and, Bool.false_or]

lemma any_zipIdx {cl : BitVec w} {values : List (BitVec w)} {d : ℕ} {idx : BitVec d} (hlt : idx.toNat < values.length)
    (hle : values.length ≤ 2 ^ d) :
    ((values.zipIdx 0).any fun p => cl == p.1 && BitVec.ofNat d p.2 == idx) = (cl == values.getD idx.toNat 0) := by
  rw [Bool.eq_iff_iff, any_eq_true, beq_iff_eq]
  have hget : values.getD idx.toNat 0 = values[idx.toNat] := getD_eq_getElem values 0 hlt
  constructor
  · rintro ⟨⟨value, i⟩, hmem, hp⟩
    obtain ⟨rfl, hidx⟩ : cl = value ∧ BitVec.ofNat d i = idx := by simpa using hp
    obtain ⟨-, hi, hvalue⟩ := mem_zipIdx hmem
    rw [Nat.zero_add] at hi
    have hi' : i = idx.toNat := by rw [← hidx, toNat_ofNat, Nat.mod_eq_of_lt (hi.trans_le hle)]
    rw [hget, hvalue]
    simp [hi']
  · intro h
    refine ⟨(cl, idx.toNat), ?_, by simp⟩
    rw [h, hget, mem_zipIdx_iff_getElem?]
    exact getElem?_eq_getElem hlt

lemma beq_extend {f : BitVec u → BitVec w} (hf : ∀ s, (f s).setWidth u = s) (cl : BitVec w) (s : BitVec u) :
    (cl == f s) = (decide (cl = f (cl.setWidth u)) && cl.setWidth u == s) := by
  rw [Bool.eq_iff_iff, beq_iff_eq, Bool.and_eq_true, decide_eq_true_iff, beq_iff_eq]
  constructor
  · rintro rfl
    rw [hf]
    exact ⟨rfl, rfl⟩
  · rintro ⟨h, rfl⟩
    exact h

lemma setWidth_signExtend (hle : u ≤ w) (s : BitVec u) : (s.signExtend w).setWidth u = s := by
  ext i hi
  simp [getElem_signExtend, hi, hi.trans_le hle]

lemma setWidth_setWidth_of_le (hle : u ≤ w) (s : BitVec u) : (s.setWidth w).setWidth u = s := by
  rw [BitVec.setWidth_setWidth_of_le s hle, setWidth_eq]

lemma eqPartialR (h : Denotes σ r v) (cl : BitVec w) : Denotes σ (eqPartialR opt r cl) (BitVec.ofBool (cl == v)) := by
  fun_induction Expr.eqPartialR opt r cl with
  | case1 r cl hcl =>
    refine h.congr ?_
    clear h
    revert cl v
    decide
  | case2 u c right hc cl hcl =>
    obtain ⟨rfl, hc⟩ := hc
    obtain ⟨w, a, b, -, ha, hb, rfl, -⟩ := h.of_binary
    obtain ⟨rfl, rfl⟩ := ha.of_constant
    refine hb.congr ?_
    clear h ha hb
    revert cl c b
    decide
  | case3 u c right hc cl hcl => exact (constant one_pos cl).eqAlloc h
  | case4 left right cl hcl ihl ihr =>
    obtain ⟨a, b, ha, hb, rfl⟩ := h.of_or
    rw [ha.width] at ihl ⊢
    rw [hb.width] at ihr ⊢
    refine ((eqKid ha 0 fun _ => ihl ha).andCreate (eqKid hb 0 fun _ => ihr hb)).congr ?_
    clear h ha hb
    revert cl a b
    decide
  | case5 r _ _ cl hcl => exact (constant one_pos cl).eqAlloc h
  | case6 w hw src width c hc cl hcl =>
    obtain ⟨rfl, hle, rfl, hsrc⟩ := h.of_sext
    rw [beq_extend (setWidth_signExtend hle), decide_eq_true hcl, Bool.true_and]
    exact hsrc.eqFold hc _
  | case7 w hw src width hnone cl hcl ih =>
    obtain ⟨rfl, hle, rfl, hsrc⟩ := h.of_sext
    rw [beq_extend (setWidth_signExtend hle), decide_eq_true hcl, Bool.true_and]
    exact ih hsrc
  | case8 w hw src width cl hcl =>
    obtain ⟨rfl, hle, rfl, hsrc⟩ := h.of_sext
    rw [beq_extend (setWidth_signExtend hle), decide_eq_false hcl]
    exact falseConstant
  | case9 w hw src width c hc cl hcl =>
    obtain ⟨rfl, hle, rfl, hsrc⟩ := h.of_zext
    rw [beq_extend (setWidth_setWidth_of_le hle), decide_eq_true hcl, Bool.true_and]
    exact hsrc.eqFold hc _
  | case10 w hw src width hnone cl hcl ih =>
    obtain ⟨rfl, hle, rfl, hsrc⟩ := h.of_zext
    rw [beq_extend (setWidth_setWidth_of_le hle), decide_eq_true hcl, Bool.true_and]
    exact ih hsrc
  | case11 w hw src width cl hcl =>
    obtain ⟨rfl, hle, rfl, hsrc⟩ := h.of_zext
    rw [beq_extend (setWidth_setWidth_of_le hle), decide_eq_false hcl]
    exact falseConstant
  | case12 w hw u c right cl ih =>
    obtain ⟨a, b, ha, hb, rfl⟩ := h.of_add
    obtain ⟨rfl, rfl⟩ := ha.of_constant
    refine (ih hb).congr (congrArg ofBool ?_)
    rw [Bool.eq_iff_iff, beq_iff_eq, beq_iff_eq]
    exact sub_eq_iff_eq_add'
  | case13 w hw u c right cl ih =>
    obtain ⟨a, b, ha, hb, rfl⟩ := h.of_sub
    obtain ⟨rfl, rfl⟩ := ha.of_constant
    refine (ih hb).congr (congrArg ofBool ?_)
    rw [Bool.eq_iff_iff, beq_iff_eq, beq_iff_eq, setWidth_eq, setWidth_eq, sub_eq_iff_eq_add,
      eq_sub_iff_add_eq, add_comm b cl, eq_comm]
  | case14 w hw root index hopt cl ih =>
    obtain ⟨⟨-, hindex, hdomain⟩, hwidth, ⟨hdefined, hin⟩, hvalue⟩ := id h
    obtain rfl : root.range = w := hwidth
    rw [hdomain] at ih ⊢
    have hidx : Denotes σ index (index.eval σ root.domain) := ⟨hindex, hdomain, hdefined, rfl⟩
    obtain ⟨-, hconstant⟩ := (Bool.and_eq_true _ _).mp hopt
    have hsymbolic : root.isSymbolicArray = false := by simpa [Array.isConstantArray] using hconstant
    have hlength : root.constantValues.length = root.size :=
      root.size_eq.resolve_left fun hnil => by simp [Array.isSymbolicArray, hnil] at hsymbolic
    have hcontents : root.contents σ (index.eval σ root.domain).toNat =
        root.constantValues.getD (index.eval σ root.domain).toNat 0 := by
      rw [Array.contents, hsymbolic]
      rfl
    have hmayBe := fun i => eqKid hidx (BitVec.ofNat root.domain i) fun _ => ih i hidx
    cases hm : Expr.constArrayMatches _ (cl.setWidth root.range) root.constantValues 0 0 Expr.falseConstant with
    | none => exact (constant h.pos cl).eqAlloc h
    | some e =>
      refine (constArrayMatches hmayBe falseConstant hm).congr ?_
      rw [any_zipIdx (hlength ▸ hin) (hlength ▸ root.size_le), ← hcontents, zero_or, setWidth_eq, ← hvalue,
        eval, setWidth_eq]
      rfl
  | case15 w hw root index hopt cl | case16 r w hw _ _ _ _ _ cl => exact (constant h.pos cl).eqAlloc h

lemma eqCreate (hl : Denotes σ l a) (hr : Denotes σ r b) : Denotes σ (eqCreate opt l r) (BitVec.ofBool (a == b)) := by
  refine (bcreateR (k := .eq) hl hr ?_ (fun h c => ?_) ?_).narrow
  · exact congrArg (fun p => (ofBool p).setWidth 1) Bool.beq_comm
  · exact (h.eqPartialR c).widen
  · exact (hl.eqAlloc hr).widen

lemma createIsZero (h : Denotes σ e v) : Denotes σ (createIsZero opt e) (BitVec.ofBool (v == 0)) := by
  rw [Expr.createIsZero, h.width]
  exact h.eqCreate (constant h.pos 0)

lemma createIsZero_bit (h : Denotes σ e x) : Denotes σ (Expr.createIsZero opt e) (~~~x) := by
  refine h.createIsZero.congr ?_
  clear h
  revert x
  decide

lemma neCreate (hl : Denotes σ l a) (hr : Denotes σ r b) : Denotes σ (neCreate opt l r) (BitVec.ofBool (a != b)) := by
  refine (falseConstant.eqCreate (hl.eqCreate hr)).congr ?_
  rw [bne]
  cases a == b <;> rfl

/-! ## Xor, Mul -/

lemma xorPartialR (h : Denotes σ e v) (c : BitVec w) : Denotes σ (xorPartialR opt e c) (c ^^^ v) := by
  rw [Expr.xorPartialR]
  split_ifs with hzero hone
  · rw [hzero]
    exact h.congr zero_xor.symm
  · subst hone
    refine (h.eqPartialR 0).congr ?_
    clear h
    revert c v
    decide
  · exact (binary (k := .xor) (constant h.pos c) h nofun).narrow

lemma xorCreate (hl : Denotes σ l a) (hr : Denotes σ r b) : Denotes σ (xorCreate opt l r) (a ^^^ b) := by
  refine (bcreateR (k := .xor) hl hr ?_ (fun h c => ?_) ?_).narrow
  · exact congrArg (BitVec.setWidth w) (BitVec.xor_comm a b)
  · exact (h.xorPartialR c).widen
  · exact binary hl hr nofun

lemma mulPartialR (h : Denotes σ e v) (c : BitVec w) : Denotes σ (mulPartialR e c) (c * v) := by
  rw [Expr.mulPartialR]
  split_ifs with hbool hone hzero
  · subst hbool
    refine (h.andPartial c).congr ?_
    clear h
    revert c v
    decide
  · have hc : c = 1 := by
      apply eq_of_toNat_eq
      rw [hone]
      exact (toNat_one h.pos).symm
    exact h.congr (by rw [hc, one_mul])
  · rw [hzero]
    exact (constant h.pos 0).congr (zero_mul v).symm
  · exact (binary (k := .mul) (constant h.pos c) h nofun).narrow

section
variable (hl : Denotes σ l a) (hr : Denotes σ r b)
include hl hr

lemma mulCreate : Denotes σ (mulCreate l r) (a * b) := by
  refine (bcreateR (k := .mul) hl hr ?_ (fun h c => ?_) ?_).narrow
  · exact congrArg (BitVec.setWidth w) (BitVec.mul_comm a b)
  · exact (h.mulPartialR c).widen
  · rw [hl.width]
    split_ifs with hbool
    · subst hbool
      refine (hl.and hr).congr ?_
      show a &&& b = (a * b).setWidth 1
      clear hl hr
      revert a b
      decide
    · exact binary hl hr nofun

/-! ## Add, Sub -/

lemma add : Denotes σ (.binary .add l r) (a + b) :=
  (binary (k := .add) hl hr nofun).narrow

lemma sub : Denotes σ (.binary .sub l r) (a - b) :=
  (binary (k := .sub) hl hr nofun).narrow

end

lemma of_constant_add {c : BitVec u} (h : Denotes σ (.binary .add (.constant u c) r) v) :
    ∃ b : BitVec w, u = w ∧ Denotes σ r b ∧ v = c.setWidth w + b := by
  obtain ⟨a, b, ha, hb, rfl⟩ := h.of_add
  obtain ⟨hu, rfl⟩ := ha.of_constant
  exact ⟨b, hu, hb, rfl⟩

lemma of_constant_sub {c : BitVec u} (h : Denotes σ (.binary .sub (.constant u c) r) v) :
    ∃ b : BitVec w, u = w ∧ Denotes σ r b ∧ v = c.setWidth w - b := by
  obtain ⟨a, b, ha, hb, rfl⟩ := h.of_sub
  obtain ⟨hu, rfl⟩ := ha.of_constant
  exact ⟨b, hu, hb, rfl⟩

lemma foldAdd (h : Denotes σ e b) {c : Σ width, BitVec width} (hc : e.constant? = some c) (a : BitVec w) :
    Denotes σ (Expr.fold .add a c.2) (a + b) := by
  obtain rfl := h.of_constant? hc
  exact (fold h.pos a b).narrow

lemma foldSub (h : Denotes σ e b) {c : Σ width, BitVec width} (hc : e.constant? = some c) (a : BitVec w) :
    Denotes σ (Expr.fold .sub a c.2) (a - b) := by
  obtain rfl := h.of_constant? hc
  exact (fold h.pos a b).narrow

lemma xorPartialR_bit (h : Denotes σ e v) (c : BitVec w) (hw : w = 1) :
    Denotes σ (Expr.xorPartialR opt e c) (c + v) ∧ Denotes σ (Expr.xorPartialR opt e c) (c - v) := by
  subst hw
  have hbit : ∀ c v : BitVec 1, c ^^^ v = c + v ∧ c ^^^ v = c - v := by decide
  exact ⟨(h.xorPartialR c).congr (hbit c v).1, (h.xorPartialR c).congr (hbit c v).2⟩

lemma addSubPartialR (n : ℕ) : ∀ (e : Expr) {v : BitVec w}, e.size ≤ n → Denotes σ e v → ∀ c : BitVec w,
    Denotes σ (Expr.addPartialR opt e c) (c + v) ∧ Denotes σ (Expr.subPartialR opt e c) (c - v) := by
  induction n with
  | zero => exact fun e v hn => absurd (e.size_pos.trans_le hn) (lt_irrefl 0)
  | succ n ih =>
    intro e v hn h c
    constructor
    · unfold addPartialR
      split_ifs with hbool hzero
      · exact (h.xorPartialR_bit c hbool).1
      · exact h.congr (by rw [hzero, zero_add])
      · split
        case h_1 k e =>
          obtain ⟨b, -, hb, rfl⟩ := h.of_constant_add
          split
          case h_1 d hd => exact (hb.foldAdd hd _).congr (add_assoc _ _ _)
          case h_2 => exact (ih e (by simp only [size] at hn; omega) hb _).1.congr (add_assoc _ _ _)
        case h_2 k e =>
          obtain ⟨b, -, hb, rfl⟩ := h.of_constant_sub
          split
          case h_1 d hd => exact (hb.foldSub hd _).congr (add_sub_assoc _ _ _)
          case h_2 => exact (ih e (by simp only [size] at hn; omega) hb _).2.congr (add_sub_assoc _ _ _)
        case h_3 => exact (constant h.pos c).add h
    · unfold subPartialR
      split_ifs with hbool
      · exact (h.xorPartialR_bit c hbool).2
      · split
        case h_1 k e =>
          obtain ⟨b, -, hb, rfl⟩ := h.of_constant_add
          split
          case h_1 d hd => exact (hb.foldSub hd _).congr (BitVec.sub_sub _ _ _)
          case h_2 => exact (ih e (by simp only [Term.size] at hn; omega) hb _).2.congr (BitVec.sub_sub _ _ _)
        case h_2 k e =>
          obtain ⟨b, -, hb, rfl⟩ := h.of_constant_sub
          split
          case h_1 d hd => exact (hb.foldAdd hd _).congr (sub_add _ _ _)
          case h_2 => exact (ih e (by simp only [size] at hn; omega) hb _).1.congr (sub_add _ _ _)
        case h_3 => exact (constant h.pos c).sub h

section
variable (h : Denotes σ e v) (c : BitVec w)
include h c

lemma addPartialR : Denotes σ (addPartialR opt e c) (c + v) :=
  (addSubPartialR e.size e le_rfl h c).1

lemma subPartialR : Denotes σ (subPartialR opt e c) (c - v) :=
  (addSubPartialR e.size e le_rfl h c).2

lemma addConstant : Denotes σ (addConstant opt c e) (c + v) := by
  rw [Expr.addConstant]
  split
  case h_1 d hd => exact h.foldAdd hd c
  case h_2 => exact h.addPartialR c

lemma subConstant : Denotes σ (subConstant opt c e) (c - v) := by
  rw [Expr.subConstant]
  split
  case h_1 d hd => exact h.foldSub hd c
  case h_2 => exact h.subPartialR c

lemma subPartial : Denotes σ (subPartial opt e c) (v - c) := by
  refine (h.addPartialR (0 - c)).congr ?_
  rw [zero_sub, neg_add_eq_sub]

lemma subConstantRight : Denotes σ (subConstantRight opt e c) (v - c) := by
  rw [Expr.subConstantRight]
  split
  case h_1 d hd =>
    obtain rfl := h.of_constant? hd
    exact (fold (k := .sub) h.pos v c).narrow
  case h_2 => exact h.subPartial c

end

lemma xor_bit (hl : Denotes σ l a) (hr : Denotes σ r b) (hw : w = 1) :
    Denotes σ (.binary .xor l r) (a + b) ∧ Denotes σ (.binary .xor l r) (a - b) := by
  subst hw
  have hbit : ∀ a b : BitVec 1, (a ^^^ b).setWidth 1 = a + b ∧ (a ^^^ b).setWidth 1 = a - b := by decide
  have hxor : Denotes σ (.binary .xor l r) ((a ^^^ b).setWidth 1) := binary hl hr nofun
  exact ⟨hxor.congr (hbit a b).1, hxor.congr (hbit a b).2⟩

/-- By induction on the size of both operands: constants are moved to the front. -/
lemma addSubCreate (n : ℕ) : ∀ (l r : Expr) {a b : BitVec w}, l.size + r.size ≤ n → Denotes σ l a → Denotes σ r b →
    Denotes σ (Expr.addCreate opt l r) (a + b) ∧ Denotes σ (Expr.subCreate opt l r) (a - b) := by
  induction n with
  | zero => exact fun l r a b hn => absurd (l.size_pos.trans_le ((Nat.le_add_right _ _).trans hn)) (lt_irrefl 0)
  | succ n ih =>
    intro l r a b hn hl hr
    constructor
    · unfold addCreate
      split
      case h_1 ca cb hca hcb =>
        obtain rfl := hl.of_constant? hca
        exact hr.foldAdd hcb a
      case h_2 ca hca _ =>
        obtain rfl := hl.of_constant? hca
        exact hr.addPartialR a
      case h_3 cb _ hcb =>
        obtain rfl := hr.of_constant? hcb
        rw [add_comm]
        exact hl.addPartialR b
      case h_4 =>
        rw [hl.width]
        split_ifs with hbool
        · exact (hl.xor_bit hr hbool).1
        · split
          case h_1 =>
            simp only [size] at hn
            obtain ⟨d, rfl, hd, rfl⟩ := hl.of_constant_add
            rw [setWidth_eq]
            exact ((ih _ r (by omega) hd hr).1.addConstant _).congr (by ring)
          case h_2 =>
            simp only [size] at hn
            obtain ⟨d, rfl, hd, rfl⟩ := hl.of_constant_sub
            rw [setWidth_eq]
            exact ((ih r _ (by omega) hr hd).2.addConstant _).congr (by ring)
          case h_3 =>
            simp only [size] at hn
            obtain ⟨d, rfl, hd, rfl⟩ := hr.of_constant_add
            rw [setWidth_eq]
            exact ((ih l _ (by omega) hl hd).1.addConstant _).congr (by ring)
          case h_4 =>
            simp only [size] at hn
            obtain ⟨d, rfl, hd, rfl⟩ := hr.of_constant_sub
            rw [setWidth_eq]
            exact ((ih l _ (by omega) hl hd).2.addConstant _).congr (by ring)
          case h_5 => exact hl.add hr
    · unfold subCreate
      split
      case h_1 ca cb hca hcb =>
        obtain rfl := hl.of_constant? hca
        exact hr.foldSub hcb a
      case h_2 ca hca _ =>
        obtain rfl := hl.of_constant? hca
        exact hr.subPartialR a
      case h_3 cb _ hcb =>
        obtain rfl := hr.of_constant? hcb
        exact hl.subPartial b
      case h_4 =>
        rw [hl.width]
        split_ifs with hbool heq
        · exact (hl.xor_bit hr hbool).2
        · subst heq
          obtain rfl : a = b := hl.value.symm.trans hr.value
          exact (constant hl.pos 0).congr (sub_self a).symm
        · split
          case h_1 =>
            simp only [size] at hn
            obtain ⟨d, rfl, hd, rfl⟩ := hl.of_constant_add
            rw [setWidth_eq]
            exact ((ih _ r (by omega) hd hr).2.addConstant _).congr (by ring)
          case h_2 =>
            simp only [size] at hn
            obtain ⟨d, rfl, hd, rfl⟩ := hl.of_constant_sub
            rw [setWidth_eq]
            exact ((ih _ r (by omega) hd hr).1.subConstant _).congr (by ring)
          case h_3 =>
            simp only [size] at hn
            obtain ⟨d, rfl, hd, rfl⟩ := hr.of_constant_add
            rw [setWidth_eq]
            exact ((ih l _ (by omega) hl hd).2.subConstantRight _).congr (by ring)
          case h_4 =>
            simp only [size] at hn
            obtain ⟨d, rfl, hd, rfl⟩ := hr.of_constant_sub
            rw [setWidth_eq]
            exact ((ih l _ (by omega) hl hd).1.subConstantRight _).congr (by ring)
          case h_5 => exact hl.sub hr

section
variable (hl : Denotes σ l a) (hr : Denotes σ r b)
include hl hr

lemma addCreate : Denotes σ (addCreate opt l r) (a + b) :=
  (addSubCreate _ l r le_rfl hl hr).1

lemma subCreate : Denotes σ (subCreate opt l r) (a - b) :=
  (addSubCreate _ l r le_rfl hl hr).2

/-! ## Division, shifts and comparisons -/

lemma bcreateBool {special : Expr → Expr → Expr}
    (hdiv : k.isDivision = true → b ≠ 0) (hspecial : w = 1 → Denotes σ (special l r) (k.denote a b (k.width w))) :
    Denotes σ (Expr.bcreate k (fun l r => if l.getWidth = 1 then special l r else .binary k l r) l r)
      (k.denote a b (k.width w)) := by
  refine bcreate hl hr ?_
  rw [hl.width]
  split_ifs with hbool
  · exact hspecial hbool
  · exact binary hl hr hdiv

lemma ultCreate : Denotes σ (ultCreate opt l r) (BitVec.ofBool (a.ult b)) := by
  rw [Expr.ultCreate]
  refine (bcreateBool (k := .ult) hl hr nofun ?_).narrow
  rintro rfl
  have hbit : ∀ a b : BitVec 1, ~~~a &&& b = (ofBool (a.ult b)).setWidth 1 := by decide
  exact (hl.createIsZero_bit.andCreate hr).congr (hbit a b)

lemma uleCreate : Denotes σ (uleCreate opt l r) (BitVec.ofBool (a.ule b)) := by
  rw [Expr.uleCreate]
  refine (bcreateBool (k := .ule) hl hr nofun ?_).narrow
  rintro rfl
  have hbit : ∀ a b : BitVec 1, ~~~a ||| b = (ofBool (a.ule b)).setWidth 1 := by decide
  exact (hl.createIsZero_bit.orCreate hr).congr (hbit a b)

lemma sltCreate : Denotes σ (sltCreate opt l r) (BitVec.ofBool (a.slt b)) := by
  rw [Expr.sltCreate]
  refine (bcreateBool (k := .slt) hl hr nofun ?_).narrow
  rintro rfl
  have hbit : ∀ a b : BitVec 1, a &&& ~~~b = (ofBool (a.slt b)).setWidth 1 := by decide
  exact (hl.andCreate hr.createIsZero_bit).congr (hbit a b)

lemma sleCreate : Denotes σ (sleCreate opt l r) (BitVec.ofBool (a.sle b)) := by
  rw [Expr.sleCreate]
  refine (bcreateBool (k := .sle) hl hr nofun ?_).narrow
  rintro rfl
  have hbit : ∀ a b : BitVec 1, a ||| ~~~b = (ofBool (a.sle b)).setWidth 1 := by decide
  exact (hl.orCreate hr.createIsZero_bit).congr (hbit a b)

lemma binaryCreate (hdiv : k.isDivision = true → b ≠ 0) :
    Denotes σ (binaryCreate opt k l r) (k.denote a b (k.width w)) := by
  cases k
  case add => exact (hl.addCreate hr).widen
  case sub => exact (hl.subCreate hr).widen
  case mul => exact (hl.mulCreate hr).widen
  case uDiv =>
    rw [binaryCreate, uDivCreate]
    refine bcreateBool hl hr hdiv ?_
    rintro rfl
    have hbit : ∀ a b : BitVec 1, b ≠ 0 → a = (a / b).setWidth 1 := by decide
    exact hl.congr (hbit a b (hdiv rfl))
  case sDiv =>
    rw [binaryCreate, sDivCreate]
    refine bcreateBool hl hr hdiv ?_
    rintro rfl
    have hbit : ∀ a b : BitVec 1, b ≠ 0 → a = (a.sdiv b).setWidth 1 := by decide
    exact hl.congr (hbit a b (hdiv rfl))
  case uRem =>
    rw [binaryCreate, uRemCreate]
    refine bcreateBool hl hr hdiv ?_
    rintro rfl
    have hbit : ∀ a b : BitVec 1, b ≠ 0 → 0#1 = (a % b).setWidth 1 := by decide
    exact falseConstant.congr (hbit a b (hdiv rfl))
  case sRem =>
    rw [binaryCreate, sRemCreate]
    refine bcreateBool hl hr hdiv ?_
    rintro rfl
    have hbit : ∀ a b : BitVec 1, b ≠ 0 → 0#1 = (a.srem b).setWidth 1 := by decide
    exact falseConstant.congr (hbit a b (hdiv rfl))
  case and => exact (hl.andCreate hr).widen
  case or => exact (hl.orCreate hr).widen
  case xor => exact (hl.xorCreate hr).widen
  case shl =>
    rw [binaryCreate, shlCreate]
    refine bcreateBool hl hr nofun ?_
    rintro rfl
    have hbit : ∀ a b : BitVec 1, a &&& ~~~b = (a <<< b).setWidth 1 := by decide
    exact (hl.andCreate hr.createIsZero_bit).congr (hbit a b)
  case lShr =>
    rw [binaryCreate, lShrCreate]
    refine bcreateBool hl hr nofun ?_
    rintro rfl
    have hbit : ∀ a b : BitVec 1, a &&& ~~~b = (a >>> b).setWidth 1 := by decide
    exact (hl.andCreate hr.createIsZero_bit).congr (hbit a b)
  case aShr =>
    rw [binaryCreate, aShrCreate]
    refine bcreateBool hl hr nofun ?_
    rintro rfl
    have hbit : ∀ a b : BitVec 1, a = (a.sshiftRight' b).setWidth 1 := by decide
    exact hl.congr (hbit a b)
  case eq => exact (hl.eqCreate hr).widen
  case ne => exact (hl.neCreate hr).widen
  case ult => exact (hl.ultCreate hr).widen
  case ule => exact (hl.uleCreate hr).widen
  case ugt => exact (hr.ultCreate hl).widen
  case uge => exact (hr.uleCreate hl).widen
  case slt => exact (hl.sltCreate hr).widen
  case sle => exact (hl.sleCreate hr).widen
  case sgt => exact (hr.sltCreate hl).widen
  case sge => exact (hr.sleCreate hl).widen

end

end Denotes

end Klee
