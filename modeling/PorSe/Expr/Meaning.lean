import PorSe.Expr.CreateSound

/-! Parts of bit vectors, casts, selects and reads, and the meaning of every constructor. -/

namespace Klee
open BitVec
open Term Klee.Expr

/-! ## Extract, Concat -/

lemma Expr.extractCreate_eq (e : Expr) (off w : ℕ) : extractCreate e off w = if w = e.getWidth then e
      else
        match e with
        | .constant _ value => .constant w ((value.sshiftRight off).setWidth w)
        | .concat left right =>
          if right.getWidth ≤ off then extractCreate left (off - right.getWidth) w
          else if off + w ≤ right.getWidth then extractCreate right off w
          else concatCreate (extractCreate left 0 (w + off - right.getWidth))
            (extractCreate right off (right.getWidth - off))
        | e => .extract e off w := by
  conv_lhs =>
    rw [extractCreate]
    unfold extractBounded
  split_ifs with hw
  · rfl
  · cases e with
    | concat left right =>
      dsimp only
      split_ifs
      · rfl
      · rfl
      · rw [concatCreate]
        split
        case h_1 e' h =>
          change concatStep (extractCreate _ _ _) (extractCreate _ _ _) = _ at h
          rw [h]
        case h_2 e' off' w' h =>
          change concatStep (extractCreate _ _ _) (extractCreate _ _ _) = _ at h
          rw [h]
          rfl
    | _ => rfl

namespace Denotes
variable {σ : Valuation} {e l r c : Expr} {w u : ℕ} {v a b : BitVec w} {x : BitVec 1} {opt : Bool}

lemma extractLsb'_append_both (a : BitVec w) (b : BitVec u) {off n : ℕ} (h : off < u) (h' : u < off + n) :
    (a ++ b).extractLsb' off n = (a.extractLsb' 0 (n + off - u) ++ b.extractLsb' off (u - off)).setWidth n := by
  apply eq_of_getLsbD_eq
  intro i hi
  simp only [getLsbD_append, getLsbD_setWidth, getLsbD_extractLsb', hi, decide_true, Bool.true_and]
  by_cases hright : off + i < u
  · rw [if_pos hright, if_pos (by omega), decide_eq_true (by omega), Bool.true_and]
  · rw [if_neg hright, if_neg (by omega), decide_eq_true (by omega)]
    congr 1
    omega

lemma setWidth_sshiftRight (v : BitVec w) {off n : ℕ} (h : off + n ≤ w) :
    (v.sshiftRight off).setWidth n = v.extractLsb' off n := by
  apply eq_of_getLsbD_eq
  intro i hi
  rw [getLsbD_setWidth, getLsbD_sshiftRight, getLsbD_extractLsb', if_pos (by omega),
    decide_eq_false (by omega : ¬ w ≤ i), Bool.not_false, Bool.true_and]

lemma concatCreate_of {b : BitVec u} (hl : Denotes σ l a) (hr : Denotes σ r b)
    (hextract : ∀ {e : Expr} {off n m : ℕ} {v : BitVec n}, e.size ≤ extractedSize l →
      Denotes σ e v → 0 < m → off + m ≤ n →
      Denotes σ (extractCreate e off m) (v.extractLsb' off m)) : Denotes σ (concatCreate l r) (a ++ b) := by
  rw [concatCreate]
  split
  case h_1 e h =>
    unfold concatStep at h
    split at h
    · cases h
      cases hl.of_constant? rfl
      cases hr.of_constant? rfl
      exact constant (Nat.add_pos_left hl.pos u) (a ++ b)
    · split_ifs at h
      cases h
      exact hl.concat hr
    · cases h
      exact hl.concat hr
  case h_2 e off n h =>
    unfold concatStep at h
    split at h
    · cases h
    · split_ifs at h with hmerge
      obtain ⟨rfl, rfl⟩ := hmerge
      cases h
      obtain ⟨rfl, hpos, _, rfl, he⟩ := hl.of_extract
      obtain ⟨rfl, -, -, rfl, -⟩ := hr.of_extract
      refine (hextract le_rfl he (Nat.add_pos_left hpos _) (by omega)).congr ?_
      exact (extractLsb'_append_extractLsb'_eq_extractLsb' rfl).symm
    · cases h

lemma extractCreate_of (n : ℕ) : ∀ (e : Expr) {w off m : ℕ} {v : BitVec w}, e.size ≤ n → Denotes σ e v → 0 < m →
    off + m ≤ w → Denotes σ (extractCreate e off m) (v.extractLsb' off m) := by
  induction n with
  | zero => exact fun e _ _ _ _ hn => absurd (e.size_pos.trans_le hn) (lt_irrefl 0)
  | succ n ih =>
    intro e w off m v hn h hm hle
    rw [extractCreate_eq, h.width]
    split_ifs with hw
    · subst hw
      obtain rfl : off = 0 := by omega
      exact h.congr extractLsb'_eq_self.symm
    · split
      case h_1 u c =>
        cases h.of_constant? rfl
        exact (constant hm _).congr (setWidth_sshiftRight v hle)
      case h_2 left right =>
        simp only [size] at hn
        obtain ⟨p, q, a, b, rfl, ha, hb, rfl⟩ := h.of_concat
        rw [hb.width, setWidth_eq]
        split_ifs with hskip hright
        · rw [extractLsb'_append_eq_of_le hskip]
          exact ih left (by omega) ha hm (by omega)
        · rw [extractLsb'_append_eq_of_add_le hright]
          exact ih right (by omega) hb hm hright
        · rw [extractLsb'_append_both a b (by omega) (by omega)]
          have hl : Denotes σ (extractCreate left 0 (m + off - q)) (a.extractLsb' 0 (m + off - q)) :=
            ih left (by omega) ha (by omega) (by omega)
          have hr : Denotes σ (extractCreate right off (q - off)) (b.extractLsb' off (q - off)) :=
            ih right (by omega) hb (by omega) (by omega)
          refine (concatCreate_of hl hr fun hsize => ih _ ?_).setWidth (by omega)
          exact hsize.trans ((extractBounded _ _ _).2.trans (by omega))
      case h_3 => exact h.extract hm hle

lemma extractCreate {off : ℕ} (h : Denotes σ e v) (hu : 0 < u) (hle : off + u ≤ w) :
    Denotes σ (extractCreate e off u) (v.extractLsb' off u) :=
  extractCreate_of e.size e le_rfl h hu hle

lemma concatCreate {b : BitVec u} (hl : Denotes σ l a) (hr : Denotes σ r b) : Denotes σ (concatCreate l r) (a ++ b) :=
  concatCreate_of hl hr fun _ h => h.extractCreate

/-! ## Not, casts, Select -/

lemma notCreate (h : Denotes σ e v) : Denotes σ (notCreate e) (~~~v) := by
  rw [Expr.notCreate]
  split
  case h_1 d hd =>
    cases h.of_constant? hd
    exact constant h.pos (~~~v)
  case h_2 => exact h.not

lemma zextCreate (h : Denotes σ e v) (hu : 0 < u) : Denotes σ (zextCreate e u) (v.setWidth u) := by
  rw [Expr.zextCreate, h.width]
  split_ifs with hw hlt
  · exact h.setWidth hw.symm
  · exact (h.extractCreate hu (by omega)).congr (setWidth_eq_extractLsb' hlt.le).symm
  · split
    case h_1 d hd =>
      cases h.of_constant? hd
      exact constant hu (v.setWidth u)
    case h_2 => exact h.zext (by omega)

lemma sextCreate (h : Denotes σ e v) (hu : 0 < u) : Denotes σ (sextCreate e u) (v.signExtend u) := by
  rw [Expr.sextCreate, h.width]
  split_ifs with hw hlt
  · rw [signExtend_eq_setWidth_of_le v hw.le]
    exact h.setWidth hw.symm
  · rw [signExtend_eq_setWidth_of_le v hlt.le]
    exact (h.extractCreate hu (by omega)).congr (setWidth_eq_extractLsb' hlt.le).symm
  · split
    case h_1 d hd =>
      cases h.of_constant? hd
      exact constant hu (v.signExtend u)
    case h_2 => exact h.sext (by omega)

lemma ofBool_eq_one (p : Bool) : BitVec.ofBool p = 1#1 ↔ p = true := by
  cases p <;> decide

lemma isTrue_iff (h : Denotes σ e x) (hsome : e.constant?.isSome = true) : isTrue e = true ↔ x = 1#1 := by
  obtain ⟨d, hd⟩ := Option.isSome_iff_exists.mp hsome
  cases h.of_constant? hd
  rw [Expr.isTrue, hd]
  clear h hd
  revert x
  decide

lemma selectCreate_bit {y z : BitVec 1} (hc : Denotes σ c x) (hl : Denotes σ l y) (hr : Denotes σ r z) : Denotes σ
      (if l.constant?.isSome then
        if isTrue l then Expr.orCreate c r else Expr.andCreate (Expr.createIsZero opt c) r
      else if r.constant?.isSome then
        if isTrue r then Expr.orCreate (Expr.createIsZero opt c) l else Expr.andCreate c l
      else .select c l r) (if x = 1#1 then y else z) := by
  have hbit : ∀ y : BitVec 1, y ≠ 1#1 → y = 0#1 := by decide
  by_cases hleft : l.constant?.isSome = true
  · rw [if_pos hleft]
    by_cases htrue : isTrue l = true
    · obtain rfl := (hl.isTrue_iff hleft).mp htrue
      rw [if_pos htrue]
      have hor : ∀ x z : BitVec 1, x ||| z = if x = 1#1 then 1#1 else z := by decide
      exact (hc.orCreate hr).congr (hor x z)
    · obtain rfl := hbit y (mt (hl.isTrue_iff hleft).mpr htrue)
      rw [if_neg htrue]
      have hand : ∀ x z : BitVec 1, ~~~x &&& z = if x = 1#1 then 0#1 else z := by decide
      exact (hc.createIsZero_bit.andCreate hr).congr (hand x z)
  · rw [if_neg hleft]
    by_cases hright : r.constant?.isSome = true
    · rw [if_pos hright]
      by_cases htrue : isTrue r = true
      · obtain rfl := (hr.isTrue_iff hright).mp htrue
        rw [if_pos htrue]
        have hor : ∀ x y : BitVec 1, ~~~x ||| y = if x = 1#1 then y else 1#1 := by decide
        exact (hc.createIsZero_bit.orCreate hl).congr (hor x y)
      · obtain rfl := hbit z (mt (hr.isTrue_iff hright).mpr htrue)
        rw [if_neg htrue]
        have hand : ∀ x y : BitVec 1, x &&& y = if x = 1#1 then y else 0#1 := by decide
        exact (hc.andCreate hl).congr (hand x y)
    · rw [if_neg hright]
      exact hc.select hl hr

lemma selectCreate (hc : Denotes σ c x) (hl : Denotes σ l a) (hr : Denotes σ r b) :
    Denotes σ (selectCreate opt c l r) (if x = 1#1 then a else b) := by
  rw [Expr.selectCreate, hl.width]
  by_cases hcond : c.constant?.isSome = true
  · rw [if_pos hcond]
    simp only [hc.isTrue_iff hcond]
    split_ifs
    · exact hl
    · exact hr
  · rw [if_neg hcond]
    by_cases heq : l = r
    · subst heq
      obtain rfl : a = b := hl.value.symm.trans hr.value
      rw [if_pos rfl, ite_self]
      exact hl
    · rw [if_neg heq]
      by_cases hbool : w = 1
      · subst hbool
        rw [if_pos rfl]
        exact hc.selectCreate_bit hl hr
      · rw [if_neg hbool]
        exact hc.select hl hr

/-! ## Read -/

variable {root : Array} {i : BitVec root.domain}

lemma findUpdate_spec (opt : Bool) (h : Denotes σ e i) : ∀ head : UpdateNodes Unit,
    head.WellTyped root → head.Defined σ root i →
    (∀ value, findUpdate opt e head = .inl value → Denotes σ value (head.eval σ root i)) ∧
      ∀ rest, findUpdate opt e head = .inr rest →
        rest.WellTyped root ∧ rest.Defined σ root i ∧ rest.eval σ root i = head.eval σ root i
  | .nil, ht, hd => by
    refine ⟨fun value hvalue => ?_, fun rest hrest => ?_⟩
    · cases hvalue
    · cases hrest
      exact ⟨ht, hd, rfl⟩
  | .node n index value next, ht, hd => by
    obtain ⟨hindex, hdomain, hvalue, hrange, hnext⟩ := id ht
    obtain ⟨hindex', hrest⟩ := id hd
    have heq : Denotes σ (Expr.eqCreate opt e index) (BitVec.ofBool (i == index.eval σ root.domain)) :=
      h.eqCreate ⟨hindex, hdomain, hindex', rfl⟩
    have hiff : (Expr.eqCreate opt e index).constant?.isSome = true →
        (isTrue (Expr.eqCreate opt e index) = true ↔ index.eval σ root.domain = i) := by
      intro hconstant
      rw [heq.isTrue_iff hconstant, ofBool_eq_one, beq_iff_eq, eq_comm]
    rw [findUpdate]
    split_ifs with hconstant htrue
    · have hi := (hiff hconstant).mp htrue
      rw [if_pos hi] at hrest
      refine ⟨fun v hv => ?_, fun rest hrest => (by cases hrest)⟩
      cases hv
      rw [UpdateNodes.eval, if_pos hi]
      exact ⟨hvalue, hrange, hrest, rfl⟩
    · have hi := mt (hiff hconstant).mpr htrue
      rw [if_neg hi] at hrest
      rw [UpdateNodes.eval, if_neg hi]
      exact findUpdate_spec opt h next hnext hrest
    · refine ⟨fun v hv => (by cases hv), fun rest hrest => ?_⟩
      cases hrest
      exact ⟨ht, hd, rfl⟩

lemma readCreate {head : UpdateNodes Unit} (h : Denotes σ e i) (hhead : head.WellTyped root)
    (hdefined : head.Defined σ root i) : Denotes σ (readCreate opt root head e) (head.eval σ root i) := by
  have hspec := h.findUpdate_spec opt head hhead hdefined
  rw [Expr.readCreate]
  split
  case h_1 value hvalue => exact hspec.1 value hvalue
  case h_2 rest hrest =>
    obtain ⟨hrest, hrest', heval⟩ := hspec.2 rest hrest
    split
    case h_1 d hd =>
      cases h.of_constant? hd
      split_ifs with hlt hnil
      · obtain ⟨hconstant, rfl⟩ := hnil
        have hsymbolic : root.isSymbolicArray = false := by simpa [Array.isConstantArray] using hconstant
        refine (constant root.range_pos _).congr ?_
        rw [← heval, UpdateNodes.eval, Array.contents, hsymbolic]
        rfl
      · rw [← heval]
        exact h.read hrest hrest'
      · exact h.read hhead hdefined
    case h_2 => exact h.read hhead hdefined

end Denotes

/-- On defined operands every constructor returns an expression with its operator's width and value. -/
theorem Expr.create_denotes (constArrayOpt : Bool) {σ : Valuation} {w : ℕ} {l r : Expr} {a b : BitVec w}
    (hl : Denotes σ l a) (hr : Denotes σ r b) :
    (∀ k : BinaryKind, (k.isDivision = true → b ≠ 0) →
      Denotes σ (binaryCreate constArrayOpt k l r) (k.denote a b (k.width w))) ∧
    Denotes σ (notCreate l) (~~~a) ∧
    (∀ {c : Expr} {x : BitVec 1}, Denotes σ c x →
      Denotes σ (selectCreate constArrayOpt c l r) (if x = 1#1 then a else b)) ∧
    (∀ {u : ℕ} {r : Expr} {b : BitVec u}, Denotes σ r b → Denotes σ (concatCreate l r) (a ++ b)) ∧
    (∀ {off u : ℕ}, 0 < u → off + u ≤ w → Denotes σ (extractCreate l off u) (a.extractLsb' off u)) ∧
    (∀ {u : ℕ}, 0 < u → Denotes σ (zextCreate l u) (a.setWidth u) ∧ Denotes σ (sextCreate l u) (a.signExtend u)) ∧
    ∀ {root : Array} {head : UpdateNodes Unit} {index : Expr} {i : BitVec root.domain}, Denotes σ index i →
      head.WellTyped root → head.Defined σ root i →
        Denotes σ (readCreate constArrayOpt root head index) (head.eval σ root i) :=
  ⟨fun _ => hl.binaryCreate hr, hl.notCreate, fun hc => hc.selectCreate hl hr, fun h => hl.concatCreate h,
    fun hu => hl.extractCreate hu, fun hu => ⟨hl.zextCreate hu, hl.sextCreate hu⟩, fun h => h.readCreate⟩

theorem Expr.create_denotes_add : ∃ (σ : Valuation) (bytes : Array),
      Denotes σ (binaryCreate false .add (.read bytes .nil (.constant 32 2)) (.constant 8 3)) 8#8 := by
  let bytes : Array := ⟨0, "bytes", 4, 32, 8, [], .inl rfl, by decide, by decide, by decide⟩
  have hread : Denotes (fun _ _ => 5) (.read bytes .nil (.constant 32 2)) 5#8 :=
    ⟨⟨trivial, Nat.succ_pos 31, rfl⟩, rfl, ⟨trivial, show 2 < 4 by decide⟩, rfl⟩
  exact ⟨_, bytes, (create_denotes false hread (.constant (by decide) 3#8)).1 .add nofun⟩

end Klee
