import PorSe.Expr.Eval

/-! The smart constructors of expressions. -/

namespace Klee
open Term

namespace Expr

/-! ## Constants -/

def fold (k : BinaryKind) {w v : ℕ} (a : BitVec w) (b : BitVec v) : Expr :=
  .constant (k.width w) (k.denote a (b.setWidth w) (k.width w))

def trueConstant : Expr := .constant 1 1

def falseConstant : Expr := .constant 1 0

def isTrue (e : Expr) : Bool :=
  match e.constant? with
  | some c => c.1 = 1 && c.2.toNat ≠ 0
  | none => false

def bcreateR (k : BinaryKind) (partialR : Expr → {w : ℕ} → BitVec w → Expr) (create : Expr → Expr → Expr) (l r : Expr) :
    Expr :=
  match l.constant?, r.constant? with
  | some a, some b => fold k a.2 b.2
  | some a, none => partialR r a.2
  | none, some b => partialR l b.2
  | none, none => create l r

def bcreate (k : BinaryKind) (create : Expr → Expr → Expr) (l r : Expr) : Expr :=
  match l.constant?, r.constant? with
  | some a, some b => fold k a.2 b.2
  | _, _ => create l r

/-! ## And, Or -/

def andPartial (l : Expr) {w : ℕ} (cr : BitVec w) : Expr :=
  if cr = BitVec.allOnes w then l else if cr = 0 then .constant w cr else .binary .and l (.constant w cr)

def andCreate : Expr → Expr → Expr := bcreateR .and andPartial (.binary .and)

def orPartial (l : Expr) {w : ℕ} (cr : BitVec w) : Expr :=
  if cr = BitVec.allOnes w then .constant w cr else if cr = 0 then l else .binary .or l (.constant w cr)

def orCreate : Expr → Expr → Expr := bcreateR .or orPartial (.binary .or)

/-! ## Eq -/

variable (constArrayOpt : Bool)

variable (l r : Expr)

/-- `EqExpr_create`. -/
def eqAlloc : Expr := if l = r then trueConstant else .binary .eq l r

/-- The loop of `TryConstArrayOpt`; `none` is too many matches, `mayBe` compares the index of the read. -/
def constArrayMatches {w : ℕ} (mayBe : ℕ → Expr) (cl : BitVec w) : List (BitVec w) → ℕ → ℕ → Expr → Option Expr
  | [], _, _, res => some res
  | value :: values, i, numMatches, res =>
    if cl = value then
      if 100 < numMatches + 1 then none
      else constArrayMatches mayBe cl values (i + 1) (numMatches + 1) (orCreate res (mayBe i))
    else constArrayMatches mayBe cl values (i + 1) numMatches res

/-- `EqExpr_createPartialR`. A kid that may be constant is compared as by `EqExpr::create`. -/
def eqPartialR : Expr → {w : ℕ} → BitVec w → Expr
  | r, w, cl =>
    if w = 1 then
      if cl.toNat ≠ 0 then r
      else
        match r with
        | .binary .eq (.constant v c) right =>
          if v = 1 ∧ c.toNat = 0 then right
          else eqAlloc (.constant w cl) r
        | .binary .or left right =>
          -- not(or(a,b)) is and(not a, not b)
          andCreate
            (match left.constant? with
              | some c => fold .eq c.2 (0 : BitVec left.getWidth)
              | none => eqPartialR left (0 : BitVec left.getWidth))
            (match right.constant? with
              | some c => fold .eq c.2 (0 : BitVec right.getWidth)
              | none => eqPartialR right (0 : BitVec right.getWidth))
        | _ => eqAlloc (.constant w cl) r
    else
      match r with
      | .sext src _ =>
        -- some value of the narrow operand has to extend to the constant
        if cl = (cl.setWidth src.getWidth).signExtend w then
          match src.constant? with
          | some c => fold .eq c.2 (cl.setWidth src.getWidth)
          | none => eqPartialR src (cl.setWidth src.getWidth)
        else falseConstant
      | .zext src _ =>
        if cl = (cl.setWidth src.getWidth).setWidth w then
          match src.constant? with
          | some c => fold .eq c.2 (cl.setWidth src.getWidth)
          | none => eqPartialR src (cl.setWidth src.getWidth)
        else falseConstant
      | .binary .add (.constant _ c) right => eqPartialR right (cl - c.setWidth w)
      | .binary .sub (.constant v c) right => eqPartialR right (c - cl.setWidth v)
      | .read root .nil index =>
        if constArrayOpt && root.isConstantArray then
          (constArrayMatches (fun i => match index.constant? with
            | some c => fold .eq c.2 (BitVec.ofNat index.getWidth i)
            | none => eqPartialR index (BitVec.ofNat index.getWidth i)) (cl.setWidth root.range) root.constantValues 0 0
            falseConstant).getD (eqAlloc (.constant w cl) r)
        else eqAlloc (.constant w cl) r
      | _ => eqAlloc (.constant w cl) r

def eqCreate : Expr → Expr → Expr := bcreateR .eq (eqPartialR constArrayOpt) eqAlloc

def createIsZero (e : Expr) : Expr := eqCreate constArrayOpt e (.constant e.getWidth 0)

def neCreate : Expr := eqCreate constArrayOpt falseConstant (eqCreate constArrayOpt l r)

/-! ## Xor, Mul -/

def xorPartialR (r : Expr) {w : ℕ} (cl : BitVec w) : Expr :=
  if cl = 0 then r
  else if w = 1 then eqPartialR constArrayOpt r (0 : BitVec 1)
  else .binary .xor (.constant w cl) r

def xorCreate : Expr → Expr → Expr := bcreateR .xor (xorPartialR constArrayOpt) (.binary .xor)

def mulPartialR (r : Expr) {w : ℕ} (cl : BitVec w) : Expr :=
  if w = 1 then andPartial r cl
  else if cl.toNat = 1 then r
  else if cl = 0 then .constant w cl
  else .binary .mul (.constant w cl) r

def mulCreate : Expr → Expr → Expr :=
  bcreateR .mul mulPartialR fun l r => if l.getWidth = 1 then .binary .and l r else .binary .mul l r

/-! ## Add, Sub -/

mutual

/-- `AddExpr_createPartialR`; the kid on the right goes to `AddExpr::create` or `SubExpr::create`. -/
def addPartialR : Expr → {w : ℕ} → BitVec w → Expr
  | r, w, cl =>
    if w = 1 then xorPartialR constArrayOpt r cl
    else if cl = 0 then r
    else
      match r with
      | .binary .add (.constant _ b) c =>
        -- A + (B+c) is (A+B) + c
        match c.constant? with
        | some c => fold .add (cl + b.setWidth w) c.2
        | none => addPartialR c (cl + b.setWidth w)
      | .binary .sub (.constant _ b) c =>
        match c.constant? with
        | some c => fold .sub (cl + b.setWidth w) c.2
        | none => subPartialR c (cl + b.setWidth w)
      | _ => .binary .add (.constant w cl) r

def subPartialR : Expr → {w : ℕ} → BitVec w → Expr
  | r, w, cl =>
    if w = 1 then xorPartialR constArrayOpt r cl
    else
      match r with
      | .binary .add (.constant _ b) c =>
        match c.constant? with
        | some c => fold .sub (cl - b.setWidth w) c.2
        | none => subPartialR c (cl - b.setWidth w)
      | .binary .sub (.constant _ b) c =>
        match c.constant? with
        | some c => fold .add (cl - b.setWidth w) c.2
        | none => addPartialR c (cl - b.setWidth w)
      | _ => .binary .sub (.constant w cl) r

end

def addConstant {w : ℕ} (cl : BitVec w) (r : Expr) : Expr :=
  match r.constant? with
  | some b => fold .add cl b.2
  | none => addPartialR constArrayOpt r cl

def subConstant {w : ℕ} (cl : BitVec w) (r : Expr) : Expr :=
  match r.constant? with
  | some b => fold .sub cl b.2
  | none => subPartialR constArrayOpt r cl

/-- `SubExpr_createPartial`: the negated constant is added. -/
def subPartial (l : Expr) {w : ℕ} (cr : BitVec w) : Expr := addPartialR constArrayOpt l (0 - cr)

def subConstantRight (l : Expr) {w : ℕ} (cr : BitVec w) : Expr :=
  match l.constant? with
  | some a => fold .sub a.2 cr
  | none => subPartial constArrayOpt l cr

mutual

def addCreate (l r : Expr) : Expr :=
  match l.constant?, r.constant? with
  | some a, some b => fold .add a.2 b.2
  | some a, none => addPartialR constArrayOpt r a.2
  | none, some b => addPartialR constArrayOpt l b.2
  | none, none =>
    if l.getWidth = 1 then .binary .xor l r
    else
      match l, r with
      | .binary .add (.constant _ k) a, r => addConstant constArrayOpt k (addCreate a r)
      | .binary .sub (.constant _ k) a, r => addConstant constArrayOpt k (subCreate r a)
      | l, .binary .add (.constant _ k) b => addConstant constArrayOpt k (addCreate l b)
      | l, .binary .sub (.constant _ k) b => addConstant constArrayOpt k (subCreate l b)
      | l, r => .binary .add l r
termination_by l.size + r.size
decreasing_by all_goals simp only [Term.size]; omega

def subCreate (l r : Expr) : Expr :=
  match l.constant?, r.constant? with
  | some a, some b => fold .sub a.2 b.2
  | some a, none => subPartialR constArrayOpt r a.2
  | none, some b => subPartial constArrayOpt l b.2
  | none, none =>
    if l.getWidth = 1 then .binary .xor l r
    else if l = r then .constant l.getWidth 0
    else
      match l, r with
      | .binary .add (.constant _ k) a, r => addConstant constArrayOpt k (subCreate a r)
      | .binary .sub (.constant _ k) a, r => subConstant constArrayOpt k (addCreate a r)
      | l, .binary .add (.constant _ k) b => subConstantRight constArrayOpt (subCreate l b) k
      | l, .binary .sub (.constant _ k) b => subConstantRight constArrayOpt (addCreate l b) k
      | l, r => .binary .sub l r
termination_by l.size + r.size
decreasing_by all_goals simp only [Term.size]; omega

end

/-! ## Division, shifts and comparisons -/

def uDivCreate : Expr → Expr → Expr := bcreate .uDiv fun l r => if l.getWidth = 1 then l else .binary .uDiv l r

def sDivCreate : Expr → Expr → Expr := bcreate .sDiv fun l r => if l.getWidth = 1 then l else .binary .sDiv l r

def uRemCreate : Expr → Expr → Expr :=
  bcreate .uRem fun l r => if l.getWidth = 1 then falseConstant else .binary .uRem l r

def sRemCreate : Expr → Expr → Expr :=
  bcreate .sRem fun l r => if l.getWidth = 1 then falseConstant else .binary .sRem l r

def shlCreate : Expr → Expr → Expr :=
  bcreate .shl fun l r => if l.getWidth = 1 then andCreate l (createIsZero constArrayOpt r) else .binary .shl l r

def lShrCreate : Expr → Expr → Expr :=
  bcreate .lShr fun l r => if l.getWidth = 1 then andCreate l (createIsZero constArrayOpt r) else .binary .lShr l r

def aShrCreate : Expr → Expr → Expr := bcreate .aShr fun l r => if l.getWidth = 1 then l else .binary .aShr l r

def ultCreate : Expr → Expr → Expr :=
  bcreate .ult fun l r => if l.getWidth = 1 then andCreate (createIsZero constArrayOpt l) r else .binary .ult l r

def uleCreate : Expr → Expr → Expr :=
  bcreate .ule fun l r => if l.getWidth = 1 then orCreate (createIsZero constArrayOpt l) r else .binary .ule l r

def sltCreate : Expr → Expr → Expr :=
  bcreate .slt fun l r => if l.getWidth = 1 then andCreate l (createIsZero constArrayOpt r) else .binary .slt l r

def sleCreate : Expr → Expr → Expr :=
  bcreate .sle fun l r => if l.getWidth = 1 then orCreate l (createIsZero constArrayOpt r) else .binary .sle l r

def binaryCreate (k : BinaryKind) (l r : Expr) : Expr :=
  match k with
  | .add => addCreate constArrayOpt l r
  | .sub => subCreate constArrayOpt l r
  | .mul => mulCreate l r
  | .uDiv => uDivCreate l r
  | .sDiv => sDivCreate l r
  | .uRem => uRemCreate l r
  | .sRem => sRemCreate l r
  | .and => andCreate l r
  | .or => orCreate l r
  | .xor => xorCreate constArrayOpt l r
  | .shl => shlCreate constArrayOpt l r
  | .lShr => lShrCreate constArrayOpt l r
  | .aShr => aShrCreate l r
  | .eq => eqCreate constArrayOpt l r
  | .ne => neCreate constArrayOpt l r
  | .ult => ultCreate constArrayOpt l r
  | .ule => uleCreate constArrayOpt l r
  | .ugt => ultCreate constArrayOpt r l
  | .uge => uleCreate constArrayOpt r l
  | .slt => sltCreate constArrayOpt l r
  | .sle => sleCreate constArrayOpt l r
  | .sgt => sltCreate constArrayOpt r l
  | .sge => sleCreate constArrayOpt r l

/-! ## Extract, Concat -/

def extractedSize : Expr → ℕ
  | .extract e _ _ => e.size
  | _ => 0

lemma extractedSize_le (e : Expr) : extractedSize e ≤ e.size := by
  cases e <;> simp [extractedSize]

/-- `ConcatExpr::create`, or the arguments of its call of `ExtractExpr::create` for adjacent extracts. -/
def concatStep : Expr ⊕ Expr × ℕ × ℕ :=
  match l, r with
  | .constant wl a, .constant wr b => .inl (.constant (wl + wr) (a ++ b))
  | .extract el ol wl, .extract er or wr =>
    if el = er ∧ or + wr = ol then .inr (el, or, wl + wr) else .inl (.concat (.extract el ol wl) (.extract er or wr))
  | l, r => .inl (.concat l r)

lemma concatStep_inl {l r e : Expr} (h : concatStep l r = .inl e) : extractedSize e = 0 := by
  unfold concatStep at h
  split at h
  · cases h
    rfl
  · split_ifs at h
    cases h
    rfl
  · cases h
    rfl

lemma concatStep_inr {l r e : Expr} {off w : ℕ} (h : concatStep l r = .inr (e, off, w)) : e.size = extractedSize l := by
  unfold concatStep at h
  split at h
  · cases h
  · split_ifs at h
    cases h
    rfl
  · cases h

/-- `ExtractExpr::create`; the bound makes the call from `ConcatExpr::create` a smaller one. -/
def extractBounded (e : Expr) (off w : ℕ) : {e' : Expr // extractedSize e' ≤ e.size} :=
  if w = e.getWidth then ⟨e, extractedSize_le e⟩
  else
    match e with
    | .constant _ value => ⟨.constant w ((value.sshiftRight off).setWidth w), Nat.zero_le _⟩
    | .concat left right =>
      if right.getWidth ≤ off then
        -- the right side is skipped
        ⟨(extractBounded left (off - right.getWidth) w).1,
          (extractBounded left (off - right.getWidth) w).2.trans (by simp only [Term.size]; omega)⟩
      else if off + w ≤ right.getWidth then
        ⟨(extractBounded right off w).1, (extractBounded right off w).2.trans (by simp only [Term.size]; omega)⟩
      else
        let l := extractBounded left 0 (w + off - right.getWidth)
        let r := extractBounded right off (right.getWidth - off)
        match h : concatStep l.1 r.1 with
        | .inl e' => ⟨e', (concatStep_inl h).le.trans (Nat.zero_le _)⟩
        | .inr (e', off', w') =>
          have hsize : e'.size ≤ left.size := (concatStep_inr h).le.trans l.2
          ⟨(extractBounded e' off' w').1, (extractBounded e' off' w').2.trans (by simp only [Term.size]; omega)⟩
    | e => ⟨.extract e off w, le_rfl⟩
termination_by e.size
decreasing_by all_goals simp only [Term.size]; omega

def extractCreate (e : Expr) (off w : ℕ) : Expr := (extractBounded e off w).1

def concatCreate : Expr :=
  match concatStep l r with
  | .inl e => e
  | .inr (e, off, w) => extractCreate e off w

/-! ## Not, casts, Select -/

def notCreate (e : Expr) : Expr :=
  match e.constant? with
  | some c => .constant c.1 (~~~c.2)
  | none => .not e

def zextCreate (e : Expr) (w : ℕ) : Expr :=
  if w = e.getWidth then e
  else if w < e.getWidth then extractCreate e 0 w
  else
    match e.constant? with
    | some c => .constant w (c.2.setWidth w)
    | none => .zext e w

def sextCreate (e : Expr) (w : ℕ) : Expr :=
  if w = e.getWidth then e
  else if w < e.getWidth then extractCreate e 0 w
  else
    match e.constant? with
    | some c => .constant w (c.2.signExtend w)
    | none => .sext e w

def selectCreate (c t f : Expr) : Expr :=
  if c.constant?.isSome then if isTrue c then t else f
  else if t = f then t
  else if t.getWidth = 1 then
    if t.constant?.isSome then
      if isTrue t then orCreate c f else andCreate (createIsZero constArrayOpt c) f
    else if f.constant?.isSome then
      if isTrue f then orCreate (createIsZero constArrayOpt c) t else andCreate c t
    else .select c t f
  else .select c t f

/-! ## Read -/

/-- The value of the first update at the index, or the updates from one on that may be there. -/
def findUpdate (index : Expr) : UpdateNodes Unit → Expr ⊕ UpdateNodes Unit
  | .nil => .inr .nil
  | .node id i value next =>
    if (eqCreate constArrayOpt index i).constant?.isSome then
      if isTrue (eqCreate constArrayOpt index i) then .inl value else findUpdate index next
    else .inr (.node id i value next)

def readCreate (root : Array) (head : UpdateNodes Unit) (index : Expr) : Expr :=
  match findUpdate constArrayOpt index head with
  | .inl value => value
  | .inr rest =>
    match index.constant? with
    | some c =>
      if c.2.toNat < root.size then
        if root.isConstantArray ∧ rest = .nil then .constant root.range (root.constantValues.getD c.2.toNat 0)
        else .read root rest index
      else .read root head index
    | none => .read root head index

end Expr

end Klee
