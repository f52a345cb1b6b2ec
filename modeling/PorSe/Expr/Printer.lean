import PorSe.Expr.Create
import PorSe.Expr.Scan

/-! Printing an expression: what the scan found more than once is printed in full only the
first time. -/

namespace Klee
variable {N : Type} [DecidableEq N]

structure Printer (N : Type) where
  text : String
  pos : ℕ
  bindings : List (Expr × ℕ)
  updateBindings : List (UpdateNodes N × ℕ)

namespace Printer

def initial : Printer N := ⟨"", 0, [], []⟩

variable (p : Printer N)

def write (s : String) : Printer N := { p with text := p.text ++ s, pos := p.pos + s.length }

def breakLine (indent : ℕ) : Printer N :=
  { p with
    text := p.text ++ "\n" ++ if indent = 0 then "" else String.ofList (List.replicate (indent + 1) ' ')
    pos := indent }

def printSeparator (simple : Bool) (indent : ℕ) : Printer N :=
  if simple then p.write " " else p.breakLine indent

def isVerySimple (e : Term N) : Bool :=
  e.constant?.isSome || p.bindings.any fun b => decide (b.1 = e.erase)

def isVerySimpleUpdate : UpdateNodes N → Bool
  | .nil => true
  | un => p.updateBindings.any fun b => decide (b.1 = un)

def isSimple (e : Term N) : Bool :=
  p.isVerySimple e ||
    match e with
    | .constant _ _ => true
    | .notOptimized src => p.isVerySimple src
    | .read _ head index => p.isVerySimple index && p.isVerySimpleUpdate head
    | .select cond trueExpr falseExpr => p.isVerySimple cond && p.isVerySimple trueExpr && p.isVerySimple falseExpr
    | .concat left right => p.isVerySimple left && p.isVerySimple right
    | .extract expr _ _ => p.isVerySimple expr
    | .zext src _ => p.isVerySimple src
    | .sext src _ => p.isVerySimple src
    | .not expr => p.isVerySimple expr
    | .binary _ left right => p.isVerySimple left && p.isVerySimple right

def printConst {w : ℕ} (value : BitVec w) (printWidth : Bool) : Printer N :=
  if w = 1 then p.write (if value.toNat = 0 then "false" else "true")
  else if printWidth then p.write ("(w" ++ toString w ++ " " ++ toString value.toNat ++ ")")
  else p.write (toString value.toNat)

def printKind (kind : String) (width : ℕ) : Printer N :=
  p.write ("(" ++ kind ++ (if width = 1 then "" else " w" ++ toString width) ++ " ")

/-- A printed expression is printed as its name; one that occurs again gets a name. -/
def named (s : Scan N) (e : Expr) (body : Printer N → Printer N) : Printer N :=
  match p.bindings.find? fun b => decide (b.1 = e) with
  | some b => p.write ("N" ++ toString b.2)
  | none =>
    if e ∈ s.shouldPrint then
      body { p.write ("N" ++ toString p.bindings.length ++ ":") with
        bindings := (e, p.bindings.length) :: p.bindings }
    else body p

end Printer

def BinaryKind.kindName : BinaryKind → String
  | add => "Add" | sub => "Sub" | mul => "Mul" | uDiv => "UDiv" | sDiv => "SDiv" | uRem => "URem" | sRem => "SRem"
  | and => "And" | or => "Or" | xor => "Xor" | shl => "Shl" | lShr => "LShr" | aShr => "AShr"
  | eq => "Eq" | ne => "Ne" | ult => "Ult" | ule => "Ule" | ugt => "Ugt" | uge => "Uge"
  | slt => "Slt" | sle => "Sle" | sgt => "Sgt" | sge => "Sge"

namespace Expr
variable (constArrayOpt : Bool)

def isReadExprAtOffset (e base offset : Expr) : Bool :=
  match e with
  | .read root _ index => decide (root.range = 8) && decide (subCreate constArrayOpt index base = offset)
  | _ => false

def orderedReadsFrom (base stride : Expr) : Expr → Expr → Bool
  | .concat left right, offset =>
    isReadExprAtOffset constArrayOpt left base (addCreate constArrayOpt offset stride) &&
      orderedReadsFrom base stride right (addCreate constArrayOpt offset stride)
  | e, offset => isReadExprAtOffset constArrayOpt e base (addCreate constArrayOpt offset stride)

def hasOrderedReads (left right : Expr) (stride : ℤ) : Bool :=
  match left with
  | .read root _ index =>
    decide (root.range = 8) &&
      orderedReadsFrom constArrayOpt index (.constant index.getWidth (BitVec.ofInt _ stride)) right
        (.constant index.getWidth 0)
  | _ => false

end Expr

structure UpdateLoop where
  outerIndent : ℕ
  middleIndent : ℕ
  openedList : Bool
  nextShouldBreak : Bool
  prevUpdate : List Expr

variable (constArrayOpt : Bool)

mutual

def Term.print (s : Scan N) : Term N → Bool → Printer N → Printer N
  | .constant _ value, printConstWidth, p => p.printConst value printConstWidth
  | .notOptimized src, _, p =>
    p.named s (Term.notOptimized src).erase fun p =>
      (src.print s false (p.printKind "NotOptimized" src.getWidth)).write ")"
  | .read root head index, _, p =>
    p.named s (Term.read root head index).erase fun p =>
      let p := p.printKind "Read" root.range
      let indent := p.pos
      let p := index.print s false p
      let p := p.printSeparator (p.isVerySimple index) indent
      (head.print s root ⟨p.pos, 0, false, false, []⟩ p).write ")"
  | .select cond trueExpr falseExpr, _, p =>
    p.named s (Term.select cond trueExpr falseExpr).erase fun p =>
      let simple := p.isSimple cond && p.isSimple trueExpr && p.isSimple falseExpr
      let p := p.printKind "Select" trueExpr.getWidth
      let indent := p.pos
      let p := (cond.print s false p).printSeparator simple indent
      let p := (trueExpr.print s false p).printSeparator simple indent
      (falseExpr.print s false p).write ")"
  | .concat left right, _, p =>
    p.named s (Term.concat left right).erase fun p =>
      -- reads of consecutive bytes are printed as one read
      if Expr.hasOrderedReads constArrayOpt left.erase right.erase (-1) then
        (right.printLastRead s (p.printKind "ReadLSB" (left.getWidth + right.getWidth))).write ")"
      else if Expr.hasOrderedReads constArrayOpt left.erase right.erase 1 then
        (left.printLastRead s (p.printKind "ReadMSB" (left.getWidth + right.getWidth))).write ")"
      else
        let simple := p.isSimple left && p.isSimple right
        let p := p.printKind "Concat" (left.getWidth + right.getWidth)
        let indent := p.pos
        let p := (left.print s false p).printSeparator simple indent
        (right.print s true p).write ")"
  | .extract expr offset width, _, p =>
    p.named s (Term.extract expr offset width).erase fun p =>
      let p := (p.printKind "Extract" width).write (toString offset ++ " ")
      (expr.print s false p).write ")"
  | .zext src width, _, p =>
    p.named s (Term.zext src width).erase fun p => (src.print s false (p.printKind "ZExt" width)).write ")"
  | .sext src width, _, p =>
    p.named s (Term.sext src width).erase fun p => (src.print s false (p.printKind "SExt" width)).write ")"
  | .not expr, _, p =>
    p.named s (Term.not expr).erase fun p => (expr.print s false (p.printKind "Not" expr.getWidth)).write ")"
  | .binary kind left right, _, p =>
    p.named s (Term.binary kind left right).erase fun p =>
      let simple := p.isSimple left && p.isSimple right
      let p := p.printKind kind.kindName (kind.width left.getWidth)
      let indent := p.pos
      let p := (left.print s false p).printSeparator simple indent
      (right.print s false p).write ")"

def Term.printLastRead (s : Scan N) : Term N → Printer N → Printer N
  | .concat _ right, p => right.printLastRead s p
  | .read root head index, p =>
    let indent := p.pos
    let p := index.print s false p
    let p := p.printSeparator (p.isVerySimple index) indent
    head.print s root ⟨p.pos, 0, false, false, []⟩ p
  | _, p => p

/-- `printUpdateList` from a node on; only the most recent update at an index is printed. -/
def UpdateNodes.print (s : Scan N) : UpdateNodes N → Array → UpdateLoop → Printer N → Printer N
  | .nil, root, loop, p =>
    let p := if loop.openedList then p.write "]" else p
    if loop.prevUpdate.isEmpty then p.write root.name else p.write (" @ " ++ root.name)
  | .node id index value next, root, loop, p =>
    let nextShouldBreak := !(index.constant?.isSome && value.constant?.isSome)
    if index.erase ∈ loop.prevUpdate then next.print s root { loop with nextShouldBreak } p
    else
      match p.updateBindings.find? fun b => decide (b.1 = .node id index value next) with
      | some b => (if loop.openedList then p.write "] @ " else p).write ("U" ++ toString b.2)
      | none =>
        let named := decide (UpdateNodes.node id index value next ∈ s.shouldPrintUpdates)
        let p :=
          if named then
            let p := if loop.openedList then p.write "] @" else p
            let p := if loop.prevUpdate.isEmpty then p else p.breakLine loop.outerIndent
            { p.write ("U" ++ toString p.updateBindings.length ++ ":") with
              updateBindings := (.node id index value next, p.updateBindings.length) :: p.updateBindings }
          else p
        let opened := loop.openedList && !named
        let p :=
          if opened then (p.write ",").printSeparator (!loop.nextShouldBreak) loop.middleIndent else p.write "["
        let middleIndent := if opened then loop.middleIndent else p.pos
        let p := value.print s false ((index.print s false p).write "=")
        next.print s root ⟨loop.outerIndent, middleIndent, true, nextShouldBreak, loop.prevUpdate ++ [index.erase]⟩ p

end

def Term.printSingleExpr (e : Term N) : String := (e.print constArrayOpt e.scan false .initial).text

end Klee
