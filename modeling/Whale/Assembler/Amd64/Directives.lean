import Whale.Assembler.Amd64.Emit

set_option autoImplicit false

/-! # Directives

Data, reservations and alignment. The size of a directive is known before its bytes are put into
the section. -/

namespace Whale.Assembler.Amd64

/-- The name of a data directive and the bytes of one value. -/
def dataWidths : List (String × Nat) := [("db", 1), ("dw", 2), ("dd", 4), ("dq", 8)]

/-- The name of a reservation and the bytes of one unit. -/
def reservationUnits : List (String × Nat) := [("resb", 1), ("resw", 2), ("resd", 4), ("resq", 8)]

/-- A number of a data directive whose values have that many bytes. -/
def dataInRange (width : Nat) (n : Int) : Prop := -2 ^ (8 * width - 1) ≤ n ∧ n < 2 ^ (8 * width)

instance (width : Nat) (n : Int) : Decidable (dataInRange width n) :=
  inferInstanceAs (Decidable (_ ∧ _))

/-- The directive that has values of a width. -/
def dataName (width : Nat) : String := ((dataWidths.find? fun e => e.2 = width).map Prod.fst).getD ""

def encodeDataExpr (eval : EvaluatedExpr) (width : Nat) (c : Code) : Except AsmError Code :=
  match eval with
  | .number n => do
      require (dataInRange width n) (failure (dataName width ++ " value out of range"))
      return c.extend (leInt width n)
  | .symbol name addend =>
      match width with
      | 4 => return (c.relocate ⟨c.bytes.length, name, .absolute32, addend⟩).extend (leInt 4 0)
      | 8 => return (c.relocate ⟨c.bytes.length, name, .absolute64, addend⟩).extend (leInt 8 0)
      | _ => throw (failure "Only dd/dq support symbolic expressions")

def alignmentValue (dir : Directive) (consts : AssocMap String Int) : Except AsmError Nat :=
  match dir.values with
  | [.expr expr] => do
      match ← evalExpr expr consts with
      | .number n => do
          require (0 ≤ n ∧ n < 2 ^ 64 ∧ isPowerOfTwo n.toNat = true)
            (failure "align requires a positive power of two")
          return n.toNat
      | .symbol .. => throw (failure "align requires a resolved constant")
  | [.stringLiteral _] => throw (failure "align requires numeric expression")
  | _ => throw (failure "align expects one power-of-two operand")

def reservationSize (unit : Nat) (values : List DirectiveValue) (consts : AssocMap String Int) :
    Except AsmError Nat :=
  match values with
  | [.expr expr] => do
      match ← evalExpr expr consts with
      | .number count => do
          require (¬ count < 0) (failure "res* count must be non-negative")
          require (count < 2 ^ 64) (failure "res* size overflow")
          orThrow (checkedMul count.toNat unit) (failure "res* size overflow")
      | .symbol name _ =>
          throw (failure ("res* count must be constant; unresolved symbol '" ++ name ++ "'"))
  | [.stringLiteral _] => throw (failure "res* count must be numeric expression")
  | _ => throw (failure "res* expects exactly one count operand")

def reserveBytes (unit : Nat) (values : List DirectiveValue) (consts : AssocMap String Int)
    (c : Code) : Except AsmError Code := do
  let extra ← reservationSize unit values consts
  let _ ← orThrow (checkedAdd c.bytes.length extra) (failure "res* size overflow")
  return c.extend (List.replicate extra 0)

/-- The bytes of one value of a data directive. -/
def valueSize (dir : Directive) (width : Nat) (value : DirectiveValue) : Except AsmError Nat :=
  match value with
  | .stringLiteral s => do
      require (width = 1) (failure (dir.name ++ " only supports numeric expressions"))
      return s.length
  | .expr _ => return width

def directiveSize (dir : Directive) (consts : AssocMap String Int) : Except AsmError Nat :=
  match codeOf reservationUnits dir.name with
  | some unit => reservationSize unit dir.values consts
  | none => do
      let width ← orThrow (codeOf dataWidths dir.name) (failure ("Unknown directive " ++ dir.name))
      dir.values.foldlM (fun size value => do
        let extra ← valueSize dir width value
        orThrow (checkedAdd size extra) (failure "Directive output size overflow")) 0

/-- The bytes of a value are all zero. -/
def valueIsZero (consts : AssocMap String Int) (value : DirectiveValue) : Except AsmError Bool :=
  match value with
  | .stringLiteral s => return s.all (· == 0)
  | .expr expr => do
      let eval ← evalExpr expr consts
      return decide (eval = .number 0)

/-- What a directive adds to the zeros of a section without bytes. -/
def bssSize (dir : Directive) (consts : AssocMap String Int) : Except AsmError Nat :=
  match codeOf reservationUnits dir.name with
  | some unit => reservationSize unit dir.values consts
  | none => do
      let size ← directiveSize dir consts
      dir.values.forM fun value => do
        let zero ← valueIsZero consts value
        require (zero = true) (failure "BSS has a nonzero initializer or relocation")
      return size

def encodeBssDirective (dir : Directive) (section' : AsmSection) (consts : AssocMap String Int) :
    Except AsmError AsmSection := do
  let extra ← bssSize dir consts
  let zeroFill ← orThrow (checkedAdd section'.zeroFill extra) (failure "BSS size overflow")
  return { section' with zeroFill := zeroFill }

def encodeValue (dir : Directive) (width : Nat) (consts : AssocMap String Int) (c : Code)
    (value : DirectiveValue) : Except AsmError Code :=
  match value with
  | .stringLiteral s => do
      require (width = 1) (failure (dir.name ++ " only supports numeric expressions"))
      return c.extend s
  | .expr expr => do
      let eval ← evalExpr expr consts
      encodeDataExpr eval width c

def encodeDirective (dir : Directive) (c : Code) (consts : AssocMap String Int) :
    Except AsmError Code :=
  match codeOf reservationUnits dir.name with
  | some unit => reserveBytes unit dir.values consts c
  | none => do
      let width ← orThrow (codeOf dataWidths dir.name) (failure ("Unknown directive " ++ dir.name))
      dir.values.foldlM (encodeValue dir width consts) c

end Whale.Assembler.Amd64
