import Whale.Assembler.Amd64.Encoder

set_option autoImplicit false

/-! # Where the error for an unsettled layout comes from

No part of a pass fails with the error that the loop over the passes has for a layout that does
not settle. -/

namespace Whale.Assembler.Amd64

/-- The error for a layout that does not settle, wherever it is put. -/
def Unsettled : AsmError → Prop
  | .encodeError (.notConverged _) => True
  | .diagnostic _ _ _ e => Unsettled e
  | _ => False

/-- The computation does not fail with that error. -/
def Settles {α : Type} (x : Except AsmError α) : Prop := ∀ e, x = .error e → ¬ Unsettled e

/-! ## Errors -/

@[simp] theorem unsettled_failure (text : String) : ¬ Unsettled (failure text) := id

@[simp] theorem unsettled_symbolFailure (text : String) : ¬ Unsettled (symbolFailure text) := id

@[simp] theorem unsettled_plainSymbol (text : String) : ¬ Unsettled (plainSymbol text) := id

@[simp] theorem unsettled_expects (mnemonic operands : String) :
    ¬ Unsettled (expects mnemonic operands) := id

@[simp] theorem unsettled_errorAt (ast : Ast) (e : AsmError) (item : Nat) (previous : Option Nat) :
    Unsettled (ast.errorAt e item previous) ↔ Unsettled e := by
  unfold Ast.errorAt
  split
  · rfl
  · unfold AsmError.at'
    split
    · rfl
    · rfl

/-! ## Computations -/

section

variable {α β : Type}

@[simp] theorem settles_ok (a : α) : Settles (.ok a : Except AsmError α) := nofun

@[simp] theorem settles_throw (e : AsmError) :
    Settles (throw e : Except AsmError α) ↔ ¬ Unsettled e := by
  constructor
  · exact fun h => h e rfl
  · rintro h _ ⟨⟩
    exact h

@[simp] theorem settles_require (c : Prop) [Decidable c] (e : AsmError) :
    Settles (require c e : Except AsmError Unit) ↔ (¬ c → ¬ Unsettled e) := by
  by_cases hc : c
  · rw [require_of hc]
    exact ⟨fun _ h => absurd hc h, fun _ => settles_ok ()⟩
  · rw [require_of_not hc]
    exact ⟨fun h _ => h e rfl, fun h => (settles_throw e).mpr (h hc)⟩

@[simp] theorem settles_ite (c : Prop) [Decidable c] (x y : Except AsmError α) :
    Settles (if c then x else y) ↔ (c → Settles x) ∧ (¬ c → Settles y) := by
  split <;> simp [*]

@[simp] theorem settles_orThrow (o : Option α) (e : AsmError) :
    Settles (orThrow o e : Except AsmError α) ↔ (o = none → ¬ Unsettled e) := by
  cases o with
  | some a => simp
  | none => exact (settles_throw e).trans ⟨fun h _ => h, fun h => h rfl⟩

@[simp] theorem settles_bind (x : Except AsmError α) (f : α → Except AsmError β) :
    Settles (x >>= f) ↔ Settles x ∧ ∀ a, x = .ok a → Settles (f a) := by
  cases x with
  | ok a => simp
  | error e =>
      constructor
      · exact fun h => ⟨fun e' he' => h e' (by rw [he']; rfl), nofun⟩
      · rintro h _ ⟨⟩
        exact h.1 e rfl

@[simp] theorem settles_mapError (x : Except AsmError α) (ast : Ast) (item : Nat)
    (previous : Option Nat) :
    Settles (x.mapError fun e => ast.errorAt e item previous) ↔ Settles x := by
  cases x with
  | ok a => exact ⟨fun _ => settles_ok a, fun _ => settles_ok a⟩
  | error e =>
      constructor
      · rintro h _ ⟨⟩
        exact fun he => h _ rfl ((unsettled_errorAt ast e item previous).mpr he)
      · rintro h _ ⟨⟩
        exact fun he => h e rfl ((unsettled_errorAt ast e item previous).mp he)

theorem settles_foldlM {f : β → α → Except AsmError β} (h : ∀ b a, Settles (f b a))
    (as : List α) (b : β) : Settles (as.foldlM f b) := by
  induction as generalizing b with
  | nil => exact settles_ok b
  | cons a as ih =>
      rw [List.foldlM_cons, settles_bind]
      exact ⟨h b a, fun b' _ => ih b'⟩

theorem settles_forM {f : α → Except AsmError Unit} (h : ∀ a, Settles (f a)) (as : List α) :
    Settles (as.forM f) := by
  induction as with
  | nil => exact settles_ok ()
  | cons a as ih =>
      rw [List.forM_eq_forM, List.forM_cons, settles_bind]
      exact ⟨h a, fun _ _ => ih⟩

theorem settles_mapM {f : α → Except AsmError β} (h : ∀ a, Settles (f a)) (as : List α) :
    Settles (as.mapM f) := by
  induction as with
  | nil => exact settles_ok []
  | cons a as ih =>
      rw [List.mapM_cons]
      simp [h a, ih]

end

/-! ## Names and constants -/

variable (ast : Ast) (ins : Instruction) (dir : Directive) (mem : MemoryOperand) (c : Code)
  (consts : AssocMap String Int) (scope : Option String) (width : Nat) (p : PassInput)
  (s : PassState) (name : String) (index : Nat)

@[simp] theorem settles_resolveSymbolName (raw : String) :
    Settles (resolveSymbolName raw scope) := by
  unfold resolveSymbolName
  split
  · split <;> simp
  · simp

@[simp] theorem settles_resolveExprSymbols (expr : ExprValue) :
    Settles (resolveExprSymbols expr scope) := by
  cases expr <;> simp [resolveExprSymbols]

@[simp] theorem settles_checkedExpressionAdd (a b : Int) (symbol : String) :
    Settles (checkedExpressionAdd a b symbol) := by
  unfold checkedExpressionAdd
  rw [settles_orThrow]
  exact fun _ => id

@[simp] theorem settles_evalExpr (expr : ExprValue) : Settles (evalExpr expr consts) := by
  unfold evalExpr
  split
  · simp
  · split <;> simp [Unsettled]

@[simp] theorem settles_addNode (d : Definitions) (e : AstNode × Nat) :
    Settles (d.addNode ast e) := by
  unfold Definitions.addNode
  split <;> simp

@[simp] theorem settles_schedule (d : Definitions) (w : Definitions.Worklist)
    (e : (String × ExprValue) × Nat) : Settles (d.schedule ast w e) := by
  unfold Definitions.schedule
  split <;> simp

@[simp] theorem settles_evaluate (d : Definitions) (position : Nat) (values : AssocMap String Int) :
    Settles (d.evaluate ast position values) := by
  unfold Definitions.evaluate
  split
  · simp
  · simp only [settles_bind]
    refine ⟨by simp, fun result _ => ?_⟩
    cases result <;> simp

@[simp] theorem settles_drain (d : Definitions) (dependents : List (List Nat)) (fuel : Nat)
    (ready : List Nat) (values : AssocMap String Int) :
    Settles (d.drain ast dependents fuel ready values) := by
  induction fuel generalizing ready values with
  | zero => simp [Definitions.drain]
  | succ fuel ih => cases ready <;> simp [Definitions.drain, ih]

@[simp] theorem settles_resolveConstants : Settles (resolveConstants ast) := by
  unfold resolveConstants
  simp only [settles_bind]
  refine ⟨settles_foldlM (by simp) _ _, fun d _ => ⟨settles_foldlM (by simp) _ _, fun w _ =>
    ⟨by simp, fun result _ => ?_⟩⟩⟩
  split <;> simp

/-! ## Parts of instructions -/

@[simp] theorem settles_resolveOperandSymbols (op : Operand) :
    Settles (resolveOperandSymbols scope op) := by
  unfold resolveOperandSymbols
  split <;> try simp
  split <;> simp

@[simp] theorem settles_resolveOperandConsts (op : Operand) :
    Settles (resolveOperandConsts consts op) := by
  unfold resolveOperandConsts
  split
  · split <;> simp
  · split <;> simp
  · split <;> simp
  · simp

@[simp] theorem settles_resolveInstructionSymbols :
    Settles (resolveInstructionSymbols ins scope) := by
  unfold resolveInstructionSymbols
  simp [settles_mapM]

@[simp] theorem settles_resolveInstructionConsts :
    Settles (resolveInstructionConsts ins consts) := by
  unfold resolveInstructionConsts
  simp [settles_mapM]

@[simp] theorem settles_resolveDirectiveSymbols : Settles (resolveDirectiveSymbols dir scope) := by
  have hvalue : ∀ value, Settles (resolveDirectiveValue scope value) := by
    intro value
    cases value <;> simp [resolveDirectiveValue]
  unfold resolveDirectiveSymbols
  simp [settles_mapM hvalue]

@[simp] theorem settles_registerOperand (op : Operand) : Settles (registerOperand op) := by
  cases op <;> simp [registerOperand]

@[simp] theorem settles_xmmOperand (op : Operand) : Settles (xmmOperand op) := by
  cases op <;> simp [xmmOperand]

@[simp] theorem settles_emitRex (rexR rexX rexB anyHigh8 force : Bool) :
    Settles (emitRex c width rexR rexX rexB anyHigh8 force) := by
  simp [emitRex]

@[simp] theorem settles_emitRegReg (opcode : UInt8) (dst src : RegInfo) :
    Settles (emitRegReg c opcode dst src) := by
  simp [emitRegReg]

@[simp] theorem settles_validateMemoryWidth : Settles (validateMemoryWidth mem width) := by
  simp [validateMemoryWidth]

@[simp] theorem settles_codeOfPart (part : Option String) (mode : Nat) (msg : String) :
    Settles (codeOfPart part mode msg) := by
  cases part <;> simp [codeOfPart]

@[simp] theorem settles_encodeAddress (mode : Nat) : Settles (encodeAddress mem mode) := by
  unfold encodeAddress
  simp only [settles_bind]
  refine ⟨by simp, fun _ _ => ?_⟩
  split
  · simp
  · simp only [settles_bind]
    refine ⟨by simp, fun base _ => ⟨by simp, fun index _ => ⟨by simp, fun _ _ => ⟨by simp,
      fun scale _ => ⟨by simp, fun _ _ => ⟨by simp, fun disp _ => ?_⟩⟩⟩⟩⟩⟩
    split <;> simp

@[simp] theorem settles_memoryAddress : Settles (memoryAddress mem) := by
  simp [memoryAddress]

@[simp] theorem settles_memoryAddend (trailing : Nat) : Settles (memoryAddend mem trailing) := by
  unfold memoryAddend
  split <;> simp [relativeAddend]

@[simp] theorem settles_relocateMemory (addr : EncodedAddress) (trailing : Nat) :
    Settles (relocateMemory c addr mem trailing) := by
  unfold relocateMemory
  split <;> simp

@[simp] theorem settles_emitMemoryOperation (opcodes : List UInt8) (reg : RegInfo)
    (rexWidth trailing : Nat) :
    Settles (emitMemoryOperation c opcodes reg mem rexWidth trailing) := by
  simp [emitMemoryOperation]

@[simp] theorem settles_emitRegMem (opcode : UInt8) (reg : RegInfo) :
    Settles (emitRegMem c opcode reg mem) := by
  simp [emitRegMem]

@[simp] theorem settles_emitMemReg (opcode : UInt8) (reg : RegInfo) :
    Settles (emitMemReg c opcode mem reg) := by
  simp [emitMemReg]

@[simp] theorem settles_emitGroupOperand (operand : Operand) (width rexWidth : Nat)
    (opcodes : List UInt8) (extension : Nat) :
    Settles (emitGroupOperand c operand width rexWidth opcodes extension) := by
  unfold emitGroupOperand
  split <;> simp

/-! ## Instructions -/

@[simp] theorem settles_encodeScalarSse : Settles (encodeScalarSse ins c) := by
  unfold encodeScalarSse
  split
  · simp only
    split
    · simp
    · simp only [settles_bind]
      refine ⟨by simp, fun _ _ => ?_⟩
      split <;> simp
  · simp

@[simp] theorem settles_encodeMemoryImmediate (imm : Int) (operation : Option Nat) :
    Settles (encodeMemoryImmediate mem imm operation c) := by
  simp [encodeMemoryImmediate]

@[simp] theorem settles_moveImmediate (dst : String) (imm : Int) :
    Settles (moveImmediate dst imm c) := by
  unfold moveImmediate
  simp only [settles_bind]
  refine ⟨by simp, fun reg _ => ?_⟩
  split <;> simp

@[simp] theorem settles_moveSymbol (dst label : String) (addend : Int) :
    Settles (moveSymbol dst label addend c) := by
  unfold moveSymbol
  simp only [settles_bind]
  refine ⟨by simp, fun reg _ => ?_⟩
  split <;> simp

@[simp] theorem settles_registerPair (dst src : String) : Settles (registerPair dst src) := by
  simp [registerPair]

@[simp] theorem settles_encodeMov : Settles (encodeMov ins c) := by
  unfold encodeMov
  split <;> simp

@[simp] theorem settles_binopImmediate (dst : String) (imm : Int) (extension : Nat) :
    Settles (binopImmediate dst imm extension c) := by
  unfold binopImmediate
  simp only [settles_bind]
  refine ⟨by simp, fun reg _ => ⟨by simp, fun c _ => ?_⟩⟩
  split
  · simp
  · split
    · simp
    · split <;> simp

@[simp] theorem settles_encodeBinop (op : BinaryOpcodes) : Settles (encodeBinop ins op c) := by
  unfold encodeBinop
  split <;> simp

@[simp] theorem settles_encodeImulImmediate (dst src imm : Operand) :
    Settles (encodeImulImmediate dst src imm c) := by
  unfold encodeImulImmediate
  split <;> simp

@[simp] theorem settles_encodeImul : Settles (encodeImul ins c) := by
  unfold encodeImul
  split
  · simp
  · simp only [settles_bind]
    refine ⟨by simp, fun _ _ => ⟨by simp, fun _ _ => ?_⟩⟩
    split <;> simp
  · simp
  · simp

@[simp] theorem settles_encodeLea : Settles (encodeLea ins c) := by
  unfold encodeLea
  split
  · simp only [settles_bind]
    refine ⟨by simp, fun _ _ => ⟨by simp, fun _ _ => ?_⟩⟩
    split <;> simp
  · simp

@[simp] theorem settles_encodeRegisterPair (dst src : Operand) (byteOpcode wideOpcode : UInt8) :
    Settles (encodeRegisterPair dst src byteOpcode wideOpcode c) := by
  simp [encodeRegisterPair]

@[simp] theorem settles_encodeTest : Settles (encodeTest ins c) := by
  unfold encodeTest
  split <;> simp

@[simp] theorem settles_encodeCarry (byteOpcode wideOpcode : UInt8) :
    Settles (encodeCarry ins byteOpcode wideOpcode c) := by
  unfold encodeCarry
  split <;> simp

@[simp] theorem settles_encodeUnaryRegister (extension : Nat) :
    Settles (encodeUnaryRegister ins extension c) := by
  unfold encodeUnaryRegister
  split <;> simp

@[simp] theorem settles_shiftCount (count : Operand) : Settles (shiftCount width count) := by
  unfold shiftCount
  split <;> simp

@[simp] theorem settles_encodeShift (extension : Nat) : Settles (encodeShift ins extension c) := by
  unfold encodeShift
  split <;> simp

@[simp] theorem settles_encodeSetcc (condition : Nat) : Settles (encodeSetcc ins condition c) := by
  unfold encodeSetcc
  split <;> simp

@[simp] theorem settles_encodeCmovcc (condition : Nat) :
    Settles (encodeCmovcc ins condition c) := by
  unfold encodeCmovcc
  split <;> simp

@[simp] theorem settles_extensionSourceWidth (src : Operand) :
    Settles (extensionSourceWidth src) := by
  unfold extensionSourceWidth
  split <;> simp

@[simp] theorem settles_encodeExtension : Settles (encodeExtension ins c) := by
  unfold encodeExtension
  split
  · simp only [settles_bind]
    refine ⟨by simp, fun _ _ => ⟨by simp, fun _ _ => ⟨by simp, fun _ _ => ?_⟩⟩⟩
    split <;> simp
  · simp

@[simp] theorem settles_encodePushPop (baseOpcode : UInt8) :
    Settles (encodePushPop ins baseOpcode c) := by
  unfold encodePushPop
  split <;> simp

@[simp] theorem settles_encodePush : Settles (encodePush ins c) := by
  unfold encodePush
  split
  · unfold encodePushImmediate
    simp only [settles_bind]
    refine ⟨by simp, fun _ _ => ?_⟩
    split <;> simp
  · simp

@[simp] theorem settles_encodeIndirectBranch : Settles (encodeIndirectBranch ins c) := by
  unfold encodeIndirectBranch
  split <;> simp

@[simp] theorem settles_encodeJump (spec : JumpSpec) (relaxation : BranchRelaxation)
    (currentSection currentOffset : Nat) (labelLocs : LabelLocations) :
    Settles (encodeJump ins spec relaxation c currentSection currentOffset labelLocs) := by
  unfold encodeJump
  split
  · simp only [settles_bind]
    refine ⟨by simp, fun _ _ => ⟨by simp, fun _ _ => ?_⟩⟩
    split
    · split <;> simp
    · simp
  · simp

@[simp] theorem settles_encodeLoop : Settles (encodeLoop ins c) := by
  unfold encodeLoop
  split <;> simp

@[simp] theorem settles_encodeInstruction (currentSection currentOffset : Nat)
    (labelLocs : LabelLocations) (relaxation : BranchRelaxation) :
    Settles (encodeInstruction ins c currentSection currentOffset labelLocs relaxation) := by
  unfold encodeInstruction
  split <;> simp

/-! ## Directives -/

@[simp] theorem settles_encodeDataExpr (eval : EvaluatedExpr) :
    Settles (encodeDataExpr eval width c) := by
  unfold encodeDataExpr
  split
  · simp
  · split <;> simp

@[simp] theorem settles_alignmentValue : Settles (alignmentValue dir consts) := by
  unfold alignmentValue
  split
  · simp only [settles_bind]
    refine ⟨by simp, fun eval _ => ?_⟩
    cases eval <;> simp
  · simp
  · simp

@[simp] theorem settles_reservationSize (unit : Nat) (values : List DirectiveValue) :
    Settles (reservationSize unit values consts) := by
  unfold reservationSize
  split
  · simp only [settles_bind]
    refine ⟨by simp, fun eval _ => ?_⟩
    cases eval <;> simp
  · simp
  · simp

@[simp] theorem settles_reserveBytes (unit : Nat) (values : List DirectiveValue) :
    Settles (reserveBytes unit values consts c) := by
  simp [reserveBytes]

@[simp] theorem settles_valueSize (value : DirectiveValue) :
    Settles (valueSize dir width value) := by
  cases value <;> simp [valueSize]

@[simp] theorem settles_directiveSize : Settles (directiveSize dir consts) := by
  unfold directiveSize
  split
  · simp
  · simp only [settles_bind]
    exact ⟨by simp, fun width _ => settles_foldlM (by simp) _ _⟩

@[simp] theorem settles_valueIsZero (value : DirectiveValue) :
    Settles (valueIsZero consts value) := by
  cases value <;> simp [valueIsZero]

@[simp] theorem settles_bssSize : Settles (bssSize dir consts) := by
  unfold bssSize
  split
  · simp
  · simp only [settles_bind]
    exact ⟨by simp, fun size _ => ⟨settles_forM (by simp) _, by simp⟩⟩

@[simp] theorem settles_encodeBssDirective (sec : AsmSection) :
    Settles (encodeBssDirective dir sec consts) := by
  simp [encodeBssDirective]

@[simp] theorem settles_encodeValue (value : DirectiveValue) :
    Settles (encodeValue dir width consts c value) := by
  cases value <;> simp [encodeValue]

@[simp] theorem settles_encodeDirective : Settles (encodeDirective dir c consts) := by
  unfold encodeDirective
  split
  · simp
  · simp only [settles_bind]
    exact ⟨by simp, fun width _ => settles_foldlM (by simp) _ _⟩

/-! ## A pass -/

@[simp] theorem settles_enterSection (explicit : Option AsmSectionKind) :
    Settles (enterSection s name explicit) := by
  unfold enterSection
  split <;> simp

@[simp] theorem settles_declareGlobal : Settles (declareGlobal s name index) := by
  simp [declareGlobal]

@[simp] theorem settles_declareExtern : Settles (declareExtern ast s name index) := by
  simp [declareExtern]

@[simp] theorem settles_recordMetadata (kind : SymbolKind) (size : ExprValue)
    (visibility : SymbolVisibility) :
    Settles (recordMetadata p s name kind size visibility index) := by
  unfold recordMetadata
  simp only [settles_bind]
  refine ⟨by simp, fun _ _ => ⟨by simp, fun _ _ => ⟨by simp, fun eval _ => ?_⟩⟩⟩
  cases eval <;> simp

@[simp] theorem settles_defineLabel : Settles (defineLabel p s name index) := by
  simp [defineLabel]

@[simp] theorem settles_reserveOutput (length extra materialized : Nat) (limits : AssemblyLimits) :
    Settles (reserveOutput length extra materialized limits) := by
  simp [reserveOutput, Unsettled]

@[simp] theorem settles_placeInstruction : Settles (placeInstruction p s ins index) := by
  simp [placeInstruction]

@[simp] theorem settles_placeAlignment : Settles (placeAlignment p s dir) := by
  simp [placeAlignment]

@[simp] theorem settles_placeDirective : Settles (placeDirective p s dir) := by
  simp [placeDirective]

@[simp] theorem settles_passStep (e : AstNode × Nat) : Settles (passStep p s e) := by
  have hnode : Settles (encodeNode p s e.1 e.2) := by
    unfold encodeNode
    split <;> simp
  simp [passStep, hnode]

@[simp] theorem settles_checkGlobals : Settles (checkGlobals p s) := by
  unfold checkGlobals
  simp only
  split <;> simp

@[simp] theorem settles_finishSymbol (sym : AsmSymbol) : Settles (finishSymbol p s sym) := by
  have hextent : ∀ size, Settles (checkExtent p s sym size) := by
    intro size
    unfold checkExtent
    split <;> simp
  have hmetadata : Settles (applyMetadata p s sym) := by
    unfold applyMetadata
    split <;> simp [hextent]
  simp [finishSymbol, hmetadata]

@[simp] theorem settles_finishPass : Settles (finishPass p s) := by
  have hrelocs : Settles (checkRelocations p s) :=
    settles_forM (fun e => settles_forM (by simp [checkRelocation]) _) _
  have hmetadata : Settles (checkMetadata p s) := settles_forM (by simp) _
  simp [finishPass, hrelocs, hmetadata, settles_mapM]

@[simp] theorem settles_encodeOnce (forcedNear : List Nat) : Settles (encodeOnce p forcedNear) := by
  have hrun : Settles (runPass p forcedNear) := settles_foldlM (by simp) _ _
  simp [encodeOnce, hrun]

@[simp] theorem settles_resolveLoops (pass : EncodingPass) : Settles (resolveLoops ast pass) := by
  have hloop : ∀ section' state e, Settles (resolveLoop pass ast section' state e) := by
    intro section' state e
    unfold resolveLoop
    split <;> simp
  unfold resolveLoops
  simp [settles_mapM, settles_foldlM, hloop]

end Whale.Assembler.Amd64
