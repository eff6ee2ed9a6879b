import Whale.Lower.Plain

set_option autoImplicit false

/-! # Source locations do not change code

Removing every `located` wrapper of a program leaves the lowered module as it is, except for its
source map (`lower_erase`): each lowering function agrees with itself on the erased tree, by
induction on the tree. -/

namespace Whale

/-! ## Erasing locations -/

namespace Frontend

mutual

/-- The expression without its wrappers. -/
def Expr.erase : Expr → Expr
  | .located _ expression => expression.erase
  | .struct ty fields => .struct ty (FieldInit.eraseList fields)
  | .array ty elements => .array ty (Expr.eraseList elements)
  | .field base layout name => .field base.erase layout name
  | .index base idx => .index base.erase idx.erase
  | .addressOf place => .addressOf place.erase
  | .deref pointer => .deref pointer.erase
  | .volatileLoad pointer => .volatileLoad pointer.erase
  | .pointerOffset base idx => .pointerOffset base.erase idx.erase
  | .bitNot value => .bitNot value.erase
  | .neg value => .neg value.erase
  | .cast value ty kind => .cast value.erase ty kind
  | .functionRef name => .functionRef name
  | .nullFunction sig => .nullFunction sig
  | .call callee args => .call callee.erase (Expr.eraseList args)
  | .var name => .var name
  | .lit lit => .lit lit
  | .binary left op right => .binary left.erase op right.erase
  | .cmp left op right => .cmp left.erase op right.erase

def Expr.eraseList : List Expr → List Expr
  | [] => []
  | e :: es => e.erase :: Expr.eraseList es

def CalleeRef.erase : CalleeRef → CalleeRef
  | .direct name => .direct name
  | .indirect callee => .indirect callee.erase

def FieldInit.erase : FieldInit → FieldInit
  | .mk name value => .mk name value.erase

def FieldInit.eraseList : List FieldInit → List FieldInit
  | [] => []
  | init :: inits => init.erase :: FieldInit.eraseList inits

end

mutual

def Stmt.erase : Stmt → Stmt
  | .located _ statement => statement.erase
  | .return value => .return (value.map Expr.erase)
  | .volatileStore pointer value => .volatileStore pointer.erase value.erase
  | .store place value => .store place.erase value.erase
  | .constDecl name ty init => .constDecl name ty init.erase
  | .varDecl name ty init => .varDecl name ty (init.map Expr.erase)
  | .assign name value => .assign name value.erase
  | .exprStmt value => .exprStmt value.erase
  | .ifElse cond thenBody elseBody =>
      .ifElse cond.erase (Stmt.eraseList thenBody) (Stmt.eraseList elseBody)
  | .while cond body => .while cond.erase (Stmt.eraseList body)
  | .break => .break
  | .continue => .continue

def Stmt.eraseList : List Stmt → List Stmt
  | [] => []
  | s :: ss => s.erase :: Stmt.eraseList ss

end

def Function.erase (f : Function) : Function := { f with body := Stmt.eraseList f.body }

def GlobalConst.erase (g : GlobalConst) : GlobalConst := { g with init := g.init.erase }

/-- The program without any wrapper. -/
def Program.erase (p : Program) : Program :=
  { p with globals := p.globals.map GlobalConst.erase, functions := p.functions.map Function.erase }

theorem length_eraseList (es : List Expr) : (Expr.eraseList es).length = es.length := by
  induction es with
  | nil => rfl
  | cons e es ih => exact congrArg (· + 1) ih

theorem length_eraseInits (inits : List FieldInit) :
    (FieldInit.eraseList inits).length = inits.length := by
  induction inits with
  | nil => rfl
  | cons init inits ih => exact congrArg (· + 1) ih

end Frontend

namespace Lower

open Frontend (CalleeRef Expr FieldInit IntegerCast Lit Stmt StructField TypeRef)

/-! ## Constants -/

/-- A preserved constant expression has no wrappers. -/
theorem preserve_erase {ctx : ConstEvalCtx} : ∀ {e : Expr} {r r' : ConstExpr},
    preserveConstExpr ctx e = .ok r → preserveConstExpr ctx e.erase = .ok r' → r = r'
  | .located _ e, _, _, h, h' => preserve_erase (e := e) (mapError_ok_iff.mp h) h'
  | .lit _, _, _, h, h' | .var _, _, _, h, h' => Except.ok.inj (h.symm.trans h')
  | .neg e, _, _, h, h' => by
      obtain ⟨v, hv, h₁⟩ := bind_ok_iff.mp h
      obtain ⟨v', hv', h₂⟩ := bind_ok_iff.mp h'
      cases h₁
      cases h₂
      rw [preserve_erase hv hv']
  | .bitNot e, _, _, h, h' => by
      obtain ⟨v, hv, h₁⟩ := bind_ok_iff.mp h
      obtain ⟨v', hv', h₂⟩ := bind_ok_iff.mp h'
      obtain ⟨-, h₃⟩ := require_then_ok_iff.mp h₁
      obtain ⟨-, h₄⟩ := require_then_ok_iff.mp h₂
      cases h₃
      cases h₄
      rw [preserve_erase hv hv']
  | .binary l op r, _, _, h, h' => by
      obtain ⟨a, ha, h₁⟩ := bind_ok_iff.mp h
      obtain ⟨b, hb, h₂⟩ := bind_ok_iff.mp h₁
      obtain ⟨-, -, h₃⟩ := bind_ok_iff.mp h₂
      obtain ⟨a', ha', h₄⟩ := bind_ok_iff.mp h'
      obtain ⟨b', hb', h₅⟩ := bind_ok_iff.mp h₄
      obtain ⟨-, -, h₆⟩ := bind_ok_iff.mp h₅
      cases h₃
      cases h₆
      rw [preserve_erase ha ha', preserve_erase hb hb']
  | .cmp l op r, _, _, h, h' => by
      obtain ⟨a, ha, h₁⟩ := bind_ok_iff.mp h
      obtain ⟨b, hb, h₂⟩ := bind_ok_iff.mp h₁
      obtain ⟨-, h₃⟩ := require_then_ok_iff.mp h₂
      obtain ⟨a', ha', h₄⟩ := bind_ok_iff.mp h'
      obtain ⟨b', hb', h₅⟩ := bind_ok_iff.mp h₄
      obtain ⟨-, h₆⟩ := require_then_ok_iff.mp h₅
      cases h₃
      cases h₆
      rw [preserve_erase ha ha', preserve_erase hb hb']
  | .struct .., _, _, h, _ | .array .., _, _, h, _ | .field .., _, _, h, _
  | .index .., _, _, h, _ | .addressOf _, _, _, h, _ | .deref _, _, _, h, _
  | .volatileLoad _, _, _, h, _ | .pointerOffset .., _, _, h, _ | .cast .., _, _, h, _
  | .functionRef _, _, _, h, _ | .nullFunction _, _, _, h, _ | .call .., _, _, h, _ => nomatch h

theorem evalConstExpr_erase {ctx : ConstEvalCtx} {e : Expr} {r r' : ConstExpr × ConstValue}
    (h : evalConstExpr e ctx = .ok r) (h' : evalConstExpr e.erase ctx = .ok r') : r = r' := by
  obtain ⟨expression, hpreserve, h₁⟩ := bind_ok_iff.mp h
  obtain ⟨expression', hpreserve', h₂⟩ := bind_ok_iff.mp h'
  obtain rfl := preserve_erase hpreserve hpreserve'
  exact Except.ok.inj (h₁.symm.trans h₂)

theorem plain_withSources (s : SourceModule) (sources : SourceMetadata) :
    (s.withSources sources).mb.plain = s.mb.plain := rfl

theorem chargeModule_mb {s s' : SourceModule} {amount : Nat}
    (h : s.chargeSourceWork amount = .ok s') : s'.mb = s.mb := by
  unfold SourceModule.chargeSourceWork at h
  split at h
  · cases h
    rfl
  · cases h

theorem plain_retainSource {s s' : SourceModule} {note : SourceAnnotation}
    (h : s.retainSource note = .ok s') : s'.mb.plain = s.mb.plain := by
  obtain ⟨s₁, hcharge, h₁⟩ := bind_ok_iff.mp h
  cases h₁
  rw [plain_withSources, chargeModule_mb hcharge]

/-- Keeping originals changes the source map only. -/
theorem plain_retainConstSources : ∀ {e : Expr} {s s' : SourceModule},
    retainConstSources e s = .ok s' → s'.mb.plain = s.mb.plain
  | .located note e, s, s', h => by
      obtain ⟨s₁, hcharge, h₁⟩ := bind_ok_iff.mp h
      obtain ⟨s₂, hretain, h₂⟩ := bind_ok_iff.mp h₁
      rw [plain_retainConstSources (e := e) h₂, plain_retainSource hretain, chargeModule_mb hcharge]
  | .binary l _ r, s, s', h | .cmp l _ r, s, s', h => by
      obtain ⟨s₁, hcharge, h₁⟩ := bind_ok_iff.mp h
      obtain ⟨s₂, hleft, h₂⟩ := bind_ok_iff.mp h₁
      rw [plain_retainConstSources (e := r) h₂, plain_retainConstSources (e := l) hleft,
        chargeModule_mb hcharge]
  | .neg e, s, s', h | .bitNot e, s, s', h | .cast e _ _, s, s', h => by
      obtain ⟨s₁, hcharge, h₁⟩ := bind_ok_iff.mp h
      rw [plain_retainConstSources (e := e) h₁, chargeModule_mb hcharge]
  | .struct .., s, s', h | .array .., s, s', h | .field .., s, s', h | .index .., s, s', h
  | .addressOf _, s, s', h | .deref _, s, s', h | .volatileLoad _, s, s', h
  | .pointerOffset .., s, s', h | .functionRef _, s, s', h | .nullFunction _, s, s', h
  | .call .., s, s', h | .var _, s, s', h | .lit _, s, s', h => by
      have hcharge : s.chargeSourceWork 1 = .ok s' := h
      rw [chargeModule_mb hcharge]

/-! ## Storage -/

theorem sameCode_ofLayout {α : Type} (x : Except LayoutError α) :
    SameCode (ofLayout x) (ofLayout x) := sameCode_ofExcept _

theorem sameCode_read (ptr : ValueId) (ty : Ty) : SameCode (read ptr ty) (read ptr ty) := by
  unfold read
  split
  · exact agree_pure _
  · exact (sameCode_ofLayout _).bind fun _ =>
      (sameCode_build (blind_emit _ _)).bind fun _ => agree_pure _

theorem sameCode_write (ptr value : ValueId) (ty : Ty) :
    SameCode (write ptr value ty) (write ptr value ty) := by
  refine (sameCode_chargeLowerType ty).bind fun _ => (sameCode_ofLayout _).bind fun layout => ?_
  split
  · exact (sameCode_build (blind_emit _ _)).bind fun _ =>
      (sameCode_build (blind_emit _ _)).bind fun _ =>
        (sameCode_build (blind_emit _ _)).bind fun _ => sameCode_build (blind_push _)
  · exact sameCode_build (blind_push _)

theorem sameCode_fieldPtr (base : ValueId) (index : Nat) (ty : Ty) :
    SameCode (fieldPtr base index ty) (fieldPtr base index ty) :=
  (sameCode_build (blind_emit _ _)).bind fun _ =>
    (sameCode_build (blind_emit _ _)).bind fun _ => sameCode_build (blind_emit _ _)

theorem sameCode_literalStorage (ty : TypeRef) :
    SameCode (literalStorage ty) (literalStorage ty) :=
  (sameCode_ofExcept _).bind fun _ => (sameCode_chargeLowerType _).bind fun _ =>
    (sameCode_ofLayout _).bind fun _ => (sameCode_build (blind_allocaInEntry _ _)).bind fun _ =>
      (sameCode_build (blind_push _)).bind fun _ => agree_pure _

theorem sameCode_chargeEnv (env : LocalEnv) : SameCode (chargeEnv env) (chargeEnv env) := by
  unfold chargeEnv
  induction env with
  | nil => exact agree_pure ()
  | cons e env ih => exact (sameCode_chargeLowerType _).bind fun _ => ih

/-! ## Places and expressions

Lowerings of the parts that emit the same give the whole that emits the same. -/

section

variable {x y x' y' : LowerM (ValueId × Ty)}

theorem sameCode_varPlace (env : LocalEnv) (name : String) :
    SameCode (varPlace env name) (varPlace env name) := by
  unfold varPlace
  split
  · exact (sameCode_chargeLowerType _).bind fun _ => agree_pure _
  · exact sameCode_fail _ _
  · exact sameCode_fail _ _

theorem SameCode.derefPlace (h : SameCode x x') : SameCode (derefPlace x) (derefPlace x') := by
  refine h.bind fun ⟨ptr, ty⟩ => ?_
  cases ty with
  | ptr ty => exact (agree_require _ _ _).bind fun _ => agree_pure _
  | _ => exact sameCode_fail _ _

theorem SameCode.fieldPlace (h : SameCode x x') (layout : TypeRef) (name : String) :
    SameCode (fieldPlace x layout name) (fieldPlace x' layout name) := by
  refine (sameCode_ofExcept _).bind fun expected => ?_
  split
  · exact (agree_orThrow _ _ _).bind fun _ => (agree_orThrow _ _ _).bind fun _ =>
      h.bind fun _ => (agree_require _ _ _).bind fun _ =>
        (sameCode_fieldPtr _ _ _).bind fun _ => agree_pure _
  · exact sameCode_fail _ _

theorem blind_checkedElement (ptr : ValueId) (element : Ty) (len : UInt64) (index : ValueId)
    (ity : Ty) (signed : Bool) : Blind (checkedElement ptr element len index ity signed) := by
  have hcheck : Blind (do
      let index ← cast' .checkedInt ity .u128 index
      let limit ← constUint .u128 (BitVec.ofNat 128 len.toNat)
      let bad ← icmp .uge .u128 index limit
      trapIf bad outOfBounds
      let zero ← constUint .u64 0
      gep ptr [zero, index] (.ptr element)) :=
    (blind_emit _ _).bind fun _ => (blind_emit _ _).bind fun _ => (blind_emit _ _).bind fun _ =>
      (blind_push _).bind fun _ => (blind_emit _ _).bind fun _ => blind_emit _ _
  unfold checkedElement
  cases signed with
  | true =>
      exact (blind_emit _ _).bind fun _ => (blind_emit _ _).bind fun _ =>
        (blind_push _).bind fun _ => hcheck
  | false => exact hcheck

theorem SameCode.indexPlace (hbase : SameCode x x') (hindex : SameCode y y') :
    SameCode (indexPlace x y) (indexPlace x' y') := by
  refine hbase.bind fun ⟨ptr, ty⟩ => ?_
  cases ty with
  | array element len =>
      exact hindex.bind fun _ => (agree_orThrow _ _ _).bind fun _ =>
        (sameCode_build (blind_checkedElement _ _ _ _ _ _)).bind fun _ => agree_pure _
  | _ => exact sameCode_fail _ _

theorem sameCode_lowerLit (lit : Lit) : SameCode (lowerLit lit) (lowerLit lit) := by
  refine (sameCode_ofExcept _).bind fun ⟨ty, value⟩ => ?_
  cases value <;> exact (sameCode_build (blind_emit _ _)).bind fun _ => agree_pure _

theorem sameCode_lowerVar (env : LocalEnv) (globals : ConstMap) (name : String) :
    SameCode (lowerVar env globals name) (lowerVar env globals name) := by
  unfold lowerVar
  split
  · exact (sameCode_chargeLowerType _).bind fun _ => sameCode_read _ _
  · exact agree_pure _
  · split
    · rename_i value _
      refine Agree.bind ?_ fun _ => agree_pure _
      cases value <;> exact sameCode_build (blind_emit _ _)
    · exact sameCode_fail _ _

theorem SameCode.lowerCast (h : SameCode x x') (ty : TypeRef) (kind : IntegerCast) :
    SameCode (lowerCast x ty kind) (lowerCast x' ty kind) :=
  (sameCode_ofExcept _).bind fun _ => (agree_require _ _ _).bind fun _ => h.bind fun _ =>
    (agree_orThrow _ _ _).bind fun _ => (agree_orThrow _ _ _).bind fun _ =>
      (sameCode_build (blind_emit _ _)).bind fun _ => agree_pure _

theorem SameCode.lowerPointerOffset (hbase : SameCode x x') (hindex : SameCode y y') :
    SameCode (lowerPointerOffset x y) (lowerPointerOffset x' y') := by
  refine hbase.bind fun ⟨ptr, ty⟩ => ?_
  cases ty with
  | ptr pointee =>
      exact (sameCode_ofLayout _).bind fun _ => hindex.bind fun _ =>
        (agree_require _ _ _).bind fun _ =>
          (sameCode_build (blind_emit _ _)).bind fun _ => agree_pure _
  | _ => exact sameCode_fail _ _

theorem SameCode.lowerVolatileLoad (h : SameCode x x') :
    SameCode (lowerVolatileLoad x) (lowerVolatileLoad x') := by
  refine h.bind fun ⟨ptr, pty⟩ => ?_
  cases pty with
  | ptr ty =>
      exact (agree_require _ _ _).bind fun _ => (sameCode_ofLayout _).bind fun _ =>
        (sameCode_build (blind_emit _ _)).bind fun _ => agree_pure _
  | _ => exact sameCode_fail _ _

theorem sameCode_currentBlockId : SameCode currentBlockId currentBlockId := by
  refine agree_get fun s s' hview _ => ?_
  have hinsert := congrArg (fun p : FunctionBuilder × Budget => p.1.insertBlock) hview
  rw [show s.builder.fb.insertBlock = s'.builder.fb.insertBlock from hinsert]
  exact agree_pure _

theorem sameCode_isCurrentBlockTerminated :
    SameCode isCurrentBlockTerminated isCurrentBlockTerminated := by
  refine agree_get fun s s' hview _ => ?_
  have hterminated :=
    congrArg (fun p : FunctionBuilder × Budget => p.1.isCurrentBlockTerminated) hview
  rw [show s.builder.fb.isCurrentBlockTerminated = s'.builder.fb.isCurrentBlockTerminated from
    hterminated]
  exact agree_pure _

theorem SameCode.logicalRest (h : SameCode x x') (value : ValueId) (bb rhs cont : BlockId) :
    SameCode (logicalRest value bb rhs cont x) (logicalRest value bb rhs cont x') :=
  (sameCode_build (blind_setInsertPoint _)).bind fun _ => h.bind fun _ =>
    (agree_require _ _ _).bind fun _ => sameCode_currentBlockId.bind fun _ =>
      (sameCode_build (blind_setTerminator _)).bind fun _ =>
        (sameCode_build (blind_setInsertPoint _)).bind fun _ =>
          (sameCode_build (blind_tryPhi _ _)).bind fun _ => agree_pure _

theorem SameCode.lowerLogical (isAnd : Bool) (hleft : SameCode x x') (hright : SameCode y y') :
    SameCode (lowerLogical isAnd x y) (lowerLogical isAnd x' y') := by
  refine hleft.bind fun _ => (agree_require _ _ _).bind fun _ =>
    sameCode_currentBlockId.bind fun _ => (sameCode_build (blind_createBlock _)).bind fun _ =>
      (sameCode_build (blind_createBlock _)).bind fun _ => Agree.bind (sameCode_build ?_) fun _ =>
        hright.logicalRest _ _ _ _
  split
  · exact blind_setTerminator _
  · exact blind_setTerminator _

theorem SameCode.lowerOperands (hleft : SameCode x x') (hright : SameCode y y') :
    SameCode (lowerOperands x y) (lowerOperands x' y') :=
  hleft.bind fun _ => hright.bind fun _ => (agree_require _ _ _).bind fun _ => agree_pure _

theorem SameCode.lowerBinary (op : Frontend.BinOpRef) (hleft : SameCode x x')
    (hright : SameCode y y') : SameCode (lowerBinary op x y) (lowerBinary op x' y') := by
  cases op with
  | logicalAnd => exact hleft.lowerLogical true hright
  | logicalOr => exact hleft.lowerLogical false hright
  | _ =>
      exact (hleft.lowerOperands hright).bind fun _ => (sameCode_ofExcept _).bind fun _ =>
        (sameCode_build (blind_emit _ _)).bind fun _ => agree_pure _

theorem sameCode_lowerFunctionRef (name : String) :
    SameCode (lowerFunctionRef name) (lowerFunctionRef name) :=
  (sameCode_build (blind_testCall fun _ => rfl)).bind fun _ =>
    (sameCode_build (blind_testCall fun _ => rfl)).bind fun _ =>
      (sameCode_build (blind_functionAddr _)).bind fun _ => agree_pure _

theorem sameCode_lowerCall {callee callee' : LowerM Callee} {args args' : LowerM (List ValueId)}
    (hcallee : SameCode callee callee') (hargs : SameCode args args') :
    SameCode (lowerCall callee args) (lowerCall callee' args') :=
  hcallee.bind fun _ => (sameCode_build (blind_testCall fun _ => rfl)).bind fun _ =>
    hargs.bind fun _ => (sameCode_build (blind_call _ _)).bind fun _ => agree_pure _

theorem sameCode_lowerCallValue {callee callee' : LowerM Callee}
    {args args' : LowerM (List ValueId)} (hcallee : SameCode callee callee')
    (hargs : SameCode args args') :
    SameCode (lowerCallValue callee args) (lowerCallValue callee' args') :=
  (sameCode_lowerCall hcallee hargs).bind fun _ =>
    (agree_orThrow _ _ _).bind fun _ => agree_pure _

theorem SameCode.lowerInit (h : SameCode x x') (ptr : ValueId) (ordinal : Nat) (expected : Ty) :
    SameCode (lowerInit ptr ordinal expected x) (lowerInit ptr ordinal expected x') :=
  h.bind fun _ => (agree_require _ _ _).bind fun _ => (sameCode_fieldPtr _ _ _).bind fun _ =>
    sameCode_write _ _ _

theorem sameCode_structLiteral (ty : TypeRef) (count : Nat)
    {inits inits' : ValueId → List StructField → List Ty → LowerM Unit}
    (h : ∀ ptr fields types, SameCode (inits ptr fields types) (inits' ptr fields types)) :
    SameCode (structLiteral ty count inits) (structLiteral ty count inits') := by
  refine (sameCode_literalStorage ty).bind fun ⟨ptr, whaleTy⟩ => ?_
  dsimp only
  split
  · exact (agree_require _ _ _).bind fun _ => (h _ _ _).bind fun _ => agree_pure _
  · exact sameCode_fail _ _

theorem sameCode_arrayLiteral (ty : TypeRef) (count : Nat)
    {inits inits' : ValueId → Ty → LowerM Unit}
    (h : ∀ ptr element, SameCode (inits ptr element) (inits' ptr element)) :
    SameCode (arrayLiteral ty count inits) (arrayLiteral ty count inits') := by
  refine (sameCode_literalStorage ty).bind fun ⟨ptr, whaleTy⟩ => ?_
  cases whaleTy with
  | array element len =>
      exact (agree_require _ _ _).bind fun _ => (agree_require _ _ _).bind fun _ =>
        (h _ _).bind fun _ => agree_pure _
  | _ => exact sameCode_fail _ _

end

/-! ## Expressions -/

section

variable {env : LocalEnv} {globals : ConstMap}

mutual

theorem lowerExpr_erase : ∀ e : Expr,
    SameCode (lowerExpr env globals e) (lowerExpr env globals e.erase)
  | .located note e => (lowerExpr_erase e).located note
  | .struct ty fields => by
      rw [Expr.erase, lowerExpr, lowerExpr, Frontend.length_eraseInits]
      exact sameCode_structLiteral _ _ fun _ _ _ => lowerFields_erase fields
  | .array ty elements => by
      rw [Expr.erase, lowerExpr, lowerExpr, Frontend.length_eraseList]
      exact sameCode_arrayLiteral _ _ fun _ _ => lowerElements_erase elements
  | .field base layout name =>
      ((lowerExpr_erase base).fieldPlace layout name).bind fun _ => sameCode_read _ _
  | .index base idx =>
      ((lowerExpr_erase base).indexPlace (lowerExpr_erase idx)).bind fun _ => sameCode_read _ _
  | .deref value => (lowerExpr_erase value).derefPlace.bind fun _ => sameCode_read _ _
  | .addressOf value => (place_erase value).bind fun _ => agree_pure _
  | .pointerOffset base idx => (lowerExpr_erase base).lowerPointerOffset (lowerExpr_erase idx)
  | .volatileLoad pointer => (lowerExpr_erase pointer).lowerVolatileLoad
  | .nullFunction sig =>
      (sameCode_ofExcept _).bind fun _ => (sameCode_build (blind_nullFunction _)).bind fun _ =>
        agree_pure _
  | .functionRef name => sameCode_lowerFunctionRef name
  | .call callee args =>
      sameCode_lowerCallValue (lowerCallee_erase callee) (lowerArguments_erase args)
  | .var name => sameCode_lowerVar env globals name
  | .cast value ty kind => (lowerExpr_erase value).lowerCast ty kind
  | .lit lit => sameCode_lowerLit lit
  | .neg value =>
      (lowerExpr_erase value).bind fun _ => (agree_require _ _ _).bind fun _ =>
        (sameCode_build (blind_emit _ _)).bind fun _ => agree_pure _
  | .bitNot value =>
      (lowerExpr_erase value).bind fun _ => (agree_require _ _ _).bind fun _ =>
        (sameCode_build (blind_emit _ _)).bind fun _ => agree_pure _
  | .binary left op right => (lowerExpr_erase left).lowerBinary op (lowerExpr_erase right)
  | .cmp left op right =>
      ((lowerExpr_erase left).lowerOperands (lowerExpr_erase right)).bind fun _ =>
        (sameCode_ofExcept _).bind fun _ => (sameCode_build (blind_emit _ _)).bind fun _ =>
          agree_pure _

theorem place_erase : ∀ e : Expr, SameCode (place env globals e) (place env globals e.erase)
  | .located note e => (place_erase e).located note
  | .var name => sameCode_varPlace env name
  | .deref value => (lowerExpr_erase value).derefPlace
  | .field base layout name => (lowerExpr_erase base).fieldPlace layout name
  | .index base idx => (lowerExpr_erase base).indexPlace (lowerExpr_erase idx)
  | .struct .. | .array .. | .addressOf _ | .pointerOffset .. | .volatileLoad _ | .nullFunction _
  | .functionRef _ | .call .. | .cast .. | .lit _ | .neg _ | .bitNot _ | .binary .. | .cmp .. =>
      sameCode_fail _ _

theorem lowerCallee_erase : ∀ callee : CalleeRef,
    SameCode (lowerCallee env globals callee) (lowerCallee env globals callee.erase)
  | .direct _ => (sameCode_build (blind_testCall fun _ => rfl)).bind fun _ => agree_pure _
  | .indirect callee => (lowerExpr_erase callee).bind fun _ => agree_pure _

theorem lowerArguments_erase : ∀ args : List Expr,
    SameCode (lowerArguments env globals args) (lowerArguments env globals (Expr.eraseList args))
  | [] => agree_pure _
  | arg :: args =>
      (lowerExpr_erase arg).bind fun _ => (lowerArguments_erase args).bind fun _ => agree_pure _

theorem lowerElements_erase {ptr : ValueId} {element : Ty} {ordinal : Nat} :
    ∀ elements : List Expr, SameCode (lowerElements env globals ptr element ordinal elements)
      (lowerElements env globals ptr element ordinal (Expr.eraseList elements))
  | [] => agree_pure _
  | e :: elements =>
      ((lowerExpr_erase e).lowerInit ptr ordinal element).bind fun _ =>
        lowerElements_erase elements

theorem lowerFields_erase {ptr : ValueId} {fields : List StructField} {types : List Ty}
    {used : List String} : ∀ inits : List FieldInit,
      SameCode (lowerFields env globals ptr fields types used inits)
        (lowerFields env globals ptr fields types used (FieldInit.eraseList inits))
  | [] => agree_pure _
  | init :: inits => (lowerField_erase init).bind fun _ => lowerFields_erase inits

theorem lowerField_erase {ptr : ValueId} {fields : List StructField} {types : List Ty}
    {used : List String} : ∀ init : FieldInit,
      SameCode (lowerField env globals ptr fields types used init)
        (lowerField env globals ptr fields types used init.erase)
  | .mk _ value =>
      (sameCode_ofExcept _).bind fun _ => (agree_orThrow _ _ _).bind fun _ =>
        ((lowerExpr_erase value).lowerInit _ _ _).bind fun _ => agree_pure _

end

end

/-! ## Statements -/

theorem sameCode_ensureOpen : SameCode ensureOpen ensureOpen := by
  refine sameCode_isCurrentBlockTerminated.bind fun terminated => ?_
  cases terminated with
  | true =>
      exact (sameCode_build (blind_createBlock _)).bind fun _ =>
        sameCode_build (blind_setInsertPoint _)
  | false => exact agree_pure ()

theorem ensureOpen_self {s : LowerState} (h : s.builder.fb.isCurrentBlockTerminated = false) :
    ensureOpen s = .ok () s := by
  have hopen : isCurrentBlockTerminated s = .ok false s := by
    unfold isCurrentBlockTerminated
    rw [bind_run_ok (get_run _), h]
    rfl
  unfold ensureOpen
  rw [bind_run_ok hopen]
  rfl

theorem open_of_new {fb : FunctionBuilder} {bs : List BasicBlock} {id : BlockId} {name : String}
    (hblocks : fb.func.blocks = bs ++ [BasicBlock.new id name]) (hinsert : fb.insertBlock = id)
    (hfresh : ∀ b ∈ bs, b.id ≠ id) : fb.isCurrentBlockTerminated = false := by
  have hnone : bs.find? (·.id = id) = none :=
    List.find?_eq_none.mpr fun b hb hid => hfresh b hb (of_decide_eq_true hid)
  have hnew : [BasicBlock.new id name].find? (·.id = id) = some (BasicBlock.new id name) :=
    List.find?_cons_of_pos (decide_eq_true rfl)
  unfold FunctionBuilder.isCurrentBlockTerminated FunctionBuilder.findBlock
  rw [hblocks, hinsert, List.find?_append, hnone, Option.none_or, hnew]
  rfl

/-- A new block has an identity of its own, and is open. -/
theorem ensureOpen_ok {s t : LowerState} {u : Unit} (hbelow : s.builder.fb.Below)
    (h : ensureOpen s = .ok u t) : t.builder.fb.isCurrentBlockTerminated = false := by
  obtain ⟨terminated, r, hfirst, hrest⟩ := bind_run_ok_iff.mp h
  cases hfirst
  cases hterminated : s.builder.fb.isCurrentBlockTerminated with
  | false =>
      rw [hterminated] at hrest
      cases hrest
      exact hterminated
  | true =>
      rw [hterminated] at hrest
      obtain ⟨dead, r₁, hcreate, hinsert⟩ := bind_run_ok_iff.mp hrest
      obtain ⟨fb, hop, hcounts, rfl⟩ := build_ok hcreate
      cases hop
      obtain ⟨fb', hop', -, rfl⟩ := build_ok hinsert
      obtain ⟨_, _, hexpect, hset⟩ := bind_run_ok_iff.mp hop'
      have hread := (reads_expect _).ok _ _ _ hexpect
      rw [hread] at hset
      cases hset
      have hnext : s.builder.fb.mb.nextBlock < 2 ^ 32 := Nat.lt_of_succ_lt hcounts.2
      refine open_of_new rfl rfl fun b hb hid => ?_
      have hlt := hbelow b hb
      rw [hid] at hlt
      have hid' : (UInt32.ofNat s.builder.fb.mb.nextBlock).toNat < s.builder.fb.mb.nextBlock := hlt
      rw [UInt32.toNat_ofNat', Nat.mod_eq_of_lt hnext] at hid'
      exact Nat.lt_irrefl _ hid'

theorem sameCode_branchOpen (target : BlockId) :
    SameCode (branchOpen target) (branchOpen target) := by
  refine sameCode_isCurrentBlockTerminated.bind fun terminated => ?_
  cases terminated with
  | true => exact agree_pure ()
  | false => exact sameCode_build (blind_setTerminator _)

theorem lowerDiscarded_erase {env : LocalEnv} {globals : ConstMap} (e : Expr) :
    SameCode (lowerDiscarded env globals e) (lowerDiscarded env globals e.erase) := by
  have hvalue : ∀ e : Expr, SameCode (do let _ ← lowerExpr env globals e; return ())
      (do let _ ← lowerExpr env globals e.erase; return ()) := fun e =>
    (lowerExpr_erase e).bind fun _ => agree_pure ()
  match e with
  | .located note e => exact (lowerDiscarded_erase e).located note
  | .call callee args =>
      exact (sameCode_lowerCall (lowerCallee_erase callee) (lowerArguments_erase args)).bind
        fun _ => agree_pure ()
  | .struct .. | .array .. | .field .. | .index .. | .deref _ | .addressOf _ | .pointerOffset ..
  | .volatileLoad _ | .nullFunction _ | .functionRef _ | .var _ | .cast .. | .lit _ | .neg _
  | .bitNot _ | .binary .. | .cmp .. => exact hvalue _

theorem hidden_retainSources (e : Expr) : Hidden LowerState.plain (retainSources e) := by
  refine hidden_mapping fun s u s' h => ?_
  obtain ⟨m, hretain, h₁⟩ := bind_ok_iff.mp h
  cases h₁
  have hmb := plain_retainConstSources hretain
  exact congrArg (fun mb : ModuleBuilder => { s.fb with mb := mb }) hmb

/-- An annotation of the initializer is hidden. -/
theorem annotateInit_left (e : Expr) {x y : LowerM ValueId} (h : SameCode x y) :
    SameCode (annotateInit e x) y := by
  cases e with
  | located note e =>
      exact hidden_sourceCheckpoint.bind_agree fun checkpoint => h.bind_hidden fun _ =>
        hidden_annotateSource note checkpoint
  | _ => exact h

theorem sameCode_annotateInit (e e' : Expr) {x : LowerM ValueId} (h : SameCode x x) :
    SameCode (annotateInit e x) (annotateInit e' x) :=
  annotateInit_left e (annotateInit_left e' h).symm

theorem lowerReturn_erase (env : LocalEnv) (c : BodyCtx) (value : Option Expr) :
    SameCode (lowerReturn env c value) (lowerReturn env c (value.map Expr.erase)) := by
  by_cases hvoid : c.retTy = .void
  · cases value with
    | none =>
        rw [Option.map_none, lowerReturn, if_pos hvoid]
        exact sameCode_build (blind_ret none)
    | some e =>
        rw [Option.map_some, lowerReturn, lowerReturn, if_pos hvoid]
        exact sameCode_fail _ _
  · cases value with
    | none =>
        rw [Option.map_none, lowerReturn, if_neg hvoid]
        exact sameCode_fail _ _
    | some e =>
        rw [Option.map_some, lowerReturn, lowerReturn, if_neg hvoid, if_neg hvoid]
        exact (lowerExpr_erase e).bind fun _ => (agree_require _ _ _).bind fun _ =>
          sameCode_build (blind_ret _)

theorem lowerVolatileStore_erase (env : LocalEnv) (c : BodyCtx) (pointer value : Expr) :
    SameCode (lowerVolatileStore env c pointer value)
      (lowerVolatileStore env c pointer.erase value.erase) := by
  refine (lowerExpr_erase pointer).bind fun ⟨ptr, pty⟩ => ?_
  cases pty with
  | ptr ty =>
      exact (agree_require _ _ _).bind fun _ => (lowerExpr_erase value).bind fun _ =>
        (agree_require _ _ _).bind fun _ => (sameCode_ofLayout _).bind fun _ =>
          sameCode_build (blind_push _)
  | _ => exact sameCode_fail _ _

theorem lowerStore_erase (env : LocalEnv) (c : BodyCtx) (target value : Expr) :
    SameCode (lowerStore env c target value) (lowerStore env c target.erase value.erase) :=
  (place_erase target).bind fun _ => (lowerExpr_erase value).bind fun _ =>
    (agree_require _ _ _).bind fun _ => sameCode_write _ _ _

theorem lowerConstDecl_erase (env : LocalEnv) (c : BodyCtx) (name : String) (ty : TypeRef)
    (init : Expr) : SameCode (lowerConstDecl env c name ty init)
      (lowerConstDecl env c name ty init.erase) := by
  refine (sameCode_ofExcept _).bind fun _ => Agree.bind
    (agree_raise _ fun _ _ => evalConstExpr_erase) fun _ => (agree_require _ _ _).bind fun _ => ?_
  refine (hidden_retainSources init).bind_agree fun _ =>
    Agree.symm ((hidden_retainSources init.erase).bind_agree fun _ => Agree.symm ?_)
  exact (sameCode_annotateInit _ _ (sameCode_build (blind_emit _ _))).bind fun _ => agree_pure _

theorem lowerVarDecl_erase (env : LocalEnv) (c : BodyCtx) (name : String) (ty : TypeRef)
    (init : Option Expr) : SameCode (lowerVarDecl env c name ty init)
      (lowerVarDecl env c name ty (init.map Expr.erase)) := by
  refine (sameCode_ofExcept _).bind fun _ => (sameCode_ofLayout _).bind fun _ => ?_
  cases init with
  | some e =>
      exact (lowerExpr_erase e).bind fun _ => (agree_require _ _ _).bind fun _ =>
        (sameCode_build (blind_allocaInEntry _ _)).bind fun _ =>
          (sameCode_write _ _ _).bind fun _ => agree_pure _
  | none =>
      exact (sameCode_build (blind_allocaInEntry _ _)).bind fun _ =>
        (sameCode_build (blind_push _)).bind fun _ => agree_pure _

theorem lowerAssign_erase (env : LocalEnv) (c : BodyCtx) (name : String) (value : Expr) :
    SameCode (lowerAssign env c name value) (lowerAssign env c name value.erase) := by
  refine (lowerExpr_erase value).bind fun _ => ?_
  dsimp only
  split
  · exact sameCode_fail _ _
  · exact sameCode_fail _ _
  · exact (agree_require _ _ _).bind fun _ => sameCode_write _ _ _

theorem lowerCond_erase (env : LocalEnv) (c : BodyCtx) (cond : Expr) :
    SameCode (lowerCond env c cond) (lowerCond env c cond.erase) :=
  (lowerExpr_erase cond).bind fun _ => (agree_require _ _ _).bind fun _ => agree_pure _

theorem sameCode_lowerBranch (env : LocalEnv) (block next : BlockId) {body body' : LowerM LocalEnv}
    (h : SameCode body body') :
    SameCode (lowerBranch env block next body) (lowerBranch env block next body') :=
  (sameCode_build (blind_setInsertPoint _)).bind fun _ => (sameCode_chargeEnv env).bind fun _ =>
    h.bind fun _ => sameCode_branchOpen next

theorem lowerIf_erase (env : LocalEnv) (c : BodyCtx) (cond : Expr)
    {thenBody thenBody' elseBody elseBody' : LowerM LocalEnv} (hthen : SameCode thenBody thenBody')
    (helse : SameCode elseBody elseBody') : SameCode (lowerIf env c cond thenBody elseBody)
      (lowerIf env c cond.erase thenBody' elseBody') :=
  (lowerCond_erase env c cond).bind fun _ => (sameCode_build (blind_createBlock _)).bind fun _ =>
    (sameCode_build (blind_createBlock _)).bind fun _ =>
      (sameCode_build (blind_createBlock _)).bind fun _ =>
        (sameCode_build (blind_setTerminator _)).bind fun _ =>
          (sameCode_lowerBranch env _ _ hthen).bind fun _ =>
            (sameCode_lowerBranch env _ _ helse).bind fun _ =>
              sameCode_build (blind_setInsertPoint _)

theorem lowerWhile_erase (env : LocalEnv) (c : BodyCtx) (cond : Expr)
    {body body' : LoopCtx → LowerM LocalEnv} (h : ∀ loop, SameCode (body loop) (body' loop)) :
    SameCode (lowerWhile env c cond body) (lowerWhile env c cond.erase body') :=
  (sameCode_build (blind_createBlock _)).bind fun _ =>
    (sameCode_build (blind_createBlock _)).bind fun _ =>
      (sameCode_build (blind_createBlock _)).bind fun _ =>
        (sameCode_build (blind_setTerminator _)).bind fun _ =>
          (sameCode_build (blind_setInsertPoint _)).bind fun _ =>
            (lowerCond_erase env c cond).bind fun _ =>
              (sameCode_build (blind_setTerminator _)).bind fun _ =>
                (sameCode_lowerBranch env _ _ (h _)).bind fun _ =>
                  sameCode_build (blind_setInsertPoint _)

/-- Every statement opens the block first. -/
theorem lowerStmt_opens {c : BodyCtx} {loops : List LoopCtx} {env : LocalEnv} (stmt : Stmt) :
    ∃ rest : LowerM LocalEnv, lowerStmt c loops env stmt = ensureOpen >>= fun _ => rest := by
  unfold lowerStmt
  exact ⟨_, rfl⟩

/-- The statement inside a wrapper finds the block open. -/
theorem sameCode_ensureOpen_located (note : SourceAnnotation) {x y : LowerM LocalEnv}
    (h : SameCode x y) (hopens : ∃ rest : LowerM LocalEnv, y = ensureOpen >>= fun _ => rest) :
    SameCode (ensureOpen >>= fun _ => located note x) y := by
  intro s s' a b t t' hview hbelow hx hy
  obtain ⟨u, r, hopen, hlocated⟩ := bind_run_ok_iff.mp hx
  obtain ⟨rest, rfl⟩ := hopens
  obtain ⟨u', r', hopen', hrest⟩ := bind_run_ok_iff.mp hy
  obtain ⟨-, hview', hbelow'⟩ := sameCode_ensureOpen s s' u u' r r' hview hbelow hopen hopen'
  have hplain : s'.builder.fb.Below := by
    rw [hview] at hbelow
    exact hbelow
  refine h.located note r r' a b t t' hview' hbelow' hlocated ?_
  rw [bind_run_ok (ensureOpen_self (ensureOpen_ok hplain hopen'))]
  exact hrest

section

variable {c : BodyCtx}

mutual

theorem lowerStmt_erase {loops : List LoopCtx} {env : LocalEnv} (stmt : Stmt) :
    SameCode (lowerStmt c loops env stmt) (lowerStmt c loops env stmt.erase) := by
  match stmt with
  | .located note s =>
      rw [Stmt.erase, lowerStmt]
      exact sameCode_ensureOpen_located note (lowerStmt_erase s) (lowerStmt_opens s.erase)
  | .volatileStore pointer value =>
      exact sameCode_ensureOpen.bind fun _ => (lowerVolatileStore_erase env c pointer value).bind
        fun _ => agree_pure env
  | .store target value =>
      exact sameCode_ensureOpen.bind fun _ => (lowerStore_erase env c target value).bind
        fun _ => agree_pure env
  | .return value =>
      exact sameCode_ensureOpen.bind fun _ => (lowerReturn_erase env c value).bind
        fun _ => agree_pure env
  | .constDecl name ty init =>
      exact sameCode_ensureOpen.bind fun _ => lowerConstDecl_erase env c name ty init
  | .varDecl name ty init =>
      exact sameCode_ensureOpen.bind fun _ => lowerVarDecl_erase env c name ty init
  | .assign name value =>
      exact sameCode_ensureOpen.bind fun _ => (lowerAssign_erase env c name value).bind
        fun _ => agree_pure env
  | .exprStmt value =>
      exact sameCode_ensureOpen.bind fun _ => (lowerDiscarded_erase value).bind
        fun _ => agree_pure env
  | .ifElse cond thenBody elseBody =>
      exact sameCode_ensureOpen.bind fun _ => (lowerIf_erase env c cond
        (lowerStmts_erase thenBody) (lowerStmts_erase elseBody)).bind fun _ => agree_pure env
  | .while cond body =>
      exact sameCode_ensureOpen.bind fun _ => (lowerWhile_erase env c cond
        fun _ => lowerStmts_erase body).bind fun _ => agree_pure env
  | .break | .continue =>
      refine sameCode_ensureOpen.bind fun _ => ?_
      cases loops with
      | nil => exact sameCode_fail _ _
      | cons loop loops =>
          exact (sameCode_build (blind_setTerminator _)).bind fun _ => agree_pure env

theorem lowerStmts_erase {loops : List LoopCtx} {env : LocalEnv} (stmts : List Stmt) :
    SameCode (lowerStmts c loops env stmts) (lowerStmts c loops env (Stmt.eraseList stmts)) := by
  match stmts with
  | [] => exact agree_pure env
  | stmt :: stmts =>
      exact (lowerStmt_erase stmt).bind fun _ => lowerStmts_erase stmts

end

end

/-! ## Functions and programs -/

theorem sameCode_lowerParams {env : LocalEnv} {index : Nat} (params : List Frontend.Parameter) :
    SameCode (lowerParams env index params) (lowerParams env index params) := by
  induction params generalizing env index with
  | nil => exact agree_pure env
  | cons p params ih =>
      refine agree_get fun s s' hview _ => ?_
      have hfunc := func_of_plain (congrArg Prod.fst hview)
      rw [hfunc]
      exact (agree_orThrow _ _ _).bind fun _ => (sameCode_ofExcept _).bind fun _ =>
        (sameCode_ofLayout _).bind fun _ => (sameCode_build (blind_allocaInEntry _ _)).bind fun _ =>
          (sameCode_build (blind_push _)).bind fun _ => ih

theorem sameCode_lowerEnd (retTy : Ty) : SameCode (lowerEnd retTy) (lowerEnd retTy) := by
  refine sameCode_isCurrentBlockTerminated.bind fun terminated => ?_
  cases terminated with
  | true => exact agree_pure ()
  | false =>
      by_cases hvoid : retTy = .void
      · simp only [if_pos hvoid]
        exact sameCode_build (blind_ret none)
      · simp only [if_neg hvoid]
        exact sameCode_build (blind_setTerminator _)

theorem lowerBody_erase (globals : ConstMap) (retTy : Ty) (f : Frontend.Function) :
    SameCode (lowerBody globals retTy f) (lowerBody globals retTy f.erase) := by
  refine (sameCode_lowerParams f.parameters).bind fun env => (lowerStmts_erase f.body).bind
    fun _ => (sameCode_lowerEnd retTy).bind fun _ => ?_
  intro s s' u u' t t' hview hbelow hx hy
  have hleft := hidden_finishSourceMapping s u t hx
  have hright := hidden_finishSourceMapping s' u' t' hy
  exact ⟨rfl, hleft.trans (hview.trans hright.symm), hleft ▸ hbelow⟩

/-- The module under construction without its source map. -/
def LowerModule.plain (m : LowerModule) : ModuleBuilder × Budget := (m.sources.mb.plain, m.storage)

theorem freshParams_plain (mb : ModuleBuilder) (params : List (String × Ty)) :
    mb.plain.freshParams params = ((mb.freshParams params).1, (mb.freshParams params).2.plain) := by
  induction params generalizing mb with
  | nil => rfl
  | cons param params ih =>
      have hrest := ih mb.freshValue.2
      rw [ModuleBuilder.freshParams, ModuleBuilder.freshParams]
      have hfresh : mb.plain.freshValue.2 = mb.freshValue.2.plain := rfl
      rw [hfresh, hrest]
      rfl

theorem buildFunction_plain (mb : ModuleBuilder) (id : FunctionId) (name : String)
    (params : List (String × Ty)) (retTy : Ty) :
    mb.plain.buildFunction id name params retTy = (mb.buildFunction id name params retTy).plain := by
  unfold ModuleBuilder.buildFunction
  rw [freshParams_plain]
  rfl

theorem beginDeclaredFunction_plain {mb : ModuleBuilder} {id : FunctionId} {names : List String}
    {fb : FunctionBuilder} (h : mb.beginDeclaredFunction id names = .ok fb) :
    mb.plain.beginDeclaredFunction id names = .ok fb.plain := by
  unfold ModuleBuilder.beginDeclaredFunction at h ⊢
  simp only [buildFunction_plain]
  obtain ⟨decl, hdecl, h₁⟩ := bind_ok_iff.mp h
  obtain ⟨u, hsignature, h₂⟩ := bind_ok_iff.mp h₁
  obtain ⟨u', hnew, h₃⟩ := bind_ok_iff.mp h₂
  obtain ⟨u'', hlength, h₄⟩ := bind_ok_iff.mp h₃
  cases h₄
  exact bind_ok_iff.mpr ⟨decl, hdecl, bind_ok_iff.mpr ⟨u, hsignature, bind_ok_iff.mpr
    ⟨u', hnew, bind_ok_iff.mpr ⟨u'', hlength, rfl⟩⟩⟩⟩

theorem finish_plain {fb fb' : FunctionBuilder} (h : fb.plain = fb'.plain) :
    fb.finish.plain = fb'.finish.plain := by
  have hfunc := func_of_plain h
  have hmb : fb.mb.plain = fb'.mb.plain := congrArg FunctionBuilder.mb h
  have hfinish : ∀ fb : FunctionBuilder, fb.finish.plain =
      { fb.mb.plain with
        module := { fb.mb.plain.module with
          functions := fb.mb.plain.module.functions ++ [fb.func] } } := by
    intro fb
    rw [← plain_flush fb.mb fb.func.id fb.func.entry]
    rfl
  rw [hfinish, hfinish, hmb, hfunc]

theorem lowerFunction_erase {globals : ConstMap} {f : Frontend.Function} {m m' n n' : LowerModule}
    (hplain : m.plain = m'.plain) (h : lowerFunction globals m f = .ok n)
    (h' : lowerFunction globals m' f.erase = .ok n') : n.plain = n'.plain := by
  have hmb : m.sources.mb.plain = m'.sources.mb.plain := congrArg Prod.fst hplain
  have hstorage : m.storage = m'.storage := congrArg Prod.snd hplain
  obtain ⟨retTy, hret, h₁⟩ := bind_ok_iff.mp h
  obtain ⟨id, hid, h₂⟩ := bind_ok_iff.mp h₁
  obtain ⟨fb, hbegin, h₃⟩ := bind_ok_iff.mp h₂
  obtain ⟨hcounts, h₄⟩ := require_then_ok_iff.mp h₃
  obtain ⟨retTy', hret', h₁'⟩ := bind_ok_iff.mp h'
  obtain ⟨id', hid', h₂'⟩ := bind_ok_iff.mp h₁'
  obtain ⟨fb', hbegin', h₃'⟩ := bind_ok_iff.mp h₂'
  obtain ⟨-, h₄'⟩ := require_then_ok_iff.mp h₃'
  obtain rfl : retTy = retTy' := Except.ok.inj (hret.symm.trans hret')
  have hids : m.sources.mb.functionId f.name = m'.sources.mb.functionId f.name := by
    rw [show m.sources.mb.functionId f.name = m.sources.mb.plain.functionId f.name from rfl, hmb]
    rfl
  obtain rfl : id = id' := by
    rw [hids] at hid
    exact Except.ok.inj (hid.symm.trans hid')
  have hstart : fb.plain = fb'.plain := by
    have hleft := beginDeclaredFunction_plain (mapError_ok_iff.mp hbegin)
    have hright := beginDeclaredFunction_plain (mapError_ok_iff.mp hbegin')
    rw [hmb] at hleft
    exact Except.ok.inj (hleft.symm.trans hright)
  have hbelow : fb.Below := by
    obtain ⟨name, params, ty, rfl⟩ := beginDeclaredFunction_ok (mapError_ok_iff.mp hbegin)
    obtain ⟨hbuilder, -, -, hblocks⟩ :=
      ModuleBuilder.buildFunction_entry m.sources.mb id name params ty
    intro b hb
    rw [hblocks] at hb
    rw [List.mem_singleton.mp hb, hbuilder]
    show (UInt32.ofNat m.sources.mb.nextBlock).toNat < m.sources.mb.nextBlock + 1
    rw [UInt32.toNat_ofNat']
    exact Nat.lt_succ_of_le (Nat.mod_le _ _)
  cases hrun : lowerBody globals retTy f ⟨⟨fb, m.sources.sourceWork⟩, m.storage⟩ with
  | error e t =>
      rw [hrun] at h₄
      cases h₄
  | ok u t =>
      cases hrun' : lowerBody globals retTy f.erase ⟨⟨fb', m'.sources.sourceWork⟩, m'.storage⟩ with
      | error e t' =>
          rw [hrun'] at h₄'
          cases h₄'
      | ok u' t' =>
          rw [hrun] at h₄
          rw [hrun'] at h₄'
          cases h₄
          cases h₄'
          have hview₀ : LowerState.plain ⟨⟨fb, m.sources.sourceWork⟩, m.storage⟩ =
              LowerState.plain ⟨⟨fb', m'.sources.sourceWork⟩, m'.storage⟩ :=
            Prod.ext hstart hstorage
          obtain ⟨-, hview, -⟩ := lowerBody_erase globals retTy f _ _ _ _ _ _ hview₀ hbelow hrun hrun'
          have hbuilder : t.builder.fb.plain = t'.builder.fb.plain := congrArg Prod.fst hview
          have hspent : t.storage = t'.storage := congrArg Prod.snd hview
          exact Prod.ext (finish_plain hbuilder) hspent

/-- What a global depends on and changes, without the source map. -/
def globalsPlain (m : SourceModule × ConstMap) : ModuleBuilder × ConstMap := (m.1.mb.plain, m.2)

theorem lowerGlobal_ok {m n : SourceModule × ConstMap} {g : Frontend.GlobalConst}
    (h : lowerGlobal m g = .ok n) : ∃ expression value align id mb,
      evalConstExpr g.init ⟨none, m.2⟩ = .ok (expression, value) ∧
      allocationAlign expression.ty = .ok align ∧
      ModuleBuilder.addGlobalConst g.name expression value (UInt32.ofNat align) m.1.mb =
        .ok id mb ∧
      globalsPlain n = (mb.plain, m.2.insert g.name (id, expression.ty, value)) := by
  obtain ⟨-, h₁⟩ := require_then_ok_iff.mp h
  obtain ⟨declTy, _, h₂⟩ := bind_ok_iff.mp h₁
  obtain ⟨⟨expression, value⟩, heval, h₃⟩ := bind_ok_iff.mp h₂
  obtain ⟨-, h₄⟩ := require_then_ok_iff.mp h₃
  obtain ⟨align, halign, h₅⟩ := bind_ok_iff.mp h₄
  cases hadd : ModuleBuilder.addGlobalConst g.name expression value (UInt32.ofNat align)
      m.1.mb with
  | error e mb =>
      simp only [hadd] at h₅
      cases h₅
  | ok id mb =>
      simp only [hadd] at h₅
      obtain ⟨s, hretain, h₆⟩ := bind_ok_iff.mp h₅
      have hs : s.mb.plain = mb.plain := plain_retainConstSources (mapError_ok_iff.mp hretain)
      have hn : globalsPlain n = (s.mb.plain, m.2.insert g.name (id, expression.ty, value)) := by
        split at h₆
        · obtain ⟨s', hannotate, h₇⟩ := bind_ok_iff.mp h₆
          cases h₇
          obtain ⟨s₁, hsource, h₈⟩ := bind_ok_iff.mp (mapError_ok_iff.mp hannotate)
          cases h₈
          have hplain : s₁.mb.plain = s.mb.plain := plain_retainSource hsource
          exact Prod.ext hplain rfl
        · cases h₆
          rfl
      rw [hs] at hn
      exact ⟨expression, value, align, id, mb, mapError_ok_iff.mp heval,
        mapError_ok_iff.mp halign, hadd, hn⟩

theorem lowerGlobal_erase {g : Frontend.GlobalConst} {m m' n n' : SourceModule × ConstMap}
    (hplain : globalsPlain m = globalsPlain m') (h : lowerGlobal m g = .ok n)
    (h' : lowerGlobal m' g.erase = .ok n') : globalsPlain n = globalsPlain n' := by
  have hmb : m.1.mb.plain = m'.1.mb.plain := congrArg Prod.fst hplain
  have hconsts : m.2 = m'.2 := by
    have h := congrArg Prod.snd hplain
    exact h
  obtain ⟨expression, value, align, id, mb, heval, halign, hadd, hn⟩ := lowerGlobal_ok h
  obtain ⟨expression', value', align', id', mb', heval', halign', hadd', hn'⟩ := lowerGlobal_ok h'
  rw [hconsts] at heval
  obtain ⟨rfl, rfl⟩ := Prod.mk.inj (evalConstExpr_erase heval heval')
  obtain rfl : align = align' := Except.ok.inj (halign.symm.trans halign')
  cases hadd
  cases hadd'
  have hnext : m.1.mb.nextGlobal = m'.1.mb.nextGlobal := by
    have h := congrArg ModuleBuilder.nextGlobal hmb
    exact h
  rw [hn, hn', hconsts, hnext]
  refine Prod.ext ?_ rfl
  exact congrArg (fun p : ModuleBuilder => { p with
    nextGlobal := m'.1.mb.nextGlobal + 1
    module := { p.module with
      globals := p.module.globals ++ [({ id := ⟨m'.1.mb.nextGlobal⟩, name := g.name
                                         ty := expression.ty, init := value
                                         initExpr := expression
                                         align := UInt32.ofNat align } : Global)] } }) hmb

/-- **Source locations do not change code**: a program and the program without its wrappers, when
both are lowered, give modules that differ in their source maps only. -/
theorem lower_erase {p : Frontend.Program} {target : String} {datalayout : DataLayout}
    {limits limits' : Frontend.AstLimits} {m m' : Module}
    (h : lowerO0WithLimits p target datalayout limits = .ok m)
    (h' : lowerO0WithLimits p.erase target datalayout limits' = .ok m') :
    { m with sources := m'.sources } = m' := by
  obtain ⟨-, -, h₁⟩ := bind_ok_iff.mp h
  obtain ⟨-, h₂⟩ := require_then_ok_iff.mp h₁
  obtain ⟨-, h₃⟩ := require_then_ok_iff.mp h₂
  obtain ⟨names, -, h₄⟩ := bind_ok_iff.mp h₃
  obtain ⟨mb, hexternal, h₅⟩ := bind_ok_iff.mp h₄
  obtain ⟨mb₁, hdefined, h₆⟩ := bind_ok_iff.mp h₅
  obtain ⟨-, -, h₇⟩ := bind_ok_iff.mp h₆
  obtain ⟨⟨sources, globals⟩, hglobals, h₈⟩ := bind_ok_iff.mp h₇
  obtain ⟨n, hfunctions, h₉⟩ := bind_ok_iff.mp h₈
  cases h₉
  obtain ⟨-, -, h₁'⟩ := bind_ok_iff.mp h'
  obtain ⟨-, h₂'⟩ := require_then_ok_iff.mp h₁'
  obtain ⟨-, h₃'⟩ := require_then_ok_iff.mp h₂'
  obtain ⟨names', -, h₄'⟩ := bind_ok_iff.mp h₃'
  obtain ⟨mb', hexternal', h₅'⟩ := bind_ok_iff.mp h₄'
  obtain ⟨mb₁', hdefined', h₆'⟩ := bind_ok_iff.mp h₅'
  obtain ⟨-, -, h₇'⟩ := bind_ok_iff.mp h₆'
  obtain ⟨⟨sources', globals'⟩, hglobals', h₈'⟩ := bind_ok_iff.mp h₇'
  obtain ⟨n', hfunctions', h₉'⟩ := bind_ok_iff.mp h₈'
  cases h₉'
  obtain rfl : mb = mb' := Except.ok.inj (hexternal.symm.trans hexternal')
  have hglobals₂ : (p.globals.map Frontend.GlobalConst.erase).foldlM lowerGlobal
      (⟨mb₁', limits'.maxSourceWork⟩, []) = .ok (sources', globals') := hglobals'
  have hfunctions₂ : (p.functions.map Frontend.Function.erase).foldlM (lowerFunction globals')
      ⟨sources', _⟩ = .ok n' := hfunctions'
  have hsame : (p.functions.map Frontend.Function.erase).foldlM declareDefined mb =
      p.functions.foldlM declareDefined mb := List.foldlM_map
  obtain rfl : mb₁ = mb₁' := by
    have hdefined₂ := hsame.symm.trans hdefined'
    exact Except.ok.inj (hdefined.symm.trans hdefined₂)
  have hstart : globalsPlain (⟨mb₁, limits.maxSourceWork⟩, []) =
      globalsPlain (⟨mb₁, limits'.maxSourceWork⟩, []) := rfl
  have hafter := foldlM_related (g := Frontend.GlobalConst.erase)
    (R := fun m m' => globalsPlain m = globalsPlain m')
    (fun hplain hstep hstep' => lowerGlobal_erase hplain hstep hstep') hstart hglobals hglobals₂
  obtain rfl : globals = globals' := by
    have h := congrArg Prod.snd hafter
    exact h
  have hsources : sources.mb.plain = sources'.mb.plain := congrArg Prod.fst hafter
  have hstorage : LowerModule.plain ⟨sources, ⟨IrLimits.default, IrLimits.default.maxNodes⟩⟩ =
      LowerModule.plain ⟨sources', ⟨IrLimits.default, IrLimits.default.maxNodes⟩⟩ :=
    Prod.ext hsources rfl
  have hplain : n.plain = n'.plain :=
    foldlM_related (g := Frontend.Function.erase)
      (R := fun m m' : LowerModule => m.plain = m'.plain)
      (fun hplain hstep hstep' => lowerFunction_erase hplain hstep hstep')
      hstorage hfunctions hfunctions₂
  have hmodule : n.sources.mb.module.plain = n'.sources.mb.module.plain :=
    congrArg (fun q : ModuleBuilder × Budget => q.1.module) hplain
  exact congrArg (fun q : Module => { q with sources := n'.sources.mb.module.sources }) hmodule

/-- `f(i) { var a = [1, 2]; a[i] = 3; return a[i]; }`, with wrappers on the assignment, on both
places and on an index. -/
def locatedProgram : Frontend.Program where
  declarations := []
  globals := []
  functions := [{
    convention := .whale, linkage := .internal, linkName := none, name := "f"
    parameters := [⟨"i", .int 64 true⟩], returnType := .int 32 true
    body := [
      .varDecl "a" (.array (.int 32 true) 2)
        (some (.array (.array (.int 32 true) 2)
          [.lit (.int 32 true "1"), .lit (.int 32 true "2")])),
      .located ⟨1, none⟩ (.store (.located ⟨2, some ⟨"a.wave", 1, 1, 1, 5⟩⟩
        (.index (.var "a") (.located ⟨3, none⟩ (.var "i")))) (.lit (.int 32 true "3"))),
      .return (some (.located ⟨4, none⟩ (.index (.located ⟨5, none⟩ (.var "a")) (.var "i"))))] }]

theorem lower_erase_located : ∃ m m',
    lowerO0WithLimits locatedProgram targetName targetLayout .default = .ok m ∧
      lowerO0WithLimits locatedProgram.erase targetName targetLayout .default = .ok m' ∧
      { m with sources := m'.sources } = m' := by
  have hok : (lowerO0WithLimits locatedProgram targetName targetLayout .default).isOk = true := by
    decide +kernel
  have hok' : (lowerO0WithLimits locatedProgram.erase targetName targetLayout .default).isOk =
      true := by
    decide +kernel
  cases h : lowerO0WithLimits locatedProgram targetName targetLayout .default with
  | error e =>
      rw [h] at hok
      cases hok
  | ok m =>
      cases h' : lowerO0WithLimits locatedProgram.erase targetName targetLayout .default with
      | error e =>
          rw [h'] at hok'
          cases hok'
      | ok m' => exact ⟨m, m', rfl, rfl, lower_erase h h'⟩

end Lower

end Whale
