import Whale.Builder.Spec

set_option autoImplicit false

/-! # What holds in every session with the builder

Operations on the module leave the functions alone, a new function starts with its
parameters, and the operations on it are sound, so the invariant holds after every sequence of
calls (`builder_invariant`). -/

namespace Whale

/-! ## Operations on the module -/

/-- Globals and declarations change, and the number of the next global. -/
def ModuleBuilder.Grows (mb mb' : ModuleBuilder) : Prop :=
  ∃ globals storage declarations nextGlobal,
    mb' = { mb with
      nextGlobal := nextGlobal
      module := { mb.module with
        globals := globals, globalStorage := storage, declarations := declarations } }

/-- The operation leaves the functions and their values alone, and does nothing on failure. -/
structure ModuleSound {α : Type} (x : ModuleBuilderM α) : Prop where
  ok : ∀ mb a mb', x mb = .ok a mb' →
    mb'.module.functions = mb.module.functions ∧ mb'.nextValue = mb.nextValue
  error : ∀ mb e mb', x mb = .error e mb' → mb' = mb

/-- The operation grows the module, and does nothing on failure. -/
structure Growing {α : Type} (x : ModuleBuilderM α) : Prop where
  ok : ∀ mb a mb', x mb = .ok a mb' → mb.Grows mb'
  error : ∀ mb e mb', x mb = .error e mb' → mb' = mb

variable {α β : Type}

variable {x : ModuleBuilderM α}

theorem Growing.sound (h : Growing x) : ModuleSound x where
  ok := fun mb a mb' hrun => by
    obtain ⟨_, _, _, _, rfl⟩ := h.ok mb a mb' hrun
    exact ⟨rfl, rfl⟩
  error := h.error

/-- The operation computes a result from the state and leaves it as it is. -/
structure ModuleReads {α : Type} (x : ModuleBuilderM α) : Prop where
  ok : ∀ mb a mb', x mb = .ok a mb' → mb' = mb
  error : ∀ mb e mb', x mb = .error e mb' → mb' = mb

theorem ModuleReads.bind {f : α → ModuleBuilderM β} (hx : ModuleReads x) (hf : ∀ a, Growing (f a)) :
    Growing (x >>= f) where
  ok := fun mb b mb' h => by
    obtain ⟨a, t, hrun, hrest⟩ := bind_run_ok_iff.mp h
    rw [hx.ok mb a t hrun] at hrest
    exact (hf a).ok mb b mb' hrest
  error := fun mb e mb' h => by
    rcases bind_run_error_iff.mp h with hrun | ⟨a, t, hrun, hrest⟩
    · exact hx.error mb e mb' hrun
    · rw [hx.ok mb a t hrun] at hrest
      exact (hf a).error mb e mb' hrest

theorem Growing.discard (h : Growing x) :
    Growing (discard x) where
  ok := fun mb u mb' hrun => by
    obtain ⟨a, t, hx, hpure⟩ := bind_run_ok_iff.mp hrun
    cases hpure
    exact h.ok mb a mb' hx
  error := fun mb e mb' hrun => by
    rcases bind_run_error_iff.mp hrun with hx | ⟨a, t, hx, hpure⟩
    · exact h.error mb e mb' hx
    · cases hpure

theorem moduleReads_require (c : Prop) [Decidable c] (e : BuildFailure) :
    ModuleReads (require c e : ModuleBuilderM Unit) where
  ok := fun _ _ _ h => (require_run_ok_iff.mp h).2
  error := fun _ _ _ h => require_run_error h

theorem moduleReads_raise {ε : Type} (x : Except ε α) (f : ε → BuildFailure) :
    ModuleReads (orRaise x f : ModuleBuilderM α) where
  ok := fun _ _ _ h => (orRaise_run_ok_iff.mp h).2
  error := fun _ _ _ h => orRaise_run_error h

theorem moduleReads_get : ModuleReads (get : ModuleBuilderM ModuleBuilder) where
  ok := fun _ _ _ h => by
    cases h
    rfl
  error := fun _ _ _ h => nomatch h

theorem growing_pure (a : α) : Growing (pure a : ModuleBuilderM α) where
  ok := fun _ _ _ h => by
    cases h
    exact ⟨_, _, _, _, rfl⟩
  error := fun _ _ _ h => nomatch h

theorem growing_addGlobalConst (name : String) (expression : ConstExpr) (init : ConstValue)
    (align : UInt32) : Growing (ModuleBuilder.addGlobalConst name expression init align) where
  ok := fun _ _ _ h => by
    cases h
    exact ⟨_, _, _, _, rfl⟩
  error := fun _ _ _ h => nomatch h

/-- Checked first, stored last. -/
theorem growing_tryAddGlobalStorage (storage : GlobalStorage) :
    Growing (ModuleBuilder.tryAddGlobalStorage storage) where
  ok := fun mb a mb' h => by
    unfold ModuleBuilder.tryAddGlobalStorage at h
    rw [bind_run_ok (get_run _)] at h
    obtain ⟨_, _, h₁, h⟩ := bind_run_ok_iff.mp h
    obtain ⟨-, rfl⟩ := orRaise_run_ok_iff.mp h₁
    obtain ⟨_, _, h₂, h⟩ := bind_run_ok_iff.mp h
    obtain ⟨-, rfl⟩ := require_run_ok_iff.mp h₂
    obtain ⟨_, _, h₃, h⟩ := bind_run_ok_iff.mp h
    obtain ⟨-, rfl⟩ := require_run_ok_iff.mp h₃
    obtain ⟨_, _, h₄, h⟩ := bind_run_ok_iff.mp h
    obtain ⟨-, rfl⟩ := require_run_ok_iff.mp h₄
    cases h
    exact ⟨_, _, _, _, rfl⟩
  error := fun mb e mb' h => by
    unfold ModuleBuilder.tryAddGlobalStorage at h
    rw [bind_run_ok (get_run _)] at h
    rcases bind_run_error_iff.mp h with h₁ | ⟨_, _, h₁, h⟩
    · exact orRaise_run_error h₁
    obtain ⟨-, rfl⟩ := orRaise_run_ok_iff.mp h₁
    rcases bind_run_error_iff.mp h with h₂ | ⟨_, _, h₂, h⟩
    · exact require_run_error h₂
    obtain ⟨-, rfl⟩ := require_run_ok_iff.mp h₂
    rcases bind_run_error_iff.mp h with h₃ | ⟨_, _, h₃, h⟩
    · exact require_run_error h₃
    obtain ⟨-, rfl⟩ := require_run_ok_iff.mp h₃
    rcases bind_run_error_iff.mp h with h₄ | ⟨_, _, h₄, h⟩
    · exact require_run_error h₄
    cases h

theorem growing_addDeclaration (candidate : FunctionDecl) :
    Growing (ModuleBuilder.addDeclaration candidate) where
  ok := fun mb a mb' h => by
    unfold ModuleBuilder.addDeclaration at h
    rw [bind_run_ok (get_run _)] at h
    obtain ⟨_, _, h₁, h⟩ := bind_run_ok_iff.mp h
    obtain ⟨-, rfl⟩ := require_run_ok_iff.mp h₁
    cases h
    exact ⟨_, _, _, _, rfl⟩
  error := fun mb e mb' h => by
    unfold ModuleBuilder.addDeclaration at h
    rw [bind_run_ok (get_run _)] at h
    rcases bind_run_error_iff.mp h with h₁ | ⟨_, _, h₁, h⟩
    · exact require_run_error h₁
    cases h

theorem growing_declareFunctionWithLimits (name : String) (signature : FunctionSignature)
    (linkage : Linkage) (linkName : Option String) (limits : IrLimits) :
    Growing (ModuleBuilder.declareFunctionWithLimits name signature linkage linkName limits) :=
  moduleReads_get.bind fun mb => (moduleReads_raise _ _).bind fun _ => by
    cases mb.module.declarations.find? (fun d => d.name = name) with
    | some existing => exact (moduleReads_require _ _).bind fun _ => growing_pure _
    | none => exact growing_addDeclaration _

/-- Every operation on the module, one case for each. -/
theorem growing_moduleOp (op : ModuleOp) : Growing op.run := by
  cases op with
  | addGlobal name ty init align => exact (growing_addGlobalConst _ _ _ _).discard
  | addGlobalConst name expression init align =>
      exact (growing_addGlobalConst _ _ _ _).discard
  | tryAddGlobalStorage storage => exact (growing_tryAddGlobalStorage storage).discard
  | declareFunction name signature linkage linkName =>
      exact (growing_declareFunctionWithLimits _ _ _ _ _).discard
  | declareFunctionWithLimits name signature linkage linkName limits =>
      exact (growing_declareFunctionWithLimits _ _ _ _ _).discard

theorem moduleSound_moduleOp (op : ModuleOp) : ModuleSound op.run := (growing_moduleOp op).sound

/-! ## A new function -/

variable {mb : ModuleBuilder}

namespace ModuleBuilder

/-- Parameters take the next identities, in order. -/
theorem freshParams_spec (mb : ModuleBuilder) (params : List (String × Ty)) :
    (mb.freshParams params).1.map Param.id =
        (List.range' mb.nextValue params.length).map (fun n => ⟨UInt32.ofNat n⟩) ∧
      (mb.freshParams params).2 = { mb with nextValue := mb.nextValue + params.length } := by
  induction params generalizing mb with
  | nil => exact ⟨rfl, rfl⟩
  | cons param params ih =>
      obtain ⟨hids, hmb⟩ := ih mb.freshValue.2
      constructor
      · show ⟨UInt32.ofNat mb.nextValue⟩ :: (mb.freshValue.2.freshParams params).1.map Param.id = _
        rw [hids]
        rfl
      · show (mb.freshValue.2.freshParams params).2 = _
        rw [hmb]
        show { mb with nextValue := mb.nextValue + 1 + params.length } = _
        rw [List.length_cons]
        congr 1
        omega

/-- Below the bound, identities handed out one after the other differ. -/
theorem nodup_identities {first count : Nat} (h : first + count < valueBound) :
    ((List.range' first count).map (fun n => (⟨UInt32.ofNat n⟩ : ValueId))).Nodup := by
  refine List.Nodup.map_on (fun m hm n hn heq => ?_) List.nodup_range'
  rw [List.mem_range'_1] at hm hn
  have hnum : UInt32.ofNat m = UInt32.ofNat n := congrArg ValueId.num heq
  have hmod := congrArg UInt32.toNat hnum
  rw [UInt32.toNat_ofNat', UInt32.toNat_ofNat'] at hmod
  unfold valueBound at h
  rwa [Nat.mod_eq_of_lt (by omega), Nat.mod_eq_of_lt (by omega)] at hmod

theorem buildFunction_mb (mb : ModuleBuilder) (id : FunctionId) (name : String)
    (params : List (String × Ty)) (retTy : Ty) :
    (mb.buildFunction id name params retTy).mb.module = mb.module ∧
      (mb.buildFunction id name params retTy).mb.nextValue = mb.nextValue + params.length := by
  have hmb := (freshParams_spec mb params).2
  constructor
  · show (mb.freshParams params).2.module = mb.module
    rw [hmb]
  · show (mb.freshParams params).2.nextValue = _
    rw [hmb]

theorem buildFunction_entry (mb : ModuleBuilder) (id : FunctionId) (name : String)
    (params : List (String × Ty)) (retTy : Ty) :
    let fb := mb.buildFunction id name params retTy
    fb.mb = { mb with
      nextValue := mb.nextValue + params.length, nextBlock := mb.nextBlock + 1 } ∧
      fb.func.id = id ∧ fb.func.entry = ⟨UInt32.ofNat mb.nextBlock⟩ ∧
      fb.func.blocks = [BasicBlock.new ⟨UInt32.ofNat mb.nextBlock⟩ "entry"] := by
  have hmb := (freshParams_spec mb params).2
  have hnext : (mb.freshParams params).2.nextBlock = mb.nextBlock := by rw [hmb]
  refine ⟨?_, rfl, ?_, ?_⟩
  · show { (mb.freshParams params).2 with
      nextBlock := (mb.freshParams params).2.nextBlock + 1 } = _
    rw [hmb]
  · show (⟨UInt32.ofNat (mb.freshParams params).2.nextBlock⟩ : BlockId) = _
    rw [hnext]
  · show [BasicBlock.new ⟨UInt32.ofNat (mb.freshParams params).2.nextBlock⟩ "entry"] = _
    rw [hnext]

theorem buildFunction_inv (h : mb.Inv) (id : FunctionId) (name : String)
    (params : List (String × Ty)) (retTy : Ty) (hbound : mb.nextValue + params.length < valueBound)
    :
    (mb.buildFunction id name params retTy).Inv := by
  obtain ⟨hmodule, hnext⟩ := buildFunction_mb mb id name params retTy
  refine ⟨h.mono (congrArg Module.functions hmodule) (by omega), ?_⟩
  have hdefinitions : (mb.buildFunction id name params retTy).func.definitions =
      (mb.freshParams params).1.map fun param => (param.id, param.ty) := by
    show _ ++ [] = _
    rw [List.append_nil]
    rfl
  have hids : (mb.buildFunction id name params retTy).func.definitions.map Prod.fst =
      (List.range' mb.nextValue params.length).map (fun n => ⟨UInt32.ofNat n⟩) := by
    rw [hdefinitions, List.map_map, ← (freshParams_spec mb params).1]
    rfl
  refine ⟨?_, ?_, fun d hd => ?_⟩
  · rw [hdefinitions]
    exact .refl _
  · rw [hids]
    exact nodup_identities hbound
  · have hmem := List.mem_map_of_mem (f := Prod.fst) hd
    rw [hids, List.mem_map] at hmem
    obtain ⟨n, hn, heq⟩ := hmem
    rw [List.mem_range'_1] at hn
    rw [← heq, hnext]
    show (UInt32.ofNat n).toNat < _
    rw [UInt32.toNat_ofNat']
    exact Nat.lt_of_le_of_lt (Nat.mod_le _ _) hn.2

theorem flushSourceShifts_mb (mb : ModuleBuilder) (function : FunctionId) (entry : BlockId) :
    (mb.flushSourceShifts function entry).module.functions = mb.module.functions ∧
      (mb.flushSourceShifts function entry).nextValue = mb.nextValue := by
  unfold flushSourceShifts
  cases mb.sourceShifts.get function with
  | none => exact ⟨rfl, rfl⟩
  | some shift => exact ⟨rfl, rfl⟩

end ModuleBuilder

/-- The finished function joins the others. -/
theorem FunctionBuilder.Inv.finish {fb : FunctionBuilder} (h : fb.Inv) : fb.finish.Inv := by
  obtain ⟨hfunctions, hnext⟩ := fb.mb.flushSourceShifts_mb fb.func.id fb.func.entry
  intro f hf
  have hnext' : fb.finish.nextValue = fb.mb.nextValue := hnext
  rw [hnext']
  have hmem : f ∈ (fb.mb.flushSourceShifts fb.func.id fb.func.entry).module.functions ++
      [fb.func] := hf
  rw [hfunctions, List.mem_append, List.mem_singleton] at hmem
  rcases hmem with hmem | rfl
  · exact h.module f hmem
  · exact h.function

/-! ## Sessions -/

variable {s s' : BuilderState}

namespace BuilderState

def Inv : BuilderState → Prop
  | idle mb => mb.Inv
  | building fb => fb.Inv

/-- The finished functions, and the one under construction. -/
def functions : BuilderState → List Function
  | idle mb => mb.module.functions
  | building fb => fb.mb.module.functions ++ [fb.func]

theorem Inv.function (h : s.Inv) {f : Function} (hf : f ∈ s.functions) :
    ValuesInv f s.nextValue := by
  cases s with
  | idle mb => exact h f hf
  | building fb =>
      rcases List.mem_append.mp hf with hf | hf
      · exact FunctionBuilder.Inv.module h f hf
      · rw [List.mem_singleton.mp hf]
        exact FunctionBuilder.Inv.function h

/-- What a step of a session does. -/
def Advances (s s' : BuilderState) : Prop :=
  s.nextValue ≤ s'.nextValue ∧ (s'.nextValue < valueBound → s.Inv → s'.Inv)

theorem Advances.refl (s : BuilderState) : s.Advances s := ⟨Nat.le_refl _, fun _ h => h⟩

theorem Advances.trans {s s' s'' : BuilderState} (h : s.Advances s') (h' : s'.Advances s'') :
    s.Advances s'' :=
  ⟨Nat.le_trans h.1 h'.1, fun hbound hinv =>
    h'.2 hbound (h.2 (Nat.lt_of_le_of_lt h'.1 hbound) hinv)⟩

theorem advances_buildFunction {mb mb' : ModuleBuilder} (hmodule : mb'.module.functions =
      mb.module.functions) (hnext : mb'.nextValue = mb.nextValue) (id : FunctionId)
    (name : String) (params : List (String × Ty)) (retTy : Ty) :
    (idle mb).Advances (building (mb'.buildFunction id name params retTy)) := by
  have hcount := (mb'.buildFunction_mb id name params retTy).2
  constructor
  · show mb.nextValue ≤ (mb'.buildFunction id name params retTy).mb.nextValue
    omega
  · intro hbound hinv
    have hbound' : (mb'.buildFunction id name params retTy).mb.nextValue < valueBound := hbound
    have hinv' : mb'.Inv := ModuleBuilder.Inv.mono hinv hmodule (by omega)
    exact ModuleBuilder.buildFunction_inv hinv' id name params retTy (by omega)

/-- The declaration that comes with a new function does not touch the functions. -/
theorem advances_beginFunction (mb : ModuleBuilder) (name : String) (params : List (String × Ty))
    (retTy : Ty) : (idle mb).Advances (building (mb.beginFunction name params retTy)) := by
  unfold ModuleBuilder.beginFunction
  refine advances_buildFunction ?_ ?_ _ _ _ _
  · rfl
  · rfl

end BuilderState

open BuilderState

/-- A declared function starts from the module as it is. -/
theorem beginDeclaredFunction_ok {id : FunctionId} {names : List String} {fb : FunctionBuilder}
    (h : mb.beginDeclaredFunction id names = .ok fb) :
    ∃ name params retTy, fb = mb.buildFunction id name params retTy := by
  obtain ⟨decl, -, h₁⟩ := bind_ok_iff.mp h
  obtain ⟨-, -, h₂⟩ := bind_ok_iff.mp h₁
  obtain ⟨-, -, h₃⟩ := bind_ok_iff.mp h₂
  obtain ⟨-, -, h₄⟩ := bind_ok_iff.mp h₃
  cases h₄
  exact ⟨_, _, _, rfl⟩

/-- A call advances the session, or fails and leaves it alone, or panics. -/
theorem call_spec {op : BuilderOp} {failure : Option BuildFailure}
    (h : op.call s = some (failure, s')) :
    (failure = none → s.Advances s') ∧ ∀ e, failure = some e → e = .panic ∨ s' = s := by
  -- Idle, only the module's operations run; while building, only the function's.
  cases s with
  | idle mb =>
      cases op with
      | module op =>
          have hop := moduleSound_moduleOp op
          cases hrun : op.run mb with
          | ok u mb' =>
              simp only [BuilderOp.call, outcome, hrun] at h
              cases h
              obtain ⟨hfunctions, hnext⟩ := hop.ok mb u mb' hrun
              refine ⟨fun _ => ⟨Nat.le_of_eq hnext.symm, fun _ hinv => ?_⟩, fun _ h => nomatch h⟩
              exact ModuleBuilder.Inv.mono hinv hfunctions (Nat.le_of_eq hnext.symm)
          | error e mb' =>
              simp only [BuilderOp.call, outcome, hrun] at h
              cases h
              refine ⟨fun h => (nomatch h), fun _ _ => .inr ?_⟩
              rw [hop.error mb e mb' hrun]
      | beginFunction name params retTy =>
          cases h
          exact ⟨fun _ => advances_beginFunction mb name params retTy, fun _ h => nomatch h⟩
      | beginDeclaredFunction id names =>
          cases hbegin : mb.beginDeclaredFunction id names with
          | error e =>
              simp only [BuilderOp.call, hbegin] at h
              cases h
              exact ⟨fun h => (nomatch h), fun _ _ => .inr rfl⟩
          | ok fb =>
              simp only [BuilderOp.call, hbegin] at h
              cases h
              obtain ⟨name, params, retTy, rfl⟩ := beginDeclaredFunction_ok hbegin
              exact ⟨fun _ => advances_buildFunction rfl rfl _ _ _ _, fun _ h => nomatch h⟩
      | function op => cases h
      | finish => cases h
      | drop => cases h
  | building fb =>
      cases op with
      | function op =>
          have hop := sound_functionOp op
          cases hrun : op.run fb with
          | ok u fb' =>
              simp only [BuilderOp.call, outcome, hrun] at h
              cases h
              exact ⟨fun _ => hop.ok fb u fb' hrun, fun _ h => nomatch h⟩
          | error e fb' =>
              simp only [BuilderOp.call, outcome, hrun] at h
              cases h
              refine ⟨fun h => (nomatch h), fun _ he => ?_⟩
              cases he
              rcases hop.error fb e fb' hrun with hpanic | hsame
              · exact .inl hpanic
              · exact .inr (by rw [hsame])
      | finish =>
          cases h
          have hnext := (fb.mb.flushSourceShifts_mb fb.func.id fb.func.entry).2
          refine ⟨fun _ => ⟨Nat.le_of_eq hnext.symm, fun _ hinv => ?_⟩, fun _ h => nomatch h⟩
          exact FunctionBuilder.Inv.finish hinv
      | drop =>
          cases h
          refine ⟨fun _ => ⟨Nat.le_refl _, fun _ hinv => ?_⟩, fun _ h => nomatch h⟩
          exact FunctionBuilder.Inv.module hinv
      | module op => cases h
      | beginFunction name params retTy => cases h
      | beginDeclaredFunction id names => cases h

/-- One step of a session, whether the call fails or not. -/
theorem step_advances {op : BuilderOp} (h : op.step s = some s') : s.Advances s' := by
  unfold BuilderOp.step at h
  cases hcall : op.call s with
  | none =>
      rw [hcall] at h
      cases h
  | some outcome =>
      obtain ⟨failure, t⟩ := outcome
      rw [hcall] at h
      by_cases hpanic : failure = some .panic
      · simp only [if_pos hpanic] at h
        cases h
      · simp only [if_neg hpanic] at h
        cases h
        obtain ⟨hok, herror⟩ := call_spec hcall
        cases failure with
        | none => exact hok rfl
        | some e =>
            rcases herror e rfl with rfl | rfl
            · exact absurd rfl hpanic
            · exact BuilderState.Advances.refl _

/-- A whole session, by induction on the calls. -/
theorem runBuilder_advances {ops : List BuilderOp} (h : runBuilder ops s = some s') :
    s.Advances s' := by
  unfold runBuilder at h
  induction ops generalizing s with
  | nil =>
      cases h
      exact BuilderState.Advances.refl _
  | cons op ops ih =>
      rw [List.foldlM_cons] at h
      obtain ⟨t, hstep, hrest⟩ := Option.bind_eq_some_iff.mp h
      exact (step_advances hstep).trans (ih hrest)

/-- After any calls that defined fewer than `2 ^ 32` values, every identity is defined once, has
one annotation with its type, and is below the next one, so that the verifier accepts the
identities of every function; and a call that returns an error changes nothing. -/
theorem builder_invariant (target : String) (layout : DataLayout) (ops : List BuilderOp)
    (s : BuilderState) (hrun : runBuilder ops (.idle (.new target layout)) = some s)
    (hcount : s.nextValue < 2 ^ 32) :
    (∀ f ∈ s.functions,
      (f.definitions.map Prod.fst).Nodup ∧ f.valueTypes.Perm f.definitions ∧
        (∀ d ∈ f.definitions, d.1.num.toNat < s.nextValue) ∧ verifyValueTypes f = .ok ()) ∧
      ∀ op e s', BuilderOp.call op s = some (some e, s') → e ≠ .panic → s' = s := by
  have hempty : (BuilderState.idle (.new target layout)).Inv := fun _ hf => nomatch hf
  have hinv : s.Inv := (runBuilder_advances hrun).2 hcount hempty
  refine ⟨fun f hf => ?_, fun op e s' hcall he => ?_⟩
  · have hvalues := hinv.function hf
    exact ⟨hvalues.nodup, hvalues.types, hvalues.below, hvalues.verifies⟩
  · exact ((call_spec hcall).2 e rfl).resolve_left he

/-- A function that allocates, adds, fails to branch to a block it does not have, and returns. -/
def doublingSession : List BuilderOp :=
  [.beginFunction "double" [("x", .i32)] .i32, .function (.tryAdd .i32 ⟨0⟩ ⟨0⟩),
    .function (.tryAllocaInEntry .i32 4), .function (.tryBr ⟨7⟩), .function (.tryRet (some ⟨1⟩)),
    .finish]

def doublingState : BuilderState :=
  (runBuilder doublingSession (.idle (.new "x86_64-whale-linux" ⟨64, .little⟩))).getD
    (.idle (.new "" ⟨64, .little⟩))

theorem builder_invariant_doubling :
    (∀ f ∈ doublingState.functions,
      (f.definitions.map Prod.fst).Nodup ∧ f.valueTypes.Perm f.definitions ∧
        (∀ d ∈ f.definitions, d.1.num.toNat < doublingState.nextValue) ∧
        verifyValueTypes f = .ok ()) ∧
      ∀ op e s', BuilderOp.call op doublingState = some (some e, s') → e ≠ .panic →
        s' = doublingState :=
  builder_invariant "x86_64-whale-linux" ⟨64, .little⟩ doublingSession doublingState
    (by decide +kernel) (by decide +kernel)

end Whale
