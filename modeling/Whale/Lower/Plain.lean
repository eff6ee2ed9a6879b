import Whale.Builder.Invariant
import Whale.Lib.Effects
import Whale.Lower.Lower

set_option autoImplicit false

/-! # Lowering without its source map

The view of a builder without source metadata. Operations on a function under construction do not
look at it (`Agree`), and checkpoints and annotations change nothing else (`Hidden`). Every
operation keeps block identities below the next one, so that a new block is open. -/

namespace Whale

open Frontend (AstLimitError)

/-! ## The view -/

/-- The module without its source map. -/
def Module.plain (m : Module) : Module := { m with sources := ⟨[], [], []⟩ }

def ModuleBuilder.plain (mb : ModuleBuilder) : ModuleBuilder :=
  { mb with module := mb.module.plain, sourceShifts := [], sourceMappedFunctions := [] }

def FunctionBuilder.plain (fb : FunctionBuilder) : FunctionBuilder := { fb with mb := fb.mb.plain }

theorem func_of_plain {fb fb' : FunctionBuilder} (h : fb.plain = fb'.plain) :
    fb.func = fb'.func := by
  have hfunc := congrArg FunctionBuilder.func h
  exact hfunc

/-- The blocks of the function have identities below the next one. -/
def FunctionBuilder.Below (fb : FunctionBuilder) : Prop :=
  ∀ b ∈ fb.func.blocks, b.id.num.toNat < fb.mb.nextBlock

/-! ## Operations on a function under construction -/

/-- The operation does the same with every source map. -/
abbrev Blind {α : Type} (op : BuildM α) : Prop :=
  Agree FunctionBuilder.plain FunctionBuilder.Below op op

section

variable {α β : Type}

theorem Blind.bind {x : BuildM α} {f : α → BuildM β} (hx : Blind x) (hf : ∀ a, Blind (f a)) :
    Blind (x >>= f) := Agree.bind hx hf

theorem blind_pure (a : α) : Blind (pure a) := agree_pure a

/-- A check that does not read the source map. -/
theorem blind_raise {ε : Type} {x : FunctionBuilder → Except ε α} {f : ε → BuildFailure}
    (hx : ∀ fb, x fb.plain = x fb) : Blind (get >>= fun fb => orRaise (x fb) f) := by
  refine agree_get fun fb fb' hview _ => ?_
  rw [← hx fb, ← hx fb', hview]
  exact agree_raise_self _ _

/-- An update that does not read the source map. -/
theorem blind_update {f : FunctionBuilder → FunctionBuilder} {g : FunctionBuilder → α}
    (hf : ∀ fb, (f fb.plain).plain = (f fb).plain) (hg : ∀ fb, g fb.plain = g fb)
    (hbelow : ∀ fb, fb.Below → (f fb).Below) : Blind (do
      let fb ← get
      set (f fb)
      return g fb) := by
  refine agree_get fun fb fb' hview hp => ?_
  have hkeep : (f fb).plain.Below := hbelow fb hp
  refine (agree_set ?_ hkeep).bind fun _ => ?_
  · rw [← hf fb, ← hf fb', hview]
  · rw [← hg fb, ← hg fb', hview]
    exact agree_pure _

theorem blind_modify {f : FunctionBuilder → FunctionBuilder}
    (hf : ∀ fb, (f fb.plain).plain = (f fb).plain) (hbelow : ∀ fb, fb.Below → (f fb).Below) :
    Blind (modify f) :=
  agree_modify (fun fb fb' hview => by rw [← hf fb, ← hf fb', hview]) hbelow

theorem blind_test {x : FunctionBuilder → Except BuilderError α} (hx : ∀ fb, x fb.plain = x fb) :
    Blind (test x) := blind_raise hx

theorem blind_testCall {x : FunctionBuilder → Except CallError α} (hx : ∀ fb, x fb.plain = x fb) :
    Blind (testCall x) := blind_raise hx

theorem blind_expect {x : FunctionBuilder → Except BuilderError Unit}
    (hx : ∀ fb, x fb.plain = x fb) : Blind (expect x) := blind_raise hx

end

theorem blind_defineValue (ty : Ty) : Blind (defineValue ty) :=
  (blind_expect fun _ => rfl).bind fun _ =>
    blind_update (fun _ => rfl) (fun _ => rfl) fun _ h => h

theorem mem_updateBlock {bb : BlockId} {f : BasicBlock → BasicBlock} {b : BasicBlock}
    {bs : List BasicBlock} (h : b ∈ updateBlock bb f bs) : b ∈ bs ∨ ∃ b' ∈ bs, b = f b' := by
  induction bs with
  | nil => cases h
  | cons c bs ih =>
      rw [updateBlock] at h
      split at h
      · rcases List.mem_cons.mp h with rfl | h
        · exact Or.inr ⟨c, List.mem_cons_self, rfl⟩
        · exact Or.inl (List.mem_cons_of_mem _ h)
      · rcases List.mem_cons.mp h with rfl | h
        · exact Or.inl List.mem_cons_self
        · rcases ih h with h | ⟨b', hb', heq⟩
          · exact Or.inl (List.mem_cons_of_mem _ h)
          · exact Or.inr ⟨b', List.mem_cons_of_mem _ hb', heq⟩

theorem below_updateBlock {bb : BlockId} {f : BasicBlock → BasicBlock} {next : Nat}
    {bs : List BasicBlock} (hf : ∀ b, (f b).id = b.id) (h : ∀ b ∈ bs, b.id.num.toNat < next) :
    ∀ b ∈ updateBlock bb f bs, b.id.num.toNat < next := by
  intro b hb
  rcases mem_updateBlock hb with hb | ⟨b', hb', rfl⟩
  · exact h b hb
  · rw [hf]
    exact h b' hb'

theorem blind_updateCurrent {f : BasicBlock → BasicBlock} (hf : ∀ b, (f b).id = b.id) :
    Blind (updateCurrent f) :=
  (blind_expect fun _ => rfl).bind fun _ =>
    blind_modify (fun _ => rfl) fun _ h => below_updateBlock hf h

theorem blind_push (i : Instruction) : Blind (push i) := blind_updateCurrent fun _ => rfl

theorem blind_setTerminator (t : Terminator) : Blind (setTerminator t) :=
  blind_updateCurrent fun _ => rfl

theorem blind_emit (ty : Ty) (instruction : ValueId → Instruction) : Blind (emit ty instruction) :=
  (blind_defineValue ty).bind fun dst => (blind_push _).bind fun _ => blind_pure dst

theorem blind_createBlock (name : String) : Blind (createBlock name) := by
  refine blind_update (fun _ => rfl) (fun _ => rfl) fun fb h b hb => ?_
  rcases List.mem_append.mp hb with hb | hb
  · exact Nat.lt_succ_of_lt (h b hb)
  · rw [List.mem_singleton.mp hb]
    show (UInt32.ofNat fb.mb.nextBlock).toNat < fb.mb.nextBlock + 1
    rw [UInt32.toNat_ofNat']
    exact Nat.lt_succ_of_le (Nat.mod_le _ _)

theorem blind_setInsertPoint (bb : BlockId) : Blind (setInsertPoint bb) :=
  (blind_expect fun _ => rfl).bind fun _ => blind_modify (fun _ => rfl) fun _ h => h

theorem blind_ret (value : Option ValueId) : Blind (ret value) := by
  refine agree_get fun fb fb' hview _ => ?_
  have hfunc := func_of_plain hview
  rw [hfunc]
  exact blind_setTerminator _

theorem plain_shiftSources (mb : ModuleBuilder) (function : FunctionId) (position : Nat) :
    (mb.shiftSources function position).plain = mb.plain := by
  unfold ModuleBuilder.shiftSources
  split <;> rfl

/-- Only the pending shift depends on the source map. -/
theorem blind_allocaInEntry (ty : Ty) (align : UInt32) : Blind (allocaInEntry ty align) := by
  refine (blind_defineValue _).bind fun dst => agree_get fun fb fb' hview hbelow => ?_
  have hfunc := func_of_plain hview
  have hblock : fb.findBlock fb.func.entry = fb'.findBlock fb'.func.entry := by
    unfold FunctionBuilder.findBlock
    rw [hfunc]
  rw [hblock]
  refine (agree_orThrow _ _ _).bind fun entry => (agree_set ?_ ?_).bind fun _ => blind_pure dst
  rotate_left
  · show ∀ b ∈ updateBlock _ _ _, b.id.num.toNat < (ModuleBuilder.plain _).nextBlock
    rw [plain_shiftSources]
    exact below_updateBlock (fun _ => rfl) hbelow
  unfold FunctionBuilder.plain
  rw [plain_shiftSources, plain_shiftSources, hfunc]
  exact congrArg (fun p : FunctionBuilder => { p with
    func := { fb'.func with
      blocks := updateBlock fb'.func.entry (fun b => { b with
        instructions := insertAlloca (.alloca dst ty align) b.instructions }) fb'.func.blocks } })
    hview

theorem blind_tryPhi (ty : Ty) (incomings : List (ValueId × BlockId)) :
    Blind (tryPhi ty incomings) :=
  (blind_test fun _ => rfl).bind fun _ => (blind_test fun _ => rfl).bind fun _ =>
    (blind_test fun _ => rfl).bind fun _ => blind_emit _ _

theorem blind_nullFunction (signature : FunctionSignature) : Blind (nullFunction signature) :=
  (blind_testCall fun _ => rfl).bind fun _ => (blind_testCall fun _ => rfl).bind fun _ =>
    blind_emit _ _

theorem blind_functionAddr (function : FunctionId) : Blind (functionAddr function) :=
  (blind_testCall fun _ => rfl).bind fun _ => (blind_testCall fun _ => rfl).bind fun _ =>
    (blind_testCall fun _ => rfl).bind fun _ => blind_emit _ _

theorem checkArguments_plain (fb : FunctionBuilder) (index : Nat) (args : List ValueId)
    (params : List Ty) :
    fb.plain.checkArguments index args params = fb.checkArguments index args params := by
  induction args generalizing index params with
  | nil => rfl
  | cons arg args ih =>
      cases params with
      | nil => rfl
      | cons expected params =>
          rw [FunctionBuilder.checkArguments, FunctionBuilder.checkArguments]
          simp only [ih]
          rfl

theorem blind_call (callee : Callee) (args : List ValueId) : Blind (call callee args) := by
  refine (blind_testCall fun _ => rfl).bind fun _ =>
    (blind_testCall fun _ => rfl).bind fun signature => (blind_testCall fun _ => rfl).bind fun _ =>
      (blind_testCall fun _ => rfl).bind fun _ =>
        (blind_testCall fun fb => checkArguments_plain fb _ _ _).bind fun _ => ?_
  unfold emitCall
  by_cases hvoid : signature.ret = .void
  · rw [if_pos hvoid]
    exact (blind_push _).bind fun _ => blind_pure none
  · rw [if_neg hvoid]
    exact (blind_emit _ _).bind fun dst => blind_pure (some dst)

namespace Lower

open Frontend (Expr StructField TypeRef)

/-! ## Lowering -/

def LowerState.plain (s : LowerState) : FunctionBuilder × Budget :=
  (s.builder.fb.plain, s.storage)

section

variable {α β : Type}

/-- Two lowerings that emit the same. -/
abbrev SameCode (x y : LowerM α) : Prop := Agree LowerState.plain (fun p => p.1.Below) x y

theorem build_ok {op : BuildM α} {s t : LowerState} {a : α} (h : build op s = .ok a t) :
    ∃ fb, op s.builder.fb = .ok a fb ∧ fb.Counts ∧
      t = { s with builder := { s.builder with fb := fb } } := by
  unfold build at h
  cases hop : op s.builder.fb with
  | error e fb =>
      rw [hop] at h
      cases h
  | ok r fb =>
      rw [hop] at h
      by_cases hcounts : fb.Counts
      · simp only [if_pos hcounts] at h
        cases h
        exact ⟨fb, rfl, hcounts, rfl⟩
      · simp only [if_neg hcounts] at h
        cases h

theorem sameCode_build {op : BuildM α} (h : Blind op) : SameCode (build op) (build op) := by
  intro s s' a b t t' hview hbelow hx hy
  have hfb : s.builder.fb.plain = s'.builder.fb.plain := congrArg Prod.fst hview
  have hstorage : s.storage = s'.storage := congrArg Prod.snd hview
  obtain ⟨fb, hop, -, rfl⟩ := build_ok hx
  obtain ⟨fb', hop', -, rfl⟩ := build_ok hy
  obtain ⟨rfl, hplain, hbelow'⟩ := h _ _ _ _ _ _ hfb hbelow hop hop'
  exact ⟨rfl, Prod.ext hplain hstorage, hbelow'⟩

theorem sameCode_ofExcept (x : Except LowerError α) : SameCode (ofExcept x) (ofExcept x) :=
  agree_raise_self _ _

theorem sameCode_fail (e : LowerError) (y : LowerM α) : SameCode (fail e) y := agree_throw _ y

theorem sameCode_chargeLowerType (ty : Ty) :
    SameCode (chargeLowerType ty) (chargeLowerType ty) := by
  refine agree_get fun s s' hview hbelow => ?_
  have hfb : s.builder.fb.plain = s'.builder.fb.plain := congrArg Prod.fst hview
  have hstorage : s.storage = s'.storage := congrArg Prod.snd hview
  rw [hstorage]
  exact (sameCode_ofExcept _).bind fun storage => agree_set (Prod.ext hfb rfl) hbelow

theorem hidden_mapping {x : SourceBuilder → Except Frontend.AstLimitError (α × SourceBuilder)}
    (hx : ∀ s a s', x s = .ok (a, s') → s'.fb.plain = s.fb.plain) :
    Hidden LowerState.plain (mapping x) := by
  intro s a t hrun
  unfold mapping at hrun
  rw [bind_run_ok (get_run _)] at hrun
  obtain ⟨⟨r, builder⟩, s₁, hraise, hrest⟩ := bind_run_ok_iff.mp hrun
  obtain ⟨hok, rfl⟩ := orRaise_run_ok_iff.mp hraise
  cases hrest
  exact Prod.ext (hx _ _ _ (mapError_ok_iff.mp hok)) rfl

theorem locate_ok {note : SourceAnnotation} {x : LowerM α} {s t : LowerState} {a : α}
    (h : locate note x s = .ok a t) : x s = .ok a t := by
  unfold locate at h
  split at h
  · cases h
  · exact h

end

/-! ## Source locations -/

theorem charge_fb {s s' : SourceBuilder} {amount : Nat}
    (h : s.chargeSourceWork amount = .ok s') : s'.fb = s.fb := by
  unfold SourceBuilder.chargeSourceWork at h
  split at h
  · cases h
    rfl
  · cases h

theorem plain_flush (mb : ModuleBuilder) (function : FunctionId) (entry : BlockId) :
    (mb.flushSourceShifts function entry).plain = mb.plain := by
  unfold ModuleBuilder.flushSourceShifts
  cases mb.sourceShifts.get function with
  | none => rfl
  | some shift => rfl

theorem plain_flushSourceShifts (s : SourceBuilder) : s.flushSourceShifts.fb.plain = s.fb.plain := by
  unfold FunctionBuilder.plain SourceBuilder.flushSourceShifts
  rw [plain_flush]

theorem hidden_sourceCheckpoint : Hidden LowerState.plain sourceCheckpoint := by
  refine hidden_mapping fun s taken s' h => ?_
  obtain ⟨b₁, hfirst, h₁⟩ := bind_ok_iff.mp h
  obtain ⟨b₂, hsecond, h₂⟩ := bind_ok_iff.mp h₁
  cases h₂
  rw [plain_flushSourceShifts, charge_fb hsecond, charge_fb hfirst]

theorem hidden_annotateSource (note : SourceAnnotation) (before : SourceCheckpoint) :
    Hidden LowerState.plain (annotateSource note before) := by
  refine hidden_mapping fun s u s' h => ?_
  obtain ⟨b, hannotate, h₁⟩ := bind_ok_iff.mp h
  cases h₁
  obtain ⟨b₁, hfirst, h₂⟩ := bind_ok_iff.mp hannotate
  obtain ⟨b₂, hsecond, h₃⟩ := bind_ok_iff.mp h₂
  cases h₃
  have hflush := plain_flushSourceShifts b₂
  rw [charge_fb hsecond, charge_fb hfirst] at hflush
  exact hflush

theorem hidden_finishSourceMapping : Hidden LowerState.plain finishSourceMapping := by
  refine hidden_mapping fun s u s' h => ?_
  obtain ⟨b, hfinish, h₁⟩ := bind_ok_iff.mp h
  cases h₁
  unfold SourceBuilder.finishSourceMapping at hfinish
  split at hfinish
  · obtain ⟨b₁, hcharge, h₂⟩ := bind_ok_iff.mp hfinish
    cases h₂
    rw [plain_flushSourceShifts, charge_fb hcharge]
  · cases hfinish
    rfl

/-- A wrapper only annotates. -/
theorem SameCode.located {α : Type} {x y : LowerM α} (h : SameCode x y) (note : SourceAnnotation) :
    SameCode (located note x) y := by
  refine hidden_sourceCheckpoint.bind_agree fun checkpoint => ?_
  refine Agree.bind_hidden (fun s s' a b t t' hview hbelow hx hy => ?_) fun _ =>
    hidden_annotateSource note checkpoint
  exact h s s' a b t t' hview hbelow (locate_ok hx) hy

end Lower

end Whale
