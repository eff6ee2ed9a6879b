import Whale.Interp.Expired
import Whale.Lib.Ledger

set_option autoImplicit false

/-! # Call frames are isolated

The allocations of a run have owners: the globals have none, every other one belongs to the
activation that made it. A ledger follows a run from its frames and its number of allocations
alone (`Ledger.round`), and in every reached state the innermost frame's allocations that are alive
are those behind its start (`Owned`). From this: what a return retires, which lifetime ends
succeed, and that storage of an activation that has returned stays dead. -/

namespace Whale

/-! ## The ledger of a run -/

/-- What a round adds to the ledger, seen from the states before and after it. -/
def Ledger.round (l : Ledger) (s s' : RunState) : Ledger :=
  if s.frames.length < s'.frames.length then l.opened
  else if s'.frames.length < s.frames.length then l.closed
  else l.grown (s'.memory.allocationCount - s.memory.allocationCount)

/-- The states of a run that has not ended, with their ledgers. -/
inductive Reached (env : Env) (o : InterpreterOptions) (s₀ : RunState) : RunState → Ledger → Prop
  where
  | start : Reached env o s₀ s₀ (.start s₀.memory.allocationCount)
  | round {s s' : RunState} {l : Ledger} (before : Reached env o s₀ s l)
      (step : runStep env o s = .ok none s') : Reached env o s₀ s' (l.round s s')

/-- Ledger and state agree: on the regions of the frames, and on which owners' allocations can be
alive. -/
structure Owned (l : Ledger) (s : RunState) : Prop where
  length : l.owners.length = s.memory.lives.length
  sound : l.Sound (s.frames.map Frame.allocationStart)
  /-- Allocations without an owner are globals; they are alive. -/
  globals : ∀ (id : Nat) (life : AllocationKind × Bool), s.memory.lives[id]? = some life →
    l.owners[id]? = some none → life = (.global, true)
  /-- Allocations with an owner are on the stack; they die with their owner. -/
  stack : ∀ (id : Nat) (life : AllocationKind × Bool) (act : Nat),
    s.memory.lives[id]? = some life → l.owners[id]? = some (some act) →
      life.1 = .stack ∧ (act ∉ l.active → life.2 = false)

variable {frame : Frame} {rest : List Frame} {id : Nat}

section

variable {env : Env} {o : InterpreterOptions} {s s' : RunState} {l : Ledger}

/-- The innermost frame has the innermost activation. -/
theorem Owned.active_cons (h : Owned l s) (hs : s.frames = frame :: rest) :
    ∃ act outer, l.active = act :: outer := by
  have hlen := h.sound.regions.length_eq
  rw [hs, List.map_cons, List.length_cons] at hlen
  exact List.exists_cons_of_length_eq_add_one hlen

variable {outer : List Nat}

/-- The owner of an allocation behind the innermost frame's start. -/
theorem Owned.region (h : Owned l s) (hs : s.frames = frame :: rest) {act : Nat}
    (hact : l.active = act :: outer) {owner : Option Nat} (hid : l.owners[id]? = some owner) :
    frame.allocationStart ≤ id ↔ ∃ a, owner = some a ∧ act ≤ a :=
  h.sound.innermost hact (by rw [hs, List.map_cons]) hid

/-- An allocation that is alive behind the innermost frame's start is that frame's own. -/
theorem Owned.mine (h : Owned l s) (hs : s.frames = frame :: rest) {act : Nat}
    (hact : l.active = act :: outer) {life : AllocationKind × Bool}
    (hlife : s.memory.lives[id]? = some life) (halive : life.2 = true)
    (hid : frame.allocationStart ≤ id) : l.owners[id]? = some (some act) := by
  have hlt : id < l.owners.length := by
    rw [h.length]
    exact (List.getElem?_eq_some_iff.mp hlife).1
  have howner := List.getElem?_eq_getElem hlt
  obtain ⟨a, ha, hle⟩ := (h.region hs hact howner).mp hid
  rw [ha] at howner
  have hmem : a ∈ l.active := by
    by_contra hout
    have hdead := (h.stack id life a hlife howner).2 hout
    rw [halive] at hdead
    cases hdead
  have hge := h.sound.le_head hact hmem
  rw [howner, Nat.le_antisymm hge hle]

theorem allocationCount_eq (m : Memory) : m.allocationCount = m.lives.length :=
  m.lives_length.symm

/-- A round that stays in its frame and adds `n` allocations. -/
theorem round_inside (hlen : s'.frames.length = s.frames.length) {n : Nat}
    (hcount : s'.memory.lives.length = s.memory.lives.length + n) : l.round s s' = l.grown n := by
  unfold Ledger.round
  rw [if_neg (by omega), if_neg (by omega), allocationCount_eq, allocationCount_eq, hcount,
    Nat.add_sub_cancel_left]

@[simp] theorem Ledger.grown_zero (l : Ledger) : l.grown 0 = l := by
  simp [Ledger.grown]

theorem Owned.steady (h : Owned l s) (hstarts : s'.frames.map Frame.allocationStart =
    s.frames.map Frame.allocationStart) (hlives : s'.memory.lives = s.memory.lives) :
    Owned l s' := by
  obtain ⟨hlength, hsound, hglobals, hstack⟩ := h
  rw [← hlives] at hlength hglobals hstack
  rw [← hstarts] at hsound
  exact ⟨hlength, hsound, hglobals, hstack⟩

theorem Owned.allocated (h : Owned l s) (hne : l.active ≠ [])
    (hstarts : s'.frames.map Frame.allocationStart = s.frames.map Frame.allocationStart)
    (hlives : s'.memory.lives = s.memory.lives ++ [(.stack, true)]) : Owned (l.grown 1) s' := by
  obtain ⟨act, outer, hact⟩ := List.exists_cons_of_ne_nil hne
  have howners : (l.grown 1).owners = l.owners ++ [some act] := by
    simp [Ledger.grown, hact]
  have hsplit : ∀ (id : Nat) (life : AllocationKind × Bool) (owner : Option Nat),
      s'.memory.lives[id]? = some life → (l.grown 1).owners[id]? = some owner →
        (s.memory.lives[id]? = some life ∧ l.owners[id]? = some owner) ∨
          (life = (.stack, true) ∧ owner = some act) := by
    intro id life owner hlife howner
    rw [hlives] at hlife
    rw [howners] at howner
    by_cases hlt : id < l.owners.length
    · rw [List.getElem?_append_left (h.length ▸ hlt)] at hlife
      rw [List.getElem?_append_left hlt] at howner
      exact .inl ⟨hlife, howner⟩
    · have hge := Nat.not_lt.mp hlt
      rw [List.getElem?_append_right (h.length ▸ hge)] at hlife
      rw [List.getElem?_append_right hge] at howner
      exact .inr ⟨List.mem_singleton.mp (List.mem_of_getElem? hlife),
        List.mem_singleton.mp (List.mem_of_getElem? howner)⟩
  refine ⟨?_, hstarts ▸ h.sound.grown hne 1, ?_, ?_⟩
  · rw [howners, hlives, List.length_append, List.length_append, h.length]
    rfl
  · intro id life hlife howner
    rcases hsplit id life none hlife howner with ⟨hlife, howner⟩ | ⟨-, hnone⟩
    · exact h.globals id life hlife howner
    · cases hnone
  · intro id life a hlife howner
    rcases hsplit id life (some a) hlife howner with ⟨hlife, howner⟩ | ⟨rfl, ha⟩
    · exact h.stack id life a hlife howner
    · cases ha
      exact ⟨rfl, fun hout => absurd (hact ▸ List.mem_cons_self) hout⟩

/-- The lifetimes that `p` selects, if they are of the stack, have ended. -/
def endLives (p : Nat → Bool) (lives : List (AllocationKind × Bool)) :
    List (AllocationKind × Bool) :=
  lives.mapIdx fun id life => if p id = true ∧ life.1 = .stack then (life.1, false) else life

theorem endLives_getElem? {p : Nat → Bool} {lives : List (AllocationKind × Bool)}
    {life : AllocationKind × Bool} (h : (endLives p lives)[id]? = some life) :
    ∃ old, lives[id]? = some old ∧
      life = if p id = true ∧ old.1 = .stack then (old.1, false) else old := by
  rw [endLives, List.getElem?_mapIdx] at h
  obtain ⟨old, hold, hlife⟩ := Option.map_eq_some_iff.mp h
  exact ⟨old, hold, hlife.symm⟩

theorem Owned.ended (h : Owned l s) (hstarts : s'.frames.map Frame.allocationStart =
    s.frames.map Frame.allocationStart) {p : Nat → Bool}
    (hlives : s'.memory.lives = endLives p s.memory.lives) : Owned l s' := by
  refine ⟨?_, hstarts ▸ h.sound, ?_, ?_⟩
  · rw [h.length, hlives, endLives, List.length_mapIdx]
  · intro id life hlife howner
    obtain ⟨old, hold, rfl⟩ := endLives_getElem? (hlives ▸ hlife)
    rw [h.globals id old hold howner]
    exact if_neg fun hboth => by cases hboth.2
  · intro id life act hlife howner
    obtain ⟨old, hold, rfl⟩ := endLives_getElem? (hlives ▸ hlife)
    obtain ⟨hkind, hdead⟩ := h.stack id old act hold howner
    split
    · exact ⟨hkind, fun _ => rfl⟩
    · exact ⟨hkind, hdead⟩

/-- The innermost activation can be closed when its allocations are dead. -/
theorem Owned.close (h : Owned l s) {act : Nat} (hact : l.active = act :: outer)
    (hdead : ∀ (id : Nat) (life : AllocationKind × Bool), s.memory.lives[id]? = some life →
      l.owners[id]? = some (some act) → life.2 = false)
    (hstarts : s'.frames.map Frame.allocationStart = (s.frames.map Frame.allocationStart).tail)
    (hlives : s'.memory.lives = s.memory.lives) : Owned l.closed s' := by
  refine ⟨hlives ▸ h.length, hstarts ▸ h.sound.closed, fun id life hlife howner => ?_,
    fun id life a hlife howner => ?_⟩
  · exact h.globals id life (hlives ▸ hlife) howner
  · obtain ⟨hkind, hold⟩ := h.stack id life a (hlives ▸ hlife) howner
    refine ⟨hkind, fun hout => ?_⟩
    by_cases ha : a = act
    · subst ha
      exact hdead id life (hlives ▸ hlife) howner
    · refine hold fun hmem => hout ?_
      rw [hact] at hmem
      show a ∈ l.active.tail
      rw [hact]
      exact (List.mem_cons.mp hmem).resolve_left ha

theorem Owned.open (h : Owned l s) {child : Frame} {frames : List Frame}
    (hs' : s'.frames = child :: frames)
    (hstarts : frames.map Frame.allocationStart = s.frames.map Frame.allocationStart)
    (hstart : child.allocationStart = s.memory.allocationCount)
    (hmemory : s'.memory = s.memory) : Owned l.opened s' := by
  have hcount : child.allocationStart = l.owners.length := by
    rw [hstart, allocationCount_eq, h.length]
  refine ⟨hmemory ▸ h.length, ?_, hmemory ▸ h.globals, fun id life a hlife howner => ?_⟩
  · rw [hs', List.map_cons, hstarts, hcount]
    exact h.sound.opened
  · obtain ⟨hkind, hdead⟩ := h.stack id life a (hmemory ▸ hlife) howner
    exact ⟨hkind, fun hout => hdead fun hmem => hout (List.mem_cons_of_mem _ hmem)⟩

theorem retireFrom_lives {start : Nat} {m m' : Memory} {u : Unit}
    (h : Memory.retireFrom start m = .ok u m') :
    m'.lives = endLives (fun id => decide (start ≤ id)) m.lives := by
  obtain ⟨-, hallocations⟩ := Memory.retireFrom_ok h
  refine List.ext_getElem? fun id => ?_
  rw [endLives, List.getElem?_mapIdx, Memory.lives_getElem?, Memory.lives_getElem?,
    hallocations id]
  cases m.allocations[id]? with
  | none => rfl
  | some a =>
      by_cases hretire : start ≤ id ∧ a.kind = .stack
      · simp [hretire]
      · simp only [Option.map_some, if_neg hretire, decide_eq_true_eq]

theorem modify_lives {m m' : Memory} {a : Allocation} (ha : m.allocations[id]? = some a)
    (hkind : a.kind = .stack)
    (h : m'.lives = (m.allocations.modify id Allocation.retire).map fun a => (a.kind, a.alive)) :
    m'.lives = endLives (fun i => decide (i = id)) m.lives := by
  rw [h]
  refine List.ext_getElem? fun i => ?_
  rw [endLives, List.getElem?_mapIdx, Memory.lives_getElem?, List.getElem?_map,
    List.getElem?_modify]
  by_cases hi : id = i
  · subst hi
    simp [ha, hkind]
  · have hne : ¬ i = id := fun heq => hi heq.symm
    cases m.allocations[i]? with
    | none => rfl
    | some b => simp [hi, hne]

/-- What a round keeps: the step of the invariant. -/
theorem Owned.round (h : Owned l s) (hround : Round env s s' none) : Owned (l.round s s') s' := by
  -- A round works in the active call, enters a call or leaves one.
  cases hround with
  | @inside frame frame' rest before after same memory =>
      have hlen : s'.frames.length = s.frames.length := by rw [before, after]; rfl
      have hstarts : s'.frames.map Frame.allocationStart = s.frames.map Frame.allocationStart := by
        rw [before, after, List.map_cons, List.map_cons, same.allocationStart]
      obtain ⟨act, outer, hact⟩ := h.active_cons before
      cases memory with
      | steady hsteady =>
          have hcount : s'.memory.lives.length = s.memory.lives.length + 0 :=
            congrArg List.length hsteady.lives
          rw [round_inside hlen hcount, Ledger.grown_zero]
          exact h.steady hstarts hsteady.lives
      | allocate harena hlives =>
          have hcount : s'.memory.lives.length = s.memory.lives.length + 1 := by
            rw [hlives, List.length_append, List.length_singleton]
          rw [round_inside hlen hcount]
          exact h.allocated (hact ▸ List.cons_ne_nil _ _) hstarts hlives
      | finish ends harena hlives =>
          replace hlives := modify_lives ends.allocation ends.kind hlives
          have hcount : s'.memory.lives.length = s.memory.lives.length + 0 := by
            rw [hlives, endLives, List.length_mapIdx, Nat.add_zero]
          rw [round_inside hlen hcount, Ledger.grown_zero]
          exact h.ended hstarts hlives
  | @enter frame caller child rest before after same called start memory =>
      have hlen : s.frames.length < s'.frames.length := by
        rw [before, after]
        exact Nat.lt_succ_self _
      rw [Ledger.round, if_pos hlen]
      refine h.open after ?_ start memory
      rw [before, List.map_cons, List.map_cons, same.allocationStart]
  | @leave frame parent rest values before after others memory =>
      have hlen : s'.frames.length < s.frames.length := by
        rw [before, after]
        exact Nat.lt_succ_self _
      rw [Ledger.round, if_neg (by omega), if_pos hlen]
      obtain ⟨act, outer, hact⟩ := h.active_cons before
      have hlives := retireFrom_lives memory
      have hended : Owned l { s with memory := s'.memory } := h.ended rfl hlives
      refine hended.close hact ?_ ?_ rfl
      · intro id life hlife howner
        obtain ⟨old, hold, rfl⟩ := endLives_getElem? (hlives ▸ hlife)
        have hstart := (h.region before hact howner).mpr ⟨act, rfl, le_rfl⟩
        rw [if_pos ⟨decide_eq_true hstart, (h.stack id old act hold howner).1⟩]
      · rw [after, before]
        rfl

end

/-! ## Beneath the innermost frame -/

/-- The states between which more than `depth` frames are always active. -/
inductive Deeper (env : Env) (o : InterpreterOptions) (depth : Nat) : RunState → RunState → Prop
  where
  | refl {s : RunState} (deep : depth < s.frames.length) : Deeper env o depth s s
  | round {s t u : RunState} (before : Deeper env o depth s t)
      (step : runStep env o t = .ok none u) (deep : depth < u.frames.length) :
      Deeper env o depth s u

variable {r : Option RunResult}

section

variable {env : Env} {o : InterpreterOptions} {s t u : RunState}

/-- The frames `base` are as they were, under a frame with the result `dst`. -/
def Frame.Above (base : List Frame) (dst : Option ValueId) (frames : List Frame) : Prop :=
  ∃ inner callee, frames = inner ++ callee :: base ∧ callee.returnDestination = dst

variable {dst : Option ValueId}

theorem Frame.Above.round {base : List Frame} (h : Frame.Above base dst t.frames)
    (hround : Round env t u none) (hdeep : base.length < u.frames.length) :
    Frame.Above base dst u.frames := by
  obtain ⟨inner, callee, hframes, hdst⟩ := h
  cases hround with
  | inside before after same memory =>
      cases inner with
      | nil =>
          obtain ⟨rfl, rfl⟩ := List.cons.inj (hframes.symm.trans before)
          exact ⟨[], _, after, same.returnDestination.trans hdst⟩
      | cons f inner =>
          obtain ⟨rfl, rfl⟩ := List.cons.inj (hframes.symm.trans before)
          exact ⟨_ :: inner, callee, after, hdst⟩
  | enter before after same called start memory =>
      cases inner with
      | nil =>
          obtain ⟨rfl, rfl⟩ := List.cons.inj (hframes.symm.trans before)
          exact ⟨[_], _, after, same.returnDestination.trans hdst⟩
      | cons f inner =>
          obtain ⟨rfl, rfl⟩ := List.cons.inj (hframes.symm.trans before)
          exact ⟨_ :: _ :: inner, callee, after, hdst⟩
  | leave before after others memory =>
      cases inner with
      | nil =>
          obtain ⟨rfl, rfl⟩ := List.cons.inj (hframes.symm.trans before)
          rw [after] at hdeep
          exact absurd hdeep (lt_irrefl _)
      | cons f inner =>
          obtain ⟨rfl, hrest⟩ := List.cons.inj (hframes.symm.trans before)
          cases inner with
          | nil =>
              obtain ⟨rfl, rfl⟩ := List.cons.inj hrest
              exact ⟨[], _, after, hdst⟩
          | cons g inner =>
              obtain ⟨rfl, rfl⟩ := List.cons.inj hrest
              exact ⟨_ :: inner, callee, after, hdst⟩

/-- As long as more frames are active, those beneath do not change. -/
theorem Deeper.above {base : List Frame} (h : Deeper env o base.length s t)
    (hs : Frame.Above base dst s.frames) : Frame.Above base dst t.frames := by
  induction h with
  | refl => exact hs
  | round before step deep ih => exact ih.round (runStep_round step) deep

/-- The round that comes back to the caller gives it the result and nothing else. -/
theorem Frame.Above.returned {caller : Frame} (h : Frame.Above (caller :: rest) dst t.frames)
    (hround : Round env t u r) (hback : u.frames.length ≤ rest.length + 1) :
    ∃ values, u.frames = { caller with values := values } :: rest ∧
      ∀ id, some id ≠ dst → AssocMap.get id values = AssocMap.get id caller.values := by
  obtain ⟨inner, callee, hframes, hdst⟩ := h
  cases hround with
  | inside before after same memory =>
      rw [hframes] at before
      have hlen := congrArg List.length before
      rw [after] at hback
      simp only [List.length_append, List.length_cons] at hlen hback
      omega
  | enter before after same called start memory =>
      rw [hframes] at before
      have hlen := congrArg List.length before
      rw [after] at hback
      simp only [List.length_append, List.length_cons] at hlen hback
      omega
  | leave before after others memory =>
      rw [hframes] at before
      cases inner with
      | nil =>
          obtain ⟨rfl, hrest⟩ := List.cons.inj before
          obtain ⟨rfl, rfl⟩ := List.cons.inj hrest
          exact ⟨_, after, hdst ▸ others⟩
      | cons f inner =>
          have hlen := congrArg List.length before
          rw [after] at hback
          simp only [List.cons_append, List.length_append, List.length_cons] at hlen hback
          omega
  | finish before after memory =>
      rw [hframes] at before
      have hlen := congrArg List.length before
      simp only [List.length_append, List.length_cons, List.length_nil] at hlen
      omega

end

/-! ## The start of a run -/

/-- The storage of the globals is what there is before the first frame. -/
theorem prepareGlobal_lives {o : InterpreterOptions} {g : GlobalStorage} {m m' : Memory}
    {p : Pointer} (h : prepareGlobal o g m = .ok p m') :
    m'.lives = m.lives ++ [(.global, true)] := by
  have hoperation : ∀ {α : Type} {x : MemoryM α} {a : α} {n n' : Memory},
      globalOperation g.id x n = .ok a n' → x n = .ok a n' := by
    intro α x a n n' hx
    unfold globalOperation at hx
    split at hx <;> cases hx
    assumption
  obtain ⟨layout, -, h⟩ := orThrow_bind_ok_iff.mp h
  obtain ⟨q, m₁, hallocate, h⟩ := bind_run_ok_iff.mp h
  obtain ⟨-, hlives⟩ := Memory.allocateGlobal_lives (hoperation hallocate)
  obtain ⟨m₂, hstore, h⟩ : ∃ m₂, Memory.Steady m₁ m₂ ∧
      globalOperation g.id (Memory.sealGlobal q g.readonly) m₂ = .ok p m' := by
    cases hinit : g.init with
    | value value =>
        simp only [hinit] at h
        obtain ⟨_, m₂, hstore, h⟩ := bind_run_ok_iff.mp h
        exact ⟨m₂, (Memory.store_writes _ _ _ _ _ _ _ (hoperation hstore)).steady, h⟩
    | uninitialized =>
        simp only [hinit] at h
        exact ⟨m₁, .refl m₁, h⟩
  have hseal := Memory.sealGlobal_steady _ _ _ _ _ (hoperation h)
  rw [hseal.lives, hstore.lives, hlives]

theorem prepareGlobals_lives {o : InterpreterOptions} {globals : List GlobalStorage}
    {pointers pointers' : AssocMap GlobalId Pointer} {m m' : Memory}
    (h : prepareGlobals o globals pointers m = .ok pointers' m') :
    m'.lives = m.lives ++ List.replicate globals.length (.global, true) := by
  induction globals generalizing pointers m with
  | nil =>
      cases h
      exact (List.append_nil _).symm
  | cons g globals ih =>
      obtain ⟨p, m₁, hg, h⟩ := bind_run_ok_iff.mp h
      rw [ih h, prepareGlobal_lives hg, List.append_assoc]
      rfl

/-- How a run gets to its first round: the module is prepared, the globals are allocated, and the
entry's frame is there. -/
def Begins (m : Module) (arena : Nat) (capacity : List MapOp → Nat) (function : FunctionId)
    (arguments : Arguments) (o : InterpreterOptions) (env : Env) (s : RunState) : Prop :=
  ∃ prepared inputs pointers memory entry,
    preflight m function arguments = .ok (prepared, inputs) ∧
      prepareGlobals o m.globalStorage [] (Memory.new arena capacity o.memoryLimits) =
        .ok pointers memory ∧
      prepared.get function = some entry ∧
      startState o function entry inputs memory = .ok s ∧
      env = { prepared := prepared
              functionSignatures :=
                AssocMap.extend [] (m.declarations.map fun d => (d.id, d.signature))
              globalPointers := pointers }

section

variable {m : Module} {arena : Nat} {capacity : List MapOp → Nat} {function : FunctionId}
  {arguments : Arguments} {o : InterpreterOptions} {env : Env} {s : RunState}

theorem Begins.owned (h : Begins m arena capacity function arguments o env s) :
    Owned (.start s.memory.allocationCount) s := by
  obtain ⟨prepared, inputs, pointers, memory, entry, -, hglobals, -, hstart, -⟩ := h
  obtain ⟨-, hstart⟩ := require_then_ok_iff.mp hstart
  obtain ⟨-, hstart⟩ := require_then_ok_iff.mp hstart
  obtain ⟨-, hstart⟩ := require_then_ok_iff.mp hstart
  cases hstart
  have hlives : memory.lives = List.replicate m.globalStorage.length (.global, true) :=
    prepareGlobals_lives hglobals
  refine ⟨?_, Ledger.sound_start _, fun id life hlife _ => ?_, fun id life act _ howner => ?_⟩
  · rw [Ledger.start, List.length_replicate, allocationCount_eq]
  · exact List.eq_of_mem_replicate (hlives ▸ List.mem_of_getElem? hlife)
  · cases List.eq_of_mem_replicate (List.mem_of_getElem? howner)

/-- The invariant of every run. -/
theorem Reached.owned {s₀ : RunState} (hstart : Owned (.start s₀.memory.allocationCount) s₀)
    {l : Ledger} (h : Reached env o s₀ s l) : Owned l s := by
  induction h with
  | start => exact hstart
  | round before step ih => exact ih.round (runStep_round step)

end

/-! ## Isolation -/

/-- What holds in a reached state with the ledger `l`. -/
structure Isolated (env : Env) (o : InterpreterOptions) (l : Ledger) (s : RunState) : Prop where
  /-- Behind a call, until the round that comes back, the frames from the caller on are as they
  were; then the caller has the value of the call's destination and nothing else is new. -/
  callers : ∀ {s₁ t u : RunState} {child caller : Frame} {rest : List Frame}
    {r : Option RunResult}, runStep env o s = .ok none s₁ →
      s.frames.length < s₁.frames.length → s₁.frames = child :: caller :: rest →
      Deeper env o (rest.length + 1) s₁ t →
        s.frames.tail = rest ∧ (∃ inner, inner ≠ [] ∧ t.frames = inner ++ caller :: rest) ∧
          (runStep env o t = .ok r u → u.frames.length ≤ rest.length + 1 →
            ∃ dst values, env.HasCalled caller dst ∧
              u.frames = { caller with values := values } :: rest ∧
              ∀ id, some id ≠ dst → AssocMap.get id values = AssocMap.get id caller.values)
  /-- Every allocation is a global or of an activation. Globals are alive, and so is nothing of
  an activation that has returned. -/
  storage : ∀ (id : Nat) (a : Allocation), s.memory.allocations[id]? = some a →
    ∃ owner, l.owners[id]? = some owner ∧
      (owner = none → a.kind = .global ∧ a.alive = true) ∧
      ∀ act, owner = some act → a.kind = .stack ∧ (act ∉ l.active → a.alive = false)
  /-- A return retires the allocations of the innermost activation, and leaves the others, their
  contents included. -/
  returns : ∀ {s' : RunState} {r : Option RunResult}, runStep env o s = .ok r s' →
    s'.frames.length < s.frames.length → ∃ act outer, l.active = act :: outer ∧
      ∀ (id : Nat) (a : Allocation), s.memory.allocations[id]? = some a →
        s'.memory.allocations[id]? =
          some (if l.owners[id]? = some (some act) then a.retire else a)
  /-- Accesses to the storage of an activation that has returned trap and change nothing. -/
  expired : ∀ {p : Pointer} {cap : Capability} {act : Nat}, p.capability = some cap →
    p.address ≠ 0 →
      l.owners[cap.allocation]? = some (some act) → act ∉ l.active →
      ∀ {prepared : Prepared} {frame : Frame} {key : BlockId × Nat} {inst : Instruction}
        {id : ValueId}, Values.pointer frame.values id = .ok p →
        inst.Accesses prepared key frame.values id →
          InstructionM.Traps (evalInstruction env prepared frame key inst) s.memory
  /-- A lifetime end succeeds for the base of a stack allocation that is alive and the innermost
  frame's own. -/
  lifetimeEnd : ∀ {frame : Frame} {rest : List Frame}, s.frames = frame :: rest →
    ∀ {prepared : Prepared} {values : Values} {key : BlockId × Nat} {ptr : ValueId}
      {r : Option Value} {m' : Memory},
      evalInstruction env prepared { frame with values := values } key (.lifetimeEnd ptr)
          s.memory = .ok r m' →
        ∃ p cap a act, Values.pointer values ptr = .ok p ∧
          Memory.Ends s.memory frame.allocationStart p cap a ∧ l.active.head? = some act ∧
            l.owners[cap.allocation]? = some (some act)

section

variable {env : Env} {o : InterpreterOptions} {l : Ledger} {s : RunState}

theorem Owned.callers (s₁ : RunState) {t u : RunState} {child caller : Frame}
    (hstep : runStep env o s = .ok none s₁) (hdeeper : s.frames.length < s₁.frames.length)
    (hs₁ : s₁.frames = child :: caller :: rest) (ht : Deeper env o (rest.length + 1) s₁ t) :
    s.frames.tail = rest ∧ (∃ inner, inner ≠ [] ∧ t.frames = inner ++ caller :: rest) ∧
      (runStep env o t = .ok r u → u.frames.length ≤ rest.length + 1 →
        ∃ dst values, env.HasCalled caller dst ∧
          u.frames = { caller with values := values } :: rest ∧
          ∀ id, some id ≠ dst → AssocMap.get id values = AssocMap.get id caller.values) := by
  obtain ⟨hrest, hcalled⟩ : s.frames.tail = rest ∧
      env.HasCalled caller child.returnDestination := by
    cases runStep_round hstep with
    | inside before after same memory =>
        rw [before, after] at hdeeper
        exact absurd hdeeper (lt_irrefl _)
    | enter before after same called start memory =>
        obtain ⟨rfl, hrest⟩ := List.cons.inj (after.symm.trans hs₁)
        obtain ⟨rfl, rfl⟩ := List.cons.inj hrest
        exact ⟨by rw [before, List.tail_cons], called⟩
    | leave before after others memory =>
        rw [before, after] at hdeeper
        simp only [List.length_cons] at hdeeper
        omega
  have hchild : Frame.Above (caller :: rest) child.returnDestination s₁.frames :=
    ⟨[], child, hs₁, rfl⟩
  have habove := ht.above hchild
  refine ⟨hrest, ?_, ?_⟩
  · obtain ⟨inner, callee, hframes, -⟩ := habove
    exact ⟨inner ++ [callee], by simp, by rw [hframes, List.append_assoc]; rfl⟩
  · intro hreturn hback
    obtain ⟨values, hu, hothers⟩ := habove.returned (runStep_round hreturn) hback
    exact ⟨child.returnDestination, values, hcalled, hu, hothers⟩

theorem Owned.storage (h : Owned l s) {a : Allocation} (ha : s.memory.allocations[id]? = some a) :
    ∃ owner, l.owners[id]? = some owner ∧
      (owner = none → a.kind = .global ∧ a.alive = true) ∧
      ∀ act, owner = some act → a.kind = .stack ∧ (act ∉ l.active → a.alive = false) := by
  have hlife : s.memory.lives[id]? = some (a.kind, a.alive) := by
    rw [Memory.lives_getElem?, ha]
    rfl
  have hlt : id < l.owners.length := by
    rw [h.length]
    exact (List.getElem?_eq_some_iff.mp hlife).1
  have howner := List.getElem?_eq_getElem hlt
  refine ⟨l.owners[id], howner, fun hnone => ?_, fun act hact => ?_⟩
  · rw [hnone] at howner
    have hglobal := h.globals id _ hlife howner
    exact ⟨congrArg Prod.fst hglobal, congrArg Prod.snd hglobal⟩
  · rw [hact] at howner
    exact h.stack id _ act hlife howner

/-- What a return retires is what the innermost activation owns. -/
theorem Owned.retired (h : Owned l s) (hs : s.frames = frame :: rest) {m' : Memory} {u : Unit}
    (hretire : Memory.retireFrom frame.allocationStart s.memory = .ok u m') :
    ∃ act outer, l.active = act :: outer ∧
      ∀ (id : Nat) (a : Allocation), s.memory.allocations[id]? = some a →
        m'.allocations[id]? = some (if l.owners[id]? = some (some act) then a.retire else a) := by
  obtain ⟨act, outer, hact⟩ := h.active_cons hs
  refine ⟨act, outer, hact, fun id a ha => ?_⟩
  rw [(Memory.retireFrom_ok hretire).2 id, ha, Option.map_some]
  obtain ⟨owner, howner, hglobal, hstack⟩ := h.storage ha
  have hregion := h.region hs hact howner
  rw [howner]
  congr 1
  cases owner with
  | none =>
      have hkind : ¬ a.kind = .stack := by rw [(hglobal rfl).1]; nofun
      rw [if_neg fun hboth => hkind hboth.2, if_neg nofun]
  | some b =>
      obtain ⟨hkind, hdead⟩ := hstack b rfl
      by_cases hb : b = act
      · subst hb
        rw [if_pos ⟨hregion.mpr ⟨b, rfl, le_rfl⟩, hkind⟩, if_pos rfl]
      · rw [if_neg fun heq => hb (Option.some.inj (Option.some.inj heq))]
        by_cases hstart : frame.allocationStart ≤ id
        · -- A younger activation has returned before.
          obtain ⟨b', hb', hle⟩ := hregion.mp hstart
          cases hb'
          have hout : b ∉ l.active := fun hmem =>
            hb (Nat.le_antisymm (h.sound.le_head hact hmem) hle)
          rw [if_pos ⟨hstart, hkind⟩, Memory.retire_of_dead (hdead hout)]
        · exact if_neg fun hboth => hstart hboth.1

theorem Owned.returns (h : Owned l s) {s' : RunState} (hstep : runStep env o s = .ok r s')
    (hlen : s'.frames.length < s.frames.length) :
    ∃ act outer, l.active = act :: outer ∧
      ∀ (id : Nat) (a : Allocation), s.memory.allocations[id]? = some a →
        s'.memory.allocations[id]? =
          some (if l.owners[id]? = some (some act) then a.retire else a) := by
  cases runStep_round hstep with
  | inside before after same memory =>
      rw [before, after] at hlen
      exact absurd hlen (lt_irrefl _)
  | enter before after same called start memory =>
      rw [before, after] at hlen
      simp only [List.length_cons] at hlen
      omega
  | leave before after others memory => exact h.retired before memory
  | finish before after memory => exact h.retired before memory

theorem Owned.refuses (h : Owned l s) {p : Pointer} {cap : Capability} {act : Nat}
    (hcap : p.capability = some cap) (howner : l.owners[cap.allocation]? = some (some act))
    (hout : act ∉ l.active) : s.memory.Refuses p := by
  have hlt : cap.allocation < s.memory.allocations.length := by
    rw [← s.memory.lives_length, ← h.length]
    exact (List.getElem?_eq_some_iff.mp howner).1
  have ha := List.getElem?_eq_getElem hlt
  obtain ⟨owner, howner', -, hstack⟩ := h.storage ha
  obtain rfl : owner = some act := Option.some.inj (howner'.symm.trans howner)
  exact Memory.refuses_of_dead hcap ha ((hstack act rfl).2 hout)

theorem Owned.lifetimeEnd (h : Owned l s) (hs : s.frames = frame :: rest) {prepared : Prepared}
    {values : Values} {key : BlockId × Nat} {ptr : ValueId} {r : Option Value} {m' : Memory}
    (heval : evalInstruction env prepared { frame with values := values } key (.lifetimeEnd ptr)
      s.memory = .ok r m') :
    ∃ p cap a act, Values.pointer values ptr = .ok p ∧
      Memory.Ends s.memory frame.allocationStart p cap a ∧ l.active.head? = some act ∧
        l.owners[cap.allocation]? = some (some act) := by
  obtain ⟨p, hp, heval⟩ := ofExcept_bind_ok heval
  obtain ⟨_, m₁, hretire, -⟩ := ofMemory_bind_ok heval
  obtain ⟨-, cap, a, hends, -⟩ := Memory.retireStack_ok hretire
  obtain ⟨act, outer, hact⟩ := h.active_cons hs
  have hlife : s.memory.lives[cap.allocation]? = some (a.kind, a.alive) := by
    rw [Memory.lives_getElem?, hends.allocation]
    rfl
  exact ⟨p, cap, a, act, hp, hends, by rw [hact, List.head?_cons],
    h.mine hs hact hlife hends.alive hends.start⟩

end

/-- **Call frames are isolated** in every state that a run reaches. -/
theorem frames_isolated {m : Module} {arena : Nat} {capacity : List MapOp → Nat}
    {function : FunctionId} {arguments : Arguments} {o : InterpreterOptions} {env : Env}
    {s₀ s : RunState} {l : Ledger} (hbegins : Begins m arena capacity function arguments o env s₀)
    (hreached : Reached env o s₀ s l) : Isolated env o l s := by
  have h : Owned l s := hreached.owned hbegins.owned
  exact
    { callers := fun hstep hdeeper hs₁ ht => Owned.callers _ hstep hdeeper hs₁ ht
      storage := fun id a ha => h.storage ha
      returns := fun hstep hlen => h.returns hstep hlen
      expired := fun hcap haddress howner hout _ _ _ _ _ hp hinst =>
        evalInstruction_traps env _ hp (h.refuses hcap howner hout) haddress hinst
      lifetimeEnd := fun hs _ _ _ _ _ _ heval => h.lifetimeEnd hs heval }

/-! ## Storage of a callee -/

/-- The rounds of a run, `n` at most. -/
def rounds (env : Env) (o : InterpreterOptions) : Nat → RunState → Ledger → RunState × Ledger
  | 0, s, l => (s, l)
  | n + 1, s, l =>
      match runStep env o s with
      | .ok none s' => rounds env o n s' (l.round s s')
      | _ => (s, l)

theorem reached_rounds {env : Env} {o : InterpreterOptions} {s₀ s : RunState} {l : Ledger}
    (h : Reached env o s₀ s l) (n : Nat) :
    Reached env o s₀ (rounds env o n s l).1 (rounds env o n s l).2 := by
  induction n generalizing s l with
  | zero => exact h
  | succ n ih =>
      unfold rounds
      split
      · rename_i s' hstep
        exact ih (h.round hstep)
      · exact h

/-- `f0` fills `n` bytes behind a pointer to a local variable of `f1`, which has returned. -/
def fillExpired (n : BitVec 128) : Module where
  target := "x86_64-whale-linux"
  datalayout := { ptrBits := 64, endian := .little }
  globals := []
  globalStorage := []
  functions := [
    { id := ⟨0⟩, name := "fill", params := [], retTy := .void, entry := ⟨0⟩
      valueTypes := [(⟨0⟩, .ptr .u8), (⟨1⟩, .u8), (⟨2⟩, .u64)]
      blocks := [
        { id := ⟨0⟩, name := "entry"
          instructions := [.call .whale (some ⟨0⟩) (.ptr .u8) (.direct ⟨1⟩) [],
            .const ⟨1⟩ .u8 (.u 0), .const ⟨2⟩ .u64 (.u n), .memset ⟨0⟩ ⟨1⟩ ⟨2⟩ 1]
          terminator := some (.ret .void none) }] },
    { id := ⟨1⟩, name := "local", params := [], retTy := .ptr .u8, entry := ⟨0⟩
      valueTypes := [(⟨0⟩, .ptr .u8)]
      blocks := [
        { id := ⟨0⟩, name := "entry", instructions := [.alloca ⟨0⟩ .u8 1]
          terminator := some (.ret (.ptr .u8) (some ⟨0⟩)) }] }]
  declarations := [
    { id := ⟨0⟩, name := "fill", signature := .whale [] .void, linkage := .internal
      linkName := none },
    { id := ⟨1⟩, name := "local", signature := .whale [] (.ptr .u8), linkage := .internal
      linkName := none }]
  sources := { files := [], originals := [], mappings := [] }

/-- The trap a run has ended in. -/
def RunOutcome.trapReason (outcome : RunOutcome) : Option TrapReason :=
  match outcome.result with
  | .error { cause := .trap _ reason _, .. } => some reason
  | _ => none

/-- A fill of one byte traps; a fill of none is no access and the run returns. -/
theorem fillExpired_run :
    (run (fillExpired 1) 0 (fun _ => 0) ⟨0⟩ (.runtime []) .default).trapReason =
        some (.memory .expiredAllocation) ∧
      (run (fillExpired 0) 0 (fun _ => 0) ⟨0⟩ (.runtime []) .default).result.toOption =
        some { value := none, steps := 7 } := by
  decide +kernel

/-- The state in which the run of a module begins. -/
def begun (m : Module) (function : FunctionId) (o : InterpreterOptions) :
    Option (Env × RunState) := do
  let (prepared, inputs) ← (preflight m function (.runtime [])).toOption
  match prepareGlobals o m.globalStorage [] (Memory.new 0 (fun _ => 0) o.memoryLimits) with
  | .error _ _ => none
  | .ok pointers memory => do
      let entry ← prepared.get function
      let s ← (startState o function entry inputs memory).toOption
      return ({ prepared := prepared
                functionSignatures :=
                  AssocMap.extend [] (m.declarations.map fun d => (d.id, d.signature))
                globalPointers := pointers }, s)

theorem begins_of_begun {m : Module} {function : FunctionId} {o : InterpreterOptions} {env : Env}
    {s : RunState} (h : begun m function o = some (env, s)) :
    Begins m 0 (fun _ => 0) function (.runtime []) o env s := by
  obtain ⟨⟨prepared, inputs⟩, hpreflight, h⟩ := Option.bind_eq_some_iff.mp h
  dsimp only at h
  have hok : ∀ {ε α : Type} {x : Except ε α} {a : α}, x.toOption = some a → x = .ok a := by
    intro ε α x a hx
    cases x <;> cases hx
    rfl
  split at h
  · cases h
  · rename_i pointers memory hglobals
    obtain ⟨entry, hentry, h⟩ := Option.bind_eq_some_iff.mp h
    obtain ⟨s', hstart, h⟩ := Option.bind_eq_some_iff.mp h
    cases h
    exact ⟨prepared, inputs, pointers, memory, entry, hok hpreflight, hglobals, hentry, hok hstart,
      rfl⟩

/-- Behind the call, its one allocation belongs to the activation that has returned. -/
theorem frames_isolated_fillExpired : ∃ env s₀ s l,
    Begins (fillExpired 0) 0 (fun _ => 0) ⟨0⟩ (.runtime []) .default env s₀ ∧
      Reached env .default s₀ s l ∧ l = ⟨[0], [some 1], 2⟩ ∧ Isolated env .default l s := by
  have hledger : (begun (fillExpired 0) ⟨0⟩ .default).map (fun begin =>
      (rounds begin.1 .default 3 begin.2 (.start begin.2.memory.allocationCount)).2) =
        some ⟨[0], [some 1], 2⟩ := by
    decide +kernel
  obtain ⟨⟨env, s₀⟩, hbegun, hl⟩ := Option.map_eq_some_iff.mp hledger
  have hbegins := begins_of_begun hbegun
  have hreached := reached_rounds (.start : Reached env .default s₀ s₀ _) 3
  exact ⟨env, s₀, _, _, hbegins, hreached, hl, frames_isolated hbegins hreached⟩

end Whale
