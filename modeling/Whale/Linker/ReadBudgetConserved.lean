import Mathlib.Algebra.BigOperators.Group.List.Basic
import Whale.Linker.ArchiveSafe
import Whale.Linker.ReadBudget
import Whale.Object.Elf.ReadBounded

set_option autoImplicit false

/-! # Budgets are conserved

What remains of the limits of a linker and what its successful calls cost is what there was at
the start (`run_conserved`). -/

namespace Whale

/-! ## Resources -/

variable {r : ObjectResource}

theorem ObjectReadLimits.get_set (l : ObjectReadLimits) (hr : r ≠ .outputBytes) (n : Nat)
    (r' : ObjectResource) : (l.set r n).get r' = if r' = r then n else l.get r' := by
  cases r <;> first | contradiction | (cases r' <;> rfl)

namespace Elf

/-- Usage of one resource. -/
def ObjectReadUsage.only (r : ObjectResource) (n : Nat) : ObjectResource → Nat :=
  fun r' => if r' = r then n else 0

/-- What a read costs: its input was charged before. -/
def ObjectReadUsage.cost (u : ObjectReadUsage) : ObjectResource → Nat :=
  fun r => if r = .inputBytes then 0 else u.get r

theorem ObjectReadUsage.Within.get {u : ObjectReadUsage} {limits : ObjectReadLimits}
    (h : u.Within limits) (r : ObjectResource) : u.get r ≤ limits.get r := by
  cases r
  · exact h.inputBytes
  · exact h.sections
  · exact h.programHeaders
  · exact h.symbols
  · exact h.relocations
  · exact h.payloadBytes
  · exact h.stringBytes
  · exact h.work
  · exact le_rfl

end Elf

namespace Linker

open Elf (ObjectReadUsage readElfWithUsage)

variable {v : Unit}

namespace ReadBudget

variable {b t u : ReadBudget} {bytes : List UInt8}

/-! ## Charging -/

/-- Exactly the cost was taken from the budget. -/
def Spent (b : ReadBudget) (cost : ObjectResource → Nat) (t : ReadBudget) : Prop :=
  ∀ r, t.remaining.get r + cost r = b.remaining.get r

theorem Spent.refl (b : ReadBudget) : Spent b 0 b := fun _ => rfl

theorem Spent.trans {c d : ObjectResource → Nat} (h : Spent b c t) (h' : Spent t d u) :
    Spent b (c + d) u := by
  intro r
  have hr := h r
  have hr' := h' r
  show u.remaining.get r + (c r + d r) = _
  omega

theorem Spent.le {c : ObjectResource → Nat} (h : Spent b c t) (r : ObjectResource) :
    t.remaining.get r ≤ b.remaining.get r := (Nat.le_add_right _ _).trans (h r).le

theorem subtract_ok_iff {n : Nat} :
    subtract r n b = .ok v t ↔
      n ≤ b.remaining.get r ∧ t = ⟨b.remaining.set r (b.remaining.get r - n)⟩ := by
  show ((orThrow (checkedSub (b.remaining.get r) n) _ : Charging Nat) >>= _) b = _ ↔ _
  rw [orThrow_bind_ok_iff]
  constructor
  · rintro ⟨left, hleft, h⟩
    obtain ⟨hle, rfl⟩ := checkedSub_eq_some.mp hleft
    cases h
    exact ⟨hle, rfl⟩
  · rintro ⟨hle, rfl⟩
    exact ⟨_, checkedSub_eq_some.mpr ⟨hle, rfl⟩, rfl⟩

theorem subtract_spent (hr : r ≠ .outputBytes) {n : Nat} (h : subtract r n b = .ok v t) :
    Spent b (ObjectReadUsage.only r n) t := by
  obtain ⟨hle, rfl⟩ := subtract_ok_iff.mp h
  intro r'
  unfold ObjectReadUsage.only
  simp only [ObjectReadLimits.get_set _ hr]
  split
  · rename_i heq
    rw [heq, Nat.sub_add_cancel hle]
  · rfl

/-- Charging in a row for different resources: each of them is charged once. -/
theorem forM_subtract {amount : ObjectResource → Nat} {rs : List ObjectResource}
    (hrs : ∀ r ∈ rs, r ≠ .outputBytes) (hnodup : rs.Nodup)
    (h : ∀ r ∈ rs, amount r ≤ b.remaining.get r) :
    ∃ t, (rs.forM fun r => subtract r (amount r)) b = .ok () t ∧
      Spent b (fun r => if r ∈ rs then amount r else 0) t := by
  induction rs generalizing b with
  | nil => exact ⟨b, rfl, fun r => rfl⟩
  | cons r rs ih =>
      obtain ⟨hnot, hnodup⟩ := List.nodup_cons.mp hnodup
      have hfirst : subtract r (amount r) b =
          .ok () ⟨b.remaining.set r (b.remaining.get r - amount r)⟩ :=
        subtract_ok_iff.mpr ⟨h r List.mem_cons_self, rfl⟩
      have hspent := subtract_spent (hrs r List.mem_cons_self) hfirst
      have hrest : ∀ r' ∈ rs, amount r' ≤
          (b.remaining.set r (b.remaining.get r - amount r)).get r' := by
        intro r' hr'
        rw [ObjectReadLimits.get_set _ (hrs r List.mem_cons_self), if_neg]
        · exact h r' (List.mem_cons_of_mem _ hr')
        · rintro rfl
          exact hnot hr'
      obtain ⟨t, ht, hmore⟩ :=
        ih (fun r' hr' => hrs r' (List.mem_cons_of_mem _ hr')) hnodup hrest
      refine ⟨t, ?_, fun r' => ?_⟩
      · show (subtract r (amount r) >>= fun _ => rs.forM fun r => subtract r (amount r)) b = _
        rw [bind_run_ok hfirst]
        exact ht
      · have hboth := hspent.trans hmore r'
        have hsum : (ObjectReadUsage.only r (amount r) +
            fun r' => if r' ∈ rs then amount r' else 0) r' =
            if r' ∈ r :: rs then amount r' else 0 := by
          show (if r' = r then amount r else 0) + (if r' ∈ rs then amount r' else 0) = _
          by_cases hr' : r' = r
          · subst hr'
            simp [hnot]
          · simp [hr']
        rw [hsum] at hboth
        exact hboth

theorem consume_ok {usage : ObjectReadUsage} (h : usage.Within (b.limitsFor bytes)) :
    ∃ t, consume usage b = .ok () t ∧ Spent b usage.cost t := by
  have hle : ∀ r ∈ consumed, usage.get r ≤ b.remaining.get r := by
    intro r hr
    have hwithin := h.get r
    cases r <;> first | exact hwithin | (exact absurd hr (by decide))
  obtain ⟨t, ht, hspent⟩ := forM_subtract (by decide) (by decide) hle
  refine ⟨t, ht, fun r => ?_⟩
  have hr := hspent r
  have hcost : (if r ∈ consumed then usage.get r else 0) = usage.cost r := by
    cases r <;> rfl
  simp only [hcost] at hr
  exact hr

/-! ## Objects -/

/-- Reading fails only where the reader of objects does: the budget lasts for its usage. -/
theorem member_run (hlength : bytes.length < wordBound) :
    (∀ e, readElfWithUsage bytes (b.limitsFor bytes) = .error e → member bytes b = .error e b) ∧
    ∀ object usage, readElfWithUsage bytes (b.limitsFor bytes) = .ok (object, usage) →
      ∃ t, member bytes b = .ok object t ∧ Spent b usage.cost t := by
  constructor
  · intro e h
    show ((orRaise (readElfWithUsage bytes (b.limitsFor bytes)) id : Charging _) >>= _) b = _
    rw [h]
    rfl
  · intro object usage h
    have hwithin := ((Elf.readElfWithUsage_bounded bytes (b.limitsFor bytes) hlength).2 object usage
      h).2.2
    obtain ⟨t, ht, hspent⟩ := consume_ok hwithin
    refine ⟨t, ?_, hspent⟩
    show ((orRaise (readElfWithUsage bytes (b.limitsFor bytes)) id : Charging _) >>= _) b = _
    rw [h]
    show (consume usage >>= fun _ => pure object) b = _
    rw [bind_run_ok ht]
    rfl

end ReadBudget

/-- An object that was read. -/
structure Read where
  bytes : List UInt8
  limits : ObjectReadLimits
  object : ObjectFile
  usage : ObjectReadUsage
  result : readElfWithUsage bytes limits = .ok (object, usage)

namespace ReadBudget

variable {b t u : ReadBudget} {bytes : List UInt8}

theorem member_ok (hlength : bytes.length < wordBound) {object : ObjectFile}
    (h : member bytes b = .ok object t) :
    ∃ read : Read, read.bytes = bytes ∧ read.limits = b.limitsFor bytes ∧ read.object = object ∧
      Spent b read.usage.cost t := by
  obtain ⟨herror, hok⟩ := member_run (b := b) hlength
  cases hread : readElfWithUsage bytes (b.limitsFor bytes) with
  | error e =>
      rw [herror e hread] at h
      cases h
  | ok r =>
      obtain ⟨object', usage⟩ := r
      obtain ⟨t', ht', hspent⟩ := hok object' usage hread
      rw [ht'] at h
      cases h
      exact ⟨⟨bytes, _, _, usage, hread⟩, rfl, rfl, rfl, hspent⟩

end ReadBudget

/-! ## Archives -/

/-- An archive that was parsed. -/
structure Parsed where
  bytes : List UInt8
  limits : Archive.Limits
  members : List ArchiveMember
  names : Nat
  work : Nat
  result : Archive.parseArchive bytes limits = .ok (members, names, work)

/-- What opening an archive costs. -/
def Parsed.cost (a : Parsed) : ObjectResource → Nat :=
  ObjectReadUsage.only .inputBytes a.bytes.length + ObjectReadUsage.only .stringBytes a.names +
    ObjectReadUsage.only .work a.work

def Parsed.parts (a : Parsed) : List (List UInt8) := a.members.map fun m => m.bytes.bytes a.bytes

theorem length_part_le (m : ArchiveMember) (bytes : List UInt8) :
    (m.bytes.bytes bytes).length ≤ bytes.length := by
  unfold Slice.bytes slice
  rw [List.length_take, List.length_drop]
  omega

theorem mapErr_run_ok_iff {ε ε' σ α : Type} {f : ε → ε'} {x : EStateM ε σ α} {s t : σ} {a : α} :
    mapErr f x s = .ok a t ↔ x s = .ok a t := by
  unfold mapErr
  cases x s with
  | ok a' t' =>
      constructor
      · intro h
        cases h
        rfl
      · intro h
        cases h
        rfl
  | error e t' => exact ⟨nofun, nofun⟩

theorem onCopy_run_ok_iff {ε σ α : Type} {x : EStateM ε σ α} {s t : σ} {a : α} :
    onCopy x s = .ok a t ↔ x s = .ok a t := by
  unfold onCopy
  cases x s with
  | ok a' t' =>
      constructor
      · intro h
        cases h
        rfl
      · intro h
        cases h
        rfl
  | error e t' => exact ⟨nofun, nofun⟩

theorem onCopy_run_error {ε σ α : Type} {x : EStateM ε σ α} {s t : σ} {e : ε}
    (h : onCopy x s = .error e t) : t = s := by
  unfold onCopy at h
  cases hx : x s with
  | ok a' t' =>
      rw [hx] at h
      cases h
  | error e' t' =>
      rw [hx] at h
      cases h
      rfl

namespace ReadBudget

variable {b t u : ReadBudget} {bytes : List UInt8}

theorem input_ok_iff {n : Nat} : input n b = .ok v t ↔
    n ≤ b.remaining.maxInputBytes ∧
      t = ⟨b.remaining.set .inputBytes (b.remaining.maxInputBytes - n)⟩ := subtract_ok_iff

variable {members : List ArchiveMember}

/-- Opening fails only where the parser does: the budget lasts for the names and the work. -/
theorem charge_parsed {names work : Nat}
    (h : Archive.parseArchive bytes b.parseLimits = .ok (members, names, work)) :
    ∃ t u, subtract .stringBytes names b = .ok () t ∧ subtract .work work t = .ok () u ∧
      Spent b (ObjectReadUsage.only .stringBytes names + ObjectReadUsage.only .work work) u := by
  have hparsed := (Archive.parseArchive_spec bytes b.parseLimits).of_ok h
  have hnames : subtract .stringBytes names b = .ok () _ := subtract_ok_iff.mpr ⟨hparsed.strings, rfl⟩
  have hwork : subtract .work work ⟨b.remaining.set .stringBytes
      (b.remaining.get .stringBytes - names)⟩ = .ok () _ := subtract_ok_iff.mpr ⟨hparsed.work, rfl⟩
  refine ⟨_, _, hnames, hwork, ?_⟩
  exact (subtract_spent (by decide) hnames).trans (subtract_spent (by decide) hwork)

theorem openArchive_ok (h : openArchive bytes b = .ok members t) :
    ∃ a : Parsed, a.bytes = bytes ∧ a.members = members ∧
      bytes.length ≤ b.remaining.maxInputBytes ∧ Spent b a.cost t := by
  unfold openArchive at h
  obtain ⟨v, next, hinput, h⟩ := bind_run_ok_iff.mp h
  have hinput := mapErr_run_ok_iff.mp hinput
  obtain ⟨_, _, hget, h⟩ := bind_run_ok_iff.mp h
  cases hget
  obtain ⟨r, _, hparse, h⟩ := bind_run_ok_iff.mp h
  obtain ⟨hparse, rfl⟩ := orRaise_run_ok_iff.mp hparse
  obtain ⟨members', names, work⟩ := r
  obtain ⟨t₁, t₂, hnames, hwork, hspent⟩ := charge_parsed hparse
  simp only at h
  rw [bind_run_ok (mapErr_run_ok_iff.mpr hnames), bind_run_ok (mapErr_run_ok_iff.mpr hwork)] at h
  cases h
  refine ⟨⟨bytes, _, members, names, work, hparse⟩, rfl, rfl, (input_ok_iff.mp hinput).1, ?_⟩
  have hall := (subtract_spent (by decide) hinput).trans hspent
  rw [← add_assoc] at hall
  exact hall

/-- The members of an archive are read one after another. -/
theorem readMembers_ok (hlength : bytes.length < wordBound) {objects : List ArchiveObject}
    (h : members.mapM (readMember bytes) b = .ok objects t) :
    ∃ reads : List Read, reads.map Read.bytes = members.map (fun m => m.bytes.bytes bytes) ∧
      objects = List.zipWith (fun m r => ⟨m.name, r.object⟩) members reads ∧
      Spent b (reads.map fun r => r.usage.cost).sum t := by
  induction members generalizing b objects with
  | nil =>
      rw [List.mapM_nil] at h
      cases h
      exact ⟨[], rfl, rfl, Spent.refl _⟩
  | cons m members ih =>
      rw [List.mapM_cons] at h
      obtain ⟨first, t₁, hfirst, h⟩ := bind_run_ok_iff.mp h
      obtain ⟨rest, t₂, hrest, h⟩ := bind_run_ok_iff.mp h
      cases h
      unfold readMember at hfirst
      obtain ⟨object, t₃, hmember, hfirst⟩ := bind_run_ok_iff.mp hfirst
      cases hfirst
      obtain ⟨read, hbytes, -, rfl, hspent⟩ :=
        member_ok ((length_part_le m bytes).trans_lt hlength) (mapErr_run_ok_iff.mp hmember)
      obtain ⟨reads, hreads, rfl, hmore⟩ := ih hrest
      refine ⟨read :: reads, ?_, rfl, ?_⟩
      · rw [List.map_cons, List.map_cons, hbytes, hreads]
      · rw [List.map_cons, List.sum_cons]
        exact hspent.trans hmore

end ReadBudget

/-! ## Calls -/

/-- What a call that succeeded has read. -/
inductive Receipt where
  | object (object : ObjectFile)
  | objectBytes (read : Read)
  | archive (a : Parsed) (reads : List Read) (h : reads.map Read.bytes = a.parts)

namespace Receipt

def call : Receipt → Call
  | object o => .object o
  | objectBytes read => .objectBytes read.bytes
  | archive a _ _ => .archive a.bytes

def input : Receipt → LinkInput
  | object o => .object o
  | objectBytes read => .object read.object
  | archive a reads _ => .archive (List.zipWith (fun m r => ⟨m.name, r.object⟩) a.members reads)

/-- The bytes of the input, the names and the parsing of an archive, and the usage of each object
that was read. -/
def cost : Receipt → ObjectResource → Nat
  | object _ => 0
  | objectBytes read =>
      ObjectReadUsage.only .inputBytes read.bytes.length + read.usage.cost
  | archive a reads _ => a.cost + (reads.map fun r => r.usage.cost).sum

end Receipt

open ReadBudget (Spent)

theorem addInput_run_ok {x : EStateM LinkError ReadBudget LinkInput} {l t : Linker}
    (h : addInput x l = .ok v t) : ∃ input b, x l.readBudget = .ok input b ∧
      t = { l with readBudget := b, inputs := l.inputs ++ [input] } := by
  unfold addInput at h
  rw [bind_run_ok (get_run l)] at h
  cases hx : x l.readBudget with
  | ok input b =>
      rw [hx] at h
      cases h
      exact ⟨input, b, rfl, rfl⟩
  | error e b =>
      rw [hx] at h
      cases h

theorem addInput_run_error {x : EStateM LinkError ReadBudget LinkInput} {l t : Linker}
    {e : LinkError} (h : addInput x l = .error e t) :
    ∃ e' b, x l.readBudget = .error e' b ∧ t = { l with readBudget := b } := by
  unfold addInput at h
  rw [bind_run_ok (get_run l)] at h
  cases hx : x l.readBudget with
  | ok input b =>
      rw [hx] at h
      cases h
  | error e' b =>
      rw [hx] at h
      cases h
      exact ⟨e', b, rfl, rfl⟩

theorem map_run_ok {ε σ α β : Type} {f : α → β} {x : EStateM ε σ α} {s t : σ} {y : β}
    (h : (f <$> x) s = .ok y t) : ∃ a, x s = .ok a t ∧ y = f a := by
  rw [← bind_pure_comp] at h
  obtain ⟨a, t', hx, hpure⟩ := bind_run_ok_iff.mp h
  cases hpure
  exact ⟨a, hx, rfl⟩

theorem map_run_error {ε σ α β : Type} {f : α → β} {x : EStateM ε σ α} {s t : σ} {e : ε}
    (h : (f <$> x) s = .error e t) : x s = .error e t := by
  rw [← bind_pure_comp] at h
  cases hx : x s with
  | ok a t' =>
      rw [bind_run_ok hx] at h
      cases h
  | error e' t' =>
      rw [bind_run, hx] at h
      cases h
      rfl

theorem call_error {l t : Linker} {c : Call} {e : LinkError} (h : call c l = .error e t) :
    t = l := by
  cases c with
  | object o => cases h
  | objectBytes bytes =>
      obtain ⟨e', b, hx, rfl⟩ := addInput_run_error h
      rw [onCopy_run_error (map_run_error hx)]
  | archive bytes =>
      obtain ⟨e', b, hx, rfl⟩ := addInput_run_error h
      rw [onCopy_run_error (map_run_error hx)]

/-- A call that succeeds adds one input and takes its cost from the budget. -/
theorem call_ok {l t : Linker} {c : Call}
    (hwords : l.readBudget.remaining.maxInputBytes < wordBound) (h : call c l = .ok v t) :
    ∃ receipt : Receipt, receipt.call = c ∧
      t.inputs = l.inputs ++ [receipt.input] ∧ Spent l.readBudget receipt.cost t.readBudget := by
  cases c with
  | object o =>
      cases h
      exact ⟨.object o, rfl, rfl, Spent.refl _⟩
  | objectBytes bytes =>
      obtain ⟨input, b, hx, rfl⟩ := addInput_run_ok h
      obtain ⟨object, hobject, rfl⟩ := map_run_ok hx
      obtain ⟨_, next, hinput, hmember⟩ := bind_run_ok_iff.mp (onCopy_run_ok_iff.mp hobject)
      have hinput := mapErr_run_ok_iff.mp hinput
      have hlength := (ReadBudget.input_ok_iff.mp hinput).1.trans_lt hwords
      obtain ⟨read, rfl, -, rfl, hspent⟩ :=
        ReadBudget.member_ok hlength (mapErr_run_ok_iff.mp hmember)
      refine ⟨.objectBytes read, rfl, rfl, ?_⟩
      exact (ReadBudget.subtract_spent (by decide) hinput).trans hspent
  | archive bytes =>
      obtain ⟨input, b, hx, rfl⟩ := addInput_run_ok h
      obtain ⟨objects, harchive, rfl⟩ := map_run_ok hx
      obtain ⟨members, next, hopen, hmembers⟩ := bind_run_ok_iff.mp (onCopy_run_ok_iff.mp harchive)
      obtain ⟨a, rfl, rfl, hinput, hspent⟩ := ReadBudget.openArchive_ok hopen
      obtain ⟨reads, hreads, rfl, hmore⟩ :=
        ReadBudget.readMembers_ok (hinput.trans_lt hwords) hmembers
      exact ⟨.archive a reads hreads, rfl, rfl, hspent.trans hmore⟩

/-- Over a run, exactly the calls that succeed add an input and are paid for. -/
theorem run_spent (calls : List Call) {l : Linker}
    (hwords : l.readBudget.remaining.maxInputBytes < wordBound) :
    ∃ receipts : List Receipt, receipts.map Receipt.call = succeeded l calls ∧
      (run l calls).inputs = l.inputs ++ receipts.map Receipt.input ∧
      Spent l.readBudget (receipts.map Receipt.cost).sum (run l calls).readBudget := by
  induction calls generalizing l with
  | nil => exact ⟨[], rfl, (List.append_nil _).symm, Spent.refl _⟩
  | cons c calls ih =>
      cases hcall : call c l with
      | error e t =>
          -- A failed call leaves the linker as it was and adds no receipt.
          have hsame := call_error hcall
          subst hsame
          obtain ⟨receipts, hcalls, hinputs, hspent⟩ := ih hwords
          have hafter : after t c = t := by
            unfold after
            rw [hcall]
          refine ⟨receipts, ?_, ?_, ?_⟩
          · rw [hcalls]
            conv_rhs => unfold succeeded
            rw [hcall]
          · rw [← hinputs]
            unfold run
            rw [List.foldl_cons, hafter]
          · unfold run at hspent ⊢
            rw [List.foldl_cons, hafter]
            exact hspent
      | ok v t =>
          obtain ⟨receipt, hc, hinput, hcost⟩ := call_ok hwords hcall
          have hnext : t.readBudget.remaining.maxInputBytes < wordBound :=
            (hcost.le .inputBytes).trans_lt hwords
          obtain ⟨receipts, hcalls, hinputs, hspent⟩ := ih hnext
          have hafter : after l c = t := by
            unfold after
            rw [hcall]
          refine ⟨receipt :: receipts, ?_, ?_, ?_⟩
          · rw [List.map_cons, hcalls, hc]
            conv_rhs => unfold succeeded
            rw [hcall]
          · unfold run at hinputs ⊢
            rw [List.foldl_cons, hafter, hinputs, hinput, List.append_assoc]
            rfl
          · unfold run at hspent ⊢
            rw [List.foldl_cons, hafter, List.map_cons, List.sum_cons]
            exact hcost.trans hspent

/-! ## Requests -/

/-- A call with the budget `b` hands `bytes` to the reader of objects while `next` remains. -/
inductive Request (b : ReadBudget) : Call → ReadBudget → List UInt8 → Prop where
  | object {bytes : List UInt8} {next : ReadBudget} :
      ReadBudget.input bytes.length b = .ok () next → Request b (.objectBytes bytes) next bytes
  | member {bytes : List UInt8} {members before behind : List ArchiveMember} {m : ArchiveMember}
      {objects : List ArchiveObject} {opened next : ReadBudget} :
      ReadBudget.openArchive bytes b = .ok members opened → members = before ++ m :: behind →
      before.mapM (ReadBudget.readMember bytes) opened = .ok objects next →
      Request b (.archive bytes) next (m.bytes.bytes bytes)

/-- A call with the budget `b` hands an archive to the parser while `next` remains. -/
inductive ParseRequest (b : ReadBudget) : Call → ReadBudget → List UInt8 → Prop where
  | archive {bytes : List UInt8} {next : ReadBudget} :
      ReadBudget.input bytes.length b = .ok () next → ParseRequest b (.archive bytes) next bytes

/-- The limits of a request: of everything but the input what remains, and of the input the bytes
of the request, which are among those that the call was charged for. -/
structure Limited (b next : ReadBudget) (bytes : List UInt8) : Prop where
  /-- Nothing is given back. -/
  less : ∀ r, next.remaining.get r ≤ b.remaining.get r
  remaining : ∀ r, r ≠ .inputBytes → (next.limitsFor bytes).get r = next.remaining.get r
  input : (next.limitsFor bytes).get .inputBytes = bytes.length
  length : bytes.length + next.remaining.maxInputBytes ≤ b.remaining.maxInputBytes

theorem limitsFor_get (b : ReadBudget) (bytes : List UInt8) (hr : r ≠ .inputBytes) :
    (b.limitsFor bytes).get r = b.remaining.get r := by
  cases r <;> first | contradiction | rfl

theorem Request.limited {b next : ReadBudget} {c : Call} {bytes : List UInt8}
    (hwords : b.remaining.maxInputBytes < wordBound) (h : Request b c next bytes) :
    Limited b next bytes := by
  cases h with
  | object hinput =>
      have hspent := ReadBudget.subtract_spent (by decide) hinput
      refine ⟨hspent.le, fun r => limitsFor_get _ _, rfl, ?_⟩
      have hsum := hspent .inputBytes
      rw [Nat.add_comm]
      exact hsum.le
  | member hopen hmembers hread =>
      obtain ⟨a, rfl, rfl, hinput, hspent⟩ := ReadBudget.openArchive_ok hopen
      obtain ⟨reads, -, -, hmore⟩ := ReadBudget.readMembers_ok (hinput.trans_lt hwords) hread
      refine ⟨(hspent.trans hmore).le, fun r => limitsFor_get _ _, rfl, ?_⟩
      -- The members are parts of the archive, and its bytes were charged at once.
      have hpart := length_part_le ‹ArchiveMember› a.bytes
      have hcharged := hspent .inputBytes
      have hrest := hmore.le .inputBytes
      have hcost : a.cost .inputBytes = a.bytes.length := by
        unfold Parsed.cost ObjectReadUsage.only
        simp
      rw [hcost] at hcharged
      calc (Slice.bytes _ a.bytes).length + _ ≤ a.bytes.length + _ := Nat.add_le_add hpart hrest
        _ = b.remaining.maxInputBytes := by
          rw [Nat.add_comm]
          exact hcharged

/-! ## Runs -/

/-- Over every run of calls what remains and what the successful calls cost is what there was at
the start, and these calls are the inputs; a call that fails changes nothing; readers get what
remains; and a read that succeeds is never too much for the budget. -/
theorem run_conserved (limits : ObjectReadLimits) (hwords : limits.maxInputBytes < wordBound)
    (calls : List Call) :
    (∃ receipts : List Receipt,
      receipts.map Receipt.call = succeeded (withReadLimits limits) calls ∧
      (run (withReadLimits limits) calls).inputs = receipts.map Receipt.input ∧
      ∀ r, (run (withReadLimits limits) calls).readBudget.remaining.get r +
        (receipts.map Receipt.cost).sum r = limits.get r) ∧
    ∀ c,
      (∀ e l, call c (run (withReadLimits limits) calls) = .error e l →
        l = run (withReadLimits limits) calls) ∧
      (∀ next bytes, Request (run (withReadLimits limits) calls).readBudget c next bytes →
        Limited (run (withReadLimits limits) calls).readBudget next bytes ∧
        ∀ object usage, readElfWithUsage bytes (next.limitsFor bytes) = .ok (object, usage) →
          ∃ rest, ReadBudget.member bytes next = .ok object rest) ∧
      ∀ next bytes, ParseRequest (run (withReadLimits limits) calls).readBudget c next bytes →
        next.parseLimits.maxStrings = next.remaining.maxStringBytes ∧
        next.parseLimits.maxWork = next.remaining.maxWork ∧
        ∀ members names work,
          Archive.parseArchive bytes next.parseLimits = .ok (members, names, work) →
          ∃ t rest, ReadBudget.subtract .stringBytes names next = .ok () t ∧
            ReadBudget.subtract .work work t = .ok () rest := by
  obtain ⟨receipts, hcalls, hinputs, hspent⟩ := run_spent calls (l := withReadLimits limits) hwords
  have hrest : (run (withReadLimits limits) calls).readBudget.remaining.maxInputBytes < wordBound :=
    (hspent.le .inputBytes).trans_lt hwords
  refine ⟨⟨receipts, hcalls, hinputs, hspent⟩, fun c => ⟨fun e l => call_error, ?_, ?_⟩⟩
  · intro next bytes hrequest
    have hlimited := hrequest.limited hrest
    refine ⟨hlimited, fun object usage hread => ?_⟩
    have hlength : bytes.length < wordBound :=
      ((Nat.le_add_right _ _).trans hlimited.length).trans_lt hrest
    obtain ⟨rest, hmember, -⟩ := (ReadBudget.member_run hlength).2 object usage hread
    exact ⟨rest, hmember⟩
  · intro next bytes _
    refine ⟨rfl, rfl, fun members names work hparse => ?_⟩
    obtain ⟨t, rest, hnames, hwork, -⟩ := ReadBudget.charge_parsed hparse
    exact ⟨t, rest, hnames, hwork⟩

/-! ## Instances -/

theorem succeeded_loopFile :
    (succeeded (withReadLimits .default) [.objectBytes Elf.loopFile, .objectBytes []]).length = 1 := by
  decide +kernel

/-- An object and a failing call. -/
theorem run_conserved_loopFile : ∃ receipt : Receipt,
    (run (withReadLimits .default) [.objectBytes Elf.loopFile, .objectBytes []]).inputs =
      [receipt.input] ∧
    ∀ r, (run (withReadLimits .default)
        [.objectBytes Elf.loopFile, .objectBytes []]).readBudget.remaining.get r +
      receipt.cost r = ObjectReadLimits.default.get r := by
  obtain ⟨receipts, hcalls, hinputs, hspent⟩ :=
    (run_conserved .default (by decide) [.objectBytes Elf.loopFile, .objectBytes []]).1
  have hlength : receipts.length = 1 := by
    rw [← List.length_map (f := Receipt.call), hcalls, succeeded_loopFile]
  obtain ⟨receipt, rfl⟩ := List.length_eq_one_iff.mp hlength
  refine ⟨receipt, hinputs, fun r => ?_⟩
  have hr := hspent r
  rw [List.map_singleton, List.sum_singleton] at hr
  exact hr

/-- Limits with just enough room for the bytes of one file. -/
def tightLimits (bytes : List UInt8) : ObjectReadLimits :=
  { ObjectReadLimits.default with maxInputBytes := bytes.length }

theorem request_tight {bytes : List UInt8} (h : 0 < bytes.length) : ∃ next,
    Request ⟨tightLimits bytes⟩ (.objectBytes bytes) next bytes ∧
      next.remaining.maxInputBytes < (next.limitsFor bytes).maxInputBytes := by
  have hinput : ReadBudget.input bytes.length ⟨tightLimits bytes⟩ =
      .ok () ⟨(tightLimits bytes).set .inputBytes (bytes.length - bytes.length)⟩ :=
    ReadBudget.input_ok_iff.mpr ⟨le_rfl, rfl⟩
  refine ⟨_, .object hinput, ?_⟩
  show bytes.length - bytes.length < bytes.length
  rw [Nat.sub_self]
  exact h

/-- The reader is handed a limit on the input although nothing of that limit remains. -/
theorem request_above_remaining : ∃ next,
    Request (withReadLimits (tightLimits Elf.loopFile)).readBudget (.objectBytes Elf.loopFile) next
        Elf.loopFile ∧
      next.remaining.maxInputBytes < (next.limitsFor Elf.loopFile).maxInputBytes :=
  request_tight (by decide +kernel)

end Linker

end Whale
