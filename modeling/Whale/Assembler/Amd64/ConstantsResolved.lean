import Whale.Assembler.Amd64.ConstantsSpec
import Whale.Lib.Agenda

set_option autoImplicit false

/-! # Constants are resolved

The worklist follows the graph of the definitions, in which every constant waits for one other at
most. All constants get their values exactly when the source is resolvable, in whatever order they
are defined (`resolveConstants_resolvable`). -/

namespace Whale.Assembler.Amd64

open Relation

variable {values : AssocMap String Int}

namespace Definitions

/-! ## The graph -/

/-- The position of the constant that an expression refers to. -/
def dependency (d : Definitions) : ExprValue → List Nat
  | .number _ => []
  | .symbol name _ => (d.positions.get name).toList

def depsAt (d : Definitions) (i : Nat) : List Nat :=
  match d.definitions[i]? with
  | some e => d.dependency e.2
  | none => []

def usersOf (d : Definitions) (j : Nat) : List Nat :=
  (List.range d.definitions.length).filter fun i => j ∈ d.depsAt i

variable {d : Definitions}

theorem depsAt_eq {i : Nat} {e : String × ExprValue} (h : d.definitions[i]? = some e) :
    d.depsAt i = d.dependency e.2 := by
  unfold depsAt
  rw [h]

theorem length_dependency_le (d : Definitions) (expr : ExprValue) :
    (d.dependency expr).length ≤ 1 := by
  cases expr with
  | number n => exact Nat.zero_le 1
  | symbol name addend =>
      show (d.positions.get name).toList.length ≤ 1
      cases d.positions.get name with
      | none => exact Nat.zero_le 1
      | some p => exact Nat.le_refl 1

theorem length_depsAt_le (d : Definitions) (i : Nat) : (d.depsAt i).length ≤ 1 := by
  cases hi : d.definitions[i]? with
  | none =>
      unfold depsAt
      rw [hi]
      exact Nat.zero_le 1
  | some e =>
      rw [depsAt_eq hi]
      exact length_dependency_le d e.2

theorem mem_depsAt {i j : Nat} : j ∈ d.depsAt i ↔ ∃ name dependency addend,
    d.definitions[i]? = some (name, .symbol dependency addend) ∧
      d.positions.get dependency = some j := by
  unfold depsAt
  cases hi : d.definitions[i]? with
  | none => exact ⟨nofun, fun ⟨_, _, _, h, _⟩ => nomatch h⟩
  | some e =>
      obtain ⟨name, expr⟩ := e
      cases expr with
      | number n =>
          constructor
          · nofun
          · rintro ⟨_, _, _, h, _⟩
            cases h
      | symbol dependency addend =>
          show j ∈ (d.positions.get dependency).toList ↔ _
          rw [Option.mem_toList]
          constructor
          · intro h
            exact ⟨name, dependency, addend, rfl, h⟩
          · rintro ⟨_, _, _, h, hj⟩
            cases h
            exact hj

/-- The graph of the definitions. -/
def graph (d : Definitions) (h : d.Indexed) : Agenda.Graph where
  n := d.definitions.length
  deps := d.depsAt
  users := d.usersOf
  deps_lt := by
    intro i _ j hj
    obtain ⟨name, dependency, addend, -, hposition⟩ := mem_depsAt.mp hj
    obtain ⟨expr, hexpr⟩ := (h.positions dependency j).mp hposition
    exact (List.getElem?_eq_some_iff.mp hexpr).1
  deps_nodup := by
    intro i _
    have hlength := length_depsAt_le d i
    match hdeps : d.depsAt i with
    | [] => exact List.nodup_nil
    | [j] => exact List.nodup_singleton j
    | j :: k :: js =>
        rw [hdeps] at hlength
        simp at hlength
  users_nodup := fun _ _ => List.nodup_range.filter _
  mem_users := by
    intro j _ i
    unfold usersOf
    rw [List.mem_filter, List.mem_range, decide_eq_true_eq]

/-! ## Scheduling -/

/-- A definition that can be scheduled. -/
def Schedules (d : Definitions) (_ : Worklist) (e : (String × ExprValue) × Nat) : Prop :=
  e.1.1 ∉ d.reserved ∧ ∀ name addend, e.1.2 = .symbol name addend → (d.positions.get name).isSome

def scheduled (d : Definitions) (w : Worklist) (e : (String × ExprValue) × Nat) : Worklist :=
  match e.1.2 with
  | .number _ => { w with ready := w.ready ++ [e.2] }
  | .symbol name _ =>
      { w with dependents := w.dependents.modify ((d.positions.get name).getD 0) (· ++ [e.2]) }

theorem schedule_ok_iff (ast : Ast) (d : Definitions) (w : Worklist)
    (e : (String × ExprValue) × Nat) (w' : Worklist) :
    schedule ast d w e = .ok w' ↔ d.Schedules w e ∧ w' = d.scheduled w e := by
  obtain ⟨⟨name, expr⟩, index⟩ := e
  unfold schedule Schedules scheduled
  simp only
  rw [require_then_ok_iff, and_assoc]
  refine and_congr_right fun _ => ?_
  cases expr with
  | number n =>
      simp only
      rw [pure_eq_ok, Except.ok.injEq]
      constructor
      · intro h
        refine ⟨?_, h.symm⟩
        rintro _ _ ⟨⟩
      · exact fun h => h.2.symm
  | symbol dependency addend =>
      simp only
      rw [bind_ok_iff]
      simp only [orThrow_ok_iff]
      constructor
      · rintro ⟨position, hposition, h⟩
        cases h
        rw [hposition]
        refine ⟨fun name' addend' h => ?_, rfl⟩
        cases h
        rw [hposition]
        rfl
      · rintro ⟨hsome, rfl⟩
        obtain ⟨position, hposition⟩ := Option.isSome_iff_exists.mp (hsome dependency addend rfl)
        rw [hposition]
        exact ⟨position, rfl, rfl⟩

theorem along_schedules_iff (es : List ((String × ExprValue) × Nat)) (w : Worklist) :
    Along d.Schedules d.scheduled w es ↔ ∀ e ∈ es, d.Schedules w e := by
  induction es generalizing w with
  | nil => exact ⟨fun _ => List.forall_mem_nil _, fun _ => trivial⟩
  | cons e es ih =>
      show d.Schedules w e ∧ Along _ _ (d.scheduled w e) es ↔ _
      rw [ih, List.forall_mem_cons]
      exact Iff.rfl

/-- What is ready and waited for when the definitions were scheduled. -/
theorem foldl_scheduled (es : List ((String × ExprValue) × Nat)) {w : Worklist}
    (hall : ∀ e ∈ es, d.Schedules w e)
    (hlt : ∀ e ∈ es, ∀ j ∈ d.dependency e.1.2, j < w.dependents.length) :
    (es.foldl d.scheduled w).ready =
      w.ready ++ (es.filter fun e => (d.dependency e.1.2).isEmpty).map Prod.snd ∧
    ∀ j, (es.foldl d.scheduled w).dependents.getD j [] = w.dependents.getD j [] ++
      (es.filter fun e => j ∈ d.dependency e.1.2).map Prod.snd := by
  induction es generalizing w with
  | nil => exact ⟨(List.append_nil _).symm, fun j => (List.append_nil _).symm⟩
  | cons e es ih =>
      rw [List.foldl_cons]
      obtain ⟨⟨name, expr⟩, index⟩ := e
      have hlength : (d.scheduled w ((name, expr), index)).dependents.length =
          w.dependents.length := by
        unfold scheduled
        cases expr with
        | number n => rfl
        | symbol dependency addend => exact List.length_modify ..
      obtain ⟨hready, hdependents⟩ := ih (w := d.scheduled w ((name, expr), index))
        (fun e he => hall e (List.mem_cons_of_mem _ he)) (fun e he j hj => by
          rw [hlength]
          exact hlt e (List.mem_cons_of_mem _ he) j hj)
      rw [hready]
      cases expr with
      | number n =>
          refine ⟨?_, fun j => ?_⟩
          · rw [List.filter_cons_of_pos rfl, List.map_cons]
            exact List.append_assoc ..
          · rw [hdependents, List.filter_cons_of_neg (by simp [dependency])]
            rfl
      | symbol dep addend =>
          obtain ⟨position, hposition⟩ :=
            Option.isSome_iff_exists.mp ((hall _ List.mem_cons_self).2 dep addend rfl)
          have hdeps : d.dependency (.symbol dep addend) = [position] := by
            unfold dependency
            simp only
            rw [hposition]
            rfl
          have hbound := hlt _ List.mem_cons_self position (by
            rw [hdeps]
            exact List.mem_singleton.mpr rfl)
          have hscheduled : (d.scheduled w ((name, .symbol dep addend), index)).dependents =
              w.dependents.modify position (· ++ [index]) := by
            unfold scheduled
            simp only
            rw [hposition]
            rfl
          refine ⟨?_, fun j => ?_⟩
          · rw [List.filter_cons_of_neg (by simp [hdeps])]
            rfl
          · rw [hdependents, hscheduled, List.filter_cons]
            simp only [hdeps, List.mem_singleton]
            rw [List.getD_eq_getElem?_getD, List.getElem?_modify, List.getD_eq_getElem?_getD]
            -- Only the dependency's own list gains the index.
            by_cases hj : position = j
            · subst hj
              rw [if_pos (decide_eq_true rfl), List.getElem?_eq_getElem hbound]
              simp
            · rw [if_neg (by simpa using fun h => hj h.symm)]
              simp [hj]

/-- Each definition once, at its position. -/
theorem zipIdx_filter_positions (d : Definitions) (q : List Nat → Bool) :
    (d.definitions.zipIdx.filter fun e => q (d.dependency e.1.2)).map Prod.snd =
      (List.range d.definitions.length).filter fun i => q (d.depsAt i) := by
  have hsame : d.definitions.zipIdx.filter (fun e => q (d.dependency e.1.2)) =
      d.definitions.zipIdx.filter ((fun i => q (d.depsAt i)) ∘ Prod.snd) := by
    refine List.filter_congr fun e he => ?_
    have hget := List.mem_zipIdx_iff_getElem?.mp he
    rw [Function.comp_apply, depsAt_eq hget]
  rw [hsame, ← List.filter_map, List.zipIdx_map_snd, List.range_eq_range']

/-- Nothing is linked yet, and nothing is ready. -/
abbrev unscheduled (d : Definitions) : Worklist :=
  { dependents := List.replicate d.definitions.length [], ready := [] }

/-- The worklist at the start of the loop. -/
theorem scheduled_start (hd : d.Indexed)
    (hall : ∀ e ∈ d.definitions.zipIdx, ∀ w, d.Schedules w e) :
    let w := d.definitions.zipIdx.foldl d.scheduled d.unscheduled
    w.ready = (List.range (d.graph hd).n).filter (fun i => ((d.graph hd).deps i).isEmpty) ∧
      ∀ j < d.definitions.length, w.dependents.getD j [] = (d.graph hd).users j := by
  have hlt : ∀ e ∈ d.definitions.zipIdx, ∀ j ∈ d.dependency e.1.2,
      j < (List.replicate d.definitions.length ([] : List Nat)).length := by
    intro e he j hj
    have hget := List.mem_zipIdx_iff_getElem?.mp he
    rw [← depsAt_eq hget] at hj
    rw [List.length_replicate]
    exact (d.graph hd).deps_lt e.2 (List.getElem?_eq_some_iff.mp hget).1 j hj
  obtain ⟨hready, hdependents⟩ := foldl_scheduled d.definitions.zipIdx
    (w := d.unscheduled) (fun e he => hall e he _) hlt
  constructor
  · rw [hready, List.nil_append]
    exact zipIdx_filter_positions d List.isEmpty
  · intro j hj
    rw [hdependents]
    have hempty : (List.replicate d.definitions.length ([] : List Nat)).getD j [] = [] := by
      rw [List.getD_eq_getElem?_getD, List.getElem?_replicate, if_pos hj]
      rfl
    rw [hempty, List.nil_append]
    exact zipIdx_filter_positions d fun l => decide (j ∈ l)

/-! ## The loop -/

/-- Exactly the constants that are done have values, which are what they denote. -/
structure Values (d : Definitions) (done : List Nat) (values : AssocMap String Int) : Prop where
  sound : ∀ name v, values.get name = some v →
    Denotes d.definitions name v ∧ isExpressionValue v
  complete : ∀ name, (values.get name).isSome = true ↔
    ∃ i ∈ done, ∃ expr, d.definitions[i]? = some (name, expr)

theorem Values.insert {done : List Nat} (h : d.Values done values) {i : Nat} {name : String}
    {expr : ExprValue} (hi : d.definitions[i]? = some (name, expr)) {v : Int}
    (hv : Denotes d.definitions name v) (hrange : isExpressionValue v) :
    d.Values (done ++ [i]) (values.insert name v) := by
  constructor
  · intro name' v' h'
    rw [AssocMap.get_insert] at h'
    split at h'
    · rename_i heq
      subst heq
      cases h'
      exact ⟨hv, hrange⟩
    · exact h.sound name' v' h'
  · intro name'
    rw [AssocMap.get_insert]
    split
    · rename_i heq
      subst heq
      exact ⟨fun _ => ⟨i, by simp, expr, hi⟩, fun _ => rfl⟩
    · rename_i hne
      rw [h.complete]
      constructor
      · rintro ⟨j, hj, expr', hexpr⟩
        exact ⟨j, List.mem_append_left _ hj, expr', hexpr⟩
      · rintro ⟨j, hj, expr', hexpr⟩
        rcases List.mem_append.mp hj with hj | hj
        · exact ⟨j, hj, expr', hexpr⟩
        · rw [List.mem_singleton.mp hj, hi] at hexpr
          cases hexpr
          exact absurd rfl hne

theorem checkedExpressionAdd_ok_iff {a b v : Int} {symbol : String} :
    checkedExpressionAdd a b symbol = .ok v ↔ isExpressionValue (a + b) ∧ v = a + b := by
  unfold checkedExpressionAdd
  rw [orThrow_ok_iff, Option.filter_eq_some_iff, decide_eq_true_eq]
  unfold checkedI128
  constructor
  · rintro ⟨h, hv⟩
    split at h
    · cases h
      exact ⟨hv, rfl⟩
    · cases h
  · rintro ⟨hv, rfl⟩
    refine ⟨if_pos ?_, hv⟩
    unfold isExpressionValue at hv
    omega

/-- A definition that is ready has its value computed, unless that is out of range. -/
theorem evaluate_spec (ast : Ast) {done : List Nat} (h : d.Values done values) {i : Nat}
    {name : String} {expr : ExprValue} (hi : d.definitions[i]? = some (name, expr))
    (hdeps : ∀ dep addend, expr = .symbol dep addend → (values.get dep).isSome = true)
    (hnumber : ∀ n, expr = .number n → isExpressionValue n) :
    (∃ v, evaluate ast d i values = .ok (values.insert name v) ∧ Denotes d.definitions name v ∧
      isExpressionValue v) ∨
    (∃ error v, evaluate ast d i values = .error error ∧ Denotes d.definitions name v ∧
      ¬ isExpressionValue v) := by
  have hmem := List.mem_of_getElem? hi
  unfold evaluate
  rw [hi]
  simp only
  cases expr with
  | number n =>
      exact .inl ⟨n, rfl, .number hmem, hnumber n rfl⟩
  | symbol dep addend =>
      obtain ⟨c, hc⟩ := Option.isSome_iff_exists.mp (hdeps dep addend rfl)
      have hdenotes : Denotes d.definitions name (c + addend) :=
        .symbol hmem (h.sound dep c hc).1
      unfold evalExpr
      simp only
      rw [hc]
      simp only
      by_cases hrange : isExpressionValue (c + addend)
      · refine .inl ⟨c + addend, ?_, hdenotes, hrange⟩
        rw [checkedExpressionAdd_ok_iff.mpr ⟨hrange, rfl⟩]
        rfl
      · refine .inr ?_
        cases hadd : checkedExpressionAdd c addend dep with
        | ok v => exact absurd (checkedExpressionAdd_ok_iff.mp hadd).1 hrange
        | error e => exact ⟨_, c + addend, rfl, hdenotes, hrange⟩

/-- The loop ends with nothing that is ready, or at a constant whose value is out of range. -/
theorem drain_spec (ast : Ast) (hd : d.Indexed)
    (hdefined : ∀ name dep addend, (name, ExprValue.symbol dep addend) ∈ d.definitions →
      (d.positions.get dep).isSome = true)
    (hnumbers : ∀ name n, (name, ExprValue.number n) ∈ d.definitions → isExpressionValue n)
    {dependents : List (List Nat)}
    (hdependents : ∀ j < d.definitions.length, dependents.getD j [] = (d.graph hd).users j)
    {fuel : Nat} {done : List Nat} {a : Agenda} (hvalid : Agenda.Valid (d.graph hd) done a)
    (hvalues : d.Values done values) (hfuel : d.definitions.length ≤ fuel + done.length) :
    (∃ values' done' a', drain ast d dependents fuel a.ready values = .ok ([], values') ∧
      Agenda.Valid (d.graph hd) done' a' ∧ a'.ready = [] ∧ d.Values done' values') ∨
    (∃ error name v, drain ast d dependents fuel a.ready values = .error error ∧
      Denotes d.definitions name v ∧ ¬ isExpressionValue v) := by
  induction fuel generalizing done a values with
  | zero =>
      cases hready : a.ready with
      | nil => exact .inl ⟨values, done, a, rfl, hvalid, hready, hvalues⟩
      | cons i rest =>
          -- There is no constant left that could be ready.
          have hmore := (hvalid.complete hready).length_le
          rw [List.length_append, List.length_singleton] at hmore
          have hn : (d.graph hd).n = d.definitions.length := rfl
          omega
  | succ fuel ih =>
      cases hready : a.ready with
      | nil => exact .inl ⟨values, done, a, rfl, hvalid, hready, hvalues⟩
      | cons i rest =>
          have hi : i ∈ a.ready := by
            rw [hready]
            exact List.mem_cons_self
          obtain ⟨hlt, -, hdeps⟩ := (hvalid.ready i).mp hi
          obtain ⟨⟨name, expr⟩, hget⟩ : ∃ e, d.definitions[i]? = some e :=
            ⟨_, List.getElem?_eq_getElem hlt⟩
          have hmem := List.mem_of_getElem? hget
          have hknown : ∀ dep addend, expr = .symbol dep addend →
              (values.get dep).isSome = true := by
            rintro dep addend rfl
            obtain ⟨j, hj⟩ := Option.isSome_iff_exists.mp (hdefined name dep addend hmem)
            have hjdone := hdeps j (mem_depsAt.mpr ⟨name, dep, addend, hget, hj⟩)
            exact (hvalues.complete dep).mpr ⟨j, hjdone, (hd.positions dep j).mp hj⟩
          have hnumber : ∀ n, expr = .number n → isExpressionValue n := by
            rintro n rfl
            exact hnumbers name n hmem
          show (∃ values' done' a', (evaluate ast d i values >>= fun values =>
              drain ast d dependents fuel (rest ++ dependents.getD i []) values) = _ ∧ _) ∨
            (∃ error name v, (evaluate ast d i values >>= fun values =>
              drain ast d dependents fuel (rest ++ dependents.getD i []) values) = _ ∧ _)
          rcases evaluate_spec ast hvalues hget hknown hnumber with
            ⟨v, heval, hv, hrange⟩ | ⟨error, v, heval, hv, hrange⟩
          · have hnext := ih (hvalid.complete hready) (hvalues.insert hget hv hrange) (by
              rw [List.length_append, List.length_singleton]
              omega)
            rw [hvalid.ready_of_single hready fun k _ => length_depsAt_le d k,
              ← hdependents i hlt] at hnext
            simp only [heval, ok_bind]
            exact hnext
          · refine .inr ⟨error, name, v, ?_, hv, hrange⟩
            rw [heval, error_bind]

/-! ## Cycles -/

/-- A cycle of names is a cycle of positions. -/
theorem cyclic_iff (hd : d.Indexed)
    (hdefined : ∀ name dep, DependsOn d.definitions name dep →
      dep ∈ d.definitions.map Prod.fst) :
    (∃ name, TransGen (DependsOn d.definitions) name name) ↔
      ∃ i, TransGen (d.graph hd).Waits i i := by
  have hposition : ∀ {name : String}, name ∈ d.definitions.map Prod.fst →
      ∃ p, d.positions.get name = some p := by
    intro name hname
    rw [← Option.isSome_iff_exists]
    by_contra h
    rw [Option.not_isSome_iff_eq_none, hd.get_eq_none_iff] at h
    exact h hname
  constructor
  · rintro ⟨name, hcycle⟩
    refine ⟨(d.positions.get name).getD 0,
      (TransGen.lift (fun n => (d.positions.get n).getD 0) ?_) _ _ hcycle⟩
    rintro n dep ⟨addend, hmem⟩
    obtain ⟨j, hj⟩ := hposition (hdefined n dep ⟨addend, hmem⟩)
    obtain ⟨i, hi⟩ := List.mem_iff_getElem?.mp hmem
    have hn : d.positions.get n = some i := (hd.positions n i).mpr ⟨_, hi⟩
    show (d.graph hd).Waits ((d.positions.get n).getD 0) ((d.positions.get dep).getD 0)
    rw [hn, hj]
    exact ⟨(List.getElem?_eq_some_iff.mp hi).1, mem_depsAt.mpr ⟨n, dep, addend, hi, hj⟩⟩
  · rintro ⟨i, hcycle⟩
    refine ⟨((d.definitions[i]?).map Prod.fst).getD "",
      (TransGen.lift (fun i => ((d.definitions[i]?).map Prod.fst).getD "") ?_) _ _ hcycle⟩
    rintro k j ⟨-, hj⟩
    obtain ⟨name, dep, addend, hk, hposition⟩ := mem_depsAt.mp hj
    obtain ⟨expr, hexpr⟩ := (hd.positions dep j).mp hposition
    show DependsOn d.definitions (((d.definitions[k]?).map Prod.fst).getD "")
      (((d.definitions[j]?).map Prod.fst).getD "")
    rw [hk, hexpr]
    exact ⟨addend, List.mem_of_getElem? hk⟩

/-! ## Resolution -/

end Definitions

open Definitions

/-- Numbers that a source gives to constants directly are in range. -/
def NumbersParsed (nodes : List ScopedNode) : Prop :=
  ∀ name n, (name, ExprValue.number n) ∈ definitionsOf nodes → isExpressionValue n

/-- When nothing is ready, every constant that denotes a value has it. -/
theorem denotes_of_done {d : Definitions} (hd : d.Indexed) {done : List Nat} {a : Agenda}
    (hvalid : Agenda.Valid (d.graph hd) done a) (hvalues : d.Values done values)
    (hready : a.ready = []) {name : String} {v : Int} (h : Denotes d.definitions name v) :
    values.get name = some v := by
  have hdone : ∃ i ∈ done, ∃ expr, d.definitions[i]? = some (name, expr) := by
    induction h with
    | number hmem =>
        rename_i name n
        obtain ⟨i, hi⟩ := List.mem_iff_getElem?.mp hmem
        refine ⟨i, ?_, _, hi⟩
        by_contra hleft
        obtain ⟨j, hj, -⟩ := hvalid.stuck hready (List.getElem?_eq_some_iff.mp hi).1 hleft
        obtain ⟨_, _, _, hsymbol, -⟩ := mem_depsAt.mp hj
        rw [hi] at hsymbol
        cases hsymbol
    | symbol hmem _ ih =>
        rename_i name dep addend value
        obtain ⟨i, hi⟩ := List.mem_iff_getElem?.mp hmem
        refine ⟨i, ?_, _, hi⟩
        by_contra hleft
        obtain ⟨j, hj, hjleft⟩ := hvalid.stuck hready (List.getElem?_eq_some_iff.mp hi).1 hleft
        obtain ⟨_, _, _, hsymbol, hposition⟩ := mem_depsAt.mp hj
        rw [hi] at hsymbol
        cases hsymbol
        obtain ⟨k, hk, expr, hexpr⟩ := ih
        rw [(hd.positions _ k).mpr ⟨expr, hexpr⟩] at hposition
        cases hposition
        exact hjleft hk
  obtain ⟨w, hw⟩ := Option.isSome_iff_exists.mp ((hvalues.complete name).mpr hdone)
  rw [hw, Denotes.unique hd.unique (hvalues.sound name w hw).1 h]

/-- Definitions can be scheduled when no name is reserved and all references are defined. -/
theorem schedules_iff {d : Definitions} (hd : d.Indexed) :
    (∀ e ∈ d.definitions.zipIdx, ∀ w, d.Schedules w e) ↔
      (∀ name ∈ d.definitions.map Prod.fst, name ∉ d.reserved) ∧
        ∀ name dep, DependsOn d.definitions name dep → dep ∈ d.definitions.map Prod.fst := by
  have hposition : ∀ name, (d.positions.get name).isSome = true ↔
      name ∈ d.definitions.map Prod.fst := by
    intro name
    rw [← not_iff_not, Option.not_isSome_iff_eq_none, hd.get_eq_none_iff]
  constructor
  · intro h
    constructor
    · intro name hname
      obtain ⟨e, he, rfl⟩ := List.mem_map.mp hname
      obtain ⟨i, hi⟩ := List.mem_iff_getElem?.mp he
      exact (h (e, i) (List.mem_zipIdx_iff_getElem?.mpr hi) ⟨[], []⟩).1
    · rintro name dep ⟨addend, hmem⟩
      obtain ⟨i, hi⟩ := List.mem_iff_getElem?.mp hmem
      rw [← hposition]
      exact (h ((name, .symbol dep addend), i) (List.mem_zipIdx_iff_getElem?.mpr hi)
        ⟨[], []⟩).2 dep addend rfl
  · rintro ⟨hfree, hdefined⟩ ⟨⟨name, expr⟩, i⟩ he w
    have hmem := List.mem_of_getElem? (List.mem_zipIdx_iff_getElem?.mp he)
    refine ⟨hfree name (List.mem_map.mpr ⟨_, hmem, rfl⟩), ?_⟩
    intro dep addend hexpr
    rw [hposition]
    exact hdefined name dep ⟨addend, by rw [← hexpr]; exact hmem⟩

/-- The resolution of definitions that were collected: the loop has ended for good, and it has all
values unless there is a cycle or a value is out of range. -/
theorem resolve_collected (ast : Ast) {d : Definitions} (hd : d.Indexed)
    (hnumbers : ∀ name n, (name, ExprValue.number n) ∈ d.definitions → isExpressionValue n)
    (hall : ∀ e ∈ d.definitions.zipIdx, ∀ w, d.Schedules w e) {fuel : Nat}
    (hfuel : d.definitions.length ≤ fuel) :
    let w := d.definitions.zipIdx.foldl d.scheduled d.unscheduled
    (∃ values done a, drain ast d w.dependents fuel w.ready [] = .ok ([], values) ∧
      Agenda.Valid (d.graph hd) done a ∧ a.ready = [] ∧ d.Values done values) ∨
    (∃ error name v, drain ast d w.dependents fuel w.ready [] = .error error ∧
      Denotes d.definitions name v ∧ ¬ isExpressionValue v) := by
  obtain ⟨hready, hdependents⟩ := scheduled_start hd hall
  have hstart : d.Values [] [] := by
    refine ⟨nofun, fun name => ⟨nofun, ?_⟩⟩
    rintro ⟨i, hi, -⟩
    exact absurd hi List.not_mem_nil
  have hdefined : ∀ name dep addend, (name, ExprValue.symbol dep addend) ∈ d.definitions →
      (d.positions.get dep).isSome = true := by
    intro name dep addend hmem
    obtain ⟨i, hi⟩ := List.mem_iff_getElem?.mp hmem
    exact (hall ((name, .symbol dep addend), i) (List.mem_zipIdx_iff_getElem?.mpr hi)
      ⟨[], []⟩).2 dep addend rfl
  have hdrain := drain_spec ast hd hdefined hnumbers hdependents
    (Agenda.valid_start (d.graph hd)) hstart
    (Nat.le_add_right_of_le hfuel : d.definitions.length ≤ fuel + [].length)
  simp only at hready hdrain ⊢
  rw [hready]
  exact hdrain

/-- What is done with the worklist. -/
def resolveReady (ast : Ast) (d : Definitions) (w : Worklist) :
    Except AsmError (AssocMap String Int) := do
  let (_, values) ← drain ast d w.dependents d.definitions.length w.ready []
  match d.definitions.find? fun e => (values.get e.1).isNone with
  | some (name, _) =>
      throw (ast.errorAt (plainSymbol
        ("Constant dependency cycle prevents resolving '" ++ name ++ "'")) (d.site name) none)
  | none => return values

/-- The resolution succeeds exactly for sources that are resolvable, with the values that the
constants denote. -/
theorem resolveConstants_spec (ast : Ast) (hnumbers : NumbersParsed (scopes ast.items)) :
    (Resolvable (scopes ast.items) → ∃ values, resolveConstants ast = .ok values ∧
      ∀ name v, values.get name = some v ↔ Denotes (definitionsOf (scopes ast.items)) name v) ∧
    (¬ Resolvable (scopes ast.items) → ∃ error, resolveConstants ast = .error error) := by
  cases hcollect : collect ast with
  | error e =>
      constructor
      · intro h
        obtain ⟨d, hd⟩ := (collect_ok_iff ast).mpr ⟨h.inScope, h.unique⟩
        rw [hcollect] at hd
        cases hd
      · intro _
        refine ⟨e, ?_⟩
        unfold resolveConstants
        rw [hcollect, error_bind]
  | ok d =>
      obtain ⟨hd, hdefs, hreserved⟩ := collect_ok hcollect
      obtain ⟨hscoped, hunique⟩ := (collect_ok_iff ast).mp ⟨d, hcollect⟩
      unfold NumbersParsed at hnumbers
      rw [← hdefs] at hnumbers hunique ⊢
      have hresolve : resolveConstants ast =
          (d.definitions.zipIdx.foldlM (schedule ast d) d.unscheduled >>= resolveReady ast d) := by
        unfold resolveConstants
        exact congrArg (· >>= _) hcollect
      have hreservedIff : (∀ name ∈ d.definitions.map Prod.fst, name ∉ d.reserved) ↔
          ∀ name ∈ d.definitions.map Prod.fst, name ∉ reservedOf (scopes ast.items) := by
        simp only [hreserved]
      -- Scheduling fails exactly on a reserved name or an undefined dependency.
      by_cases hall : ∀ e ∈ d.definitions.zipIdx, ∀ w, d.Schedules w e
      · obtain ⟨hfree, hdefined⟩ := (schedules_iff hd).mp hall
        have hfold : d.definitions.zipIdx.foldlM (d.schedule ast) d.unscheduled = .ok _ :=
          (foldlM_ok_iff (schedule_ok_iff ast d)).mpr
          ⟨(along_schedules_iff _ _).mpr fun e he => hall e he _, rfl⟩
        rw [hresolve, hfold, ok_bind]
        unfold resolveReady
        have hcycle := cyclic_iff hd hdefined
        rcases resolve_collected ast hd hnumbers hall le_rfl with
          ⟨values, done, a, hdrain, hvalid, hready, hvalues⟩ | ⟨error, name, v, hdrain, hv, hrange⟩
        · rw [hdrain, ok_bind]
          have hsome : ∀ i < d.definitions.length, i ∈ done ↔
              (values.get ((d.definitions[i]?.map Prod.fst).getD "")).isSome = true := by
            intro i hi
            rw [hvalues.complete, List.getElem?_eq_getElem hi, Option.map_some, Option.getD_some]
            constructor
            · intro hdone
              exact ⟨i, hdone, _, List.getElem?_eq_getElem hi⟩
            · rintro ⟨j, hj, expr, hexpr⟩
              have hposition := (hd.positions _ j).mpr ⟨expr, hexpr⟩
              have hthis : d.positions.get d.definitions[i].1 = some i :=
                (hd.positions _ i).mpr ⟨d.definitions[i].2, List.getElem?_eq_getElem hi⟩
              rw [hthis] at hposition
              cases hposition
              exact hj
          -- What the drain leaves undone is what depends on a cycle.
          have hcycles : (∀ i < d.definitions.length, i ∈ done) ↔
              ∀ name, ¬ TransGen (DependsOn d.definitions) name name := by
            rw [← not_exists, hcycle, not_exists]
            exact hvalid.all_done_iff hready
          cases hfind : d.definitions.find? fun e => (values.get e.1).isNone with
          | none =>
              have hdone : ∀ i < d.definitions.length, i ∈ done := by
                intro i hi
                rw [hsome i hi, List.getElem?_eq_getElem hi]
                have hnone := List.find?_eq_none.mp hfind _ (List.getElem_mem hi)
                simpa [Option.isSome_iff_ne_none] using hnone
              have hvalue := @denotes_of_done values d hd done a hvalid hvalues hready
              constructor
              · intro _
                refine ⟨values, ?_, fun name v => ⟨fun h => (hvalues.sound name v h).1, hvalue⟩⟩
                simp only [hfind]
                rfl
              · intro hnot
                refine absurd ⟨hscoped, ?_, ?_, ?_, ?_, ?_⟩ hnot
                · rw [← hdefs]
                  exact hunique
                · rw [← hdefs]
                  exact hreservedIff.mp hfree
                · rw [← hdefs]
                  exact hdefined
                · rw [← hdefs]
                  exact hcycles.mp hdone
                · rw [← hdefs]
                  intro name v hv
                  exact (hvalues.sound name v (hvalue hv)).2
          | some e =>
              obtain ⟨name, expr⟩ := e
              refine ⟨fun h => ?_, fun _ => ?_⟩
              case refine_2 =>
                simp only [hfind]
                exact ⟨_, rfl⟩
              have hacyclic := h.acyclic
              rw [← hdefs] at hacyclic
              obtain ⟨i, hi⟩ := List.mem_iff_getElem?.mp (List.mem_of_find?_eq_some hfind)
              have hlt := (List.getElem?_eq_some_iff.mp hi).1
              have hleft := List.find?_some hfind
              have hvalue := (hsome i hlt).mp (hcycles.mpr hacyclic i hlt)
              rw [hi, Option.map_some, Option.getD_some] at hvalue
              simp only at hleft
              rw [Option.isNone_iff_eq_none] at hleft
              rw [hleft] at hvalue
              cases hvalue
        · rw [hdrain, error_bind]
          constructor
          · intro h
            have hin := h.range name v
            rw [← hdefs] at hin
            exact absurd (hin hv) hrange
          · intro _
            exact ⟨error, rfl⟩
      · constructor
        · intro h
          refine absurd ((schedules_iff hd).mpr ⟨hreservedIff.mpr ?_, ?_⟩) hall
          · rw [hdefs]
            exact h.free
          · rw [hdefs]
            exact h.defined
        · intro _
          cases hfold : d.definitions.zipIdx.foldlM (schedule ast d) d.unscheduled with
          | error e => exact ⟨e, by rw [hresolve, hfold, error_bind]⟩
          | ok w =>
              have halong := ((foldlM_ok_iff (schedule_ok_iff ast d)).mp hfold).1
              refine absurd (fun e he w => ?_) hall
              exact (along_schedules_iff _ _).mp halong e he

/-- The resolution succeeds exactly for resolvable sources. -/
theorem resolveConstants_ok_iff {ast : Ast} (hnumbers : NumbersParsed (scopes ast.items)) :
    (∃ values, resolveConstants ast = .ok values) ↔ Resolvable (scopes ast.items) := by
  have hspec := resolveConstants_spec ast hnumbers
  constructor
  · rintro ⟨values, hok⟩
    by_contra hnot
    obtain ⟨error, herror⟩ := hspec.2 hnot
    rw [hok] at herror
    cases herror
  · intro h
    obtain ⟨values, hok, -⟩ := hspec.1 h
    exact ⟨values, hok⟩

theorem resolveConstants_values {ast : Ast} (hnumbers : NumbersParsed (scopes ast.items))
    (h : resolveConstants ast = .ok values) (name : String) (v : Int) :
    values.get name = some v ↔ Denotes (definitionsOf (scopes ast.items)) name v := by
  have hresolvable := (resolveConstants_ok_iff hnumbers).mp ⟨values, h⟩
  obtain ⟨values', hok, hvalues⟩ := (resolveConstants_spec ast hnumbers).1 hresolvable
  rw [h] at hok
  cases hok
  exact hvalues name v

theorem NumbersParsed.perm {nodes nodes' : List ScopedNode} (h : NumbersParsed nodes)
    (hperm : nodes.Perm nodes') : NumbersParsed nodes' := by
  intro name n hmem
  exact h name n ((hperm.filterMap _).mem_iff.mpr hmem)

/-- The order of the definitions does not matter as long as each stays in its scope. -/
theorem resolveConstants_perm {ast ast' : Ast} (hnumbers : NumbersParsed (scopes ast.items))
    (hperm : (scopes ast.items).Perm (scopes ast'.items)) (h : resolveConstants ast = .ok values) :
    ∃ values', resolveConstants ast' = .ok values' ∧
      ∀ name, values'.get name = values.get name := by
  have hnumbers' := hnumbers.perm hperm
  have hdefs : (definitionsOf (scopes ast.items)).Perm (definitionsOf (scopes ast'.items)) :=
    hperm.filterMap _
  have hresolvable := (resolveConstants_ok_iff hnumbers).mp ⟨values, h⟩
  obtain ⟨values', h'⟩ := (resolveConstants_ok_iff hnumbers').mpr (hresolvable.perm hperm)
  refine ⟨values', h', ?_⟩
  intro name
  apply Option.ext
  intro v
  rw [resolveConstants_values hnumbers h, resolveConstants_values hnumbers' h']
  exact ⟨fun h => h.perm hdefs.symm, fun h => h.perm hdefs⟩

/-- The rounds of the worklist are enough whatever the definitions are: nothing is ready after
them. -/
theorem drain_ends {ast : Ast} (hnumbers : NumbersParsed (scopes ast.items)) {d : Definitions}
    (hcollect : collect ast = .ok d) {w : Worklist}
    (hschedule : d.definitions.zipIdx.foldlM (schedule ast d) d.unscheduled = .ok w) {fuel : Nat}
    (hfuel : d.definitions.length ≤ fuel) {ready : List Nat}
    (hdrain : drain ast d w.dependents fuel w.ready [] = .ok (ready, values)) : ready = [] := by
  obtain ⟨hd, hdefs, -⟩ := collect_ok hcollect
  unfold NumbersParsed at hnumbers
  rw [← hdefs] at hnumbers
  obtain ⟨halong, hw⟩ := (foldlM_ok_iff (schedule_ok_iff ast d)).mp hschedule
  have hall : ∀ e ∈ d.definitions.zipIdx, ∀ w, d.Schedules w e := by
    intro e he w
    exact (along_schedules_iff _ _).mp halong e he
  subst hw
  rcases resolve_collected ast hd hnumbers hall hfuel with
    ⟨_, _, _, hok, -⟩ | ⟨_, _, _, herror, -⟩
  · rw [hok] at hdrain
    cases hdrain
    rfl
  · rw [herror] at hdrain
    cases hdrain

/-- Constants are resolved independently of their order: exactly the resolvable sources succeed,
a constant has the value that it denotes, nodes that keep their scopes may be permuted, and the
loop ends. -/
theorem resolveConstants_exact (ast : Ast) (hnumbers : NumbersParsed (scopes ast.items)) :
    ((∃ values, resolveConstants ast = .ok values) ↔ Resolvable (scopes ast.items)) ∧
    (∀ values, resolveConstants ast = .ok values → ∀ name v,
      values.get name = some v ↔ Denotes (definitionsOf (scopes ast.items)) name v) ∧
    (∀ ast' : Ast, (scopes ast.items).Perm (scopes ast'.items) →
      ((∃ values', resolveConstants ast' = .ok values') ↔
        ∃ values, resolveConstants ast = .ok values) ∧
      ∀ values values', resolveConstants ast = .ok values → resolveConstants ast' = .ok values' →
        ∀ name, values'.get name = values.get name) ∧
    (∀ d w fuel ready values, collect ast = .ok d →
      d.definitions.zipIdx.foldlM (schedule ast d)
        { dependents := List.replicate d.definitions.length [], ready := [] } = .ok w →
      d.definitions.length ≤ fuel →
      drain ast d w.dependents fuel w.ready [] = .ok (ready, values) → ready = []) := by
  refine ⟨resolveConstants_ok_iff hnumbers, fun values h => resolveConstants_values hnumbers h, ?_,
    fun _ _ _ _ _ hcollect hschedule hfuel => drain_ends hnumbers hcollect hschedule hfuel⟩
  intro ast' hperm
  constructor
  · rw [resolveConstants_ok_iff hnumbers, resolveConstants_ok_iff (hnumbers.perm hperm)]
    exact ⟨fun h => h.perm hperm.symm, fun h => h.perm hperm⟩
  · intro values values' h h'
    obtain ⟨_, hok, hsame⟩ := resolveConstants_perm hnumbers hperm h
    rw [h'] at hok
    cases hok
    exact hsame

/-- A constant that is used before its definition. -/
def forwardReference : Ast where
  items := [.const "total" (.symbol "size" 2), .const "size" (.number 5)]
  spans := []
  sourceName := "main.asm"

theorem resolveConstants_exact_forward :
    (∃ values, resolveConstants forwardReference = .ok values) ↔
      Resolvable (scopes forwardReference.items) := by
  refine (resolveConstants_exact forwardReference ?_).1
  intro name n hmem
  have hdefs : definitionsOf (scopes forwardReference.items) =
    [("total", .symbol "size" 2), ("size", .number 5)] := by decide
  rw [hdefs] at hmem
  simp only [List.mem_cons, Prod.mk.injEq, reduceCtorEq, and_false, ExprValue.number.injEq,
    List.not_mem_nil, or_false, false_or] at hmem
  rw [hmem.2]
  decide

/-- A local label that no label is before. -/
def orphanLabel : Ast where
  items := [.label ".loop", .const "size" (.number 5)]
  spans := []
  sourceName := "main.asm"

/-- All names are fine except the one of a label. -/
theorem resolveConstants_orphanLabel :
    let nodes := scopes orphanLabel.items
    NumbersParsed nodes ∧ ((definitionsOf nodes).map Prod.fst).Nodup ∧
      (∀ name ∈ (definitionsOf nodes).map Prod.fst, name ∉ reservedOf nodes) ∧
      (∀ name dependency, DependsOn (definitionsOf nodes) name dependency →
        dependency ∈ (definitionsOf nodes).map Prod.fst) ∧
      (∀ name, ¬ Relation.TransGen (DependsOn (definitionsOf nodes)) name name) ∧
      (∀ name value, Denotes (definitionsOf nodes) name value → isExpressionValue value) ∧
      ∃ error, resolveConstants orphanLabel = .error error := by
  have hdefs : definitionsOf (scopes orphanLabel.items) = [("size", .number 5)] := by decide
  have hdepends : ∀ name dependency,
      ¬ DependsOn (definitionsOf (scopes orphanLabel.items)) name dependency := by
    rintro name dependency ⟨addend, hmem⟩
    rw [hdefs] at hmem
    simp at hmem
  refine ⟨?_, by decide, by decide, ?_, ?_, ?_, ⟨_, rfl⟩⟩
  · intro name n hmem
    rw [hdefs, List.mem_singleton] at hmem
    cases hmem
    decide
  · intro name dependency h
    exact absurd h (hdepends _ _)
  · intro name h
    obtain ⟨_, h, -⟩ := Relation.TransGen.head'_iff.mp h
    exact hdepends _ _ h
  · intro name value h
    cases h with
    | number hmem =>
        rw [hdefs, List.mem_singleton] at hmem
        cases hmem
        decide
    | symbol hmem _ => exact absurd ⟨_, hmem⟩ (hdepends _ _)

end Whale.Assembler.Amd64
