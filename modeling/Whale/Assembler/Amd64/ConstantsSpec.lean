import Mathlib.Logic.Relation
import Whale.Assembler.Amd64.Constants

set_option autoImplicit false

/-! # What constants mean

Which constants a source defines and when they have values, without an order of evaluation. The
first step of the resolution collects exactly these definitions (`collect_ok_iff`). -/

namespace Whale.Assembler.Amd64

/-! ## Scopes -/

/-- A name in a scope; a local name needs one. -/
def scopedName (scope : Option String) (raw : String) : Option String :=
  if isLocalName raw then scope.map (· ++ raw) else some raw

def AstNode.scopeAfter (scope : Option String) : AstNode → Option String
  | .label name => if isLocalName name then scope else some name
  | _ => scope

/-- A node with the label that scopes it. -/
abbrev ScopedNode := Option String × AstNode

def scopesFrom : Option String → List AstNode → List ScopedNode
  | _, [] => []
  | scope, node :: nodes => (scope, node) :: scopesFrom (node.scopeAfter scope) nodes

/-- The nodes of a source with their scopes. -/
def scopes (items : List AstNode) : List ScopedNode := scopesFrom none items

/-- The name that a node gives to a constant. -/
def ScopedNode.constant (e : ScopedNode) : Option String :=
  match e.2 with
  | .const name _ => scopedName e.1 name
  | _ => none

/-- The name of a label or of an external symbol. -/
def ScopedNode.reserved (e : ScopedNode) : Option String :=
  match e.2 with
  | .label name => scopedName e.1 name
  | .external name => scopedName e.1 name
  | _ => none

def scopedExpr (scope : Option String) : ExprValue → Option ExprValue
  | .number n => some (.number n)
  | .symbol name addend => (scopedName scope name).map fun name => .symbol name addend

def ScopedNode.definition (e : ScopedNode) : Option (String × ExprValue) :=
  match e.2 with
  | .const name expr => do
      let name ← scopedName e.1 name
      let expr ← scopedExpr e.1 expr
      return (name, expr)
  | _ => none

/-- The names of a label, an external symbol and a constant can be scoped. -/
def ScopedNode.Scoped (e : ScopedNode) : Prop :=
  match e.2 with
  | .label name => (scopedName e.1 name).isSome = true
  | .external name => (scopedName e.1 name).isSome = true
  | .const name expr => (scopedName e.1 name).isSome = true ∧ (scopedExpr e.1 expr).isSome = true
  | _ => True

def definitionsOf (nodes : List ScopedNode) : List (String × ExprValue) :=
  nodes.filterMap ScopedNode.definition

def reservedOf (nodes : List ScopedNode) : List String := nodes.filterMap ScopedNode.reserved

/-! ## Values -/

/-- The value of a constant is a number, or the value of another constant and an addend. -/
inductive Denotes (defs : List (String × ExprValue)) : String → Int → Prop where
  | number {name : String} {n : Int} : (name, .number n) ∈ defs → Denotes defs name n
  | symbol {name dependency : String} {addend value : Int} :
      (name, .symbol dependency addend) ∈ defs → Denotes defs dependency value →
      Denotes defs name (value + addend)

def DependsOn (defs : List (String × ExprValue)) (name dependency : String) : Prop :=
  ∃ addend, (name, .symbol dependency addend) ∈ defs

/-- All constants of a source have values. -/
structure Resolvable (nodes : List ScopedNode) : Prop where
  inScope : ∀ e ∈ nodes, e.Scoped
  unique : ((definitionsOf nodes).map Prod.fst).Nodup
  free : ∀ name ∈ (definitionsOf nodes).map Prod.fst, name ∉ reservedOf nodes
  defined : ∀ name dependency, DependsOn (definitionsOf nodes) name dependency →
    dependency ∈ (definitionsOf nodes).map Prod.fst
  acyclic : ∀ name, ¬ Relation.TransGen (DependsOn (definitionsOf nodes)) name name
  range : ∀ name value, Denotes (definitionsOf nodes) name value → isExpressionValue value

/-- Nothing depends on the order of the nodes. -/
theorem Resolvable.perm {nodes nodes' : List ScopedNode} (h : Resolvable nodes)
    (hperm : nodes.Perm nodes') : Resolvable nodes' := by
  have hdefs : (definitionsOf nodes).Perm (definitionsOf nodes') := hperm.filterMap _
  have hmem : ∀ e, e ∈ definitionsOf nodes' ↔ e ∈ definitionsOf nodes := fun e => hdefs.mem_iff.symm
  have hnames : ∀ name, name ∈ (definitionsOf nodes').map Prod.fst ↔
      name ∈ (definitionsOf nodes).map Prod.fst := fun name => (hdefs.map _).mem_iff.symm
  have hdepends : DependsOn (definitionsOf nodes') = DependsOn (definitionsOf nodes) := by
    funext name dependency
    simp only [DependsOn, hmem]
  refine ⟨fun e he => h.inScope e (hperm.mem_iff.mpr he), (hdefs.map _).nodup_iff.mp h.unique, ?_,
    ?_, ?_, ?_⟩
  · intro name hname hreserved
    refine h.free name ((hnames name).mp hname) ?_
    exact (hperm.filterMap ScopedNode.reserved).mem_iff.mpr hreserved
  · intro name dependency hdep
    rw [hdepends] at hdep
    exact (hnames _).mpr (h.defined name dependency hdep)
  · rw [hdepends]
    exact h.acyclic
  · intro name value hvalue
    refine h.range name value ?_
    induction hvalue with
    | number hin => exact .number ((hmem _).mp hin)
    | symbol hin _ ih => exact .symbol ((hmem _).mp hin) ih

variable {name : String}

theorem Denotes.perm {defs defs' : List (String × ExprValue)} (hperm : defs.Perm defs')
    {value : Int} (h : Denotes defs name value) : Denotes defs' name value := by
  induction h with
  | number hin => exact .number (hperm.mem_iff.mp hin)
  | symbol hin _ ih => exact .symbol (hperm.mem_iff.mp hin) ih

/-- A constant has one value at most. -/
theorem Denotes.unique {defs : List (String × ExprValue)} (hunique : (defs.map Prod.fst).Nodup)
    {v w : Int} (hv : Denotes defs name v) (hw : Denotes defs name w) : v = w := by
  have hone : ∀ {name : String} {e f : ExprValue}, (name, e) ∈ defs → (name, f) ∈ defs → e = f := by
    intro name e f he hf
    exact congrArg Prod.snd (List.inj_on_of_nodup_map hunique he hf rfl)
  induction hv generalizing w with
  | number hin =>
      cases hw with
      | number hin' =>
          cases hone hin hin'
          rfl
      | symbol hin' _ => cases hone hin hin'
  | symbol hin _ ih =>
      cases hw with
      | number hin' => cases hone hin hin'
      | symbol hin' hdep' =>
          cases hone hin hin'
          rw [ih hdep']

/-! ## Collecting -/

namespace Definitions

variable {scope : Option String}

theorem resolveSymbolName_ok_iff {raw : String} :
    resolveSymbolName raw scope = .ok name ↔ scopedName scope raw = some name := by
  unfold resolveSymbolName scopedName
  split
  · cases scope with
    | none => exact ⟨nofun, nofun⟩
    | some base =>
        show Except.ok (base ++ raw) = .ok name ↔ some (base ++ raw) = some name
        rw [Except.ok.injEq, Option.some.injEq]
  · show Except.ok raw = .ok name ↔ some raw = some name
    rw [Except.ok.injEq, Option.some.injEq]

theorem resolveExprSymbols_ok_iff {expr : ExprValue} {expr' : ExprValue} :
    resolveExprSymbols expr scope = .ok expr' ↔ scopedExpr scope expr = some expr' := by
  cases expr with
  | number n =>
      show Except.ok (.number n) = .ok expr' ↔ some (.number n) = some expr'
      rw [Except.ok.injEq, Option.some.injEq]
  | symbol name addend =>
      unfold resolveExprSymbols scopedExpr
      simp only
      rw [bind_ok_iff, Option.map_eq_some_iff]
      refine exists_congr fun name' => ?_
      rw [resolveSymbolName_ok_iff]
      refine and_congr_right fun _ => ?_
      rw [pure_eq_ok, Except.ok.injEq]

/-- The definitions behind a node whose names can be scoped. -/
def next (d : Definitions) (e : AstNode × Nat) : Definitions :=
  match e.1 with
  | .label name =>
      let resolved := (scopedName d.scope name).getD ""
      { d.reserve resolved e.2 with scope := scopeAfter d.scope name resolved }
  | .external name => d.reserve ((scopedName d.scope name).getD "") e.2
  | .const name expr =>
      let name := (scopedName d.scope name).getD ""
      { d with
        positions := d.positions.insert name d.definitions.length
        constantSites := d.constantSites.insert name e.2
        definitions := d.definitions ++ [(name, (scopedExpr d.scope expr).getD (.number 0))] }
  | _ => d

/-- A node that can be added. -/
def Adds (d : Definitions) (e : AstNode × Nat) : Prop :=
  ScopedNode.Scoped (d.scope, e.1) ∧
    ∀ name, ScopedNode.constant (d.scope, e.1) = some name → d.positions.get name = none

/-- A node that only reserves a name is added when the name can be scoped. -/
theorem reserving_ok_iff {place : AsmError → AsmError} {reserved : String → Definitions}
    {d' : Definitions} :
    ((resolveSymbolName name scope).mapError place >>= fun resolved =>
        (pure (reserved resolved) : Except AsmError Definitions)) = .ok d' ↔
      (scopedName scope name).isSome = true ∧ d' = reserved ((scopedName scope name).getD "") := by
  rw [bind_ok_iff]
  simp only [mapError_ok_iff, resolveSymbolName_ok_iff]
  constructor
  · rintro ⟨resolved, hname, h⟩
    cases h
    rw [hname]
    exact ⟨rfl, rfl⟩
  · rintro ⟨hsome, rfl⟩
    obtain ⟨resolved, hname⟩ := Option.isSome_iff_exists.mp hsome
    rw [hname]
    exact ⟨resolved, rfl, rfl⟩

theorem addNode_ok_iff (ast : Ast) (d : Definitions) (e : AstNode × Nat) (d' : Definitions) :
    addNode ast d e = .ok d' ↔ d.Adds e ∧ d' = d.next e := by
  obtain ⟨node, index⟩ := e
  unfold Adds
  cases node with
  | label name =>
      refine reserving_ok_iff.trans (and_congr_left fun _ => (and_iff_left ?_).symm)
      rintro _ ⟨⟩
  | external name =>
      refine reserving_ok_iff.trans (and_congr_left fun _ => (and_iff_left ?_).symm)
      rintro _ ⟨⟩
  | const name expr =>
      unfold addNode next ScopedNode.Scoped ScopedNode.constant
      simp only
      rw [bind_ok_iff]
      simp only [mapError_ok_iff, resolveSymbolName_ok_iff]
      constructor
      · rintro ⟨resolved, hname, h⟩
        rw [require_then_ok_iff, bind_ok_iff] at h
        obtain ⟨hnew, expr', hexpr, h⟩ := h
        rw [mapError_ok_iff, resolveExprSymbols_ok_iff] at hexpr
        cases h
        rw [hname, hexpr]
        refine ⟨⟨⟨rfl, rfl⟩, fun name' h => ?_⟩, rfl⟩
        cases h
        exact hnew
      · rintro ⟨⟨⟨hsome, hexpr⟩, hnew⟩, rfl⟩
        obtain ⟨resolved, hname⟩ := Option.isSome_iff_exists.mp hsome
        obtain ⟨expr', hscoped⟩ := Option.isSome_iff_exists.mp hexpr
        rw [hname, hscoped]
        refine ⟨resolved, rfl, ?_⟩
        rw [require_then_ok_iff, bind_ok_iff]
        refine ⟨hnew resolved hname, expr', ?_, rfl⟩
        rw [mapError_ok_iff, resolveExprSymbols_ok_iff, hscoped]
  | _ =>
      show Except.ok d = .ok d' ↔ _
      rw [Except.ok.injEq]
      constructor
      · intro h
        refine ⟨⟨trivial, ?_⟩, h.symm⟩
        rintro _ ⟨⟩
      · exact fun h => h.2.symm

/-- The table of positions is the one of the definitions, whose names are unique. -/
structure Indexed (d : Definitions) : Prop where
  unique : (d.definitions.map Prod.fst).Nodup
  positions : ∀ name p, d.positions.get name = some p ↔ ∃ expr, d.definitions[p]? = some (name, expr)

theorem Indexed.get_eq_none_iff {d : Definitions} (h : d.Indexed) :
    d.positions.get name = none ↔ name ∉ d.definitions.map Prod.fst := by
  rw [Option.eq_none_iff_forall_ne_some]
  constructor
  · intro hnone hmem
    obtain ⟨⟨name', expr⟩, he, rfl⟩ := List.mem_map.mp hmem
    obtain ⟨p, hp⟩ := List.mem_iff_getElem?.mp he
    exact hnone p ((h.positions _ p).mpr ⟨expr, hp⟩)
  · intro hnot p hp
    obtain ⟨expr, he⟩ := (h.positions name p).mp hp
    exact hnot (List.mem_map.mpr ⟨_, List.mem_of_getElem? he, rfl⟩)

/-! ### One node -/

variable {d : Definitions} {e : AstNode × Nat}

theorem next_scope (h : ScopedNode.Scoped (d.scope, e.1)) :
    (d.next e).scope = e.1.scopeAfter d.scope := by
  obtain ⟨node, index⟩ := e
  cases node with
  | label name =>
      obtain ⟨resolved, hname⟩ := Option.isSome_iff_exists.mp h
      unfold next AstNode.scopeAfter scopeAfter
      simp only
      rw [hname]
      unfold scopedName at hname
      split
      · rfl
      · rename_i hlocal
        rw [if_neg hlocal] at hname
        exact hname.symm
  | _ => rfl

theorem next_definitions (h : ScopedNode.Scoped (d.scope, e.1)) :
    (d.next e).definitions = d.definitions ++ (ScopedNode.definition (d.scope, e.1)).toList := by
  obtain ⟨node, index⟩ := e
  cases node with
  | const name expr =>
      obtain ⟨resolved, hname⟩ := Option.isSome_iff_exists.mp h.1
      obtain ⟨expr', hexpr⟩ := Option.isSome_iff_exists.mp h.2
      simp only [next, ScopedNode.definition]
      rw [hname, hexpr]
      rfl
  | _ => exact (List.append_nil _).symm

theorem mem_next_reserved (h : ScopedNode.Scoped (d.scope, e.1)) (name : String) :
    name ∈ (d.next e).reserved ↔
      name ∈ d.reserved ∨ ScopedNode.reserved (d.scope, e.1) = some name := by
  have hreserve : ∀ raw, (scopedName d.scope raw).isSome = true →
      (name ∈ (d.reserve ((scopedName d.scope raw).getD "") e.2).reserved ↔
        name ∈ d.reserved ∨ scopedName d.scope raw = some name) := by
    intro raw hraw
    obtain ⟨resolved, hname⟩ := Option.isSome_iff_exists.mp hraw
    rw [hname, Option.some.injEq]
    show name ∈ resolved :: d.reserved ↔ _
    rw [List.mem_cons, or_comm, eq_comm]
  obtain ⟨node, index⟩ := e
  cases node with
  | label raw => exact hreserve raw h
  | external raw => exact hreserve raw h
  | _ => exact ⟨.inl, fun h => h.resolve_right nofun⟩

theorem definition_name {n : ScopedNode} (h : n.Scoped) :
    n.definition.map Prod.fst = n.constant := by
  obtain ⟨scope, node⟩ := n
  cases node with
  | const name expr =>
      obtain ⟨resolved, hname⟩ := Option.isSome_iff_exists.mp h.1
      obtain ⟨expr', hexpr⟩ := Option.isSome_iff_exists.mp h.2
      simp only [ScopedNode.definition, ScopedNode.constant]
      rw [hname, hexpr]
      rfl
  | _ => rfl

theorem Indexed.next (hd : d.Indexed) (h : d.Adds e) : (d.next e).Indexed := by
  obtain ⟨node, index⟩ := e
  cases node with
  | const name expr =>
      obtain ⟨⟨hsome, -⟩, hnew⟩ := h
      obtain ⟨resolved, hname⟩ := Option.isSome_iff_exists.mp hsome
      have hfree := hd.get_eq_none_iff.mp (hnew resolved hname)
      constructor
      · simp only [Definitions.next]
        rw [hname, List.map_append, List.nodup_append]
        refine ⟨hd.unique, List.nodup_singleton _, ?_⟩
        rintro n hn m hm rfl
        rw [List.mem_singleton.mp hm] at hn
        exact hfree hn
      · intro n p
        simp only [Definitions.next]
        rw [hname, Option.getD_some, AssocMap.get_insert]
        by_cases hn : n = resolved
        · subst hn
          rw [if_pos rfl, Option.some.injEq]
          constructor
          · rintro rfl
            exact ⟨_, List.getElem?_concat_length⟩
          · rintro ⟨expr', hp⟩
            by_contra hne
            rcases Nat.lt_trichotomy p d.definitions.length with hlt | heq | hgt
            · rw [List.getElem?_append_left hlt] at hp
              exact hfree (List.mem_map.mpr ⟨_, List.mem_of_getElem? hp, rfl⟩)
            · exact hne heq.symm
            · rw [List.getElem?_append_right hgt.le, List.getElem?_eq_none (by simp; omega)] at hp
              cases hp
        · rw [if_neg hn, hd.positions]
          refine exists_congr fun expr' => ?_
          rcases Nat.lt_trichotomy p d.definitions.length with hlt | heq | hgt
          · rw [List.getElem?_append_left hlt]
          · subst heq
            rw [List.getElem?_eq_none le_rfl, List.getElem?_concat_length]
            constructor
            · rintro ⟨⟩
            · intro h
              exact absurd (congrArg Prod.fst (Option.some.inj h)).symm hn
          · rw [List.getElem?_eq_none hgt.le, List.getElem?_eq_none (by simp; omega)]
  | _ => exact ⟨hd.unique, hd.positions⟩

/-! ### All nodes -/

theorem definitionsOf_cons (n : ScopedNode) (nodes : List ScopedNode) :
    definitionsOf (n :: nodes) = n.definition.toList ++ definitionsOf nodes := by
  unfold definitionsOf
  rw [List.filterMap_cons]
  cases n.definition <;> rfl

theorem mem_reservedOf_cons {n : ScopedNode} {nodes : List ScopedNode} :
    name ∈ reservedOf (n :: nodes) ↔ n.reserved = some name ∨ name ∈ reservedOf nodes := by
  simp [reservedOf, List.mem_filterMap]

/-- What is there when all nodes were added. -/
structure Collected (items : List AstNode) (d d' : Definitions) : Prop where
  indexed : d'.Indexed
  definitions : d'.definitions = d.definitions ++ definitionsOf (scopesFrom d.scope items)
  reserved : ∀ name, name ∈ d'.reserved ↔
    name ∈ d.reserved ∨ name ∈ reservedOf (scopesFrom d.scope items)

/-- Nodes can be added when their names are in scope and the names of constants are unique. -/
theorem along_adds_iff (items : List AstNode) (hd : d.Indexed) (index : Nat) :
    (Along Adds next d (items.zipIdx index) ↔
      (∀ e ∈ scopesFrom d.scope items, e.Scoped) ∧
        ((d.definitions ++ definitionsOf (scopesFrom d.scope items)).map Prod.fst).Nodup) ∧
    (Along Adds next d (items.zipIdx index) →
      Collected items d ((items.zipIdx index).foldl next d)) := by
  induction items generalizing d index with
  | nil =>
      refine ⟨⟨fun _ => ⟨List.forall_mem_nil _, ?_⟩, fun _ => trivial⟩, fun _ => ⟨hd, ?_, ?_⟩⟩
      · rw [show definitionsOf (scopesFrom d.scope []) = [] from rfl, List.append_nil]
        exact hd.unique
      · exact (List.append_nil _).symm
      · intro name
        exact ⟨.inl, fun h => h.resolve_right List.not_mem_nil⟩
  | cons node items ih =>
      rw [List.zipIdx_cons, List.foldl_cons]
      -- A node out of scope ends the run; otherwise its name joins the definitions.
      by_cases hscoped : ScopedNode.Scoped (d.scope, node)
      · have hscope := next_scope (e := (node, index)) hscoped
        have hdefs := next_definitions (e := (node, index)) hscoped
        have hsplit : d.definitions ++ definitionsOf (scopesFrom d.scope (node :: items)) =
            (d.next (node, index)).definitions ++
              definitionsOf (scopesFrom (d.next (node, index)).scope items) := by
          rw [hdefs, hscope, List.append_assoc, ← definitionsOf_cons]
          rfl
        have hfree : d.Adds (node, index) ↔
            ((d.next (node, index)).definitions.map Prod.fst).Nodup := by
          unfold Adds
          rw [hdefs, and_iff_right hscoped, ← definition_name hscoped]
          cases hdef : ScopedNode.definition (d.scope, node) with
          | none =>
              rw [Option.toList_none, List.append_nil]
              exact ⟨fun _ => hd.unique, fun _ => nofun⟩
          | some def' =>
              rw [Option.toList_some, List.map_append, List.nodup_append]
              constructor
              · intro h
                have hnot := hd.get_eq_none_iff.mp (h def'.1 rfl)
                refine ⟨hd.unique, List.nodup_singleton _, ?_⟩
                rintro n hn m hm rfl
                rw [List.mem_singleton.mp hm] at hn
                exact hnot hn
              · rintro ⟨-, -, hdisjoint⟩ name hname
                cases hname
                exact hd.get_eq_none_iff.mpr fun hmem =>
                  hdisjoint _ hmem _ (List.mem_singleton.mpr rfl) rfl
        constructor
        · show d.Adds (node, index) ∧ Along Adds next (d.next (node, index)) _ ↔ _
          rw [hsplit]
          constructor
          · rintro ⟨hadds, halong⟩
            obtain ⟨hall, hnodup⟩ := ((ih (hd.next hadds) (index + 1)).1).mp halong
            refine ⟨?_, hnodup⟩
            intro e he
            rcases List.mem_cons.mp he with rfl | he
            · exact hscoped
            · rw [← hscope] at he
              exact hall e he
          · rintro ⟨hall, hnodup⟩
            have hadds : d.Adds (node, index) := by
              rw [hfree]
              rw [List.map_append] at hnodup
              exact (List.nodup_append.mp hnodup).1
            refine ⟨hadds, ((ih (hd.next hadds) (index + 1)).1).mpr ⟨fun e he => ?_, hnodup⟩⟩
            rw [hscope] at he
            exact hall e (List.mem_cons_of_mem _ he)
        · rintro ⟨hadds, halong⟩
          obtain ⟨hindexed, hdefinitions, hreserved⟩ :=
            (ih (hd.next hadds) (index + 1)).2 halong
          refine ⟨hindexed, hdefinitions.trans hsplit.symm, fun name => ?_⟩
          rw [hreserved, mem_next_reserved hscoped, hscope, or_assoc]
          exact or_congr_right mem_reservedOf_cons.symm
      · constructor
        · constructor
          · rintro ⟨hadds, -⟩
            exact absurd hadds.1 hscoped
          · rintro ⟨hall, -⟩
            exact absurd (hall _ List.mem_cons_self) hscoped
        · rintro ⟨hadds, -⟩
          exact absurd hadds.1 hscoped

theorem start_indexed : start.Indexed := ⟨List.nodup_nil, fun _ _ => ⟨nofun, nofun⟩⟩

/-- Definitions are collected when names are in scope and those of constants are unique. -/
theorem collect_ok_iff (ast : Ast) : (∃ d, collect ast = .ok d) ↔
    (∀ e ∈ scopes ast.items, e.Scoped) ∧ ((definitionsOf (scopes ast.items)).map Prod.fst).Nodup := by
  have halong := (along_adds_iff ast.items start_indexed 0).1
  unfold collect
  simp only [foldlM_ok_iff (addNode_ok_iff ast)]
  constructor
  · rintro ⟨d, hadds, -⟩
    exact halong.mp hadds
  · intro h
    exact ⟨_, halong.mpr h, rfl⟩

theorem collect_ok {ast : Ast} {d : Definitions} (h : collect ast = .ok d) :
    d.Indexed ∧ d.definitions = definitionsOf (scopes ast.items) ∧
      ∀ name, name ∈ d.reserved ↔ name ∈ reservedOf (scopes ast.items) := by
  obtain ⟨hadds, rfl⟩ := (foldlM_ok_iff (addNode_ok_iff ast)).mp h
  obtain ⟨hindexed, hdefinitions, hreserved⟩ :=
    (along_adds_iff ast.items start_indexed 0).2 hadds
  refine ⟨hindexed, hdefinitions, fun name => ?_⟩
  rw [hreserved]
  exact ⟨fun h => h.resolve_left List.not_mem_nil, .inr⟩

end Definitions

end Whale.Assembler.Amd64
