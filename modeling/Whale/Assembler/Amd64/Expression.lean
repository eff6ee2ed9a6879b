import Mathlib.Algebra.BigOperators.Group.List.Basic
import Whale.Assembler.Amd64.Parser

set_option autoImplicit false

/-! # Expressions

What an expression is, without a parser: terms with chains of signs in front of them. The parser
returns the sum of an expression, if it is not rejected (`parseExpr_exact`). -/

namespace Whale.Assembler.Amd64

/-! ## Terms and signs -/

inductive Term where
  | number (n : Int)
  | symbol (name : String)
  deriving DecidableEq

def Term.kind : Term → TokenKind
  | .number n => .number n
  | .symbol name => .identifier name

/-- A term with the signs in front of it; `true` is a minus. -/
structure SignedTerm where
  signs : List Bool
  term : Term
  deriving DecidableEq

def signKind (minus : Bool) : TokenKind := if minus then .minus else .plus

def SignedTerm.kinds (g : SignedTerm) : List TokenKind := g.signs.map signKind ++ [g.term.kind]

def signValue (minus : Bool) : Int := if minus then -1 else 1

/-- The sign of a chain. -/
def chainSign (signs : List Bool) : Int := (signs.map signValue).prod

/-- The number that a term adds. -/
def SignedTerm.constant (g : SignedTerm) : Int :=
  match g.term with
  | .number n => chainSign g.signs * n
  | .symbol _ => 0

def SignedTerm.symbols (g : SignedTerm) : List String :=
  match g.term with
  | .number _ => []
  | .symbol name => [name]

/-- A symbol with a negative sign. -/
def SignedTerm.Negated (g : SignedTerm) : Prop := g.symbols ≠ [] ∧ chainSign g.signs < 0

/-- A number of the source. -/
def SignedTerm.Lexed (g : SignedTerm) : Prop :=
  match g.term with
  | .number n => 0 ≤ n ∧ n < 2 ^ 64
  | .symbol _ => True

/-! ## Expressions -/

structure Expression where
  terms : List SignedTerm
  /-- Signs behind the last term. -/
  trailing : List Bool
  deriving DecidableEq

def sumOf (terms : List SignedTerm) : Int := (terms.map SignedTerm.constant).sum

def symbolsOf (terms : List SignedTerm) : List String := terms.flatMap SignedTerm.symbols

namespace Expression

def kinds (e : Expression) : List TokenKind :=
  e.terms.flatMap SignedTerm.kinds ++ e.trailing.map signKind

/-- The sum of the constants. -/
def sum (e : Expression) : Int := sumOf e.terms

def symbols (e : Expression) : List String := symbolsOf e.terms

/-- Terms are joined by signs, and numbers are those of a source. -/
structure Joined (e : Expression) : Prop where
  joined : ∀ g ∈ e.terms.tail, g.signs ≠ []
  lexed : ∀ g ∈ e.terms, g.Lexed

/-- Why an expression is not accepted. -/
inductive Rejected (e : Expression) : Prop where
  | negated {g : SignedTerm} (hg : g ∈ e.terms) (h : g.Negated)
  | twoSymbols (h : 2 ≤ e.symbols.length)
  | empty (h : e.terms = [])
  | trailing (h : e.trailing ≠ [])
  | range (hsymbols : e.symbols = []) (h : ¬ isExpressionValue e.sum)

end Expression

/-- The value of terms with at most one symbol. -/
def valueOf (terms : List SignedTerm) : ExprValue :=
  match symbolsOf terms with
  | [] => .number (sumOf terms)
  | name :: _ => .symbol name (sumOf terms)

def Expression.value (e : Expression) : ExprValue := valueOf e.terms

/-! ## Sums -/

theorem sumOf_append (a b : List SignedTerm) : sumOf (a ++ b) = sumOf a + sumOf b := by
  unfold sumOf
  rw [List.map_append, List.sum_append]

theorem symbolsOf_append (a b : List SignedTerm) :
    symbolsOf (a ++ b) = symbolsOf a ++ symbolsOf b := List.flatMap_append

theorem sumOf_concat (done : List SignedTerm) (g : SignedTerm) :
    sumOf (done ++ [g]) = sumOf done + g.constant := by
  rw [sumOf_append]
  unfold sumOf
  rw [List.map_singleton, List.sum_singleton]

theorem symbolsOf_concat (done : List SignedTerm) (g : SignedTerm) :
    symbolsOf (done ++ [g]) = symbolsOf done ++ g.symbols := by
  rw [symbolsOf_append]
  unfold symbolsOf
  rw [List.flatMap_singleton]

theorem chainSign_cons (minus : Bool) (signs : List Bool) :
    chainSign (minus :: signs) = signValue minus * chainSign signs := by
  unfold chainSign
  rw [List.map_cons, List.prod_cons]

theorem chainSign_eq (signs : List Bool) : chainSign signs = 1 ∨ chainSign signs = -1 := by
  induction signs with
  | nil => exact .inl rfl
  | cons minus signs ih =>
      rw [chainSign_cons]
      unfold signValue
      rcases ih with h | h <;> cases minus <;> simp [h]

theorem constant_bound {g : SignedTerm} (h : g.Lexed) :
    -(2 ^ 64 - 1) ≤ g.constant ∧ g.constant ≤ 2 ^ 64 - 1 := by
  unfold SignedTerm.constant
  unfold SignedTerm.Lexed at h
  cases hterm : g.term with
  | symbol name => simp
  | number n =>
      rw [hterm] at h
      simp only at h ⊢
      rcases chainSign_eq g.signs with hs | hs <;> rw [hs] <;> omega

theorem sumOf_bound {done : List SignedTerm} (h : ∀ g ∈ done, g.Lexed) :
    -(done.length * (2 ^ 64 - 1)) ≤ sumOf done ∧ sumOf done ≤ done.length * (2 ^ 64 - 1) := by
  induction done with
  | nil => decide
  | cons g done ih =>
      have hrest := ih fun g' hg' => h g' (List.mem_cons_of_mem _ hg')
      have hg := constant_bound (h g List.mem_cons_self)
      have hsum : sumOf (g :: done) = g.constant + sumOf done := by
        unfold sumOf
        rw [List.map_cons, List.sum_cons]
      rw [hsum, List.length_cons]
      push_cast
      omega

/-- Fewer than `2 ^ 63` terms do not overflow. -/
theorem checkedI128_sumOf {done : List SignedTerm} (h : ∀ g ∈ done, g.Lexed)
    (hlength : done.length < 2 ^ 63) : checkedI128 (sumOf done) = some (sumOf done) := by
  have hbound := sumOf_bound h
  unfold checkedI128
  rw [if_pos]
  omega

/-! ## The loop -/

section

variable (tokens : List Token) (stop : TokenKind → Bool)

/-- The accumulator behind some terms. -/
def accOf (done : List SignedTerm) : Option ExprValue := if done = [] then none else some (valueOf done)

theorem exprTokens_cons (token : Token) (rest : List Token) (pos : Nat) (s : ExprState) :
    exprTokens tokens stop (token :: rest) pos s =
      if stop token.kind then .ok (s, pos)
      else exprToken tokens pos token.kind s >>= exprTokens tokens stop rest (pos + 1) := rfl

theorem exprToken_sign (pos : Nat) (minus : Bool) (acc : Option ExprValue) (sign : Int) :
    exprToken tokens pos (signKind minus) ⟨acc, true, sign⟩ =
      .ok ⟨acc, true, signValue minus * sign⟩ := by
  unfold signValue
  cases minus with
  | false =>
      rw [if_neg Bool.false_ne_true, one_mul]
      rfl
  | true =>
      have hneg : (-1 : Int) * sign = -sign := by omega
      rw [if_pos rfl, hneg]
      rfl

theorem exprToken_number (pos : Nat) (n : Int) (acc : Option ExprValue) (sign : Int) :
    exprToken tokens pos (.number n) ⟨acc, true, sign⟩ = (do
      let n ← orThrow (checkedI128 (sign * n))
        (parserErr tokens pos "Expression arithmetic overflow")
      let acc ← combineExpr tokens pos acc (.number n)
      return { acc := some acc, expectTerm := false, sign := 1 }) := rfl

theorem exprToken_identifier (pos : Nat) (name : String) (acc : Option ExprValue) (sign : Int) :
    exprToken tokens pos (.identifier name) ⟨acc, true, sign⟩ = (do
      require (¬ sign < 0) (parserErr tokens pos "Unary '-' before symbol is not supported")
      let acc ← combineExpr tokens pos acc (.symbol name 0)
      return { acc := some acc, expectTerm := false, sign := 1 }) := rfl

theorem exprTokens_signs {signs : List Bool} {segment : List Token}
    (h : segment.map Token.kind = signs.map signKind) (hstop : ∀ minus, stop (signKind minus) = false)
    (more : List Token) (pos : Nat) (acc : Option ExprValue) (sign : Int) :
    exprTokens tokens stop (segment ++ more) pos ⟨acc, true, sign⟩ =
      exprTokens tokens stop more (pos + segment.length) ⟨acc, true, chainSign signs * sign⟩ := by
  induction signs generalizing segment pos sign with
  | nil =>
      rw [List.map_nil, List.map_eq_nil_iff] at h
      subst h
      have hone : chainSign [] * sign = sign := one_mul sign
      rw [hone]
      rfl
  | cons minus signs ih =>
      obtain ⟨token, segment, rfl, hkind, hrest⟩ := List.map_eq_cons_iff.mp h
      rw [List.cons_append, exprTokens_cons, hkind, hstop, if_neg Bool.false_ne_true,
        exprToken_sign, ok_bind, ih hrest, List.length_cons, chainSign_cons, Nat.add_assoc,
        Nat.add_comm 1, ← mul_assoc, mul_comm (chainSign signs)]

/-- Behind a term, a sign is read as if a term was expected. -/
theorem exprTokens_operator {minus : Bool} {token : Token} (h : token.kind = signKind minus)
    (hstop : stop (signKind minus) = false) (more : List Token) (pos : Nat)
    (acc : Option ExprValue) :
    exprTokens tokens stop (token :: more) pos ⟨acc, false, 1⟩ =
      exprTokens tokens stop (token :: more) pos ⟨acc, true, 1⟩ := by
  have hstep : exprToken tokens pos token.kind ⟨acc, false, 1⟩ =
      exprToken tokens pos token.kind ⟨acc, true, 1⟩ := by
    rw [h]
    cases minus <;> rfl
  rw [exprTokens_cons, exprTokens_cons, hstep, h, hstop, if_neg Bool.false_ne_true,
    if_neg Bool.false_ne_true]

theorem exprToken_term {done : List SignedTerm} {g : SignedTerm} (hdone : ∀ g ∈ done, g.Lexed)
    (hg : g.Lexed) (hlength : done.length + 1 < 2 ^ 63) (hone : (symbolsOf done).length ≤ 1)
    (pos : Nat) :
    ((g.Negated ∨ 2 ≤ (symbolsOf (done ++ [g])).length) → ∃ error, exprToken tokens pos g.term.kind
      ⟨accOf done, true, chainSign g.signs⟩ = .error error) ∧
    (¬ (g.Negated ∨ 2 ≤ (symbolsOf (done ++ [g])).length) → exprToken tokens pos g.term.kind
      ⟨accOf done, true, chainSign g.signs⟩ = .ok ⟨accOf (done ++ [g]), false, 1⟩) := by
  have hall : ∀ g' ∈ done ++ [g], g'.Lexed := by
    intro g' hg'
    rcases List.mem_append.mp hg' with hg' | hg'
    · exact hdone g' hg'
    · rw [List.mem_singleton.mp hg']
      exact hg
  have hsum := checkedI128_sumOf hall (by rw [List.length_append]; exact hlength)
  have hconstant : checkedI128 g.constant = some g.constant := by
    have hbound := constant_bound hg
    unfold checkedI128
    rw [if_pos]
    omega
  have hacc : accOf (done ++ [g]) = some (valueOf (done ++ [g])) := by
    unfold accOf
    rw [if_neg]
    simp
  rw [sumOf_concat] at hsum
  unfold SignedTerm.Negated
  cases hterm : g.term with
  | number n =>
      have hnone : g.symbols = [] := by simp [SignedTerm.symbols, hterm]
      have hconst : g.constant = chainSign g.signs * n := by simp [SignedTerm.constant, hterm]
      have hsame : symbolsOf (done ++ [g]) = symbolsOf done := by
        rw [symbolsOf_concat, hnone, List.append_nil]
      rw [hsame]
      constructor
      · rintro (h | h)
        · exact absurd hnone h.1
        · omega
      · intro _
        have hcombine : combineExpr tokens pos (accOf done) (.number g.constant) =
            .ok (valueOf (done ++ [g])) := by
          unfold accOf
          by_cases hempty : done = []
          · subst hempty
            simp [combineExpr, valueOf, symbolsOf, hnone, sumOf]
          · rw [if_neg hempty]
            unfold valueOf
            rw [hsame, sumOf_concat]
            cases symbolsOf done with
            | nil => simp [combineExpr, hsum]
            | cons name names => simp [combineExpr, hsum]
        unfold Term.kind
        rw [exprToken_number, ← hconst, hconstant, orThrow_some, ok_bind, hcombine, ok_bind, hacc]
        rfl
  | symbol name =>
      have hname : g.symbols = [name] := by simp [SignedTerm.symbols, hterm]
      have hconst : g.constant = 0 := by simp [SignedTerm.constant, hterm]
      unfold Term.kind
      rw [symbolsOf_concat, hname, exprToken_identifier]
      constructor
      · rintro (h | h)
        · rw [require_of_not (not_not.mpr h.2), error_bind]
          exact ⟨_, rfl⟩
        · by_cases hneg : chainSign g.signs < 0
          · rw [require_of_not (not_not.mpr hneg), error_bind]
            exact ⟨_, rfl⟩
          · rw [require_of hneg, ok_bind]
            -- There is a symbol already.
            obtain ⟨first, hfirst⟩ : ∃ first, symbolsOf done = [first] := by
              rw [List.length_append, List.length_singleton] at h
              exact List.length_eq_one_iff.mp (by omega)
            have hne : done ≠ [] := by
              rintro rfl
              cases hfirst
            unfold accOf valueOf
            rw [if_neg hne, hfirst]
            exact ⟨_, rfl⟩
      · intro h
        rw [not_or] at h
        have hneg : ¬ chainSign g.signs < 0 := fun hneg => h.1 ⟨by simp, hneg⟩
        have hempty : symbolsOf done = [] := by
          have hlt := h.2
          rw [List.length_append, List.length_singleton] at hlt
          exact List.length_eq_zero_iff.mp (by omega)
        rw [hconst, add_zero] at hsum
        have hvalue : valueOf (done ++ [g]) = .symbol name (sumOf done) := by
          unfold valueOf
          rw [symbolsOf_concat, hempty, hname, sumOf_concat, hconst, add_zero]
          rfl
        have hcombine : combineExpr tokens pos (accOf done) (.symbol name 0) =
            .ok (valueOf (done ++ [g])) := by
          rw [hvalue]
          unfold accOf
          by_cases hdone : done = []
          · subst hdone
            rfl
          · rw [if_neg hdone]
            unfold valueOf
            rw [hempty]
            simp [combineExpr, hsum]
        rw [require_of hneg, ok_bind, hcombine, ok_bind, hacc]
        rfl

/-- The state behind some terms. -/
def stateOf (done : List SignedTerm) : ExprState := ⟨accOf done, done.isEmpty, 1⟩

theorem exprTokens_term {done : List SignedTerm} {g : SignedTerm} {segment : List Token}
    (h : segment.map Token.kind = g.kinds) (hstop : ∀ k ∈ g.kinds, stop k = false)
    (hsigns : ∀ minus, stop (signKind minus) = false) (hdone : ∀ g ∈ done, g.Lexed) (hg : g.Lexed)
    (hjoined : done = [] ∨ g.signs ≠ []) (hlength : done.length + 1 < 2 ^ 63)
    (hone : (symbolsOf done).length ≤ 1) (more : List Token) (pos : Nat) :
    ((g.Negated ∨ 2 ≤ (symbolsOf (done ++ [g])).length) → ∃ error,
      exprTokens tokens stop (segment ++ more) pos (stateOf done) = .error error) ∧
    (¬ (g.Negated ∨ 2 ≤ (symbolsOf (done ++ [g])).length) →
      exprTokens tokens stop (segment ++ more) pos (stateOf done) =
        exprTokens tokens stop more (pos + segment.length) (stateOf (done ++ [g]))) := by
  unfold SignedTerm.kinds at h
  obtain ⟨chain, last, rfl, hchain, hlast⟩ := List.map_eq_append_iff.mp h
  obtain ⟨token, hsingle, htoken⟩ := List.map_eq_singleton_iff.mp hlast
  subst hsingle
  have hstate : exprTokens tokens stop (chain ++ [token] ++ more) pos (stateOf done) =
      exprTokens tokens stop (chain ++ [token] ++ more) pos ⟨accOf done, true, 1⟩ := by
    unfold stateOf
    rcases hjoined with hempty | hjoined
    · subst hempty
      rfl
    · cases done with
      | nil => rfl
      | cons first rest =>
          obtain ⟨minus, signs, hcons⟩ := List.exists_cons_of_ne_nil hjoined
          rw [hcons] at hchain
          obtain ⟨sign, chain, rfl, hsign, -⟩ := List.map_eq_cons_iff.mp hchain
          exact exprTokens_operator tokens stop hsign (hsigns minus) _ pos _
  have hgo : stop token.kind = false := by
    rw [htoken]
    exact hstop _ (List.mem_append_right _ (List.mem_singleton.mpr rfl))
  rw [hstate, List.append_assoc, exprTokens_signs tokens stop hchain hsigns, List.singleton_append,
    exprTokens_cons, hgo, if_neg Bool.false_ne_true, htoken, mul_one]
  obtain ⟨hbad, hgood⟩ := exprToken_term tokens hdone hg hlength hone (pos + chain.length)
  constructor
  · intro hrejected
    obtain ⟨error, herror⟩ := hbad hrejected
    exact ⟨error, by rw [herror, error_bind]⟩
  · intro haccepted
    have hnext : stateOf (done ++ [g]) = ⟨accOf (done ++ [g]), false, 1⟩ := by
      unfold stateOf
      congr 1
      simp
    rw [hgood haccepted, ok_bind, hnext, List.length_append, List.length_singleton, Nat.add_assoc]

/-- All terms: the loop gets behind them unless one is negated or there are two symbols. -/
theorem exprTokens_terms {terms done : List SignedTerm} {segment : List Token}
    (h : segment.map Token.kind = terms.flatMap SignedTerm.kinds)
    (hstop : ∀ k ∈ terms.flatMap SignedTerm.kinds, stop k = false)
    (hsigns : ∀ minus, stop (signKind minus) = false) (hdone : ∀ g ∈ done, g.Lexed)
    (hterms : ∀ g ∈ terms, g.Lexed) (hjoined : ∀ g ∈ terms.tail, g.signs ≠ [])
    (hfirst : done = [] ∨ ∀ g ∈ terms, g.signs ≠ [])
    (hlength : done.length + terms.length < 2 ^ 63) (hone : (symbolsOf done).length ≤ 1)
    (more : List Token) (pos : Nat) :
    (((∃ g ∈ terms, g.Negated) ∨ 2 ≤ (symbolsOf (done ++ terms)).length) → ∃ error,
      exprTokens tokens stop (segment ++ more) pos (stateOf done) = .error error) ∧
    (¬ ((∃ g ∈ terms, g.Negated) ∨ 2 ≤ (symbolsOf (done ++ terms)).length) →
      exprTokens tokens stop (segment ++ more) pos (stateOf done) =
        exprTokens tokens stop more (pos + segment.length) (stateOf (done ++ terms))) := by
  -- `done` holds the terms read so far, and the loop's state is `stateOf done`.
  induction terms generalizing done segment pos with
  | nil =>
      rw [List.flatMap_nil, List.map_eq_nil_iff] at h
      subst h
      rw [List.append_nil]
      constructor
      · rintro (⟨g, hg, -⟩ | h)
        · exact absurd hg List.not_mem_nil
        · omega
      · intro _
        rfl
  | cons g terms ih =>
      rw [List.flatMap_cons] at h hstop
      obtain ⟨first, rest, rfl, hkinds, hrest⟩ := List.map_eq_append_iff.mp h
      rw [List.length_cons] at hlength
      have hg := hterms g List.mem_cons_self
      have hsplit : done ++ g :: terms = (done ++ [g]) ++ terms := by
        rw [List.append_assoc, List.singleton_append]
      have hterm := exprTokens_term tokens stop hkinds
        (fun k hk => hstop k (List.mem_append_left _ hk)) hsigns hdone hg
        (hfirst.imp id fun hall => hall g List.mem_cons_self) (by omega) hone (rest ++ more) pos
      rw [List.append_assoc, hsplit]
      -- A negated symbol or a second symbol in the first term already stops the loop.
      by_cases hbad : g.Negated ∨ 2 ≤ (symbolsOf (done ++ [g])).length
      · constructor
        · intro _
          exact hterm.1 hbad
        · intro hgood
          exfalso
          rcases hbad with hbad | hbad
          · exact hgood (.inl ⟨g, List.mem_cons_self, hbad⟩)
          · refine hgood (.inr (hbad.trans ?_))
            rw [symbolsOf_append (done ++ [g]), List.length_append]
            exact Nat.le_add_right _ _
      · rw [hterm.2 hbad]
        rw [not_or] at hbad
        have hdone' : ∀ g' ∈ done ++ [g], g'.Lexed := by
          intro g' hg'
          rcases List.mem_append.mp hg' with hg' | hg'
          · exact hdone g' hg'
          · rw [List.mem_singleton.mp hg']
            exact hg
        have hmore := ih hrest (fun k hk => hstop k (List.mem_append_right _ hk)) hdone'
          (fun g' hg' => hterms g' (List.mem_cons_of_mem _ hg'))
          (fun g' hg' => hjoined g' (List.mem_of_mem_tail hg')) (.inr hjoined)
          (by rw [List.length_append, List.length_singleton]; omega) (by omega)
          (pos + first.length)
        have hiff : ((∃ g' ∈ g :: terms, g'.Negated) ∨
            2 ≤ (symbolsOf (done ++ [g] ++ terms)).length) ↔
            ((∃ g' ∈ terms, g'.Negated) ∨ 2 ≤ (symbolsOf (done ++ [g] ++ terms)).length) := by
          refine or_congr_left ⟨?_, ?_⟩
          · rintro ⟨g', hg', hneg⟩
            rcases List.mem_cons.mp hg' with rfl | hg'
            · exact absurd hneg hbad.1
            · exact ⟨g', hg', hneg⟩
          · rintro ⟨g', hg', hneg⟩
            exact ⟨g', List.mem_cons_of_mem _ hg', hneg⟩
        rw [hiff, List.length_append, ← Nat.add_assoc]
        exact hmore

end

/-! ## Parsing -/

section

variable {tokens before segment rest : List Token} {stop : TokenKind → Bool} {e : Expression}

variable (tokens) in
/-- Behind the terms the parser reads the signs that are left, and stops. -/
theorem exprTokens_trailing (terms : List SignedTerm) {chain : List Token} {trailing : List Bool}
    (h : chain.map Token.kind = trailing.map signKind)
    (hsigns : ∀ minus, stop (signKind minus) = false)
    (hend : ∀ t, rest.head? = some t → stop t.kind = true) (pos : Nat) :
    ∃ sign, exprTokens tokens stop (chain ++ rest) pos (stateOf terms) =
      .ok (⟨accOf terms, (!trailing.isEmpty || terms.isEmpty), sign⟩, pos + chain.length) := by
  have hstopped : ∀ (p : Nat) (s : ExprState), exprTokens tokens stop rest p s = .ok (s, p) := by
    intro p s
    cases rest with
    | nil => rfl
    | cons t rest => rw [exprTokens_cons, hend t rfl, if_pos rfl]
  cases trailing with
  | nil =>
      rw [List.map_nil, List.map_eq_nil_iff] at h
      subst h
      exact ⟨1, hstopped _ _⟩
  | cons minus trailing =>
      have hstate : exprTokens tokens stop (chain ++ rest) pos (stateOf terms) =
          exprTokens tokens stop (chain ++ rest) pos ⟨accOf terms, true, 1⟩ := by
        unfold stateOf
        cases terms with
        | nil => rfl
        | cons g terms =>
            obtain ⟨sign, chain, rfl, hsign, -⟩ := List.map_eq_cons_iff.mp h
            exact exprTokens_operator tokens stop hsign (hsigns minus) _ pos _
      refine ⟨chainSign (minus :: trailing) * 1, ?_⟩
      rw [hstate, exprTokens_signs tokens stop h hsigns, hstopped]
      rfl

theorem finishExpr_operator (pos : Nat) (acc : ExprValue) (sign : Int) :
    finishExpr tokens pos ⟨some acc, true, sign⟩ =
      .error (parserErr tokens pos "Expression cannot end with operator") := rfl

theorem finishExpr_none (pos : Nat) (expectTerm : Bool) (sign : Int) :
    finishExpr tokens pos ⟨none, expectTerm, sign⟩ =
      .error (parserErr tokens pos "Expected expression") := by
  cases expectTerm <;> rfl

theorem finishExpr_symbol (pos : Nat) (name : String) (addend sign : Int) :
    finishExpr tokens pos ⟨some (.symbol name addend), false, sign⟩ =
      .ok (.symbol name addend) := rfl

theorem finishExpr_number (pos : Nat) (n sign : Int) :
    finishExpr tokens pos ⟨some (.number n), false, sign⟩ =
      (require (isExpressionValue n) (parserErr tokens (pos - 1) "64-bit expression overflow") >>=
        fun _ => .ok (.number n)) := rfl

variable (tokens e) in
/-- What is left to check behind the terms. -/
theorem finishExpr_spec (pos : Nat) (sign : Int) :
    ((e.terms = [] ∨ e.trailing ≠ [] ∨ (e.symbols = [] ∧ ¬ isExpressionValue e.sum)) →
      ∃ error, finishExpr tokens pos
        ⟨accOf e.terms, (!e.trailing.isEmpty || e.terms.isEmpty), sign⟩ = .error error) ∧
    (¬ (e.terms = [] ∨ e.trailing ≠ [] ∨ (e.symbols = [] ∧ ¬ isExpressionValue e.sum)) →
      finishExpr tokens pos ⟨accOf e.terms, (!e.trailing.isEmpty || e.terms.isEmpty), sign⟩ =
        .ok e.value) := by
  unfold accOf
  -- The checks in the source's order: no term, a trailing sign, the range of the sum.
  by_cases hterms : e.terms = []
  · rw [if_pos hterms, finishExpr_none]
    exact ⟨fun _ => ⟨_, rfl⟩, fun h => absurd (.inl hterms) h⟩
  · rw [if_neg hterms]
    have hempty : e.terms.isEmpty = false := by
      rw [List.isEmpty_eq_false_iff]
      exact hterms
    by_cases htrailing : e.trailing = []
    · have hexpect : (!e.trailing.isEmpty || e.terms.isEmpty) = false := by
        rw [htrailing, hempty]
        rfl
      rw [hexpect]
      unfold Expression.value valueOf
      rw [show symbolsOf e.terms = e.symbols from rfl, show sumOf e.terms = e.sum from rfl]
      cases hsymbols : e.symbols with
      | nil =>
          simp only
          rw [finishExpr_number]
          by_cases hrange : isExpressionValue e.sum
          · rw [require_of hrange]
            refine ⟨?_, fun _ => rfl⟩
            rintro (h | h | h)
            · exact absurd h hterms
            · exact absurd htrailing h
            · exact absurd hrange h.2
          · rw [require_of_not hrange]
            refine ⟨fun _ => ⟨_, rfl⟩, fun h => ?_⟩
            exact absurd (.inr (.inr ⟨trivial, hrange⟩)) h
      | cons name names =>
          simp only
          rw [finishExpr_symbol]
          refine ⟨?_, fun _ => rfl⟩
          rintro (h | h | h)
          · exact absurd h hterms
          · exact absurd htrailing h
          · cases h.1
    · have hexpect : (!e.trailing.isEmpty || e.terms.isEmpty) = true := by
        simp [htrailing]
      rw [hexpect, finishExpr_operator]
      exact ⟨fun _ => ⟨_, rfl⟩, fun h => absurd (.inr (.inl htrailing)) h⟩

theorem rejected_iff : e.Rejected ↔ ((∃ g ∈ e.terms, g.Negated) ∨ 2 ≤ e.symbols.length) ∨
    (e.terms = [] ∨ e.trailing ≠ [] ∨ (e.symbols = [] ∧ ¬ isExpressionValue e.sum)) := by
  constructor
  · intro h
    cases h with
    | negated hg hneg => exact .inl (.inl ⟨_, hg, hneg⟩)
    | twoSymbols htwo => exact .inl (.inr htwo)
    | empty hempty => exact .inr (.inl hempty)
    | trailing htrailing => exact .inr (.inr (.inl htrailing))
    | range hsymbols hrange => exact .inr (.inr (.inr ⟨hsymbols, hrange⟩))
  · rintro ((⟨g, hg, hneg⟩ | htwo) | hempty | htrailing | ⟨hsymbols, hrange⟩)
    · exact .negated hg hneg
    · exact .twoSymbols htwo
    · exact .empty hempty
    · exact .trailing htrailing
    · exact .range hsymbols hrange

/-- An expression has a token for each term. -/
theorem length_terms_le (terms : List SignedTerm) :
    terms.length ≤ (terms.flatMap SignedTerm.kinds).length := by
  induction terms with
  | nil => exact Nat.le_refl 0
  | cons g terms ih =>
      have hkinds : g.kinds.length = g.signs.length + 1 := by
        unfold SignedTerm.kinds
        rw [List.length_append, List.length_map, List.length_singleton]
      rw [List.flatMap_cons, List.length_append, List.length_cons, hkinds]
      omega

/-- The tokens of an expression are read exactly: its value is returned with the position behind it,
unless the expression is rejected, which is an error. -/
theorem parseExpr_exact (htokens : tokens = before ++ (segment ++ rest))
    (hspells : segment.map Token.kind = e.kinds) (hjoined : e.Joined)
    (hgo : ∀ k, (k ∈ e.kinds ∨ k = .plus ∨ k = .minus) → stop k = false)
    (hend : ∀ t, rest.head? = some t → stop t.kind = true) (hlength : tokens.length < 2 ^ 63) :
    (e.Rejected → ∃ error, parseExpr tokens before.length stop = .error error) ∧
    (¬ e.Rejected → parseExpr tokens before.length stop =
      .ok (e.value, before.length + segment.length)) := by
  have hsigns : ∀ minus, stop (signKind minus) = false := by
    intro minus
    refine hgo _ (.inr ?_)
    cases minus
    · exact .inl rfl
    · exact .inr rfl
  unfold Expression.kinds at hspells
  -- The tokens of the terms come first, then the chain of trailing signs.
  obtain ⟨words, chain, rfl, hwords, hchain⟩ := List.map_eq_append_iff.mp hspells
  have hcount : e.terms.length ≤ words.length := by
    have hlengths := length_terms_le e.terms
    rw [← hwords, List.length_map] at hlengths
    exact hlengths
  have hshort : words.length ≤ tokens.length := by
    rw [htokens]
    simp only [List.length_append]
    omega
  have hdrop : tokens.drop before.length = words ++ (chain ++ rest) := by
    rw [htokens, List.drop_left, List.append_assoc]
  have hterms := exprTokens_terms tokens stop hwords
    (fun k hk => hgo k (.inl (List.mem_append_left _ hk))) hsigns
    (List.forall_mem_nil _ : ∀ g ∈ ([] : List SignedTerm), g.Lexed)
    hjoined.lexed hjoined.joined (.inl rfl) (by rw [List.length_nil]; omega) (by decide)
    (chain ++ rest) before.length
  rw [List.nil_append] at hterms
  -- A bad symbol is met inside the loop; every other rejection is left to the end.
  by_cases hbad : (∃ g ∈ e.terms, g.Negated) ∨ 2 ≤ e.symbols.length
  · obtain ⟨error, herror⟩ := hterms.1 hbad
    constructor
    · intro _
      refine ⟨error, ?_⟩
      unfold parseExpr
      rw [hdrop]
      show (exprTokens tokens stop (words ++ (chain ++ rest)) before.length (stateOf []) >>= _) = _
      rw [herror, error_bind]
    · intro hnot
      exfalso
      rcases hbad with ⟨g, hg, hneg⟩ | htwo
      · exact hnot (.negated hg hneg)
      · exact hnot (.twoSymbols htwo)
  · obtain ⟨sign, htrailing⟩ := exprTokens_trailing tokens e.terms hchain hsigns hend
      (before.length + words.length)
    have hread : exprTokens tokens stop (words ++ (chain ++ rest)) before.length (stateOf []) =
        .ok (⟨accOf e.terms, (!e.trailing.isEmpty || e.terms.isEmpty), sign⟩,
          before.length + words.length + chain.length) := (hterms.2 hbad).trans htrailing
    obtain ⟨hbad', hgood⟩ := finishExpr_spec tokens e
      (before.length + (words ++ chain).length) sign
    have hparse : parseExpr tokens before.length stop = (do
        let expression ← finishExpr tokens (before.length + (words ++ chain).length)
          ⟨accOf e.terms, (!e.trailing.isEmpty || e.terms.isEmpty), sign⟩
        return (expression, before.length + (words ++ chain).length)) := by
      unfold parseExpr
      rw [hdrop]
      show (exprTokens tokens stop (words ++ (chain ++ rest)) before.length (stateOf []) >>= _) = _
      rw [hread, ok_bind, List.length_append, Nat.add_assoc]
    rw [hparse, rejected_iff, or_iff_right hbad]
    constructor
    · intro h
      obtain ⟨error, herror⟩ := hbad' h
      exact ⟨error, by rw [herror, error_bind]⟩
    · intro h
      rw [hgood h, ok_bind]
      rfl

end

/-- The expression `-5 - -size + 3` at the end of a line. -/
def sizeTokens : List Token :=
  [.minus, .number 5, .minus, .minus, .identifier "size", .plus, .number 3, .newline].map fun kind =>
    ⟨kind, 0, 0, 1, 1, 1, 1⟩

def sizeExpression : Expression where
  terms := [⟨[true], .number 5⟩, ⟨[true, true], .symbol "size"⟩, ⟨[false], .number 3⟩]
  trailing := []

theorem sizeExpression_joined : sizeExpression.Joined := by
  refine ⟨by decide, ?_⟩
  intro g hg
  unfold sizeExpression at hg
  simp only [List.mem_cons, List.not_mem_nil, or_false] at hg
  rcases hg with rfl | rfl | rfl
  · exact ⟨by decide, by decide⟩
  · exact trivial
  · exact ⟨by decide, by decide⟩

theorem parseExpr_exact_size : parseExpr sizeTokens 0 (· == .newline) =
    .ok (.symbol "size" (-2), 7) := by
  have hgo : ∀ k, (k ∈ sizeExpression.kinds ∨ k = .plus ∨ k = .minus) → (k == .newline) = false := by
    rintro k (hk | rfl | rfl)
    · revert k
      decide
    · rfl
    · rfl
  refine (@parseExpr_exact sizeTokens [] (sizeTokens.take 7) (sizeTokens.drop 7) _ sizeExpression
    rfl rfl sizeExpression_joined hgo ?_ (by decide)).2 ?_
  · rintro t ⟨⟩
    rfl
  · rw [rejected_iff]
    rintro ((⟨g, hg, hneg⟩ | h) | h | h | h)
    · unfold sizeExpression at hg
      simp only [List.mem_cons, List.not_mem_nil, or_false] at hg
      rcases hg with rfl | rfl | rfl
      · exact hneg.1 rfl
      · exact absurd hneg.2 (by decide)
      · exact hneg.1 rfl
    · exact absurd h (by decide)
    · cases h
    · exact h rfl
    · cases h.1

end Whale.Assembler.Amd64
