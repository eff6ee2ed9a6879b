import Whale.Lib.Except

set_option autoImplicit false

/-! # What a computation may do to its state

A computation succeeds within a relation `R` when each successful run relates the state
before to the state after, and fails within `R` when each failing run does. Only the failures
with an error in `P` count: a computation may have errors nobody sees. The rules follow the
structure of a `do` block; a block fails within `R` when everything before its last fallible
part succeeds within `R`. -/

namespace Whale

variable {ε σ α β : Type}

def SucceedsIn (R : σ → σ → Prop) (x : EStateM ε σ α) : Prop :=
  ∀ s a s', x s = .ok a s' → R s s'

def FailsIn (P : ε → Prop) (R : σ → σ → Prop) (x : EStateM ε σ α) : Prop :=
  ∀ s e s', x s = .error e s' → P e → R s s'

/-- No run fails with an error in `P`. -/
def NeverFails (P : ε → Prop) (x : EStateM ε σ α) : Prop :=
  ∀ s e s', x s = .error e s' → ¬ P e

/-- Successful and failing runs stay within `R`. -/
structure StaysIn (P : ε → Prop) (R : σ → σ → Prop) (x : EStateM ε σ α) : Prop where
  succeeds : SucceedsIn R x
  fails : FailsIn P R x

variable {P : ε → Prop} {R : σ → σ → Prop}

/-! ## Sequences -/

/-- A failure of the second part comes after a success of the first. -/
theorem StaysIn.bind_fails {x : EStateM ε σ α} {f : α → EStateM ε σ β} (hx : StaysIn P R x)
    (trans : ∀ {s t u}, R s t → R t u → R s u) (hf : ∀ a, FailsIn P R (f a)) :
    FailsIn P R (x >>= f) := by
  intro s e s' h hP
  rcases bind_run_error_iff.mp h with h | ⟨a, t, ha, h⟩
  · exact hx.fails s e s' h hP
  · exact trans (hx.succeeds s a t ha) (hf a t e s' h hP)

/-- Behind the last fallible part anything may happen to the state. -/
theorem FailsIn.bind_last {x : EStateM ε σ α} {f : α → EStateM ε σ β} (hx : FailsIn P R x)
    (hf : ∀ a, NeverFails P (f a)) : FailsIn P R (x >>= f) := by
  intro s e s' h hP
  rcases bind_run_error_iff.mp h with h | ⟨a, t, -, h⟩
  · exact hx s e s' h hP
  · exact absurd hP (hf a t e s' h)

theorem NeverFails.bind {x : EStateM ε σ α} {f : α → EStateM ε σ β} (hx : NeverFails P x)
    (hf : ∀ a, NeverFails P (f a)) : NeverFails P (x >>= f) := by
  intro s e s' h
  rcases bind_run_error_iff.mp h with h | ⟨a, t, -, h⟩
  · exact hx s e s' h
  · exact hf a t e s' h

theorem NeverFails.failsIn {x : EStateM ε σ α} (h : NeverFails P x) : FailsIn P R x :=
  fun s e s' he hP => absurd hP (h s e s' he)

/-! ## Single steps -/

theorem neverFails_pure (a : α) : NeverFails P (pure a : EStateM ε σ α) := nofun

theorem neverFails_get : NeverFails P (get : EStateM ε σ σ) := nofun

theorem neverFails_modify (f : σ → σ) : NeverFails P (modify f : EStateM ε σ PUnit) := nofun

theorem neverFails_set (t : σ) : NeverFails P (set t : EStateM ε σ PUnit) := nofun

theorem neverFails_require (c : Prop) [Decidable c] {e : ε} (he : ¬ P e) :
    NeverFails P (require c e : EStateM ε σ Unit) := by
  intro s e' s' h
  rw [require_run] at h
  split at h
  · cases h
  · cases h
    exact he

theorem neverFails_orThrow (o : Option α) {e : ε} (he : ¬ P e) :
    NeverFails P (orThrow o e : EStateM ε σ α) := by
  intro s e' s' h
  rw [orThrow_run] at h
  cases o with
  | some a => cases h
  | none =>
      cases h
      exact he

theorem staysIn_get (refl : ∀ s, R s s) : StaysIn P R (get : EStateM ε σ σ) where
  succeeds := by
    intro s a s' h
    cases h
    exact refl s
  fails := neverFails_get.failsIn

theorem staysIn_require (refl : ∀ s, R s s) (c : Prop) [Decidable c] (e : ε) :
    StaysIn P R (require c e : EStateM ε σ Unit) where
  succeeds := by
    intro s u s' h
    rw [(require_run_ok_iff.mp h).2]
    exact refl s
  fails := by
    intro s e' s' h _
    rw [require_run_error h]
    exact refl s

theorem staysIn_orThrow (refl : ∀ s, R s s) (o : Option α) (e : ε) :
    StaysIn P R (orThrow o e : EStateM ε σ α) where
  succeeds := by
    intro s a s' h
    rw [orThrow_run] at h
    cases o <;> cases h
    exact refl s
  fails := by
    intro s e' s' h _
    rw [orThrow_run] at h
    cases o <;> cases h
    exact refl s

end Whale

/-! # Agreement of two computations

Two computations agree up to a view of their states when, started in states that look alike and
both successful, they give one result and states that look alike. What looks alike has a property
that every step keeps. Failures are not compared. -/

namespace Whale

variable {ε σ τ α β : Type}

def Agree (view : σ → τ) (P : τ → Prop) (x y : EStateM ε σ α) : Prop :=
  ∀ s s' a b t t', view s = view s' → P (view s) → x s = .ok a t → y s' = .ok b t' →
    a = b ∧ view t = view t' ∧ P (view t)

/-- The computation changes nothing that can be viewed. -/
def Hidden (view : σ → τ) (x : EStateM ε σ α) : Prop := ∀ s a t, x s = .ok a t → view t = view s

section

variable {view : σ → τ} {P : τ → Prop}

theorem Agree.symm {x y : EStateM ε σ α} (h : Agree view P x y) : Agree view P y x := by
  intro s s' a b t t' hview hp hx hy
  obtain ⟨hresult, hstate, hp'⟩ := h s' s b a t' t hview.symm (hview ▸ hp) hy hx
  exact ⟨hresult.symm, hstate.symm, hstate ▸ hp'⟩

theorem agree_pure (a : α) : Agree view P (pure a : EStateM ε σ α) (pure a) := by
  intro s s' b b' t t' hview hp hx hy
  cases hx
  cases hy
  exact ⟨rfl, hview, hp⟩

theorem Agree.bind {x y : EStateM ε σ α} {f g : α → EStateM ε σ β} (hx : Agree view P x y)
    (hf : ∀ a, Agree view P (f a) (g a)) : Agree view P (x >>= f) (y >>= g) := by
  intro s s' b b' t t' hview hp hrun hrun'
  obtain ⟨a, r, hfirst, hrest⟩ := bind_run_ok_iff.mp hrun
  obtain ⟨a', r', hfirst', hrest'⟩ := bind_run_ok_iff.mp hrun'
  obtain ⟨rfl, hview', hp'⟩ := hx s s' a a' r r' hview hp hfirst hfirst'
  exact hf a r r' b b' t t' hview' hp' hrest hrest'

/-- What only one of the two does has to be hidden. -/
theorem Hidden.bind_agree {x : EStateM ε σ α} {f : α → EStateM ε σ β} {y : EStateM ε σ β}
    (hx : Hidden view x) (hf : ∀ a, Agree view P (f a) y) : Agree view P (x >>= f) y := by
  intro s s' b b' t t' hview hp hrun hrun'
  obtain ⟨a, r, hfirst, hrest⟩ := bind_run_ok_iff.mp hrun
  have hsame := hx s a r hfirst
  exact hf a r s' b b' t t' (hsame.trans hview) (hsame ▸ hp) hrest hrun'

/-- An agreement with something hidden behind it. -/
theorem Agree.bind_hidden {x y : EStateM ε σ α} {f : α → EStateM ε σ Unit}
    (hx : Agree view P x y) (hf : ∀ a, Hidden view (f a)) :
    Agree view P (x >>= fun a => f a >>= fun _ => pure a) y := by
  intro s s' b b' t t' hview hp hrun hrun'
  obtain ⟨a, r, hfirst, hrest⟩ := bind_run_ok_iff.mp hrun
  obtain ⟨u, r', hhidden, hpure⟩ := bind_run_ok_iff.mp hrest
  cases hpure
  obtain ⟨heq, hview', hp'⟩ := hx s s' _ b' r t' hview hp hfirst hrun'
  have hsame := hf _ r u _ hhidden
  exact ⟨heq, hsame.trans hview', hsame ▸ hp'⟩

theorem agree_throw (e : ε) (y : EStateM ε σ α) : Agree view P (throw e) y := by
  intro s s' a b t t' _ _ hx
  cases hx

theorem agree_require (c : Prop) [Decidable c] (e e' : ε) :
    Agree view P (require c e : EStateM ε σ Unit) (require c e') := by
  intro s s' u u' t t' hview hp hx hy
  obtain ⟨-, rfl⟩ := require_run_ok_iff.mp hx
  obtain ⟨-, rfl⟩ := require_run_ok_iff.mp hy
  exact ⟨rfl, hview, hp⟩

/-- Results outside the state that agree when both are there. -/
theorem agree_raise {ε' : Type} {x y : Except ε' α} (f : ε' → ε)
    (h : ∀ a b, x = .ok a → y = .ok b → a = b) :
    Agree view P (orRaise x f : EStateM ε σ α) (orRaise y f) := by
  intro s s' a b t t' hview hp hx hy
  obtain ⟨hx', rfl⟩ := orRaise_run_ok_iff.mp hx
  obtain ⟨hy', rfl⟩ := orRaise_run_ok_iff.mp hy
  exact ⟨h a b hx' hy', hview, hp⟩

theorem agree_raise_self {ε' : Type} (x : Except ε' α) (f : ε' → ε) :
    Agree view P (orRaise x f : EStateM ε σ α) (orRaise x f) :=
  agree_raise f fun _ _ ha hb => Except.ok.inj (ha.symm.trans hb)

theorem agree_orThrow (o : Option α) (e e' : ε) :
    Agree view P (orThrow o e : EStateM ε σ α) (orThrow o e') := by
  cases o with
  | none => exact agree_throw e _
  | some a => exact agree_pure a

/-- Look at the state, and go on with what looks alike. -/
theorem agree_get {f g : σ → EStateM ε σ α}
    (h : ∀ s s', view s = view s' → P (view s) → Agree view P (f s) (g s')) :
    Agree view P (get >>= f) (get >>= g) := by
  intro s s' a b t t' hview hp hx hy
  exact h s s' hview hp s s' a b t t' hview hp hx hy

theorem agree_set {s s' : σ} (h : view s = view s') (hp : P (view s)) :
    Agree view P (set s : EStateM ε σ Unit) (set s') := by
  intro r r' u u' t t' _ _ hx hy
  cases hx
  cases hy
  exact ⟨rfl, h, hp⟩

theorem agree_modify {f : σ → σ} (h : ∀ s s', view s = view s' → view (f s) = view (f s'))
    (hp : ∀ s, P (view s) → P (view (f s))) :
    Agree view P (modify f : EStateM ε σ Unit) (modify f) := by
  intro s s' u u' t t' hview hs hx hy
  cases hx
  cases hy
  exact ⟨rfl, h s s' hview, hp s hs⟩

end

end Whale
