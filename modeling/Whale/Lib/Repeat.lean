import Whale.Lib.Except

set_option autoImplicit false

/-! # Two runs of one computation

`Repeats R esc x x'`: started in states related by `R`, `x'` does what `x` did and ends in
a related state, unless `x` failed with an error that `esc` lets escape. The rules follow the
structure of a `do` block.

`Spends c n x` bounds a counter of the state: `x` raises it by at least `n` when it succeeds,
and never lowers it or raises it above a bound. -/

namespace Whale

variable {ε σ α β : Type}

/-! ## Repetition -/

/-- What `x'` does from `s'` repeats what `x` does from `s`. -/
def RepeatsAt (R : σ → σ → Prop) (esc : ε → Prop) (x x' : EStateM ε σ α) (s s' : σ) : Prop :=
  match x s with
  | .ok a t => ∃ t', x' s' = .ok a t' ∧ R t t'
  | .error e t => esc e ∨ ∃ t', x' s' = .error e t' ∧ R t t'

def Repeats (R : σ → σ → Prop) (esc : ε → Prop) (x x' : EStateM ε σ α) : Prop :=
  ∀ s s', R s s' → RepeatsAt R esc x x' s s'

section

variable {R : σ → σ → Prop} {esc : ε → Prop} {x x' : EStateM ε σ α} {s s' : σ}

theorem RepeatsAt.bind {f f' : α → EStateM ε σ β} (hx : RepeatsAt R esc x x' s s')
    (hf : ∀ a t t', x s = .ok a t → R t t' → RepeatsAt R esc (f a) (f' a) t t') :
    RepeatsAt R esc (x >>= f) (x' >>= f') s s' := by
  unfold RepeatsAt at hx
  cases hrun : x s with
  | ok a t =>
      rw [hrun] at hx
      obtain ⟨t', hrun', hr⟩ := hx
      have hfa := hf a t t' hrun hr
      unfold RepeatsAt at hfa ⊢
      rw [bind_run_ok hrun, bind_run_ok hrun']
      exact hfa
  | error e t =>
      rw [hrun] at hx
      unfold RepeatsAt
      rw [bind_run_error hrun]
      rcases hx with hesc | ⟨t', hrun', hr⟩
      · exact Or.inl hesc
      · exact Or.inr ⟨t', bind_run_error hrun' _, hr⟩

theorem Repeats.bind {f f' : α → EStateM ε σ β} (hx : Repeats R esc x x')
    (hf : ∀ a, Repeats R esc (f a) (f' a)) : Repeats R esc (x >>= f) (x' >>= f') :=
  fun s s' h => (hx s s' h).bind fun a t t' _ ht => hf a t t' ht

theorem Repeats.pure (a : α) : Repeats R esc (pure a : EStateM ε σ α) (pure a) :=
  fun _ s' h => ⟨s', rfl, h⟩

theorem Repeats.throw (e : ε) : Repeats R esc (throw e : EStateM ε σ α) (throw e) :=
  fun _ s' h => Or.inr ⟨s', rfl, h⟩

theorem Repeats.orThrow (o : Option α) (e : ε) :
    Repeats R esc (orThrow o e : EStateM ε σ α) (orThrow o e) := by
  cases o with
  | none => exact Repeats.throw e
  | some a => exact Repeats.pure a

theorem Repeats.require (c : Prop) [Decidable c] (e : ε) :
    Repeats R esc (require c e : EStateM ε σ Unit) (require c e) := by
  by_cases hc : c
  · intro s s' h
    unfold RepeatsAt
    rw [require_run, if_pos hc, require_run, if_pos hc]
    exact ⟨s', rfl, h⟩
  · intro s s' h
    unfold RepeatsAt
    rw [require_run, if_neg hc, require_run, if_neg hc]
    exact Or.inr ⟨s', rfl, h⟩

/-- A check that the second run makes less strict: when only the first run fails it, the
error must escape. -/
theorem RepeatsAt.require {c c' : Prop} [Decidable c] [Decidable c'] {e e' : ε} (h : R s s')
    (hok : c → c') (herr : ¬ c → esc e ∨ (¬ c' ∧ e' = e)) :
    RepeatsAt R esc (Whale.require c e : EStateM ε σ Unit) (Whale.require c' e') s s' := by
  unfold RepeatsAt
  by_cases hc : c
  · rw [require_run, if_pos hc, require_run, if_pos (hok hc)]
    exact ⟨s', rfl, h⟩
  · rw [require_run, if_neg hc]
    rcases herr hc with hesc | ⟨hc', rfl⟩
    · exact Or.inl hesc
    · rw [require_run, if_neg hc']
      exact Or.inr ⟨s', rfl, h⟩

theorem RepeatsAt.orThrow {o o' : Option α} {e e' : ε} (h : R s s')
    (hok : ∀ a, o = some a → o' = some a) (herr : o = none → esc e ∨ (o' = none ∧ e' = e)) :
    RepeatsAt R esc (Whale.orThrow o e : EStateM ε σ α) (Whale.orThrow o' e') s s' := by
  unfold RepeatsAt
  cases ho : o with
  | some a =>
      rw [hok a ho]
      exact ⟨s', rfl, h⟩
  | none =>
      rcases herr ho with hesc | ⟨ho', rfl⟩
      · exact Or.inl hesc
      · rw [ho']
        exact Or.inr ⟨s', rfl, h⟩

theorem RepeatsAt.get_bind {f f' : σ → EStateM ε σ β}
    (h : RepeatsAt R esc (f s) (f' s') s s') :
    RepeatsAt R esc (get >>= f) (get >>= f') s s' := h

theorem RepeatsAt.set {t t' : σ} (h : R t t') :
    RepeatsAt R esc (set t : EStateM ε σ PUnit) (set t') s s' := ⟨t', rfl, h⟩

theorem Repeats.modify {g g' : σ → σ} (h : ∀ s s', R s s' → R (g s) (g' s')) :
    Repeats R esc (modify g : EStateM ε σ PUnit) (modify g') :=
  fun s s' hs => ⟨g' s', rfl, h s s' hs⟩

theorem RepeatsAt.ok {a : α} {t : σ} (h : RepeatsAt R esc x x' s s') (hx : x s = .ok a t) :
    ∃ t', x' s' = .ok a t' ∧ R t t' := by
  unfold RepeatsAt at h
  rw [hx] at h
  exact h

theorem RepeatsAt.error {e : ε} {t : σ} (h : RepeatsAt R esc x x' s s') (hx : x s = .error e t) :
    esc e ∨ ∃ t', x' s' = .error e t' ∧ R t t' := by
  unfold RepeatsAt at h
  rw [hx] at h
  exact h

end

/-! ## Counters -/

/-- Running `x` from `s` spends at least `n`, and never more than the bound allows. -/
def SpendsAt (c : σ → Nat) (bound n : Nat) (x : EStateM ε σ α) (s : σ) : Prop :=
  match x s with
  | .ok _ t => c s + n ≤ c t ∧ c t ≤ bound
  | .error _ t => c s ≤ c t ∧ c t ≤ bound

def Spends (c : σ → Nat) (bound n : Nat) (x : EStateM ε σ α) : Prop :=
  ∀ s, c s ≤ bound → SpendsAt c bound n x s

section

variable {c : σ → Nat} {bound n k : Nat} {x : EStateM ε σ α} {s : σ}

theorem SpendsAt.bind_add {f : α → EStateM ε σ β} (hx : SpendsAt c bound n x s)
    (hf : ∀ a t, x s = .ok a t → c t ≤ bound → SpendsAt c bound k (f a) t) :
    SpendsAt c bound (n + k) (x >>= f) s := by
  unfold SpendsAt at hx
  cases hrun : x s with
  | error e t =>
      rw [hrun] at hx
      unfold SpendsAt
      rw [bind_run_error hrun]
      exact hx
  | ok a t =>
      rw [hrun] at hx
      obtain ⟨hle, hbound⟩ := hx
      have hfa := hf a t hrun hbound
      unfold SpendsAt at hfa ⊢
      rw [bind_run_ok hrun]
      cases hrun' : f a t with
      | ok b u =>
          rw [hrun'] at hfa
          obtain ⟨h₁, h₂⟩ := hfa
          exact ⟨by omega, h₂⟩
      | error e u =>
          rw [hrun'] at hfa
          obtain ⟨h₁, h₂⟩ := hfa
          exact ⟨by omega, h₂⟩

/-- What spends nothing, and then something. -/
theorem SpendsAt.bind {f : α → EStateM ε σ β} (hx : SpendsAt c bound 0 x s)
    (hf : ∀ a t, x s = .ok a t → c t ≤ bound → SpendsAt c bound n (f a) t) :
    SpendsAt c bound n (x >>= f) s := by
  have h := hx.bind_add hf
  rwa [Nat.zero_add] at h

theorem Spends.bind {f : α → EStateM ε σ β} (hx : Spends c bound 0 x)
    (hf : ∀ a, Spends c bound n (f a)) : Spends c bound n (x >>= f) :=
  fun s hs => (hx s hs).bind fun a t _ ht => hf a t ht

/-- What spends something, and then no more. -/
theorem Spends.bind_spent {f : α → EStateM ε σ β} (hx : Spends c bound n x)
    (hf : ∀ a, Spends c bound 0 (f a)) : Spends c bound n (x >>= f) :=
  fun s hs => (hx s hs).bind_add fun a t _ ht => hf a t ht

/-- A computation that leaves the counter alone. -/
theorem Spends.of_keeps (h : ∀ s, match x s with
    | .ok _ t | .error _ t => c t = c s) : Spends c bound 0 x := by
  intro s hs
  have hxs := h s
  unfold SpendsAt
  cases hrun : x s with
  | ok a t =>
      rw [hrun] at hxs
      simp only at hxs
      exact ⟨by omega, by omega⟩
  | error e t =>
      rw [hrun] at hxs
      simp only at hxs
      exact ⟨by omega, by omega⟩

theorem Spends.pure (a : α) : Spends c bound 0 (pure a : EStateM ε σ α) :=
  .of_keeps fun _ => rfl

theorem Spends.throw (e : ε) : Spends c bound n (throw e : EStateM ε σ α) :=
  fun _ hs => ⟨Nat.le_refl _, hs⟩

theorem Spends.orThrow (o : Option α) (e : ε) :
    Spends c bound 0 (orThrow o e : EStateM ε σ α) := by
  cases o with
  | none => exact Spends.throw e
  | some a => exact Spends.pure a

theorem Spends.require (p : Prop) [Decidable p] (e : ε) :
    Spends c bound 0 (require p e : EStateM ε σ Unit) := by
  refine .of_keeps fun s => ?_
  rw [require_run]
  by_cases hp : p
  · rw [if_pos hp]
  · rw [if_neg hp]

theorem Spends.modify {g : σ → σ} (h : ∀ s, c (g s) = c s) :
    Spends c bound 0 (modify g : EStateM ε σ PUnit) :=
  .of_keeps fun s => h s

theorem SpendsAt.set {t : σ} (h : c s + n ≤ c t) (hbound : c t ≤ bound) :
    SpendsAt c bound n (set t : EStateM ε σ PUnit) s :=
  ⟨h, hbound⟩

theorem SpendsAt.get_bind {f : σ → EStateM ε σ β} (h : SpendsAt c bound n (f s) s) :
    SpendsAt c bound n (get >>= f) s := h

theorem SpendsAt.mono {m : Nat} (h : SpendsAt c bound n x s) (hm : m ≤ n) :
    SpendsAt c bound m x s := by
  unfold SpendsAt at h ⊢
  cases hrun : x s with
  | ok a t =>
      rw [hrun] at h
      obtain ⟨h₁, h₂⟩ := h
      exact ⟨by omega, h₂⟩
  | error e t =>
      rw [hrun] at h
      exact h

theorem Spends.mono {m : Nat} (h : Spends c bound n x) (hm : m ≤ n) : Spends c bound m x :=
  fun s hs => (h s hs).mono hm

end

end Whale
