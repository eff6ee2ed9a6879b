import Whale.Lib.Except

set_option autoImplicit false

/-! # Computations on a meter

A state has a limit and counts what was spent of it. `CostsAt m P k Q E x s`: from `s`, `x`
either succeeds with a result in `Q` and spends at most `k`, or it fails with an error in `E`,
or it fails with an error in `P` because less than `k` was left. The rules follow the structure
of a `do` block. -/

namespace Whale

structure Meter (σ : Type) where
  spent : σ → Nat
  limit : σ → Nat

/-- What is left to spend. -/
def Meter.left {σ : Type} (m : Meter σ) (s : σ) : Nat := m.limit s - m.spent s

variable {ε σ α β : Type} (m : Meter σ) (P : ε → Prop)

def CostsAt (k : Nat) (Q : α → Prop) (E : ε → Prop) (x : EStateM ε σ α) (s : σ) : Prop :=
  match x s with
  | .ok a t => Q a ∧ m.limit t = m.limit s ∧ m.spent s ≤ m.spent t ∧ m.spent t ≤ m.spent s + k
  | .error e _ => E e ∨ P e ∧ m.limit s < m.spent s + k

/-- The same from every state with at most `fuel` left. -/
def CostsWithin (fuel k : Nat) (Q : α → Prop) (E : ε → Prop) (x : EStateM ε σ α) : Prop :=
  ∀ s, m.left s ≤ fuel → CostsAt m P k Q E x s

def Costs (k : Nat) (Q : α → Prop) (E : ε → Prop) (x : EStateM ε σ α) : Prop :=
  ∀ s, CostsAt m P k Q E x s

variable {m P} {k l fuel : Nat} {Q : α → Prop} {R : β → Prop} {E E' : ε → Prop}
  {x : EStateM ε σ α} {s : σ}

/-! ## Rules -/

theorem CostsAt.mono {Q' : α → Prop} (h : CostsAt m P k Q E x s) (hk : k ≤ l)
    (hQ : ∀ a, Q a → Q' a) (hE : ∀ e, E e → E' e) : CostsAt m P l Q' E' x s := by
  unfold CostsAt at h ⊢
  cases hrun : x s with
  | ok a t =>
    rw [hrun] at h
    obtain ⟨ha, hlimit, hle, hbound⟩ := h
    exact ⟨hQ a ha, hlimit, hle, by omega⟩
  | error e t =>
    rw [hrun] at h
    rcases h with he | ⟨he, hlt⟩
    · exact Or.inl (hE e he)
    · exact Or.inr ⟨he, by omega⟩

theorem CostsAt.bind {f : α → EStateM ε σ β} (hx : CostsAt m P k Q E x s)
    (hf : ∀ a t, x s = .ok a t → Q a → m.left t ≤ m.left s → CostsAt m P l R E (f a) t) :
    CostsAt m P (k + l) R E (x >>= f) s := by
  unfold CostsAt at hx
  cases hrun : x s with
  | error e t =>
    rw [hrun] at hx
    unfold CostsAt
    rw [bind_run_error hrun]
    rcases hx with he | ⟨he, hlt⟩
    · exact Or.inl he
    · exact Or.inr ⟨he, by omega⟩
  | ok a t =>
    rw [hrun] at hx
    obtain ⟨ha, hlimit, hle, hbound⟩ := hx
    have hfa := hf a t hrun ha (by unfold Meter.left; omega)
    unfold CostsAt at hfa ⊢
    rw [bind_run_ok hrun]
    cases hrun' : f a t with
    | ok b u =>
      rw [hrun'] at hfa
      obtain ⟨hb, hlimit', hle', hbound'⟩ := hfa
      exact ⟨hb, hlimit'.trans hlimit, by omega, by omega⟩
    | error e u =>
      rw [hrun'] at hfa
      rcases hfa with he | ⟨he, hlt⟩
      · exact Or.inl he
      · exact Or.inr ⟨he, by omega⟩

theorem CostsWithin.bind {f : α → EStateM ε σ β} (hx : CostsWithin m P fuel k Q E x)
    (hf : ∀ a, Q a → CostsWithin m P fuel l R E (f a)) :
    CostsWithin m P fuel (k + l) R E (x >>= f) :=
  fun s hs => (hx s hs).bind fun a t _ ha ht => hf a ha t (Nat.le_trans ht hs)

theorem Costs.bind {f : α → EStateM ε σ β} (hx : Costs m P k Q E x)
    (hf : ∀ a, Q a → Costs m P l R E (f a)) : Costs m P (k + l) R E (x >>= f) :=
  fun s => (hx s).bind fun a t _ ha _ => hf a ha t

theorem Costs.mono {Q' : α → Prop} (h : Costs m P k Q E x) (hk : k ≤ l)
    (hQ : ∀ a, Q a → Q' a) (hE : ∀ e, E e → E' e) : Costs m P l Q' E' x :=
  fun s => (h s).mono hk hQ hE

theorem CostsWithin.mono {Q' : α → Prop} (h : CostsWithin m P fuel k Q E x) (hk : k ≤ l)
    (hQ : ∀ a, Q a → Q' a) (hE : ∀ e, E e → E' e) : CostsWithin m P fuel l Q' E' x :=
  fun s hs => (h s hs).mono hk hQ hE

theorem Costs.within (h : Costs m P k Q E x) : CostsWithin m P fuel k Q E x := fun s _ => h s

theorem Costs.pure {a : α} (ha : Q a) : Costs m P k Q E (pure a : EStateM ε σ α) :=
  fun _ => ⟨ha, rfl, Nat.le_refl _, Nat.le_add_right _ _⟩

theorem Costs.throw {e : ε} (he : E e) : Costs m P 0 Q E (throw e : EStateM ε σ α) :=
  fun _ => Or.inl he

theorem Costs.require {c : Prop} [Decidable c] {e : ε} (he : ¬ c → E e) :
    Costs m P 0 (fun _ => c) E (require c e : EStateM ε σ Unit) := by
  intro s
  unfold CostsAt
  rw [require_run]
  by_cases hc : c
  · rw [if_pos hc]
    exact ⟨hc, rfl, Nat.le_refl _, Nat.le_refl _⟩
  · rw [if_neg hc]
    exact Or.inl (he hc)

theorem Costs.modify {g : σ → σ} (hg : ∀ s, m.spent (g s) = m.spent s ∧ m.limit (g s) = m.limit s) :
    Costs m P k (fun _ => True) E (modify g : EStateM ε σ PUnit) := by
  intro s
  obtain ⟨hspent, hlimit⟩ := hg s
  exact ⟨trivial, hlimit, Nat.le_of_eq hspent.symm, by rw [hspent]; exact Nat.le_add_right _ _⟩

/-- A loop is bounded by what is left at its start. -/
theorem Costs.of_within {loop : Nat → EStateM ε σ α} {bound : σ → Nat}
    (hbound : ∀ s, m.left s ≤ bound s) (h : ∀ fuel, CostsWithin m P fuel k Q E (loop fuel)) :
    Costs m P k Q E (get >>= fun s => loop (bound s)) :=
  fun s => h (bound s) s (hbound s)

/-- How the computation can end. -/
theorem CostsAt.outcome (h : CostsAt m P k Q E x s) : (∃ a t, x s = .ok a t ∧ Q a) ∨
    ∃ e t, x s = .error e t ∧ (E e ∨ P e ∧ m.limit s < m.spent s + k) := by
  unfold CostsAt at h
  cases hrun : x s with
  | ok a t =>
    rw [hrun] at h
    exact Or.inl ⟨a, t, rfl, h.1⟩
  | error e t =>
    rw [hrun] at h
    exact Or.inr ⟨e, t, rfl, h⟩

/-- With enough left and no other error the computation succeeds. -/
theorem CostsAt.ok (h : CostsAt m P k Q E x s) (hE : ∀ e, ¬ E e)
    (hleft : m.spent s + k ≤ m.limit s) : ∃ a t, x s = .ok a t ∧ Q a := by
  refine h.outcome.resolve_right ?_
  rintro ⟨e, t, _, he | ⟨_, hlt⟩⟩
  · exact hE e he
  · exact Nat.not_le_of_lt hlt hleft

theorem CostsAt.result {a : α} {t : σ} (h : CostsAt m P k Q E x s) (hrun : x s = .ok a t) :
    Q a := by
  unfold CostsAt at h
  rw [hrun] at h
  exact h.1

end Whale
