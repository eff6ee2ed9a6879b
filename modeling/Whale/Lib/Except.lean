import Mathlib.Algebra.Order.Ring.Int
import Mathlib.Tactic.Common

set_option autoImplicit false

/-! # Taking apart computations that may fail

`require` and `orThrow` are the two ways a computation fails: a condition does not hold, a
value is not there. The lemmas take a `do` block apart, in `Except ε`, where a failure is
all there is, and in `EStateM ε σ`, where the state stays as it was when the failure came. -/

namespace Whale

variable {ε σ α β : Type}

/-- Go on when `c` holds, fail with `e` otherwise. -/
def require {M : Type → Type} [Monad M] [MonadExceptOf ε M] (c : Prop) [Decidable c] (e : ε) :
    M Unit :=
  if c then pure () else throw e

/-- The value that must be there, else the failure `e`. -/
def orThrow {M : Type → Type} [Monad M] [MonadExceptOf ε M] (o : Option α) (e : ε) : M α :=
  match o with
  | some a => pure a
  | none => throw e

/-- The result of `x`, its error turned into one of the computation. -/
def orRaise {ε' : Type} {M : Type → Type} [Monad M] [MonadExceptOf ε M] (x : Except ε' α)
    (f : ε' → ε) : M α :=
  match x with
  | .ok a => pure a
  | .error e => throw (f e)

/-! ## In `Except` -/

theorem bind_ok_iff {x : Except ε α} {f : α → Except ε β} {b : β} :
    x >>= f = .ok b ↔ ∃ a, x = .ok a ∧ f a = .ok b := by
  cases x with
  | error e => simp [bind, Except.bind]
  | ok a => simp [bind, Except.bind]

theorem bind_error_iff {x : Except ε α} {f : α → Except ε β} {e : ε} :
    x >>= f = .error e ↔ x = .error e ∨ ∃ a, x = .ok a ∧ f a = .error e := by
  cases x with
  | error e' => simp [bind, Except.bind]
  | ok a => simp [bind, Except.bind]

@[simp] theorem ok_bind (a : α) (f : α → Except ε β) : (Except.ok a >>= f) = f a := rfl

@[simp] theorem error_bind (e : ε) (f : α → Except ε β) :
    ((Except.error e : Except ε α) >>= f) = .error e := rfl

/-- What comes behind `x` matters only for its results. -/
theorem bind_congr_ok {x : Except ε α} {f g : α → Except ε β}
    (h : ∀ a, x = .ok a → f a = g a) : x >>= f = x >>= g := by
  cases x with
  | error e => rfl
  | ok a => exact h a rfl

@[simp] theorem pure_eq_ok (a : α) : (pure a : Except ε α) = .ok a := rfl

theorem require_of {c : Prop} [Decidable c] (h : c) (e : ε) :
    (require c e : Except ε Unit) = .ok () := if_pos h

theorem require_of_not {c : Prop} [Decidable c] (h : ¬ c) (e : ε) :
    (require c e : Except ε Unit) = .error e := if_neg h

@[simp] theorem orThrow_some (a : α) (e : ε) : (orThrow (some a) e : Except ε α) = .ok a := rfl

@[simp] theorem orThrow_none (e : ε) : (orThrow none e : Except ε α) = .error e := rfl

theorem orThrow_ok_iff {o : Option α} {e : ε} {a : α} :
    (orThrow o e : Except ε α) = .ok a ↔ o = some a := by
  cases o with
  | none => simp [orThrow, throw, throwThe, MonadExceptOf.throw]
  | some b => simp

theorem require_ok_iff {c : Prop} [Decidable c] {e : ε} {u : Unit} :
    (require c e : Except ε Unit) = .ok u ↔ c := by
  by_cases hc : c
  · rw [require_of hc]
    exact ⟨fun _ => hc, fun _ => rfl⟩
  · rw [require_of_not hc]
    exact ⟨fun h => (nomatch h), fun h => absurd h hc⟩

theorem require_then_ok_iff {c : Prop} [Decidable c] {e : ε} {f : Unit → Except ε β} {b : β} :
    (require c e : Except ε Unit) >>= f = .ok b ↔ c ∧ f () = .ok b := by
  rw [bind_ok_iff]
  constructor
  · rintro ⟨u, hrequire, hf⟩
    exact ⟨require_ok_iff.mp hrequire, hf⟩
  · rintro ⟨hc, hf⟩
    exact ⟨(), require_ok_iff.mpr hc, hf⟩

theorem orThrow_then_ok_iff {o : Option α} {e : ε} {f : α → Except ε β} {b : β} :
    (orThrow o e : Except ε α) >>= f = .ok b ↔ ∃ a, o = some a ∧ f a = .ok b := by
  rw [bind_ok_iff]
  exact exists_congr fun a => and_congr_left' orThrow_ok_iff

theorem exists_of_isOk {x : Except ε α} (h : x.isOk = true) : ∃ a, x = .ok a := by
  cases x with
  | error => cases h
  | ok a => exact ⟨a, rfl⟩

theorem mapError_ok_iff {ε' : Type} {x : Except ε α} {f : ε → ε'} {a : α} :
    x.mapError f = .ok a ↔ x = .ok a := by
  cases x <;> simp [Except.mapError]

variable {f : β → α → Except ε β}

theorem foldlM_cons_ok {a : α} {as : List α} {b c : β} :
    (a :: as).foldlM f b = .ok c ↔ ∃ b', f b a = .ok b' ∧ as.foldlM f b' = .ok c := by
  rw [List.foldlM_cons, bind_ok_iff]

theorem forM_ok {f : α → Except ε Unit} {xs : List α} {u : Unit} (h : xs.forM f = .ok u) {x : α}
    (hx : x ∈ xs) : f x = .ok () := by
  induction xs with
  | nil => cases hx
  | cons y xs ih =>
      rw [List.forM_eq_forM, List.forM_cons] at h
      obtain ⟨_, hy, hrest⟩ := bind_ok_iff.mp h
      rcases List.mem_cons.mp hx with rfl | hx
      · exact hy
      · exact ih hrest hx

theorem forM_ok_iff {f : α → Except ε Unit} {xs : List α} :
    xs.forM f = .ok () ↔ ∀ x ∈ xs, f x = .ok () := by
  refine ⟨fun h _ hx => forM_ok h hx, fun h => ?_⟩
  induction xs with
  | nil => rfl
  | cons x xs ih =>
      rw [List.forM_eq_forM, List.forM_cons, bind_ok_iff]
      exact ⟨(), h x List.mem_cons_self, ih fun y hy => h y (List.mem_cons_of_mem _ hy)⟩

/-- What every step keeps holds after a successful fold. -/
theorem foldlM_inv {P : β → Prop} (hstep : ∀ b a b', P b → f b a = .ok b' → P b') {as : List α}
    {b c : β} (hb : P b) (h : as.foldlM f b = .ok c) : P c := by
  induction as generalizing b with
  | nil =>
      cases h
      exact hb
  | cons a as ih =>
      obtain ⟨b', hf, hrest⟩ := foldlM_cons_ok.mp h
      exact ih (hstep b a b' hb hf) hrest

/-- A fold whose steps are those of `g`, where they succeed, is the fold of `g`. -/
theorem foldlM_eq_foldl {g : β → α → β} {as : List α}
    (hstep : ∀ a ∈ as, ∀ b b', f b a = .ok b' → b' = g b a) {b c : β} (h : as.foldlM f b = .ok c) :
    c = as.foldl g b := by
  induction as generalizing b with
  | nil =>
      cases h
      rfl
  | cons a as ih =>
      obtain ⟨b', hf, hrest⟩ := foldlM_cons_ok.mp h
      obtain rfl := hstep a List.mem_cons_self b b' hf
      exact ih (fun a' ha' => hstep a' (List.mem_cons_of_mem a ha')) hrest

/-- `P` holds at each step of a fold. -/
def Along (P : β → α → Prop) (step : β → α → β) : β → List α → Prop
  | _, [] => True
  | b, a :: as => P b a ∧ Along P step (step b a) as

/-- A fold whose steps succeed exactly where `P` holds. -/
theorem foldlM_ok_iff {P : β → α → Prop} {step : β → α → β}
    (hstep : ∀ b a b', f b a = .ok b' ↔ P b a ∧ b' = step b a) {as : List α} {b c : β} :
    as.foldlM f b = .ok c ↔ Along P step b as ∧ c = as.foldl step b := by
  induction as generalizing b with
  | nil =>
      constructor
      · intro h
        cases h
        exact ⟨trivial, rfl⟩
      · rintro ⟨-, rfl⟩
        rfl
  | cons a as ih =>
      rw [foldlM_cons_ok]
      constructor
      · rintro ⟨b', hf, hrest⟩
        obtain ⟨hP, rfl⟩ := (hstep b a b').mp hf
        obtain ⟨halong, rfl⟩ := ih.mp hrest
        exact ⟨⟨hP, halong⟩, rfl⟩
      · rintro ⟨⟨hP, halong⟩, rfl⟩
        exact ⟨step b a, (hstep b a _).mpr ⟨hP, rfl⟩, ih.mpr ⟨halong, rfl⟩⟩

theorem foldlM_congr_mem {f g : β → α → Except ε β} {as : List α}
    (h : ∀ a ∈ as, ∀ b, f b a = g b a) (b : β) : as.foldlM f b = as.foldlM g b := by
  induction as generalizing b with
  | nil => rfl
  | cons a as ih =>
      rw [List.foldlM_cons, List.foldlM_cons, h a List.mem_cons_self]
      exact bind_congr_ok fun b' _ => ih (fun a' ha' => h a' (List.mem_cons_of_mem _ ha')) b'

/-- A fold of checked steps is the fold of the steps when its result is in bounds, which every
step leaves only for good. -/
theorem foldlM_ok_of_bounded {g : β → α → β} (Bounded : β → Prop) {as : List α}
    (hback : ∀ b a, Bounded (g b a) → Bounded b)
    (hstep : ∀ a ∈ as, ∀ b, Bounded (g b a) → f b a = .ok (g b a)) {b : β}
    (h : Bounded (as.foldl g b)) : as.foldlM f b = .ok (as.foldl g b) := by
  induction as generalizing b with
  | nil => rfl
  | cons a as ih =>
      have hbounded : ∀ (as : List α) (b : β), Bounded (as.foldl g b) → Bounded b := by
        intro as
        induction as with
        | nil => exact fun b hb => hb
        | cons a as ih => exact fun b hb => hback b a (ih _ hb)
      rw [List.foldlM_cons, hstep a List.mem_cons_self b (hbounded as _ h), ok_bind]
      exact ih (fun a' ha' => hstep a' (List.mem_cons_of_mem _ ha')) h

/-- Two loops over corresponding lists stay related when their steps do. -/
theorem foldlM_related {α' β' : Type} {f' : β' → α' → Except ε β'} {g : α → α'} {R : β → β' → Prop}
    (hstep : ∀ {b b' a c c'}, R b b' → f b a = .ok c → f' b' (g a) = .ok c' → R c c') {xs : List α}
    {b c : β} {b' c' : β'} (hR : R b b') (h : xs.foldlM f b = .ok c)
    (h' : (xs.map g).foldlM f' b' = .ok c') : R c c' := by
  induction xs generalizing b b' with
  | nil =>
      cases h
      cases h'
      exact hR
  | cons x xs ih =>
      obtain ⟨d, hfirst, hrest⟩ := bind_ok_iff.mp h
      obtain ⟨d', hfirst', hrest'⟩ := bind_ok_iff.mp h'
      exact ih (hstep hR hfirst hfirst') hrest hrest'

theorem mapM_ok {f : α → Except ε β} {xs : List α} {ys : List β} (h : xs.mapM f = .ok ys) :
    List.Forall₂ (fun x y => f x = .ok y) xs ys := by
  induction xs generalizing ys with
  | nil =>
      cases h
      exact .nil
  | cons x xs ih =>
      rw [List.mapM_cons] at h
      obtain ⟨y, hy, h⟩ := bind_ok_iff.mp h
      obtain ⟨rest, hrest, h⟩ := bind_ok_iff.mp h
      cases h
      exact .cons hy (ih hrest)

/-! ## In `EStateM` -/

theorem bind_run (x : EStateM ε σ α) (f : α → EStateM ε σ β) (s : σ) :
    (x >>= f) s = match x s with
      | .ok a s => f a s
      | .error e s => .error e s := rfl

theorem bind_run_ok {x : EStateM ε σ α} {s s' : σ} {a : α} (h : x s = .ok a s')
    (f : α → EStateM ε σ β) : (x >>= f) s = f a s' := by
  rw [bind_run, h]

theorem bind_run_error {x : EStateM ε σ α} {s s' : σ} {e : ε} (h : x s = .error e s')
    (f : α → EStateM ε σ β) : (x >>= f) s = .error e s' := by
  rw [bind_run, h]

/-- A run that succeeds is a run of the first part and a run of the second, both successful. -/
theorem bind_run_ok_iff {x : EStateM ε σ α} {f : α → EStateM ε σ β} {s s' : σ} {b : β} :
    (x >>= f) s = .ok b s' ↔ ∃ a t, x s = .ok a t ∧ f a t = .ok b s' := by
  rw [bind_run]
  cases x s with
  | error e t => exact ⟨nofun, fun ⟨_, _, h, _⟩ => nomatch h⟩
  | ok a t =>
      constructor
      · exact fun h => ⟨a, t, rfl, h⟩
      · rintro ⟨_, _, h, hf⟩
        cases h
        exact hf

/-- A run that fails fails in the first part, or in the second after a successful first. -/
theorem bind_run_error_iff {x : EStateM ε σ α} {f : α → EStateM ε σ β} {s s' : σ} {e : ε} :
    (x >>= f) s = .error e s' ↔
      x s = .error e s' ∨ ∃ a t, x s = .ok a t ∧ f a t = .error e s' := by
  rw [bind_run]
  cases x s with
  | error e' t => simp
  | ok a t => simp

@[simp] theorem pure_run (a : α) (s : σ) : (pure a : EStateM ε σ α) s = .ok a s := rfl

@[simp] theorem throw_run (e : ε) (s : σ) : (throw e : EStateM ε σ α) s = .error e s := rfl

@[simp] theorem get_run (s : σ) : (get : EStateM ε σ σ) s = .ok s s := rfl

@[simp] theorem set_run (s s' : σ) : (set s' : EStateM ε σ Unit) s = .ok () s' := rfl

@[simp] theorem modify_run (f : σ → σ) (s : σ) :
    (modify f : EStateM ε σ Unit) s = .ok () (f s) := rfl

theorem require_run (c : Prop) [Decidable c] (e : ε) (s : σ) :
    (require c e : EStateM ε σ Unit) s = if c then .ok () s else .error e s := by
  unfold require
  split <;> rfl

theorem require_run_ok_iff {c : Prop} [Decidable c] {e : ε} {s s' : σ} {u : Unit} :
    (require c e : EStateM ε σ Unit) s = .ok u s' ↔ c ∧ s' = s := by
  rw [require_run]
  by_cases hc : c
  · rw [if_pos hc]
    exact ⟨fun h => by cases h; exact ⟨hc, rfl⟩, fun ⟨_, h⟩ => by rw [h]⟩
  · rw [if_neg hc]
    exact ⟨nofun, fun ⟨h, _⟩ => absurd h hc⟩

theorem require_run_error {c : Prop} [Decidable c] {e e' : ε} {s s' : σ}
    (h : (require c e : EStateM ε σ Unit) s = .error e' s') : s' = s := by
  rw [require_run] at h
  split at h
  · cases h
  · cases h
    rfl

theorem orRaise_run_error {ε' : Type} {x : Except ε' α} {f : ε' → ε} {e : ε} {s s' : σ}
    (h : (orRaise x f : EStateM ε σ α) s = .error e s') : s' = s := by
  cases x <;> cases h
  rfl

theorem orRaise_run_ok_iff {ε' : Type} {x : Except ε' α} {f : ε' → ε} {s s' : σ} {a : α} :
    (orRaise x f : EStateM ε σ α) s = .ok a s' ↔ x = .ok a ∧ s' = s := by
  cases x with
  | error e => exact ⟨nofun, nofun⟩
  | ok b =>
      constructor
      · intro h
        cases h
        exact ⟨rfl, rfl⟩
      · rintro ⟨h, rfl⟩
        cases h
        rfl

theorem orThrow_run (o : Option α) (e : ε) (s : σ) :
    (orThrow o e : EStateM ε σ α) s = match o with
      | some a => .ok a s
      | none => .error e s := by
  cases o <;> rfl

/-- A block that succeeds after a check: the check holds, the rest succeeds from the same
state. -/
theorem require_bind_ok_iff {c : Prop} [Decidable c] {e : ε} {f : Unit → EStateM ε σ β}
    {s s' : σ} {b : β} :
    ((require c e : EStateM ε σ Unit) >>= f) s = .ok b s' ↔ c ∧ f () s = .ok b s' := by
  rw [bind_run, require_run]
  by_cases hc : c
  · rw [if_pos hc]
    exact ⟨fun h => ⟨hc, h⟩, fun h => h.2⟩
  · rw [if_neg hc]
    exact ⟨nofun, fun h => absurd h.1 hc⟩

theorem orThrow_bind_ok_iff {o : Option α} {e : ε} {f : α → EStateM ε σ β} {s s' : σ} {b : β} :
    ((orThrow o e : EStateM ε σ α) >>= f) s = .ok b s' ↔ ∃ a, o = some a ∧ f a s = .ok b s' := by
  rw [bind_run, orThrow_run]
  cases o with
  | none => exact ⟨nofun, fun ⟨_, h, _⟩ => nomatch h⟩
  | some a =>
      constructor
      · exact fun h => ⟨a, rfl, h⟩
      · rintro ⟨_, h, hf⟩
        cases h
        exact hf

theorem get_bind_run {f : σ → EStateM ε σ β} {s : σ} {r : EStateM.Result ε σ β}
    (h : (get >>= f) s = r) : f s s = r := h

end Whale

/-! # How a computation ends

`Concludes Q E x s`: run from `s`, `x` succeeds with a result and a state in `Q`, or fails with an
error in `E`. The rules follow the structure of a `do` block; a loop has an invariant over the
elements it has done. `Answer Q E x` is the same for a computation without a state. -/

namespace Whale

variable {ε σ α β : Type}

def Concludes (Q : α → σ → Prop) (E : ε → Prop) (x : EStateM ε σ α) (s : σ) : Prop :=
  match x s with
  | .ok a t => Q a t
  | .error e _ => E e

variable {Q : α → σ → Prop} {R : β → σ → Prop} {E : ε → Prop} {x : EStateM ε σ α} {s : σ}

/-! ## Using an outcome -/

theorem Concludes.of_ok {a : α} {t : σ} (h : Concludes Q E x s) (hrun : x s = .ok a t) : Q a t := by
  unfold Concludes at h
  rw [hrun] at h
  exact h

theorem Concludes.of_error {e : ε} {t : σ} (h : Concludes Q E x s) (hrun : x s = .error e t) :
    E e := by
  unfold Concludes at h
  rw [hrun] at h
  exact h

theorem Concludes.mono {Q' : α → σ → Prop} (h : Concludes Q E x s) (hQ : ∀ a t, Q a t → Q' a t) :
    Concludes Q' E x s := by
  unfold Concludes at h ⊢
  cases hrun : x s with
  | ok a t =>
      rw [hrun] at h
      exact hQ a t h
  | error e t =>
      rw [hrun] at h
      exact h

/-! ## Rules -/

theorem Concludes.bind {f : α → EStateM ε σ β} (hx : Concludes Q E x s)
    (hf : ∀ a t, Q a t → Concludes R E (f a) t) : Concludes R E (x >>= f) s := by
  unfold Concludes at hx ⊢
  rw [bind_run]
  cases hrun : x s with
  | ok a t =>
      rw [hrun] at hx
      exact hf a t hx
  | error e t =>
      rw [hrun] at hx
      exact hx

/-- The first part ends as it is known to. -/
theorem Concludes.run_bind {f : α → EStateM ε σ β} {a : α} {t : σ} (hx : x s = .ok a t)
    (hf : Concludes R E (f a) t) : Concludes R E (x >>= f) s := by
  unfold Concludes
  rw [bind_run_ok hx]
  exact hf

theorem Concludes.pure {a : α} (h : Q a s) : Concludes Q E (pure a : EStateM ε σ α) s := h

theorem Concludes.throw {e : ε} (h : E e) : Concludes Q E (throw e : EStateM ε σ α) s := h

theorem Concludes.require {c : Prop} [Decidable c] {e : ε} (he : ¬ c → E e) :
    Concludes (fun _ t => c ∧ t = s) E (require c e : EStateM ε σ Unit) s := by
  unfold Concludes
  rw [require_run]
  by_cases hc : c
  · rw [if_pos hc]
    exact ⟨hc, rfl⟩
  · rw [if_neg hc]
    exact he hc

theorem Concludes.orThrow {o : Option α} {e : ε} (he : o = none → E e) :
    Concludes (fun a t => o = some a ∧ t = s) E (orThrow o e : EStateM ε σ α) s := by
  cases o with
  | none => exact he rfl
  | some a => exact ⟨rfl, rfl⟩

theorem Concludes.orRaise {ε' : Type} {y : Except ε' α} {f : ε' → ε}
    (he : ∀ e, y = .error e → E (f e)) :
    Concludes (fun a t => y = .ok a ∧ t = s) E (orRaise y f : EStateM ε σ α) s := by
  cases y with
  | error e => exact he e rfl
  | ok a => exact ⟨rfl, rfl⟩

theorem Concludes.get_bind {f : σ → EStateM ε σ β} (h : Concludes R E (f s) s) :
    Concludes R E (get >>= f) s := h

theorem Concludes.set_bind {t : σ} {f : PUnit → EStateM ε σ β} (h : Concludes R E (f ()) t) :
    Concludes R E (set t >>= f) s := h

/-- The branches of a choice go on with the same rest. -/
theorem Concludes.ite_bind {c : Prop} [Decidable c] {y : EStateM ε σ α} {f : α → EStateM ε σ β}
    (h : Concludes Q E (if c then x else y) s) (hf : ∀ a t, Q a t → Concludes R E (f a) t) :
    Concludes R E (if c then x >>= f else y >>= f) s := by
  split at h
  · rename_i hc
    rw [if_pos hc]
    exact h.bind hf
  · rename_i hc
    rw [if_neg hc]
    exact h.bind hf

/-! ## Loops -/

/-- `I done acc` holds when the elements `done` are behind the loop. -/
theorem Concludes.foldlM {f : β → α → EStateM ε σ β} {I : List α → β → σ → Prop} {xs : List α} {b : β}
    (hstart : I [] b s)
    (hstep : ∀ done x rest acc t, xs = done ++ x :: rest → I done acc t →
      Concludes (I (done ++ [x])) E (f acc x) t) :
    Concludes (I xs) E (xs.foldlM f b) s := by
  suffices hfrom : ∀ rest done acc t, xs = done ++ rest → I done acc t →
      Concludes (I xs) E (rest.foldlM f acc) t from hfrom xs [] b s rfl hstart
  intro rest
  induction rest with
  | nil =>
      intro done acc t hxs h
      rw [List.append_nil] at hxs
      rw [hxs]
      exact h
  | cons x rest ih =>
      intro done acc t hxs h
      rw [List.foldlM_cons]
      refine (hstep done x rest acc t hxs h).bind fun acc' t' h' => ?_
      exact ih (done ++ [x]) acc' t' (by rw [hxs, List.append_assoc]; rfl) h'

/-- `I done ys` holds when the elements `done` gave the results `ys`. -/
theorem Concludes.mapM {f : α → EStateM ε σ β} {I : List α → List β → σ → Prop} {xs : List α}
    (hstart : I [] [] s)
    (hstep : ∀ done x rest ys t, xs = done ++ x :: rest → I done ys t →
      Concludes (fun y => I (done ++ [x]) (ys ++ [y])) E (f x) t) :
    Concludes (I xs) E (xs.mapM f) s := by
  suffices hfrom : ∀ rest done ys t, xs = done ++ rest → I done ys t →
      Concludes (fun zs => I xs (ys ++ zs)) E (rest.mapM f) t from by
    exact hfrom xs [] [] s rfl hstart
  intro rest
  induction rest with
  | nil =>
      intro done ys t hxs h
      rw [List.append_nil] at hxs
      rw [List.mapM_nil, hxs]
      show I done (ys ++ []) t
      rw [List.append_nil]
      exact h
  | cons x rest ih =>
      intro done ys t hxs h
      rw [List.mapM_cons]
      refine (hstep done x rest ys t hxs h).bind fun y t' h' => ?_
      refine (ih (done ++ [x]) (ys ++ [y]) t' (by rw [hxs, List.append_assoc]; rfl) h').bind
        fun zs t'' h'' => ?_
      rw [List.append_assoc] at h''
      exact Concludes.pure h''

/-! ## Without a state -/

def Answer (Q : α → Prop) (E : ε → Prop) (x : Except ε α) : Prop :=
  match x with
  | .ok a => Q a
  | .error e => E e

section

variable {Q : α → Prop} {R : β → Prop} {x : Except ε α}

theorem Answer.of_ok {a : α} (h : Answer Q E x) (hx : x = .ok a) : Q a := by
  rw [hx] at h
  exact h

theorem Answer.of_error {e : ε} (h : Answer Q E x) (hx : x = .error e) : E e := by
  rw [hx] at h
  exact h

theorem Answer.mono {Q' : α → Prop} (h : Answer Q E x) (hQ : ∀ a, Q a → Q' a) : Answer Q' E x := by
  cases x with
  | ok a => exact hQ a h
  | error e => exact h

theorem Answer.bind {f : α → Except ε β} (hx : Answer Q E x) (hf : ∀ a, Q a → Answer R E (f a)) :
    Answer R E (x >>= f) := by
  cases x with
  | ok a => exact hf a hx
  | error e => exact hx

theorem Answer.pure {a : α} (h : Q a) : Answer Q E (pure a : Except ε α) := h

theorem Answer.throw {e : ε} (h : E e) : Answer Q E (throw e : Except ε α) := h

theorem Answer.require {c : Prop} [Decidable c] {e : ε} (he : ¬ c → E e) :
    Answer (fun _ => c) E (require c e : Except ε Unit) := by
  by_cases hc : c
  · rw [require_of hc]
    exact hc
  · rw [require_of_not hc]
    exact he hc

theorem Answer.orThrow {o : Option α} {e : ε} (he : o = none → E e) :
    Answer (fun a => o = some a) E (orThrow o e : Except ε α) := by
  cases o with
  | none => exact he rfl
  | some a => exact rfl

end

/-! ## The same computation with less room

A computation that stops at a limit, run with a smaller limit, has the results that still fit and
no others. `Restricts floor put fits x y` says so of the run `x` with less room and the run `y`
with more, when less than `floor` is not enough for any result; `put` turns a result of `y` into
the one of `x`, for results that remember their limit. -/

section

variable {ε α β α' β' γ : Type}

structure Restricts (floor : Prop) (put : β → α) (fits : β → Prop) (x : Except ε α)
    (y : Except ε β) : Prop where
  results : floor → ∀ a, x = .ok a ↔ ∃ b, y = .ok b ∧ fits b ∧ put b = a
  reaches : ∀ b, y = .ok b → fits b → floor

/-- Without a floor and with the results as they are, `x` has the results that fit. -/
theorem Restricts.ok_iff {fits : α → Prop} {x y : Except ε α} (h : Restricts True id fits x y)
    {a : α} : x = .ok a ↔ y = .ok a ∧ fits a := by
  rw [h.results trivial a]
  constructor
  · rintro ⟨b, hy, hfits, rfl⟩
    exact ⟨hy, hfits⟩
  · rintro ⟨hy, hfits⟩
    exact ⟨a, hy, hfits, rfl⟩

variable {floor floor' : Prop} {put : β → α} {fits fits' : β → Prop} {x : Except ε α}
  {y : Except ε β}

/-- Another way to say which results fit. -/
theorem Restricts.congr (h : Restricts floor put fits x y)
    (hfits : ∀ b, y = .ok b → (fits b ↔ fits' b)) : Restricts floor put fits' x y where
  results hf a := by
    rw [h.results hf a]
    constructor
    · rintro ⟨b, hy, hfit, hput⟩
      exact ⟨b, hy, (hfits b hy).mp hfit, hput⟩
    · rintro ⟨b, hy, hfit, hput⟩
      exact ⟨b, hy, (hfits b hy).mpr hfit, hput⟩
  reaches b hy hfit := h.reaches b hy ((hfits b hy).mpr hfit)

/-- A computation in a context that needs more room than the computation itself. -/
theorem Restricts.frame (h : Restricts floor' put fits x y) (hfloor : floor → floor') :
    Restricts floor put (fun b => floor ∧ fits b) x y where
  results hf a := by
    rw [h.results (hfloor hf) a]
    constructor
    · rintro ⟨b, hy, hfit, hput⟩
      exact ⟨b, hy, ⟨hf, hfit⟩, hput⟩
    · rintro ⟨b, hy, ⟨-, hfit⟩, hput⟩
      exact ⟨b, hy, hfit, hput⟩
  reaches b _ hfit := hfit.1

/-! ## Rules -/

/-- What fits of the first part is the floor of the second. -/
theorem Restricts.bind {put' : β' → α'} {fits' : β' → Prop} {f : α → Except ε α'}
    {g : β → Except ε β'} (h : Restricts floor put fits x y)
    (hf : ∀ b, y = .ok b → Restricts (fits b) put' fits' (f (put b)) (g b)) :
    Restricts floor put' fits' (x >>= f) (y >>= g) where
  results hfloor a := by
    rw [bind_ok_iff]
    constructor
    · rintro ⟨c, hx, hfc⟩
      obtain ⟨b, hy, hfit, rfl⟩ := (h.results hfloor c).mp hx
      obtain ⟨b', hg, hfit', hput⟩ := ((hf b hy).results hfit a).mp hfc
      exact ⟨b', bind_ok_iff.mpr ⟨b, hy, hg⟩, hfit', hput⟩
    · rintro ⟨b', hyg, hfit', hput⟩
      obtain ⟨b, hy, hg⟩ := bind_ok_iff.mp hyg
      have hfit := (hf b hy).reaches b' hg hfit'
      exact ⟨put b, (h.results hfloor _).mpr ⟨b, hy, hfit, rfl⟩,
        ((hf b hy).results hfit a).mpr ⟨b', hg, hfit', hput⟩⟩
  reaches b' hyg hfit' := by
    obtain ⟨b, hy, hg⟩ := bind_ok_iff.mp hyg
    exact h.reaches b hy ((hf b hy).reaches b' hg hfit')

/-- A part that has no limit. -/
theorem Restricts.same {x : Except ε α} {fits : α → Prop}
    (h : ∀ a, x = .ok a → (fits a ↔ floor)) : Restricts floor id fits x x where
  results hf a := by
    constructor
    · exact fun hx => ⟨a, hx, (h a hx).mpr hf, rfl⟩
    · rintro ⟨b, hx, -, rfl⟩
      exact hx
  reaches b hx hfit := (h b hx).mp hfit

/-- A part that has no limit takes no room. -/
theorem Restricts.check {x : Except ε α} : Restricts floor id (fun _ => floor) x x :=
  Restricts.same fun _ _ => Iff.rfl

theorem Restricts.ok {b : β} (h : fits b ↔ floor) :
    Restricts floor put fits (.ok (put b) : Except ε α) (.ok b) where
  results hf a := by
    constructor
    · intro heq
      exact ⟨b, rfl, h.mpr hf, Except.ok.inj heq⟩
    · rintro ⟨b', heq, -, rfl⟩
      cases heq
      rfl
  reaches b' heq hfit := by
    cases heq
    exact h.mp hfit

/-- A condition on the limit that holds of all greater ones. -/
theorem Restricts.require {c d : Prop} [Decidable c] [Decidable d] {e : ε} (h : c → d) :
    Restricts floor id (fun _ => floor ∧ c) (require c e : Except ε Unit) (require d e) where
  results hf u := by
    rw [require_ok_iff]
    constructor
    · intro hc
      exact ⟨(), require_ok_iff.mpr (h hc), ⟨hf, hc⟩, rfl⟩
    · rintro ⟨_, -, ⟨-, hc⟩, -⟩
      exact hc
  reaches _ _ hfit := hfit.1

/-- A number that must not be above the limit. -/
theorem Restricts.limit {o : Option Nat} {l m : Nat} {e : ε} (h : l ≤ m) :
    Restricts floor id (fun n => floor ∧ n ≤ l)
      (orThrow (o.filter (· ≤ l)) e : Except ε Nat) (orThrow (o.filter (· ≤ m)) e) where
  results hf n := by
    simp only [orThrow_ok_iff, Option.filter_eq_some_iff, decide_eq_true_eq, id_eq]
    constructor
    · rintro ⟨ho, hn⟩
      exact ⟨n, ⟨ho, Nat.le_trans hn h⟩, ⟨hf, hn⟩, rfl⟩
    · rintro ⟨n', ⟨ho, -⟩, ⟨-, hn⟩, rfl⟩
      exact ⟨ho, hn⟩
  reaches _ _ hfit := hfit.1

/-- A loop whose every step restricts; `I` holds between the steps with more room. -/
theorem Restricts.foldlM {f : α → γ → Except ε α} {g : β → γ → Except ε β} {I : β → Prop}
    (hstep : ∀ b c, I b → Restricts (fits b) put fits (f (put b) c) (g b c))
    (hinv : ∀ b c b', I b → g b c = .ok b' → I b') (cs : List γ) {b : β} (hb : I b) :
    Restricts (fits b) put fits (cs.foldlM f (put b)) (cs.foldlM g b) := by
  induction cs generalizing b with
  | nil => exact Restricts.ok Iff.rfl
  | cons c cs ih =>
      rw [List.foldlM_cons, List.foldlM_cons]
      exact (hstep b c hb).bind fun b' hb' => ih (hinv b c b' hb hb')

end

end Whale
