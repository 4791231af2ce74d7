/-!
# Steps that may fail

Lowering, loading and running are steps on a state that may fail. A sequence of two steps succeeds
exactly if both do, and fails if the first does or the second does after it. The laws take such
sequences apart, so that the proofs about them never unfold a bind.
-/

namespace MiniC

section State

variable {ε σ α β : Type} {x : EStateM ε σ α} {f : α → EStateM ε σ β} {s s' : σ}

/-- Two steps succeed exactly if the first does and the second does from there on. -/
theorem bind_eq_ok {b : β} :
    (x >>= f) s = .ok b s' ↔ ∃ a t, x s = .ok a t ∧ f a t = .ok b s' := by
  show EStateM.bind x f s = .ok b s' ↔ _
  unfold EStateM.bind
  cases x s with
  | ok a t => simp [and_assoc]
  | error e t => simp

/-- Two steps fail exactly if the first does, or the second does from where the first has ended. -/
theorem bind_eq_error {e : ε} :
    (x >>= f) s = .error e s' ↔
      x s = .error e s' ∨ ∃ a t, x s = .ok a t ∧ f a t = .error e s' := by
  show EStateM.bind x f s = .error e s' ↔ _
  unfold EStateM.bind
  cases x s with
  | ok a t => simp [and_assoc]
  | error e t => simp

/-- After a step that succeeds the second one goes on. -/
theorem bind_of_ok {a : α} {t : σ} (h : x s = .ok a t) : (x >>= f) s = f a t := by
  show EStateM.bind x f s = _
  simp [EStateM.bind, h]

/-- After a step that fails nothing happens. -/
theorem bind_of_error {e : ε} {t : σ} (h : x s = .error e t) : (x >>= f) s = .error e t := by
  show EStateM.bind x f s = _
  simp [EStateM.bind, h]

@[simp]
theorem pure_apply (a : α) : (pure a : EStateM ε σ α) s = .ok a s := rfl

@[simp]
theorem get_apply : (get : EStateM ε σ σ) s = .ok s s := rfl

@[simp]
theorem modify_apply (g : σ → σ) : (modify g : EStateM ε σ PUnit) s = .ok ⟨⟩ (g s) := rfl

@[simp]
theorem throw_apply (e : ε) : (throw e : EStateM ε σ α) s = .error e s := rfl

end State

section Outcome

variable {ε ε' α β : Type}

/-- Two computations without a state succeed exactly if the first does and the second does on its result. -/
theorem except_bind_eq_ok {x : Except ε α} {f : α → Except ε β} {b : β} :
    (x >>= f) = .ok b ↔ ∃ a, x = .ok a ∧ f a = .ok b := by
  show Except.bind x f = .ok b ↔ _
  unfold Except.bind
  cases x with
  | ok a => simp
  | error e => simp

/-- To name errors otherwise changes no success. -/
theorem mapError_eq_ok {g : ε → ε'} {x : Except ε α} {a : α} :
    x.mapError g = .ok a ↔ x = .ok a := by
  cases x with
  | ok b =>
    constructor
    · intro h
      cases h
      rfl
    · intro h
      cases h
      rfl
  | error e =>
    constructor
    · intro h
      cases h
    · intro h
      cases h

end Outcome

end MiniC
