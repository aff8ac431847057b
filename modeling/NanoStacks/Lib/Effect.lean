import NanoStacks.Lib.Result

/-!
# Effects that fail

A program over a state that may stop with an error. Unlike in `Except` over a pure state, stopping undoes
nothing: the outcome of a run holds the state as it was left and what was written on the way, also when the
result is an error. Whoever wants an error to leave no trace has to put the state back.
-/

namespace NanoStacks

variable {σ ω ε ε' α β : Type}

/-- How a run ends. -/
structure Outcome (σ ω ε α : Type) where
  result : Except ε α
  state : σ
  writes : List ω

def Effect (σ ω ε α : Type) := σ → Outcome σ ω ε α

namespace Effect

instance : Monad (Effect σ ω ε) where
  pure a := fun s => ⟨.ok a, s, []⟩
  bind m f := fun s =>
    match m s with
    | ⟨.ok a, s', writes⟩ => ⟨(f a s').result, (f a s').state, writes ++ (f a s').writes⟩
    | ⟨.error e, s', writes⟩ => ⟨.error e, s', writes⟩

/-- Read the state, or stop. -/
def reads (f : σ → Except ε α) : Effect σ ω ε α := fun s => ⟨f s, s, []⟩

/-- Decide without the state. -/
def lift (x : Except ε α) : Effect σ ω ε α := reads fun _ => x

/-- Replace the state, or stop and leave it. -/
def modify (f : σ → Except ε (α × σ)) : Effect σ ω ε α := fun s =>
  match f s with
  | .ok (a, s') => ⟨.ok a, s', []⟩
  | .error e => ⟨.error e, s, []⟩

def mapError (f : ε → ε') (m : Effect σ ω ε α) : Effect σ ω ε' α := fun s =>
  ⟨(m s).result.mapError f, (m s).state, (m s).writes⟩

/-! ## How a run ends -/

variable {s s' : σ} {writes : List ω} {a a' : α} {b : β} {e : ε}

@[simp] theorem pure_eq_ok :
    (pure a : Effect σ ω ε α) s = ⟨.ok a', s', writes⟩ ↔ a = a' ∧ s = s' ∧ [] = writes := by
  simp [pure]

@[simp] theorem pure_ne_error : (pure a : Effect σ ω ε α) s ≠ ⟨.error e, s', writes⟩ := by
  simp [pure]

@[simp] theorem reads_eq {f : σ → Except ε α} {x : Except ε α} :
    (reads f : Effect σ ω ε α) s = ⟨x, s', writes⟩ ↔ f s = x ∧ s = s' ∧ [] = writes := by
  simp [reads]

@[simp] theorem lift_eq {x x' : Except ε α} :
    (lift x : Effect σ ω ε α) s = ⟨x', s', writes⟩ ↔ x = x' ∧ s = s' ∧ [] = writes :=
  reads_eq

@[simp] theorem modify_eq_ok {f : σ → Except ε (α × σ)} :
    (modify f : Effect σ ω ε α) s = ⟨.ok a, s', writes⟩ ↔ f s = .ok (a, s') ∧ [] = writes := by
  unfold modify
  rcases f s with e | ⟨a', mid⟩ <;> simp [and_assoc]

section Bind

variable {m : Effect σ ω ε α} {f : α → Effect σ ω ε β} {mid : σ} {first : List ω}

theorem bind_of_ok (h : m s = ⟨.ok a, mid, first⟩) :
    (m >>= f) s = ⟨(f a mid).result, (f a mid).state, first ++ (f a mid).writes⟩ := by
  simp [bind, h]

theorem bind_of_error (h : m s = ⟨.error e, mid, first⟩) : (m >>= f) s = ⟨.error e, mid, first⟩ := by
  simp [bind, h]

theorem bind_eq {result : Except ε β} : (m >>= f) s = ⟨result, s', writes⟩ ↔
    (∃ e, m s = ⟨.error e, s', writes⟩ ∧ result = .error e) ∨
      ∃ a mid first second, m s = ⟨.ok a, mid, first⟩ ∧ f a mid = ⟨result, s', second⟩ ∧
        first ++ second = writes := by
  rcases hm : m s with ⟨e | a, mid, first⟩
  · rw [bind_of_error hm]
    grind
  · rw [bind_of_ok hm]
    rcases hf : f a mid with ⟨result', final, second⟩
    grind

@[simp] theorem bind_eq_ok : (m >>= f) s = ⟨.ok b, s', writes⟩ ↔
    ∃ a mid first second, m s = ⟨.ok a, mid, first⟩ ∧ f a mid = ⟨.ok b, s', second⟩ ∧
      first ++ second = writes := by
  simp [bind_eq]

theorem bind_eq_error : (m >>= f) s = ⟨.error e, s', writes⟩ ↔
    m s = ⟨.error e, s', writes⟩ ∨
      ∃ a mid first second, m s = ⟨.ok a, mid, first⟩ ∧ f a mid = ⟨.error e, s', second⟩ ∧
        first ++ second = writes := by
  simp [bind_eq]

end Bind

theorem mapError_eq_ok {m : Effect σ ω ε α} {f : ε → ε'} :
    m.mapError f s = ⟨.ok a, s', writes⟩ ↔ m s = ⟨.ok a, s', writes⟩ := by
  rcases hm : m s with ⟨_ | a', mid, first⟩ <;> simp [mapError, hm, Except.mapError]

theorem mapError_eq_error {m : Effect σ ω ε α} {f : ε → ε'} {e' : ε'} :
    m.mapError f s = ⟨.error e', s', writes⟩ ↔ ∃ e, m s = ⟨.error e, s', writes⟩ ∧ f e = e' := by
  rcases hm : m s with ⟨e | a', mid, first⟩ <;> simp [mapError, hm, Except.mapError]
  tauto

end Effect

end NanoStacks
