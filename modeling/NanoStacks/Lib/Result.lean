import Mathlib.Tactic.Common

/-!
# Fallible computations

Small rules for peeling a `do` block in `Except ε` apart: a bind succeeds exactly when both halves
do, so that a proof about a long fallible function is a chain of `obtain`s with no unfolding.
-/

namespace NanoStacks.Result

open List

universe u v

variable {ε : Type u} {α β : Type v}

@[simp] theorem bind_eq_ok {x : Except ε α} {f : α → Except ε β} {b : β} :
    x >>= f = .ok b ↔ ∃ a, x = .ok a ∧ f a = .ok b := by
  cases x with
  | error e => simp [bind, Except.bind]
  | ok a => simp [bind, Except.bind]

@[simp] theorem map_eq_ok {x : Except ε α} {f : α → β} {b : β} :
    f <$> x = .ok b ↔ ∃ a, x = .ok a ∧ f a = b := by
  cases x with
  | error e => simp [Functor.map, Except.map]
  | ok a => simp [Functor.map, Except.map]

@[simp] theorem ok_bind (a : α) (f : α → Except ε β) : (Except.ok a >>= f) = f a := rfl

@[simp] theorem error_bind (e : ε) (f : α → Except ε β) : (Except.error e >>= f) = .error e := rfl

@[simp] theorem pure_eq_ok (a : α) : (pure a : Except ε α) = .ok a := rfl

theorem return_eq_ok {a b : α} : (pure a : Except ε α) = .ok b ↔ a = b :=
  Iff.of_eq (Except.ok.injEq a b)

theorem mapM_eq_ok_iff {α : Type*} {f : α → Except ε β} {l : List α} {out : List β} :
    l.mapM f = .ok out ↔ l.map f = out.map .ok := by
  induction l generalizing out with
  | nil => cases out <;> simp
  | cons a l ih => cases out <;> simp [ih]

theorem mapM_eq_some_iff {α β : Type*} {f : α → Option β} {l : List α} {out : List β} :
    l.mapM f = some out ↔ l.map f = out.map some := by
  induction l generalizing out with
  | nil => cases out <;> simp
  | cons a l ih => cases out <;> simp [Option.bind_eq_some_iff, ih]

theorem exists_map_eq_map_some {α β : Type*} {f : α → Option β} {l : List α}
    (h : ∀ a ∈ l, ∃ b, f a = some b) : ∃ out : List β, l.map f = out.map some := by
  induction l with
  | nil => exact ⟨[], rfl⟩
  | cons a l ih =>
    obtain ⟨b, hb⟩ := h a mem_cons_self
    obtain ⟨out, hout⟩ := ih fun a' ha' => h a' (mem_cons_of_mem _ ha')
    exact ⟨b :: out, by rw [map_cons, map_cons, hb, hout]⟩

/-- What holds at the start and is kept by every step that succeeds holds at the end. -/
theorem foldlM_invariant {α : Type*} {f : β → α → Except ε β} {P : β → Prop} {l : List α} {b b' : β}
    (hrun : l.foldlM f b = .ok b') (h : P b) (hstep : ∀ a ∈ l, ∀ b b', P b → f b a = .ok b' → P b') :
    P b' := by
  induction l generalizing b with
  | nil =>
    cases hrun
    exact h
  | cons a l ih =>
    rw [foldlM_cons, bind_eq_ok] at hrun
    obtain ⟨next, hnext, hrun⟩ := hrun
    exact ih hrun (hstep a mem_cons_self b next h hnext) fun a ha => hstep a (mem_cons_of_mem _ ha)

theorem toOption_eq_some {x : Except ε α} {a : α} : x.toOption = some a ↔ x = .ok a := by
  cases x <;> simp [Except.toOption]

/-- Go on if `p` holds, stop with the given error otherwise. -/
def ensure (p : Prop) [Decidable p] (e : ε) : Except ε Unit :=
  if p then .ok () else .error e

variable {e : ε} {p : Prop}

@[simp] theorem ensure_eq_ok [Decidable p] {u : Unit} : ensure p e = .ok u ↔ p := by
  unfold ensure
  split_ifs with h <;> simp [h]

@[simp] theorem ensure_of_true [Decidable p] (h : p) : ensure p e = .ok () := by
  simp [ensure, h]

@[simp] theorem ensure_of_false [Decidable p] (h : ¬p) : ensure p e = .error e := by
  simp [ensure, h]

theorem bind_eq_error {x : Except ε α} {f : α → Except ε β} :
    (x >>= f) = .error e ↔ x = .error e ∨ ∃ a, x = .ok a ∧ f a = .error e := by
  cases x <;> simp

theorem ensure_eq_error [Decidable p] {e e' : ε} : ensure p e = .error e' ↔ ¬p ∧ e = e' := by
  unfold ensure
  split_ifs with h <;> simp [h]

/-- The value of an `Option`, or the given error. -/
def okOr (o : Option α) (e : ε) : Except ε α :=
  match o with
  | some a => .ok a
  | none => .error e

@[simp] theorem okOr_some (a : α) (e : ε) : okOr (some a) e = .ok a := rfl

@[simp] theorem okOr_none (e : ε) : okOr (none : Option α) e = .error e := rfl

@[simp] theorem okOr_eq_ok {o : Option α} {a : α} : okOr o e = .ok a ↔ o = some a := by
  cases o <;> simp

theorem okOr_eq_error {o : Option α} {e e' : ε} : okOr o e = .error e' ↔ o = none ∧ e = e' := by
  cases o <;> simp

theorem mapM_okOr_eq_ok {α β : Type v} {f : α → Option β} {l : List α} {out : List β}
    (h : l.map f = out.map some) : l.mapM (fun a => okOr (f a) e) = .ok out := by
  rw [mapM_eq_ok_iff]
  simpa [Function.comp_def, okOr] using congrArg (map (okOr · e)) h

theorem mapError_eq_ok {ε ε' α : Type} {x : Except ε α} {f : ε → ε'} {a : α} :
    x.mapError f = .ok a ↔ x = .ok a := by
  cases x <;> simp [Except.mapError]

variable {l' : List β}

theorem mem_of_mapM_ok {f : α → Except ε β} {l : List α} (h : l.mapM f = .ok l') {b : β}
    (hb : b ∈ l') : ∃ a ∈ l, f a = .ok b := by
  rw [← mem_map, mapM_eq_ok_iff.1 h]
  exact mem_map_of_mem hb

theorem map_eq_of_mapM_ok {γ : Type*} {f : α → Except ε β} {l : List α} {g : β → γ} {k : α → γ}
    (hf : ∀ a b, f a = .ok b → g b = k a) (h : l.mapM f = .ok l') : l'.map g = l.map k := by
  induction l generalizing l' with
  | nil => simp_all
  | cons a l ih =>
    simp only [mapM_cons, bind_eq_ok, return_eq_ok] at h
    obtain ⟨b, hb, rest, hrest, rfl⟩ := h
    rw [map_cons, map_cons, hf a b hb, ih hrest]

theorem exists_of_mapM_ok {f : α → Except ε β} {l : List α} (h : l.mapM f = .ok l') {a : α}
    (ha : a ∈ l) : ∃ b ∈ l', f a = .ok b := by
  have hmem := mem_map_of_mem (f := f) ha
  rw [mapM_eq_ok_iff.1 h, mem_map] at hmem
  simpa [eq_comm] using hmem

end NanoStacks.Result
