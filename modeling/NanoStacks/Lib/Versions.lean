import NanoStacks.Lib.Result

/-!
# Versioned stores

A store of immutable versions, each begun from a parent and then written. What a version answers for
a key is fixed by the writes made while it was open and by what its parent answers: the last write
of the key if there is one, and the parent's answer otherwise (`Obeys`).

How the open version is held may depend on the order of its writes, but often only on the order of
the first write of each key. `Overwrites` is that case: writing a key again changes its value in
place. Then a list of writes can be replaced by its `firstWrites`.

Blocks, keys and values are arbitrary types.
-/

namespace NanoStacks.Versions

open List

universe u v w

variable {B : Type u} {P : Type v} {V : Type w} [DecidableEq P]

/-- A version as it was written: the parent it was begun from and its writes, oldest first. -/
structure Draft (B : Type u) (P : Type v) (V : Type w) where
  parent : Option B
  writes : List (P × V)

/-- The last write of a key. -/
def lastWrite : List (P × V) → P → Option V
  | [], _ => none
  | (p, v) :: writes, q => (lastWrite writes q).or (if q = p then some v else none)

@[simp] theorem lastWrite_nil (q : P) : lastWrite ([] : List (P × V)) q = none := rfl

@[simp] theorem lastWrite_concat (writes : List (P × V)) (p : P) (v : V) (q : P) :
    lastWrite (writes ++ [(p, v)]) q = if q = p then some v else lastWrite writes q := by
  induction writes with
  | nil => simp [lastWrite]
  | cons head writes ih =>
    rw [cons_append, lastWrite, ih, lastWrite]
    split_ifs <;> simp

/-- What a version answers when its parent's versions answer as `answer` says. -/
def Draft.read (d : Draft B P V) (answer : B → P → Option V) (p : P) : Option V :=
  (lastWrite d.writes p).or (d.parent.bind fun parent => answer parent p)

/-- Every version in the book answers its last write, or what its parent answers. -/
def Obeys (book : B → Option (Draft B P V)) (answer : B → P → Option V) : Prop :=
  ∀ b d, book b = some d → ∀ p, answer b p = d.read answer p

/-! ## Writing a key again -/

/-- Each key once, where it is first written, with its last value. -/
def firstWrites : List (P × V) → List (P × V)
  | [] => []
  | (p, v) :: writes =>
    (p, (lastWrite writes p).getD v) :: firstWrites (writes.filter (·.1 ≠ p))
termination_by writes => writes.length
decreasing_by
  rw [List.length_unattach]
  exact Nat.lt_succ_of_le (Nat.le_trans (List.length_filter_le ..) (Nat.le_of_eq List.length_attach))

example : firstWrites [(1, 10), (2, 20), (1, 11)] = [(1, 11), (2, 20)] := by
  simp [firstWrites, lastWrite]

variable {S : Type*} {E : Type*}

/-- Writing a key that was written before is `again`, which changes its value and nothing that a
write of another key depends on. -/
structure Overwrites (put : S → P → V → Except E S) (again : S → P → V → S) (Has : S → P → Prop) :
    Prop where
  put_first : ∀ {s s' : S} {p : P} {v : V}, put s p v = .ok s' →
    Has s' p ∧ ∀ w, put s p w = .ok (again s' p w)
  put_again : ∀ {s : S} {p : P}, Has s p → ∀ v, put s p v = .ok (again s p v)
  put_other : ∀ {s s' : S} {p q : P} {w : V}, Has s p → p ≠ q → put s q w = .ok s' →
    Has s' p ∧ ∀ v, put (again s p v) q w = .ok (again s' p v)

namespace Overwrites

variable {put : S → P → V → Except E S} {again : S → P → V → S} {Has : S → P → Prop}

section

variable (h : Overwrites put again Has)

include h

omit [DecidableEq P] in
theorem has_again {s : S} {p : P} (hs : Has s p) (v : V) : Has (again s p v) p :=
  (h.put_first (h.put_again hs v)).1

omit [DecidableEq P] in
theorem again_again {s : S} {p : P} (hs : Has s p) (v w : V) :
    again (again s p v) p w = again s p w := by
  have hfirst := (h.put_first (h.put_again hs v)).2 w
  exact Except.ok.inj (hfirst.symm.trans (h.put_again hs w))

/-- The last value of a key can be given to it at once and its later writes left out. -/
theorem foldlM_filter {writes : List (P × V)} {s final : S} {p : P} {v : V} (hs : Has s p)
    (hv : again s p v = s) (hfinal : writes.foldlM (fun s w => put s w.1 w.2) s = .ok final) :
    (writes.filter (·.1 ≠ p)).foldlM (fun s w => put s w.1 w.2)
      (again s p ((lastWrite writes p).getD v)) = .ok final := by
  induction writes generalizing s v with
  | nil => simpa [hv] using hfinal
  | cons head writes ih =>
    obtain ⟨q, w⟩ := head
    rw [foldlM_cons, Result.bind_eq_ok] at hfinal
    obtain ⟨next, hput, hfinal⟩ := hfinal
    by_cases hq : p = q
    · subst hq
      obtain rfl : again s p w = next := Except.ok.inj ((h.put_again hs w).symm.trans hput)
      have key := ih (h.has_again hs w) (h.again_again hs w w) hfinal
      rw [h.again_again hs] at key
      have hlast : (lastWrite ((p, w) :: writes) p).getD v = (lastWrite writes p).getD w := by
        cases hl : lastWrite writes p <;> simp [lastWrite, hl]
      simpa [hlast] using key
    · obtain ⟨hs', hother⟩ := h.put_other hs hq hput
      have hv' : again next p v = next := by
        have hsame := hother v
        rw [hv, hput] at hsame
        exact (Except.ok.inj hsame).symm
      have key := ih hs' hv' hfinal
      have hlast : lastWrite ((q, w) :: writes) p = lastWrite writes p := by
        simp [lastWrite, hq]
      rw [filter_cons_of_pos (by simpa using Ne.symm hq), foldlM_cons, hlast, hother]
      exact key

/-- A list of writes leaves what its first writes leave. -/
theorem foldlM_firstWrites {writes : List (P × V)} {s final : S}
    (hfinal : writes.foldlM (fun s w => put s w.1 w.2) s = .ok final) :
    (firstWrites writes).foldlM (fun s w => put s w.1 w.2) s = .ok final := by
  induction hn : writes.length using Nat.strongRecOn generalizing writes s with
  | ind n ih =>
    cases writes with
    | nil => simpa [firstWrites] using hfinal
    | cons head writes =>
      obtain ⟨p, v⟩ := head
      rw [foldlM_cons, Result.bind_eq_ok] at hfinal
      obtain ⟨next, hput, hfinal⟩ := hfinal
      obtain ⟨hhas, hfirst⟩ := h.put_first hput
      have hv : again next p v = next := Except.ok.inj ((hfirst v).symm.trans hput)
      have hrest := h.foldlM_filter hhas hv hfinal
      rw [firstWrites, foldlM_cons, hfirst]
      refine ih _ ?_ hrest rfl
      rw [← hn]
      exact Nat.lt_succ_of_le (length_filter_le ..)

end

end Overwrites

end NanoStacks.Versions
