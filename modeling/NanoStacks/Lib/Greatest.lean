import Mathlib.Order.Compare

/-!
# The greatest of a list

`maxBy cmp l` keeps the later of two elements unless the earlier one is strictly greater. For a
comparison that is a total preorder the result is a member no other exceeds, so any two lists with the
same members agree on it up to `cmp` (`maxBy_eq_of_mem_iff`).
-/

namespace NanoStacks

open List

universe u

variable {α : Type u} (cmp : α → α → Ordering)

/-- The greater of two, the later one if neither is. -/
def laterMax (first second : α) : α := if cmp first second = .gt then first else second

def maxBy : List α → Option α
  | [] => none
  | first :: rest => some (rest.foldl (laterMax cmp) first)

@[simp] theorem maxBy_eq_none {l : List α} : maxBy cmp l = none ↔ l = [] := by
  cases l <;> simp [maxBy]

variable [Std.TransCmp cmp]

theorem isLE_laterMax_left (a b : α) : (cmp a (laterMax cmp a b)).isLE := by
  unfold laterMax
  split_ifs with h
  · simp [Std.ReflCmp.compare_self]
  · exact Ordering.isLE_iff_ne_gt.2 h

theorem isLE_laterMax_right (a b : α) : (cmp b (laterMax cmp a b)).isLE := by
  unfold laterMax
  split_ifs with h
  · have hlt : cmp b a = .lt := Std.OrientedCmp.lt_of_gt h
    simp [hlt]
  · simp [Std.ReflCmp.compare_self]

/-- What the fold keeps comes from the list and exceeds everything passed over. -/
theorem foldl_laterMax (l : List α) (a : α) :
    l.foldl (laterMax cmp) a ∈ a :: l ∧ ∀ x ∈ a :: l, (cmp x (l.foldl (laterMax cmp) a)).isLE := by
  induction l generalizing a with
  | nil => simp [Std.ReflCmp.compare_self]
  | cons b l ih =>
    obtain ⟨hmem, hmax⟩ := ih (laterMax cmp a b)
    have hkept : laterMax cmp a b = a ∨ laterMax cmp a b = b := by
      unfold laterMax
      split_ifs
      · exact .inl rfl
      · exact .inr rfl
    have htop := hmax (laterMax cmp a b) mem_cons_self
    constructor
    · rw [foldl_cons]
      rcases mem_cons.1 hmem with h | h
      · rw [h]
        rcases hkept with hkept | hkept <;> simp [hkept]
      · simp [h]
    · intro x hx
      rw [foldl_cons]
      rcases mem_cons.1 hx with rfl | hx
      · exact Std.TransCmp.isLE_trans (isLE_laterMax_left cmp x b) htop
      · rcases mem_cons.1 hx with rfl | hx
        · exact Std.TransCmp.isLE_trans (isLE_laterMax_right cmp a x) htop
        · exact hmax x (mem_cons_of_mem _ hx)

theorem maxBy_eq_some {l : List α} {m : α} (h : maxBy cmp l = some m) :
    m ∈ l ∧ ∀ x ∈ l, (cmp x m).isLE := by
  cases l with
  | nil => simp [maxBy] at h
  | cons a l =>
    obtain rfl : l.foldl (laterMax cmp) a = m := by simpa [maxBy] using h
    exact foldl_laterMax cmp l a

/-- Lists with the same members have the same greatest, as far as `cmp` can tell. -/
theorem maxBy_eq_of_mem_iff {l l' : List α} (hmem : ∀ x, x ∈ l ↔ x ∈ l') {m m' : α}
    (h : maxBy cmp l = some m) (h' : maxBy cmp l' = some m') : cmp m m' = .eq := by
  obtain ⟨hm, hmax⟩ := maxBy_eq_some cmp h
  obtain ⟨hm', hmax'⟩ := maxBy_eq_some cmp h'
  have hle : (cmp m m').isLE := hmax' m ((hmem m).1 hm)
  have hge : (cmp m' m).isLE := hmax m' ((hmem m').2 hm')
  exact Std.OrientedCmp.isLE_antisymm hle hge

end NanoStacks
