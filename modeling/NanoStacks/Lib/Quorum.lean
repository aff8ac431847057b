import Mathlib.Data.List.Nodup
import Mathlib.Data.List.Pairwise
import Mathlib.Algebra.BigOperators.Group.List.Basic
import Mathlib.Algebra.Order.BigOperators.Group.List
import Mathlib.Tactic.Common
import Mathlib.Tactic.Linarith

/-!
# Parts of an ordered, weighted list

A part of a list without repetitions is the same thing as a sublist, as members taken in increasing
position (`sublist_iff_idxOf_increasing`) and as a filter (`filter_key_mem_of_sublist`). Two parts
whose weights exceed the whole overlap by the excess (`sum_filter_add_sum_filter_le`).
-/

namespace NanoStacks

open List

universe u v

variable {α : Type u} {κ : Type v} [DecidableEq κ]

theorem idxOf_increasing_of_nodup {l : List κ} (hnodup : l.Nodup) :
    l.Pairwise (l.idxOf · < l.idxOf ·) := by
  rw [pairwise_iff_getElem]
  intro i j hi hj hij
  rwa [hnodup.idxOf_getElem i hi, hnodup.idxOf_getElem j hj]

/-- Members in increasing position form a sublist, and a sublist lists its members so. -/
theorem sublist_iff_idxOf_increasing {l part : List κ} (hnodup : l.Nodup) :
    part.Sublist l ↔ (∀ key ∈ part, key ∈ l) ∧ part.Pairwise (l.idxOf · < l.idxOf ·) := by
  constructor
  · intro hpart
    exact ⟨fun key hkey => hpart.subset hkey, (idxOf_increasing_of_nodup hnodup).sublist hpart⟩
  · rintro ⟨hmem, hincreasing⟩
    induction l generalizing part with
    | nil =>
      cases part with
      | nil => exact List.Sublist.refl []
      | cons key rest => cases hmem key mem_cons_self
    | cons first l ih =>
      obtain ⟨hfresh, hnodup⟩ := nodup_cons.1 hnodup
      -- below the head, positions in the whole and in the tail differ by one
      have htail : ∀ {part : List κ}, (∀ key ∈ part, key ∈ l) →
          part.Pairwise ((first :: l).idxOf · < (first :: l).idxOf ·) → part.Sublist l := by
        intro part hmem hincreasing
        refine ih hnodup hmem (hincreasing.imp_of_mem ?_)
        intro a b ha hb hlt
        have hne : ∀ key ∈ part, first ≠ key := fun key hkey heq => hfresh (heq ▸ hmem key hkey)
        rw [idxOf_cons_ne l (hne a ha), idxOf_cons_ne l (hne b hb)] at hlt
        omega
      cases part with
      | nil => exact nil_sublist _
      | cons key rest =>
        obtain ⟨hbefore, hrest⟩ := pairwise_cons.1 hincreasing
        have hlater : ∀ other ∈ rest, other ∈ l := by
          intro other hother
          rcases mem_cons.1 (hmem other (mem_cons_of_mem _ hother)) with rfl | h
          · have := hbefore other hother
            rw [idxOf_cons_self] at this
            omega
          · exact h
        by_cases hkey : key = first
        · subst hkey
          exact (htail hlater hrest).cons_cons key
        · apply List.Sublist.cons
          apply htail _ hincreasing
          intro other hother
          rcases mem_cons.1 hother with rfl | h
          · exact (mem_cons.1 (hmem other mem_cons_self)).resolve_left hkey
          · exact hlater other h

variable (key : α → κ)

theorem dropWhile_of_sublist {l rest : List α} {first : α} (hpart : (first :: rest).Sublist l)
    (hnodup : (l.map key).Nodup) :
    ∃ after, l.dropWhile (key · ≠ key first) = first :: after ∧ rest.Sublist after := by
  induction l with
  | nil => cases hpart
  | cons head l ih =>
    obtain ⟨hfresh, hnodup⟩ := nodup_cons.1 hnodup
    cases hpart with
    | cons _ hpart =>
      have hne : key head ≠ key first := by
        intro heq
        exact hfresh (heq ▸ mem_map_of_mem (hpart.subset mem_cons_self))
      obtain ⟨after, hdrop, hrest⟩ := ih hpart hnodup
      exact ⟨after, by simpa [dropWhile_cons, hne] using hdrop, hrest⟩
    | cons_cons _ hrest => exact ⟨l, by simp, hrest⟩

theorem filter_key_mem_of_sublist {l part : List α} (hpart : part.Sublist l)
    (hnodup : (l.map key).Nodup) : l.filter (key · ∈ part.map key) = part := by
  induction hpart with
  | slnil => rfl
  | @cons part l head hpart ih =>
    obtain ⟨hfresh, hnodup⟩ := nodup_cons.1 hnodup
    have hout : key head ∉ part.map key := fun h => hfresh ((hpart.map key).subset h)
    rw [filter_cons_of_neg (by simpa using hout), ih hnodup]
  | @cons_cons part l head hpart ih =>
    obtain ⟨hfresh, hnodup⟩ := nodup_cons.1 hnodup
    have hsame : l.filter (key · ∈ (head :: part).map key) = l.filter (key · ∈ part.map key) := by
      refine filter_congr fun a ha => ?_
      have hne : key a ≠ key head := fun heq => hfresh (heq ▸ mem_map_of_mem ha)
      simp [hne]
    rw [filter_cons_of_pos (by simp), hsame, ih hnodup]

variable (weight : α → Nat)

/-- Inclusion and exclusion for weights: what two parts weigh together exceeds the whole by at most
their overlap. -/
theorem sum_filter_add_sum_filter_le (l : List α) (p q : α → Bool) :
    ((l.filter p).map weight).sum + ((l.filter q).map weight).sum
      ≤ (l.map weight).sum + ((l.filter fun a => p a && q a).map weight).sum := by
  induction l with
  | nil => simp
  | cons a l ih =>
    cases hp : p a <;> cases hq : q a <;>
      simp only [filter_cons, hp, hq, Bool.and_self, Bool.and_true, Bool.and_false,
        Bool.false_eq_true, if_true, if_false, map_cons, sum_cons] <;> omega

end NanoStacks
