import Mathlib.Order.Bounds.Basic
import Mathlib.Order.UpperLower.Basic
import Mathlib.Order.Interval.Set.Defs
import Mathlib.Data.List.Basic

/-!
# Latest entries

A question that is answered with the latest entry at or below a point depends on the set of entries
known alone. One set answers as another does, or not at all, exactly if it is a final segment of the
other: nothing it lacks lies above anything it has (`LatestOf.none_or_eq_iff`). Entries put on top,
and oldest entries forgotten, keep it one.
-/

namespace NanoStacks.Latest

open List

variable {α : Type} [LinearOrder α] {A B : Set α}

/-- The question is answered with the greatest entry at or below the point asked for. -/
structure LatestOf (entries : Set α) (answer : α → Option α) : Prop where
  some : ∀ {point entry}, answer point = some entry → IsGreatest {x ∈ entries | x ≤ point} entry
  none : ∀ {point}, answer point = none → ∀ x ∈ entries, point < x

theorem LatestOf.eq_some {answer : α → Option α} (h : LatestOf A answer) {point entry : α}
    (hentry : IsGreatest {x ∈ A | x ≤ point} entry) : answer point = .some entry := by
  cases hanswer : answer point with
  | none => exact absurd (h.none hanswer entry hentry.1.1) (not_lt.2 hentry.1.2)
  | some found => rw [(h.some hanswer).unique hentry]

/-- A sorted list answers from its end. -/
theorem latestOf_reverse_find {l : List α} (hl : l.Pairwise (· ≤ ·)) :
    LatestOf {x | x ∈ l} fun point => l.reverse.find? (· ≤ point) where
  some := by
    intro point entry hfind
    obtain ⟨hle, above, below, hl', habove⟩ := find?_eq_some_iff_append.1 hfind
    have hsorted := pairwise_reverse.2 hl
    rw [hl', pairwise_append, pairwise_cons] at hsorted
    have hmem : ∀ x, x ∈ l ↔ x ∈ above ∨ x = entry ∨ x ∈ below := fun x => by
      rw [← mem_reverse, hl', mem_append, mem_cons]
    refine ⟨⟨(hmem entry).2 (.inr (.inl rfl)), of_decide_eq_true hle⟩, ?_⟩
    rintro x ⟨hx, hpoint⟩
    rcases (hmem x).1 hx with hx | rfl | hx
    · exact absurd hpoint (by simpa using habove x hx)
    · exact le_rfl
    · exact hsorted.2.1.1 x hx
  none := by
    intro point hfind x hx
    have hnot := find?_eq_none.1 hfind x (mem_reverse.2 hx)
    simpa using hnot

/-- The entries of a set from some point on. -/
structure FinalSegment (A B : Set α) : Prop where
  subset : A ⊆ B
  upward : ∀ a ∈ A, ∀ b ∈ B, a ≤ b → b ∈ A

/-- The greatest below a point of a final segment is the greatest of all. -/
theorem FinalSegment.isGreatest (h : FinalSegment A B) {point entry : α}
    (hentry : IsGreatest {x ∈ A | x ≤ point} entry) : IsGreatest {x ∈ B | x ≤ point} entry := by
  refine ⟨⟨h.subset hentry.1.1, hentry.1.2⟩, ?_⟩
  rintro x ⟨hx, hle⟩
  rcases le_total x entry with hlow | hhigh
  · exact hlow
  · exact hentry.2 ⟨h.upward entry hentry.1.1 x hx hhigh, hle⟩

/-- **Below a bound, one question is answered as another or not at all exactly if it knows a final
segment** of what the other knows. -/
theorem LatestOf.none_or_eq_iff {answer answer' : α → Option α} (hA : LatestOf A answer)
    (hB : LatestOf B answer') {D : Set α} (hD : IsLowerSet D) :
    (∀ point ∈ D, answer point = .none ∨ answer point = answer' point) ↔
      FinalSegment (A ∩ D) (B ∩ D) := by
  constructor
  · intro h
    have hself : ∀ {S : Set α} {x : α}, x ∈ S → IsGreatest {y ∈ S | y ≤ x} x :=
      fun hx => ⟨⟨hx, le_rfl⟩, fun _ hy => hy.2⟩
    refine ⟨fun a ha => ⟨?_, ha.2⟩, fun a ha b hb hle => ⟨?_, hb.2⟩⟩
    · have hanswer := hA.eq_some (hself ha.1)
      have hanswer' := (h a ha.2).resolve_left (by simp [hanswer])
      exact (hB.some (hanswer'.symm.trans hanswer)).1.1
    · have hanswer' := hB.eq_some (hself hb.1)
      have hknown : answer b ≠ .none := fun hnone => absurd hle (not_le.2 (hA.none hnone a ha.1))
      have hanswer := ((h b hb.2).resolve_left hknown).trans hanswer'
      exact (hA.some hanswer).1.1
  · intro h point hpoint
    cases hanswer : answer point with
    | none => exact .inl rfl
    | some entry =>
      right
      have hentry := hA.some hanswer
      have hbelow : ∀ S : Set α, {x ∈ S ∩ D | x ≤ point} = {x ∈ S | x ≤ point} := fun S =>
        Set.ext fun x => ⟨fun hx => ⟨hx.1.1, hx.2⟩, fun hx => ⟨⟨hx.1, hD hx.2 hpoint⟩, hx.2⟩⟩
      rw [← hbelow] at hentry
      exact (hB.eq_some (hbelow B ▸ h.isGreatest hentry)).symm

namespace FinalSegment

section

variable (h : FinalSegment A B)

include h

theorem insert {x : α} (hx : ∀ b ∈ B, b < x) : FinalSegment (insert x A) (insert x B) where
  subset := Set.insert_subset_insert h.subset
  upward := by
    rintro a (rfl | ha) b (rfl | hb) hle
    · exact .inl rfl
    · exact absurd hle (not_le.2 (hx b hb))
    · exact .inl rfl
    · exact .inr (h.upward a ha b hb hle)

theorem forget {m : α} (hm : IsLeast A m) : FinalSegment (A \ {m}) B where
  subset := Set.sdiff_subset.trans h.subset
  upward := by
    rintro a ⟨ha, hne⟩ b hb hle
    refine ⟨h.upward a ha b hb hle, ?_⟩
    rintro rfl
    exact hne (le_antisymm hle (hm.2 ha))

theorem forget_of_notMem {m : α} (hm : m ∉ A) : FinalSegment A (B \ {m}) where
  subset := fun _ ha => ⟨h.subset ha, fun heq => hm (heq ▸ ha)⟩
  upward := fun _ ha b hb hle => h.upward _ ha b hb.1 hle

theorem eq_of_least_mem {m : α} (hm : IsLeast B m) (hmem : m ∈ A) : A = B :=
  Set.Subset.antisymm h.subset fun b hb => h.upward m hmem b hb (hm.2 hb)

end

theorem union {C : Set α} {bound : α} (h : FinalSegment (A ∩ Set.Iic bound) (B ∩ Set.Iic bound))
    (hA : A ⊆ Set.Iic bound) (hC : ∀ c ∈ C, bound < c) (hsubset : C ⊆ B)
    (hB : ∀ b ∈ B, b ≤ bound ∨ b ∈ C) : FinalSegment (A ∪ C) B where
  subset := Set.union_subset (fun _ ha => (h.subset ⟨ha, hA ha⟩).1) hsubset
  upward := by
    intro a ha b hb hle
    rcases hB b hb with hlow | hmem
    · left
      have hbelow := ha.resolve_right fun hmem => absurd (hle.trans hlow) (not_le.2 (hC a hmem))
      exact (h.upward a ⟨hbelow, hA hbelow⟩ b ⟨hb, hlow⟩ hle).1
    · exact .inr hmem

end FinalSegment

end NanoStacks.Latest
