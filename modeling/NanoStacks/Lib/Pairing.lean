import Mathlib.Data.List.Nodup
import Mathlib.Data.Set.Function
import Mathlib.Logic.Function.Iterate
import Mathlib.Tactic.Common

/-!
# Trees of pairs

A level of a binary tree is paired into the level above it; a last element without a partner is paired
with itself. Which list a tree was built on cannot be told in general, since an odd list and the list
with its last element repeated have the same pairs. For lists without repetitions it can: nothing else
produces a pair of equal elements (`pairs_injective`), pairing keeps a level free of repetitions as long
as `node` does not collide (`nodup_pairUp`), and if no leaf is a node the height of the tree is known
too (`iterate_pairUp_injective`).
-/

namespace NanoStacks.Pairing

open List

universe u

variable {α : Type u}

variable {l l' : List α}

theorem eq_of_map_eq_map {β : Type*} {f : α → β} (hinj : ∀ a ∈ l, ∀ b ∈ l', f a = f b → a = b)
    (h : l.map f = l'.map f) : l = l' := by
  refine ext_getElem (by simpa using congrArg length h) fun i hi hi' => ?_
  refine hinj _ (getElem_mem hi) _ (getElem_mem hi') ?_
  have hget := getElem_of_eq h (i := i) (by rwa [length_map])
  rwa [getElem_map, getElem_map] at hget

/-- Neighbours, the last one with itself if it has none. -/
def pairs : List α → List (α × α)
  | [] => []
  | [last] => [(last, last)]
  | left :: right :: rest => (left, right) :: pairs rest

theorem length_pairs (l : List α) : (pairs l).length = (l.length + 1) / 2 := by
  induction l using pairs.induct with
  | case1 => simp [pairs]
  | case2 last => simp [pairs]
  | case3 left right rest ih =>
    rw [pairs, length_cons, ih, length_cons, length_cons]
    omega

theorem map_fst_pairs_sublist (l : List α) : ((pairs l).map Prod.fst).Sublist l := by
  induction l using pairs.induct with
  | case1 => exact List.Sublist.refl []
  | case2 last => exact List.Sublist.refl [last]
  | case3 left right rest ih => exact (ih.cons right).cons_cons left

theorem pairs_injective (hnodup : l.Nodup) (hnodup' : l'.Nodup) (h : pairs l = pairs l') : l = l' := by
  induction l using pairs.induct generalizing l' with
  | case1 =>
    have hlength := congrArg length h
    rw [length_pairs, length_pairs, length_nil] at hlength
    exact (length_eq_zero_iff.1 (by omega)).symm
  | case2 last =>
    match l', hnodup', h with
    | [last'], _, h =>
      obtain ⟨rfl, -⟩ := Prod.mk.inj (cons.inj h).1
      rfl
    | left :: right :: rest, hnodup', h =>
      obtain ⟨rfl, hright⟩ := Prod.mk.inj (cons.inj h).1
      exact absurd (by simp [hright]) (nodup_cons.1 hnodup').1
  | case3 left right rest ih =>
    match l', hnodup', h with
    | [last'], _, h =>
      obtain ⟨rfl, hright⟩ := Prod.mk.inj (cons.inj h).1
      exact absurd (by simp [hright]) (nodup_cons.1 hnodup).1
    | left' :: right' :: rest', hnodup', h =>
      obtain ⟨hpair, hrest⟩ := cons.inj h
      obtain ⟨rfl, rfl⟩ := Prod.mk.inj hpair
      have htail : rest.Nodup := ((nodup_cons.1 hnodup).2).tail
      have htail' : rest'.Nodup := ((nodup_cons.1 hnodup').2).tail
      rw [ih htail htail' hrest]

variable (node : α → α → α)

/-- The level above. -/
def pairUp (l : List α) : List α := (pairs l).map fun p => node p.1 p.2

theorem length_pairUp (l : List α) : (pairUp node l).length = (l.length + 1) / 2 := by
  rw [pairUp, length_map, length_pairs]

/-- The pairs that are hashed on the way up. -/
def pairsBelow (l : List α) : Nat → List (α × α)
  | 0 => []
  | height + 1 => pairsBelow l height ++ pairs ((pairUp node)^[height] l)

variable {node}

variable {height : Nat}

/-- The pairs below a height are those of the first level and those below it from the next one on. -/
theorem mem_pairsBelow_succ {p : α × α} :
    p ∈ pairsBelow node l (height + 1) ↔ p ∈ pairs l ∨ p ∈ pairsBelow node (pairUp node l) height := by
  induction height with
  | zero => simp [pairsBelow]
  | succ height ih =>
    rw [pairsBelow, mem_append, ih, pairsBelow, mem_append, Function.iterate_succ_apply, or_assoc]

/-- `node` tells the given pairs apart. -/
def Separates (node : α → α → α) (used : Set (α × α)) : Prop :=
  Set.InjOn (fun p : α × α => node p.1 p.2) used

variable {used : Set (α × α)}

theorem nodup_pairUp (hnodup : l.Nodup) (hused : ∀ p ∈ pairs l, p ∈ used) (h : Separates node used)
    : (pairUp node l).Nodup := by
  have hpairs : (pairs l).Nodup := (hnodup.sublist (map_fst_pairs_sublist l)).of_map _
  exact hpairs.map_on fun p hp q hq heq => h (hused p hp) (hused q hq) heq

theorem pairUp_injective (hnodup : l.Nodup) (hnodup' : l'.Nodup) (hused : ∀ p ∈ pairs l, p ∈ used)
    (hused' : ∀ p ∈ pairs l', p ∈ used) (hsep : Separates node used)
    (h : pairUp node l = pairUp node l') : l = l' := by
  refine pairs_injective hnodup hnodup' ?_
  exact eq_of_map_eq_map (fun p hp q hq heq => hsep (hused p hp) (hused' q hq) heq) h

/-- A level of distinct values, none of them a node of a used pair, and a height below which only used pairs
are hashed. -/
structure Tree (node : α → α → α) (used : Set (α × α)) (l : List α) (height : Nat) : Prop where
  nodup : l.Nodup
  ne_nil : l ≠ []
  leaf : ∀ p ∈ used, node p.1 p.2 ∉ l
  below : ∀ p ∈ pairsBelow node l height, p ∈ used

namespace Tree

theorem low (h : Tree node used l (height + 1)) : Tree node used l height :=
  { h with below := fun p hp => h.below p (mem_append_left _ hp) }

theorem top (h : Tree node used l (height + 1)) : ∀ p ∈ pairs ((pairUp node)^[height] l), p ∈ used :=
  fun p hp => h.below p (mem_append_right _ hp)

theorem nodup_iterate (h : Tree node used l height) (hsep : Separates node used) :
    ((pairUp node)^[height] l).Nodup := by
  induction height with
  | zero => exact h.nodup
  | succ height ih =>
    rw [Function.iterate_succ_apply']
    exact nodup_pairUp (ih h.low) h.top hsep

variable {height' : Nat} (h : Tree node used l height)

include h

/-- A level that is paired once more consists of nodes. -/
theorem ne_iterate (h' : Tree node used l' (height' + 1)) : l ≠ (pairUp node)^[height' + 1] l' := by
  intro heq
  rw [Function.iterate_succ_apply'] at heq
  obtain ⟨x, hx⟩ := exists_mem_of_ne_nil l h.ne_nil
  have hx' := hx
  rw [heq, pairUp, mem_map] at hx'
  obtain ⟨p, hp, rfl⟩ := hx'
  exact h.leaf p (h'.top p hp) hx

theorem level_eq (h' : Tree node used l' height') (hsep : Separates node used)
    (htop : (pairUp node)^[height] l = (pairUp node)^[height'] l') : l = l' := by
  induction height generalizing height' with
  | zero =>
    cases height' with
    | zero => exact htop
    | succ height' => exact absurd htop (h.ne_iterate h')
  | succ height ih =>
    cases height' with
    | zero => exact absurd htop.symm (h'.ne_iterate h)
    | succ height' =>
      rw [Function.iterate_succ_apply', Function.iterate_succ_apply'] at htop
      exact ih h.low h'.low (pairUp_injective (h.low.nodup_iterate hsep) (h'.low.nodup_iterate hsep)
        h.top h'.top hsep htop)

end Tree

end NanoStacks.Pairing
