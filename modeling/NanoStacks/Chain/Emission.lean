import NanoStacks.Chain.Accounting
import Mathlib.Algebra.BigOperators.Intervals
import Mathlib.Order.Interval.Finset.Nat

/-!
# What sortitions mint

A sortition collects its own emission, a bonus for itself and for every burn block since the last
sortition, and those blocks' emissions. Over any sequence of sortitions this mints what every burn block
is due, once: the gaps between the winners telescope.
-/

namespace NanoStacks.Chain

open Finset CoinbaseSchedule

namespace CoinbaseSchedule

variable (schedule : CoinbaseSchedule)

/-- What one burn block is due. -/
def dueAt (bitcoinHeight : Nat) : Nat :=
  schedule.emissionAt bitcoinHeight + schedule.initialMiningBonus

/-- What the burn blocks above one height and up to another are due. -/
def dueWithin (previous bitcoinHeight : Nat) : Nat :=
  ∑ height ∈ Ioc previous bitcoinHeight, schedule.dueAt height

/-- The coinbase a tenure's start records for its sortition. -/
def mintedAt (bitcoinHeight previousSortition : Nat) : Nat :=
  saturatingAdd128 (schedule.emissionAt bitcoinHeight)
    (schedule.accumulatedAt bitcoinHeight (some previousSortition))

/-- What sortitions mint together, each counting from the one before it. -/
def mintedBy (previous : Nat) : List Nat → Nat
  | [] => 0
  | sortition :: rest => schedule.mintedAt sortition previous + mintedBy sortition rest

variable {schedule} {previous bitcoinHeight : Nat}

theorem dueWithin_self : schedule.dueWithin previous previous = 0 := by
  simp [dueWithin]

theorem dueWithin_succ (h : previous ≤ bitcoinHeight) :
    schedule.dueWithin previous (bitcoinHeight + 1)
      = schedule.dueWithin previous bitcoinHeight + schedule.dueAt (bitcoinHeight + 1) := by
  unfold dueWithin
  rw [← Finset.insert_Ioc_right_eq_Ioc_add_one h, sum_insert (by simp), add_comm]

theorem dueWithin_add {middle : Nat} (h : previous ≤ middle) (h' : middle ≤ bitcoinHeight) :
    schedule.dueWithin previous middle + schedule.dueWithin middle bitcoinHeight
      = schedule.dueWithin previous bitcoinHeight :=
  sum_Ioc_consecutive _ h h'

theorem saturatingAdd128_of_lt {a b : Nat} (h : a + b < 2 ^ 128) : saturatingAdd128 a b = a + b := by
  unfold saturatingAdd128
  omega

theorem accumulate_self (accumulated : Nat) :
    schedule.accumulate previous accumulated previous = accumulated := by
  cases previous with
  | zero => rfl
  | succ height => rw [accumulate, if_neg (by omega)]

/-- The loop collects, on top of what it starts with, what is due up to its height except that height's
own emission. -/
theorem accumulate_add {accumulated : Nat} (h : previous < bitcoinHeight)
    (hfits : accumulated + schedule.dueWithin previous bitcoinHeight
      < 2 ^ 128 + schedule.emissionAt bitcoinHeight) :
    schedule.accumulate previous accumulated bitcoinHeight + schedule.emissionAt bitcoinHeight
      = accumulated + schedule.dueWithin previous bitcoinHeight := by
  induction bitcoinHeight generalizing accumulated with
  | zero => omega
  | succ height ih =>
    rw [dueWithin_succ (by omega), dueAt] at hfits ⊢
    rw [accumulate, if_pos h, saturatingAdd128_of_lt (by omega)]
    dsimp only
    split_ifs with hmore
    · -- the height below is no sortition's: its emission goes to this one
      have hdue : schedule.emissionAt height ≤ schedule.dueWithin previous height := by
        obtain ⟨below, rfl⟩ : ∃ below, height = below + 1 := ⟨height - 1, by omega⟩
        rw [dueWithin_succ (by omega), dueAt]
        omega
      rw [saturatingAdd128_of_lt (by omega)]
      have hloop : schedule.accumulate previous (accumulated + schedule.initialMiningBonus
            + schedule.emissionAt height) height + schedule.emissionAt height
          = accumulated + schedule.initialMiningBonus + schedule.emissionAt height
            + schedule.dueWithin previous height := ih hmore (by omega)
      omega
    · obtain rfl : previous = height := by omega
      rw [dueWithin_self, accumulate_self]
      omega

theorem mintedAt_eq (h : previous < bitcoinHeight)
    (hfits : schedule.dueWithin previous bitcoinHeight < 2 ^ 128) :
    schedule.mintedAt bitcoinHeight previous = schedule.dueWithin previous bitcoinHeight := by
  have hloop : schedule.accumulate previous 0 bitcoinHeight + schedule.emissionAt bitcoinHeight
      = 0 + schedule.dueWithin previous bitcoinHeight := accumulate_add h (by omega)
  have hsum : schedule.emissionAt bitcoinHeight + schedule.accumulatedAt bitcoinHeight (some previous)
      = schedule.dueWithin previous bitcoinHeight := by
    rw [accumulatedAt]
    omega
  rw [mintedAt, saturatingAdd128_of_lt (by omega), hsum]

theorem le_getLast {first : Nat} {rest : List Nat} (h : (first :: rest).IsChain (· < ·)) :
    first ≤ (first :: rest).getLast (by simp) := by
  induction rest generalizing first with
  | nil => exact le_rfl
  | cons next rest ih =>
    obtain ⟨hlt, hrest⟩ := List.isChain_cons_cons.1 h
    rw [List.getLast_cons_cons]
    exact hlt.le.trans (ih hrest)

end CoinbaseSchedule

/-- Sortitions in whatever burn blocks mint together what every burn block above the first and up to the
last of them is due: its emission and the bonus, none of them twice and none of them lost. -/
theorem mintedBy_eq_due (schedule : CoinbaseSchedule) (first : Nat) (sortitions : List Nat)
    (hincreasing : (first :: sortitions).IsChain (· < ·))
    (hfits : (first :: sortitions).IsChain fun previous sortition =>
      ∑ height ∈ Ioc previous sortition, (schedule.emissionAt height + schedule.initialMiningBonus)
        < 2 ^ 128) :
    schedule.mintedBy first sortitions
      = ∑ height ∈ Ioc first ((first :: sortitions).getLast (by simp)),
        (schedule.emissionAt height + schedule.initialMiningBonus) := by
  induction sortitions generalizing first with
  | nil => simp [mintedBy]
  | cons sortition rest ih =>
    obtain ⟨hlt, hrest⟩ := List.isChain_cons_cons.1 hincreasing
    obtain ⟨hfit, hfits⟩ := List.isChain_cons_cons.1 hfits
    rw [mintedBy, mintedAt_eq hlt hfit, ih sortition hrest hfits]
    simp only [List.getLast_cons_cons]
    exact dueWithin_add hlt.le (le_getLast hrest)

/-- Across a gap of two empty burn blocks and the boundary of an emission interval. -/
theorem mintedBy_eq_due_boundary :
    mintedBy ⟨false, 0, 20400000⟩ 77775 [77778, 77779]
      = 1000000000 + 3 * 500000000 + 4 * 20400000 := by
  rw [mintedBy_eq_due ⟨false, 0, 20400000⟩ 77775 [77778, 77779] (by decide) (by decide)]
  decide

end NanoStacks.Chain
