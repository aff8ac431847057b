import Mathlib.Data.List.DropRight
import Mathlib.Tactic.Common

/-!
# Suffixes

A bounded history is a suffix of the whole one. What is read off its end is what would be read off
the end of the whole (`rtake_of_suffix`), and taking entries back off the end keeps it a suffix
(`suffix_rdrop`).
-/

namespace NanoStacks.Suffix

open List

universe u

variable {α : Type u} {l x y : List α}

theorem length_rtake (l : List α) (n : Nat) : (l.rtake n).length = min n l.length := by
  rw [rtake, length_drop]
  omega

theorem rtake_suffix (l : List α) (n : Nat) : l.rtake n <:+ l := List.drop_suffix _ _

theorem rtake_of_length_le {n : Nat} (h : l.length ≤ n) : l.rtake n = l := by
  rw [rtake, Nat.sub_eq_zero_of_le h, drop_zero]

theorem rtake_of_suffix (h : x <:+ l) (n : Nat) : x.rtake n = l.rtake (min n x.length) := by
  obtain ⟨t, rfl⟩ := h
  have hlen : (t ++ x).length - min n x.length = t.length + (x.length - n) := by
    rw [length_append]
    omega
  rw [rtake, rtake, hlen, drop_append]
  simp

theorem concat_eq_cons_iff {a b : α} : l ++ [b] = a :: l ↔ ∀ c ∈ a :: l, c = b := by
  induction l generalizing a with
  | nil => simp [eq_comm]
  | cons c l ih =>
    rw [cons_append, cons.injEq, ih]
    grind

variable {n : Nat}

theorem rtake_eq_rtake (hx : x <:+ l) (hy : y <:+ l) (h : min n x.length = min n y.length) :
    x.rtake n = y.rtake n := by
  rw [rtake_of_suffix hx, rtake_of_suffix hy, h]

theorem rtake_rtake_of_le (l : List α) {m : Nat} (h : m ≤ n) : (l.rtake n).rtake m = l.rtake m := by
  rw [rtake_of_suffix (rtake_suffix l n), rtake_of_suffix (suffix_refl l) m, length_rtake]
  congr 1
  omega

theorem rtake_suffix_rtake (h : x <:+ l) (n : Nat) : x.rtake n <:+ l.rtake n := by
  rw [rtake_of_suffix h, ← rtake_rtake_of_le l (Nat.min_le_left n x.length)]
  exact rtake_suffix _ _

theorem rtake_append_of_le (x : List α) {y : List α} (h : n ≤ y.length) :
    (x ++ y).rtake n = y.rtake n := by
  rw [rtake_of_suffix (suffix_append x y), Nat.min_eq_left h]

theorem rtake_append_of_ge (x : List α) {y : List α} (h : y.length ≤ n) :
    (x ++ y).rtake n = x.rtake (n - y.length) ++ y := by
  have hlen : (x ++ y).length - n = x.length - (n - y.length) := by
    rw [length_append]
    omega
  rw [rtake, rtake, hlen, drop_append_of_le_length (Nat.sub_le _ _)]

theorem eq_rtake_of_suffix (h : x <:+ l) : x = l.rtake x.length := by
  have hall := rtake_of_suffix h x.length
  rwa [Nat.min_self, rtake_of_length_le le_rfl] at hall

theorem rtake_append_rtake (l y : List α) (n : Nat) : (l.rtake n ++ y).rtake n = (l ++ y).rtake n := by
  apply rtake_eq_rtake (suffix_append_self_iff.2 (rtake_suffix l n)) (suffix_refl _)
  rw [length_append, length_append, length_rtake]
  omega

theorem append_rdrop (x y : List α) {d : Nat} (h : d ≤ y.length) :
    (x ++ y).rdrop d = x ++ y.rdrop d := by
  have hlen : (x ++ y).length - d = x.length + (y.length - d) := by
    rw [length_append]
    omega
  have hall : x.take (x.length + (y.length - d)) = x := take_of_length_le (by omega)
  rw [rdrop, rdrop, hlen, take_append, hall, Nat.add_sub_cancel_left]

theorem suffix_rdrop (h : x <:+ l) (d : Nat) : x.rdrop d <:+ l.rdrop d := by
  obtain ⟨t, rfl⟩ := h
  rcases Nat.le_total d x.length with hd | hd
  · exact ⟨t, (append_rdrop t x hd).symm⟩
  · have hnil : x.rdrop d = [] := by
      rw [rdrop, Nat.sub_eq_zero_of_le hd, take_zero]
    rw [hnil]
    exact nil_suffix

theorem getLast?_of_suffix (h : x <:+ l) (hx : x ≠ []) : x.getLast? = l.getLast? := by
  obtain ⟨t, rfl⟩ := h
  rw [getLast?_append_of_ne_nil t hx]

theorem getLast?_rtake (l : List α) (hn : 0 < n) : (l.rtake n).getLast? = l.getLast? := by
  rcases l.eq_nil_or_concat with rfl | ⟨front, last, hl⟩
  · simp
  · have hlength : 0 < l.length := by simp [hl]
    refine getLast?_of_suffix (rtake_suffix _ _) (ne_nil_of_length_pos ?_)
    rw [length_rtake]
    omega

/-- The longest suffix that passes a test, cut where the test first fails. -/
theorem rtakeWhile_append {p : α → Bool} (hy : ∀ a ∈ y, p a = true)
    (hx : ∀ a ∈ x.getLast?, p a = false) : (x ++ y).rtakeWhile p = y := by
  have hback : x.reverse.takeWhile p = [] := by
    rcases x.eq_nil_or_concat with rfl | ⟨front, last, rfl⟩
    · rfl
    · have hlast : p last = false := hx last (by simp)
      simp [hlast]
  rw [rtakeWhile, reverse_append, takeWhile_append_of_pos (by simpa using hy), hback,
    append_nil, reverse_reverse]

/-! ## Entries numbered one after the other -/

variable {f : α → Nat} {a : Nat}

section

variable (h : l.map f = List.range' a n)

include h

theorem filter_numbered (m : Nat) :
    l.filter (f · ≤ m) = l.take (m + 1 - a) ∧ l.filter (m < f ·) = l.drop (m + 1 - a) := by
  induction l generalizing a n with
  | nil => simp
  | cons head rest ih =>
    cases n with
    | zero => simp at h
    | succ n =>
      rw [map_cons, range'_succ, cons.injEq] at h
      obtain ⟨hhead, hrest⟩ := h
      obtain ⟨htake, hdrop⟩ := ih hrest
      by_cases hle : a ≤ m
      · rw [show m + 1 - a = m + 1 - (a + 1) + 1 by omega, take_succ_cons, drop_succ_cons, ← htake,
          ← hdrop]
        exact ⟨filter_cons_of_pos (by simpa [hhead] using hle),
          filter_cons_of_neg (by simpa [hhead] using hle)⟩
      · rw [show m + 1 - (a + 1) = 0 by omega] at htake hdrop
        rw [show m + 1 - a = 0 by omega, filter_cons_of_neg (by simpa [hhead] using hle),
          filter_cons_of_pos (by simpa [hhead] using hle), htake, hdrop]
        exact ⟨rfl, rfl⟩

theorem cut_numbered {m d : Nat} (hcut : min (m + 1 - a) n = n - d) :
    l.filter (f · ≤ m) = l.rdrop d ∧ l.filter (m < f ·) = l.rtake d := by
  have hlength : l.length = n := by
    rw [← length_map, h, length_range']
  rw [(filter_numbered h m).1, (filter_numbered h m).2, rdrop, rtake, hlength, ← hcut]
  rcases Nat.le_total (m + 1 - a) n with hle | hle
  · rw [Nat.min_eq_left hle]
    exact ⟨rfl, rfl⟩
  · rw [Nat.min_eq_right hle, take_of_length_le (hlength.le.trans hle),
      take_of_length_le hlength.le, drop_of_length_le (hlength.le.trans hle),
      drop_of_length_le hlength.le]
    exact ⟨rfl, rfl⟩

theorem head_numbered (hx : x <:+ l) (hne : x ≠ []) : f (x.head hne) + x.length = a + l.length := by
  obtain ⟨t, rfl⟩ := hx
  have hn : n = t.length + x.length := by
    have hlen := congrArg length h
    rw [length_map, length_append, length_range'] at hlen
    exact hlen.symm
  obtain ⟨first, rest, rfl⟩ := exists_cons_of_ne_nil hne
  have hfirst : ((t ++ first :: rest).map f)[t.length]? = some (f first) := by simp
  rw [h, getElem?_range' (by rw [hn, length_cons]; omega), Option.some.injEq] at hfirst
  rw [head_cons, ← hfirst, length_append]
  omega

end

end NanoStacks.Suffix
