import Mathlib.Order.Lattice
import Mathlib.Data.List.Pairwise
import Mathlib.Data.List.DropRight
import Mathlib.Tactic.Common

/-!
# Ordered maps

A finite map kept as its entries in strictly ascending order of key. The order is a field of the
structure, so two maps that answer every key alike are the same map (`OrdMap.ext_get`), and a map
can be listed, cut and written down in the order of its keys.
-/

namespace NanoStacks

open List

universe u v

/-- A finite map from `K` to `V`, listed in ascending order of key. -/
structure OrdMap (K : Type u) (V : Type v) [LinearOrder K] where
  entries : List (K × V)
  sorted : entries.Pairwise fun a b => a.1 < b.1

namespace OrdMap

variable {K : Type u} {V : Type v} [LinearOrder K]

instance [DecidableEq V] : DecidableEq (OrdMap K V) := fun m m' =>
  decidable_of_iff (m.entries = m'.entries) (by cases m; cases m'; simp)

def empty : OrdMap K V := ⟨[], List.Pairwise.nil⟩

def getEntry (k : K) : List (K × V) → Option V
  | [] => none
  | (k', v) :: rest => if k = k' then some v else getEntry k rest

/-- The value of a key. -/
def get (m : OrdMap K V) (k : K) : Option V := getEntry k m.entries

def insertEntry (k : K) (v : V) : List (K × V) → List (K × V)
  | [] => [(k, v)]
  | (k', v') :: rest =>
    if k < k' then (k, v) :: (k', v') :: rest
    else if k = k' then (k, v) :: rest
    else (k', v') :: insertEntry k v rest

variable {k : K} {v : V} {l : List (K × V)} {e : K × V}

theorem mem_insertEntry (h : e ∈ insertEntry k v l) : e = (k, v) ∨ e ∈ l := by
  induction l with
  | nil => exact .inl (mem_singleton.1 h)
  | cons head rest ih =>
    obtain ⟨k', v'⟩ := head
    unfold insertEntry at h
    split_ifs at h with hlt heq
    · exact mem_cons.1 h
    · rcases mem_cons.1 h with h | h
      · exact .inl h
      · exact .inr (mem_cons_of_mem _ h)
    · rcases mem_cons.1 h with h | h
      · exact .inr (h ▸ mem_cons_self)
      · exact (ih h).imp_right (mem_cons_of_mem _)

theorem insertEntry_sorted (k : K) (v : V) (h : l.Pairwise fun a b => a.1 < b.1) :
    (insertEntry k v l).Pairwise fun a b => a.1 < b.1 := by
  induction l with
  | nil => exact pairwise_singleton _ _
  | cons head rest ih =>
    obtain ⟨k', v'⟩ := head
    rw [pairwise_cons] at h
    unfold insertEntry
    split_ifs with hlt heq
    · refine pairwise_cons.2 ⟨fun e he => ?_, pairwise_cons.2 h⟩
      rcases mem_cons.1 he with rfl | he
      · exact hlt
      · exact hlt.trans (h.1 e he)
    · exact pairwise_cons.2 ⟨heq ▸ h.1, h.2⟩
    · refine pairwise_cons.2 ⟨fun e he => ?_, ih h.2⟩
      rcases mem_insertEntry he with rfl | he
      · exact lt_of_le_of_ne (not_lt.1 hlt) (Ne.symm heq)
      · exact h.1 e he

/-- Bind a key, replacing the value it had. -/
def insert (m : OrdMap K V) (k : K) (v : V) : OrdMap K V :=
  ⟨insertEntry k v m.entries, insertEntry_sorted k v m.sorted⟩

/-- Keep the entries whose key passes a test. -/
def retain (m : OrdMap K V) (p : K → Bool) : OrdMap K V :=
  ⟨m.entries.filter fun e => p e.1, m.sorted.filter _⟩

/-- Bind a key only if it is not bound yet. -/
def insertNew (m : OrdMap K V) (k : K) (v : V) : OrdMap K V :=
  if (m.get k).isSome then m else m.insert k v

@[simp] theorem get_empty (k : K) : (empty : OrdMap K V).get k = none := rfl

theorem getEntry_insertEntry (k k' : K) (v : V) (l : List (K × V)) :
    getEntry k' (insertEntry k v l) = if k' = k then some v else getEntry k' l := by
  induction l with
  | nil => rfl
  | cons head rest ih =>
    obtain ⟨k₁, v₁⟩ := head
    unfold insertEntry
    by_cases hlt : k < k₁
    · rw [if_pos hlt, getEntry]
    · rw [if_neg hlt]
      by_cases heq : k = k₁
      · subst heq
        rw [if_pos rfl, getEntry, getEntry]
        split_ifs <;> rfl
      · rw [if_neg heq, getEntry, ih, getEntry]
        by_cases hk : k' = k
        · have hne : ¬k' = k₁ := hk ▸ heq
          rw [if_neg hne, if_pos hk, if_pos hk]
        · rw [if_neg hk, if_neg hk]

@[simp] theorem get_insert (m : OrdMap K V) (k k' : K) (v : V) :
    (m.insert k v).get k' = if k' = k then some v else m.get k' :=
  getEntry_insertEntry k k' v m.entries

theorem get_insertNew (m : OrdMap K V) (k k' : K) (v : V) :
    (m.insertNew k v).get k' = if m.get k = none ∧ k' = k then some v else m.get k' := by
  unfold insertNew
  cases hget : m.get k with
  | none => simp
  | some old => simp

theorem getEntry_eq_none (h : ∀ e ∈ l, e.1 ≠ k) : getEntry k l = none := by
  induction l with
  | nil => rfl
  | cons head rest ih =>
    rw [getEntry, if_neg (h head mem_cons_self).symm]
    exact ih fun e he => h e (mem_cons_of_mem _ he)

theorem getEntry_filter (p : K → Bool) (k : K) (l : List (K × V)) :
    getEntry k (l.filter fun e => p e.1) = if p k then getEntry k l else none := by
  induction l with
  | nil => simp [getEntry]
  | cons head rest ih =>
    obtain ⟨k', v'⟩ := head
    by_cases hp : p k' = true
    · rw [filter_cons, if_pos hp, getEntry, ih, getEntry]
      by_cases hk : k = k'
      · subst hk
        simp [hp]
      · simp [hk]
    · rw [filter_cons, if_neg hp, ih, getEntry]
      by_cases hk : k = k'
      · subst hk
        simp [hp]
      · simp [hk]

@[simp] theorem get_retain (m : OrdMap K V) (p : K → Bool) (k : K) :
    (m.retain p).get k = if p k then m.get k else none :=
  getEntry_filter p k m.entries

theorem getEntry_eq_some (h : l.Pairwise fun a b => a.1 < b.1) : getEntry k l = some v ↔ (k, v) ∈ l := by
  induction l with
  | nil => simp [getEntry]
  | cons head rest ih =>
    obtain ⟨k', v'⟩ := head
    rw [pairwise_cons] at h
    rw [getEntry, mem_cons, Prod.mk.injEq]
    by_cases hk : k = k'
    · subst hk
      have hnot : (k, v) ∉ rest := fun hmem => lt_irrefl k (h.1 (k, v) hmem)
      simp [hnot, eq_comm]
    · rw [if_neg hk, ih h.2]
      simp [hk]

theorem get_eq_some (m : OrdMap K V) : m.get k = some v ↔ (k, v) ∈ m.entries :=
  getEntry_eq_some m.sorted

theorem nodup (m : OrdMap K V) : m.entries.Nodup :=
  m.sorted.imp fun hlt => ne_of_apply_ne Prod.fst hlt.ne

theorem entries_perm_iff {m m' : OrdMap K V} : m.entries.Perm m'.entries ↔ m = m' := by
  constructor
  · intro h
    have heq : m.entries = m'.entries :=
      h.eq_of_pairwise (fun a b _ _ hab hba => absurd (hab.trans hba) (lt_irrefl _))
        m.sorted m'.sorted
    cases m
    cases m'
    simpa using heq
  · rintro rfl
    exact .refl _

/-- Maps that answer every key alike are equal: both list the same entries, in the same order. -/
theorem ext_get {m m' : OrdMap K V} (h : ∀ k, m.get k = m'.get k) : m = m' := by
  refine entries_perm_iff.1 ((perm_ext_iff_of_nodup m.nodup m'.nodup).2 ?_)
  rintro ⟨k, v⟩
  rw [← m.get_eq_some, ← m'.get_eq_some, h k]

/-! ## Many bindings at once -/

/-- Bind every key of a list, in its order. -/
def insertAll (m : OrdMap K V) (entries : List (K × V)) : OrdMap K V :=
  entries.foldl (fun m e => m.insert e.1 e.2) m

theorem get_insertAll (m : OrdMap K V) {entries : List (K × V)}
    (h : entries.Pairwise fun a b => a.1 < b.1) (k : K) :
    (m.insertAll entries).get k = (getEntry k entries).or (m.get k) := by
  induction entries generalizing m with
  | nil => rfl
  | cons head rest ih =>
    obtain ⟨k', v'⟩ := head
    rw [pairwise_cons] at h
    show ((m.insert k' v').insertAll rest).get k = _
    rw [ih _ h.2, get_insert, getEntry]
    by_cases hk : k = k'
    · have hrest : getEntry k rest = none :=
        getEntry_eq_none fun e he => hk ▸ (h.1 e he).ne'
      rw [if_pos hk, if_pos hk, hrest]
      rfl
    · rw [if_neg hk, if_neg hk]

/-! ## The entry at or below a key -/

/-- The last entry whose key is at most the given one. -/
def floorEntry (m : OrdMap K V) (k : K) : Option (K × V) := (m.entries.filter (·.1 ≤ k)).getLast?

theorem getLast?_eq_some_of_sorted (h : l.Pairwise fun a b => a.1 < b.1) :
    l.getLast? = some e ↔ e ∈ l ∧ ∀ e' ∈ l, e'.1 ≤ e.1 := by
  rw [getLast?_eq_some_iff]
  constructor
  · rintro ⟨front, rfl⟩
    rw [pairwise_append] at h
    refine ⟨by simp, fun e' he' => ?_⟩
    rcases mem_append.1 he' with he' | he'
    · exact (h.2.2 e' he' e (by simp)).le
    · rw [mem_singleton.1 he']
  · rintro ⟨hmem, hmax⟩
    obtain ⟨front, back, rfl⟩ := append_of_mem hmem
    cases back with
    | nil => exact ⟨front, rfl⟩
    | cons next back =>
      rw [pairwise_append, pairwise_cons] at h
      have hlt := h.2.1.1 next mem_cons_self
      have hle := hmax next (by simp)
      exact absurd hlt (not_lt.2 hle)

theorem floorEntry_eq_some (m : OrdMap K V) :
    m.floorEntry k = some e ↔
      e ∈ m.entries ∧ e.1 ≤ k ∧ ∀ e' ∈ m.entries, e'.1 ≤ k → e'.1 ≤ e.1 := by
  rw [floorEntry, getLast?_eq_some_of_sorted (m.sorted.filter _)]
  simp only [mem_filter, decide_eq_true_eq, and_imp, and_assoc]

theorem floorEntry_eq_none (m : OrdMap K V) :
    m.floorEntry k = none ↔ ∀ e ∈ m.entries, ¬e.1 ≤ k := by
  rw [floorEntry, getLast?_eq_none_iff, filter_eq_nil_iff]
  simp only [decide_eq_true_eq]

/-! ## Cutting a map -/

/-- The greatest key. -/
def lastKey? (m : OrdMap K V) : Option K := m.entries.getLast?.map (·.1)

/-- Drop the least keys until at most `n` are left. -/
def keepNewest (m : OrdMap K V) (n : Nat) : OrdMap K V :=
  ⟨m.entries.rtake n, m.sorted.sublist (List.drop_sublist _ _)⟩

theorem keepNewest_sublist (m : OrdMap K V) (n : Nat) :
    (m.keepNewest n).entries.Sublist m.entries :=
  drop_sublist _ _

theorem keepNewest_of_length_le (m : OrdMap K V) {n : Nat} (h : m.entries.length ≤ n) :
    m.keepNewest n = m := by
  have hall : m.entries.rtake n = m.entries := by
    rw [rtake, Nat.sub_eq_zero_of_le h, drop_zero]
  cases m
  simp only [keepNewest, OrdMap.mk.injEq] at hall ⊢
  exact hall

theorem length_keepNewest (m : OrdMap K V) (n : Nat) :
    (m.keepNewest n).entries.length = min n m.entries.length := by
  show (m.entries.drop (m.entries.length - n)).length = _
  rw [length_drop]
  omega

variable {p : K → Bool}

section

variable (m : OrdMap K V)

include m

theorem retain_insert_of_not (h : p k = false) (v : V) : (m.insert k v).retain p = m.retain p := by
  refine ext_get fun k' => ?_
  rw [get_retain, get_retain, get_insert]
  by_cases hk : k' = k
  · rw [hk, h]
    rfl
  · rw [if_neg hk]

theorem retain_of_forall (h : ∀ e ∈ m.entries, p e.1 = true) : m.retain p = m := by
  have hall : m.entries.filter (fun e => p e.1) = m.entries := filter_eq_self.2 h
  cases m
  simp only [retain, OrdMap.mk.injEq] at hall ⊢
  exact hall

theorem retain_eq_empty (h : ∀ e ∈ m.entries, p e.1 = false) : m.retain p = empty := by
  have hnone : m.entries.filter (fun e => p e.1) = [] :=
    filter_eq_nil_iff.2 fun e he => by simp [h e he]
  simp only [retain, empty, OrdMap.mk.injEq]
  exact hnone

theorem mem_insert_entries (h : e ∈ (m.insert k v).entries) : e = (k, v) ∨ e ∈ m.entries :=
  mem_insertEntry h

omit m in
theorem length_le_insertEntry (k : K) (v : V) (l : List (K × V)) :
    l.length ≤ (insertEntry k v l).length := by
  induction l with
  | nil => exact Nat.zero_le _
  | cons head rest ih =>
    obtain ⟨k', v'⟩ := head
    unfold insertEntry
    split_ifs
    · exact Nat.le_succ _
    · exact le_rfl
    · exact Nat.succ_le_succ ih

theorem length_le_insert (k : K) (v : V) : m.entries.length ≤ (m.insert k v).entries.length :=
  length_le_insertEntry k v m.entries

theorem mem_insertNew_entries (h : e ∈ (m.insertNew k v).entries) : e = (k, v) ∨ e ∈ m.entries := by
  unfold insertNew at h
  split_ifs at h
  · exact .inr h
  · exact m.mem_insert_entries h

theorem mem_retain_entries : e ∈ (m.retain p).entries ↔ e ∈ m.entries ∧ p e.1 = true :=
  mem_filter

omit m in
theorem insertEntry_of_forall_lt (h : ∀ e ∈ l, e.1 < k) (v : V) :
    insertEntry k v l = l ++ [(k, v)] := by
  induction l with
  | nil => rfl
  | cons head rest ih =>
    have hlt := h head mem_cons_self
    rw [insertEntry, if_neg hlt.not_gt, if_neg hlt.ne', ih fun e he => h e (mem_cons_of_mem _ he)]
    rfl

theorem get_keepNewest {n : Nat} (h : (m.retain (k < ·)).entries.length < n) :
    (m.keepNewest n).get k = m.get k := by
  obtain ⟨l, hsorted⟩ := m
  show getEntry k (l.drop (l.length - n)) = getEntry k l
  replace h : (l.filter fun e => k < e.1).length < n := h
  induction l with
  | nil => rw [drop_nil]
  | cons head rest ih =>
    obtain ⟨hhead, hrest⟩ := pairwise_cons.1 hsorted
    by_cases hshort : (head :: rest).length ≤ n
    · rw [Nat.sub_eq_zero_of_le hshort, drop_zero]
    · rw [length_cons] at hshort ⊢
      have hne : k ≠ head.1 := by
        -- the entries after its own would be too many
        intro heq
        rw [filter_cons_of_neg (by simp [heq]), filter_eq_self.2 fun e he => by
          simpa [heq] using hhead e he] at h
        omega
      have hfewer : (rest.filter fun e => k < e.1).length < n :=
        ((sublist_cons_self head rest).filter _).length_le.trans_lt h
      rw [Nat.succ_sub (by omega), drop_succ_cons, ih hrest hfewer, getEntry, if_neg hne]

theorem keepNewest_insert_keepNewest (h : ∀ e ∈ m.entries, e.1 < k) (v : V) (n : Nat) :
    ((m.keepNewest n).insert k v).keepNewest n = (m.insert k v).keepNewest n := by
  have hkept : ∀ e ∈ m.entries.drop (m.entries.length - n), e.1 < k :=
    fun e he => h e (mem_of_mem_drop he)
  have hentries : (insertEntry k v (m.entries.drop (m.entries.length - n))).drop
        ((insertEntry k v (m.entries.drop (m.entries.length - n))).length - n)
      = (insertEntry k v m.entries).drop ((insertEntry k v m.entries).length - n) := by
    rw [insertEntry_of_forall_lt hkept, insertEntry_of_forall_lt h,
      ← drop_append_of_le_length (Nat.sub_le _ _), drop_drop]
    congr 1
    simp only [length_drop, length_append, length_cons, length_nil]
    omega
  simp only [keepNewest, insert, rtake, OrdMap.mk.injEq]
  exact hentries

/-- Binding greater and greater keys with pruning after each is pruning once at the end. -/
theorem foldl_insert_keepNewest {entries : List (K × V)} (n : Nat)
    (hsorted : (m.entries ++ entries).Pairwise fun a b => a.1 < b.1) :
    entries.foldl (fun m e => (m.insert e.1 e.2).keepNewest n) (m.keepNewest n)
      = (m.insertAll entries).keepNewest n := by
  induction entries generalizing m with
  | nil => rfl
  | cons e rest ih =>
    have hlt : ∀ e' ∈ m.entries, e'.1 < e.1 :=
      fun e' he' => (pairwise_append.1 hsorted).2.2 e' he' e mem_cons_self
    have hmore : ((m.insert e.1 e.2).entries ++ rest).Pairwise fun a b => a.1 < b.1 := by
      show (insertEntry e.1 e.2 m.entries ++ rest).Pairwise _
      rw [insertEntry_of_forall_lt hlt, append_assoc]
      exact hsorted
    rw [foldl_cons, keepNewest_insert_keepNewest m hlt, ih _ hmore]
    rfl

theorem insertAll_empty_entries : empty.insertAll m.entries = m := by
  refine ext_get fun k => ?_
  rw [get_insertAll _ m.sorted, get_empty, Option.or_none]
  rfl

/-! ## The entries as a bag -/

omit m in
theorem insertEntry_perm (h : getEntry k l = none) (v : V) :
    (insertEntry k v l).Perm ((k, v) :: l) := by
  induction l with
  | nil => exact .refl _
  | cons head rest ih =>
    obtain ⟨k', v'⟩ := head
    rw [getEntry] at h
    split_ifs at h with hk
    rw [insertEntry, if_neg hk]
    split_ifs
    · exact .refl _
    · exact ((ih h).cons _).trans (.swap ..)

theorem insert_perm (h : m.get k = none) (v : V) :
    (m.insert k v).entries.Perm ((k, v) :: m.entries) :=
  insertEntry_perm h v

theorem retain_ne_entries [DecidableEq V] (h : m.get k = some v) :
    (m.retain (· ≠ k)).entries = m.entries.erase (k, v) := by
  show m.entries.filter (fun e => decide (e.1 ≠ k)) = _
  rw [m.nodup.erase_eq_filter]
  refine filter_congr fun e he => ?_
  -- the key determines the entry
  have hvalue : e.1 = k → e = (k, v) := by
    rintro rfl
    have hget := (m.get_eq_some (k := e.1) (v := e.2)).2 he
    exact Prod.ext rfl (Option.some.inj (hget.symm.trans h))
  by_cases hk : e.1 = k
  · simp [hvalue hk]
  · have hne : e ≠ (k, v) := fun heq => hk (congrArg Prod.fst heq)
    simp [hk, hne]

end

end OrdMap

end NanoStacks
