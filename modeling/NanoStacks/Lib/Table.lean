import Mathlib.Data.List.AList
import Mathlib.Algebra.BigOperators.Group.List.Basic
import Mathlib.Algebra.GroupWithZero.Nat
import Mathlib.Tactic.Common

/-!
# Tables and their indexes

A hash map is an association list without repeated keys, Mathlib's `AList`. Two things are said about
tables here. The total of a weight over the values moves with the entries (`weigh_insert`,
`weigh_erase`), so that a counter kept beside a table can be compared with it. And a second table may
answer, for a key read off the values, which entry has it: `Indexes key records index` is that the two
tables agree in both directions, and it is kept by taking an entry and its key out together
(`Indexes.erase`) and by putting in an entry whose key is free (`Indexes.insert`).

Rows of a database are a plain list with a unique key (`find?_key_eq_some`).
-/

namespace NanoStacks

open List

universe u v w

theorem find?_key_eq_some {K : Type u} {Row : Type v} [DecidableEq K] {key : Row → K}
    {rows : List Row} (hnodup : (rows.map key).Nodup) {k : K} {row : Row} :
    rows.find? (key · = k) = some row ↔ row ∈ rows ∧ key row = k := by
  constructor
  · intro hfound
    exact ⟨mem_of_find?_eq_some hfound, by simpa using find?_some hfound⟩
  · rintro ⟨hmem, rfl⟩
    cases hfound : rows.find? (key · = key row) with
    | none => simpa using find?_eq_none.1 hfound row hmem
    | some found =>
      have hkey : key found = key row := by simpa using find?_some hfound
      rw [inj_on_of_nodup_map hnodup (mem_of_find?_eq_some hfound) hmem hkey]

abbrev Table (K : Type u) (V : Type v) := AList fun _ : K => V

namespace Table

variable {K : Type u} {V : Type v} {L : Type w}

def values (m : Table K V) : List V := m.entries.map fun entry => entry.2

def size (m : Table K V) : Nat := m.entries.length

/-- The total of a weight over the values of a table. -/
def weigh (f : V → Nat) (m : Table K V) : Nat := (m.values.map f).sum

section Lookup

variable [DecidableEq K]

variable {m : Table K V} {k : K} {v : V}

theorem mem_entries : (⟨k, v⟩ : (_ : K) × V) ∈ m.entries ↔ m.lookup k = some v :=
  (mem_dlookup_iff m.nodupKeys).symm

theorem mem_values : v ∈ m.values ↔ ∃ k, m.lookup k = some v := by
  rw [values, mem_map]
  constructor
  · rintro ⟨⟨k, v⟩, hmem, rfl⟩
    exact ⟨k, mem_entries.1 hmem⟩
  · rintro ⟨k, h⟩
    exact ⟨⟨k, v⟩, mem_entries.2 h, rfl⟩

theorem lookup_erase_iff {k' : K} :
    (m.erase k).lookup k' = some v ↔ k' ≠ k ∧ m.lookup k' = some v := by
  by_cases h : k' = k
  · subst h
    simp
  · simp [AList.lookup_erase_ne h, h]

theorem lookup_insert_iff {k' : K} {v' : V} :
    (m.insert k v).lookup k' = some v' ↔ (k' = k ∧ v = v') ∨ (k' ≠ k ∧ m.lookup k' = some v') := by
  by_cases h : k' = k
  · subst h
    simp
  · simp [AList.lookup_insert_ne h, h]

theorem notMem_of_lookup_eq_none (h : m.lookup k = none) : k ∉ m :=
  AList.lookup_eq_none.1 h

/-! ## Totals -/

theorem entries_perm (h : m.lookup k = some v) :
    m.entries.Perm (⟨k, v⟩ :: (m.erase k).entries) := by
  have hkey : k ∈ m.entries.keys := AList.lookup_isSome.1 (by rw [h]; rfl)
  obtain ⟨v', front, back, -, hentries, herase⟩ := exists_of_kerase hkey
  have hmem : (⟨k, v'⟩ : (_ : K) × V) ∈ m.entries := by
    rw [hentries]
    exact mem_append_right _ mem_cons_self
  obtain rfl : v' = v := Option.some.inj ((mem_entries.1 hmem).symm.trans h)
  have herase' : (m.erase k).entries = front ++ back := herase
  rw [herase', hentries]
  exact perm_middle

theorem size_erase (h : m.lookup k = some v) : size (m.erase k) + 1 = size m :=
  (entries_perm h).length_eq.symm

theorem weigh_erase (f : V → Nat) (h : m.lookup k = some v) :
    f v + weigh f (m.erase k) = weigh f m := by
  have hperm := ((entries_perm h).map fun entry => entry.2).map f
  exact hperm.sum_eq.symm

/-- A table is what is left of it without some keys, and what it binds these to. -/
theorem values_perm {m' : Table K V} {ks : List K} {vs : List V} (hnodup : ks.Nodup)
    (hks : ks.map m.lookup = vs.map some)
    (h : ∀ k v, m'.lookup k = some v ↔ k ∉ ks ∧ m.lookup k = some v) :
    m.values.Perm (vs ++ m'.values) := by
  induction ks generalizing m vs with
  | nil =>
    obtain rfl : vs = [] := by simpa using hks.symm
    refine Perm.map _ ((perm_ext_iff_of_nodup m.nodupKeys.nodup m'.nodupKeys.nodup).2 ?_)
    rintro ⟨k, v⟩
    rw [mem_entries, mem_entries, h]
    simp
  | cons k ks ih =>
    obtain _ | ⟨v, vs⟩ := vs
    · exact absurd hks nofun
    rw [map_cons, map_cons, cons.injEq] at hks
    obtain ⟨hnot, hnodup⟩ := nodup_cons.1 hnodup
    refine ((entries_perm hks.1).map _).trans (.cons v (ih hnodup ?_ fun k' v' => ?_))
    · rw [← hks.2]
      exact map_congr_left fun k' hk' => AList.lookup_erase_ne (ne_of_mem_of_not_mem hk' hnot)
    · rw [h, lookup_erase_iff, mem_cons, not_or, and_assoc, and_left_comm]

theorem size_insert (h : m.lookup k = none) (v : V) : size (m.insert k v) = size m + 1 := by
  rw [size, AList.entries_insert_of_notMem (notMem_of_lookup_eq_none h)]
  rfl

theorem weigh_insert (f : V → Nat) (h : m.lookup k = none) (v : V) :
    weigh f (m.insert k v) = f v + weigh f m := by
  rw [weigh, values, AList.entries_insert_of_notMem (notMem_of_lookup_eq_none h)]
  rfl

theorem weigh_congr {f g : V → Nat} (h : ∀ k v, m.lookup k = some v → f v = g v) :
    weigh f m = weigh g m := by
  refine congrArg sum (map_congr_left fun v hv => ?_)
  obtain ⟨k, hk⟩ := mem_values.1 hv
  exact h k v hk

end Lookup

/-! ## Indexes -/

variable [DecidableEq L]

/-- The index answers a key with the one entry that has it. -/
def Indexes [DecidableEq K] (key : V → Option L) (records : Table K V) (index : Table L K) : Prop :=
  ∀ l k, index.lookup l = some k ↔ ∃ v, records.lookup k = some v ∧ key v = some l

/-- Take a key out, if there is one. -/
def eraseKey (index : Table L K) : Option L → Table L K
  | none => index
  | some l => index.erase l

/-- Bind a key, if there is one. -/
def insertKey (index : Table L K) (k : K) : Option L → Table L K
  | none => index
  | some l => index.insert l k

theorem lookup_eraseKey_iff {index : Table L K} {key : Option L} {l : L} {k : K} :
    (eraseKey index key).lookup l = some k ↔ key ≠ some l ∧ index.lookup l = some k := by
  cases key with
  | none => simp [eraseKey]
  | some l' =>
    rw [eraseKey, lookup_erase_iff]
    exact and_congr_left fun _ => by simp [eq_comm]

theorem lookup_insertKey_iff {index : Table L K} {key : Option L} {l : L} {k k' : K} :
    (insertKey index k key).lookup l = some k' ↔
      (key = some l ∧ k = k') ∨ (key ≠ some l ∧ index.lookup l = some k') := by
  cases key with
  | none => simp [insertKey]
  | some l' =>
    rw [insertKey, lookup_insert_iff]
    simp [eq_comm]

namespace Indexes

variable [DecidableEq K] {key : V → Option L} {records : Table K V} {index : Table L K}

theorem empty : Indexes key (∅ : Table K V) (∅ : Table L K) := by
  intro l k
  constructor
  · intro h
    exact absurd h (by simp [AList.lookup])
  · rintro ⟨v, h, -⟩
    exact absurd h (by simp [AList.lookup])

theorem congr {key' : V → Option L} (h : Indexes key records index)
    (hkeys : ∀ k v, records.lookup k = some v → key v = key' v) : Indexes key' records index := by
  intro l k
  rw [h l k]
  refine exists_congr fun v => and_congr_right fun hv => ?_
  rw [hkeys k v hv]

variable {k : K} {v : V}

section

variable (h : Indexes key records index)

include h

theorem eq_of_key_eq {k' : K} {v' : V} {l : L} (hv : records.lookup k = some v)
    (hv' : records.lookup k' = some v') (hl : key v = some l) (hl' : key v' = some l) : k = k' := by
  have hk := (h l k).2 ⟨v, hv, hl⟩
  have hk' := (h l k').2 ⟨v', hv', hl'⟩
  exact Option.some.inj (hk.symm.trans hk')

theorem erase (hv : records.lookup k = some v) :
    Indexes key (records.erase k) (eraseKey index (key v)) := by
  intro l k'
  rw [lookup_eraseKey_iff, h l k']
  constructor
  · rintro ⟨hne, v', hv', hl⟩
    refine ⟨v', lookup_erase_iff.2 ⟨?_, hv'⟩, hl⟩
    rintro rfl
    obtain rfl : v = v' := Option.some.inj (hv.symm.trans hv')
    exact hne hl
  · rintro ⟨v', hv', hl⟩
    obtain ⟨hne, hv'⟩ := lookup_erase_iff.1 hv'
    exact ⟨fun hl' => hne (h.eq_of_key_eq hv' hv hl hl'), v', hv', hl⟩

theorem insert (hk : records.lookup k = none)
    (hfree : ∀ l, key v = some l → index.lookup l = none) :
    Indexes key (records.insert k v) (insertKey index k (key v)) := by
  intro l k'
  rw [lookup_insertKey_iff]
  constructor
  · rintro (⟨hl, rfl⟩ | ⟨-, hl⟩)
    · exact ⟨v, AList.lookup_insert _, hl⟩
    · obtain ⟨v', hv', hl⟩ := (h l k').1 hl
      refine ⟨v', lookup_insert_iff.2 (.inr ⟨?_, hv'⟩), hl⟩
      rintro rfl
      exact absurd (hk.symm.trans hv') nofun
  · rintro ⟨v', hv', hl⟩
    rcases lookup_insert_iff.1 hv' with ⟨rfl, rfl⟩ | ⟨hne, hv'⟩
    · exact .inl ⟨hl, rfl⟩
    · have hl' := (h l k').2 ⟨v', hv', hl⟩
      refine .inr ⟨fun hkey => ?_, hl'⟩
      exact absurd ((hfree l hkey).symm.trans hl') nofun

end

end Indexes

end Table

end NanoStacks
