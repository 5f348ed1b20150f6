import Mathlib.Data.List.Nodup

/-!
# Maps in the order of insertion

A `Map` of the source remembers the order its keys were first set in, and
setting a key again keeps its place.  An `OrderedMap` is the list of its
entries, with distinct keys by construction; `get_set` and `get_setAll` say what
a map holds key by key, and `mem_entries` that its entries are what it holds.
-/

/-- A map that remembers the order its keys were first set in. -/
structure OrderedMap (K V : Type*) where
  entries : List (K × V)
  nodup : (entries.map Prod.fst).Nodup

namespace OrderedMap

variable {K V : Type*}

/-- No entries. -/
def empty : OrderedMap K V := ⟨[], List.nodup_nil⟩

/-- The same keys with other values. -/
def mapValues {W : Type*} (f : K → V → W) (m : OrderedMap K V) : OrderedMap K W where
  entries := m.entries.map (fun entry => (entry.1, f entry.1 entry.2))
  nodup := by
    rw [List.map_map]
    exact m.nodup

variable {entries : List (K × V)}

/-- A key that stands once is looked up where it stands. -/
theorem lookup_of_mem [BEq K] [LawfulBEq K] (h : (entries.map Prod.fst).Nodup) {k : K} {v : V}
    (hmem : (k, v) ∈ entries) : entries.lookup k = some v := by
  induction entries with
  | nil => cases hmem
  | cons entry rest ih =>
    obtain ⟨key, value⟩ := entry
    rw [List.map_cons, List.nodup_cons] at h
    rcases List.mem_cons.mp hmem with heq | hmem
    · obtain ⟨rfl, rfl⟩ := Prod.mk.inj heq
      exact List.lookup_cons_self
    · have hne : k ≠ key := by
        intro heq
        exact h.1 (heq ▸ List.mem_map.mpr ⟨(k, v), hmem, rfl⟩)
      rw [List.lookup_cons, beq_false_of_ne hne]
      exact ih h.2 hmem

variable [DecidableEq K]

/-- Set a key in a list of entries: in its place, or at the end. -/
def setEntry (k : K) (v : V) : List (K × V) → List (K × V)
  | [] => [(k, v)]
  | entry :: rest => if entry.1 = k then (k, v) :: rest else entry :: setEntry k v rest

theorem setEntry_keys (k : K) (v : V) (entries : List (K × V)) :
    (setEntry k v entries).map Prod.fst =
      if k ∈ entries.map Prod.fst then entries.map Prod.fst else entries.map Prod.fst ++ [k] := by
  induction entries with
  | nil => simp [setEntry]
  | cons entry rest ih =>
    unfold setEntry
    by_cases h : entry.1 = k
    · simp [h]
    · rw [if_neg h, List.map_cons, ih]
      by_cases hmem : k ∈ rest.map Prod.fst
      · rw [if_pos hmem, List.map_cons, if_pos (List.mem_cons_of_mem _ hmem)]
      · have hnot : k ∉ (entry :: rest).map Prod.fst := by
          rw [List.map_cons, List.mem_cons, not_or]
          exact ⟨fun heq => h heq.symm, hmem⟩
        rw [if_neg hmem, if_neg hnot, List.map_cons, List.cons_append]

/-- `map.set(k, v)`. -/
def set (m : OrderedMap K V) (k : K) (v : V) : OrderedMap K V where
  entries := setEntry k v m.entries
  nodup := by
    rw [setEntry_keys]
    split
    · exact m.nodup
    · rename_i h
      exact List.nodup_append.mpr ⟨m.nodup, List.nodup_singleton k, by
        intro a ha b hb
        rw [List.mem_singleton.mp hb]
        exact fun heq => h (heq ▸ ha)⟩

/-- `map.get(k)`. -/
def get (m : OrderedMap K V) (k : K) : Option V := m.entries.lookup k

/-- `map.delete(k)`. -/
def delete (m : OrderedMap K V) (k : K) : OrderedMap K V where
  entries := m.entries.filter (fun entry => entry.1 ≠ k)
  nodup := m.nodup.sublist (List.filter_sublist.map Prod.fst)

/-- `map.keys()`. -/
def keys (m : OrderedMap K V) : List K := m.entries.map Prod.fst

/-- `map.values()`. -/
def values (m : OrderedMap K V) : List V := m.entries.map Prod.snd

/-- `map.has(k)`. -/
def has (m : OrderedMap K V) (k : K) : Bool := (m.get k).isSome

/-- Set each entry of a list in turn. -/
def setAll (m : OrderedMap K V) (entries : List (K × V)) : OrderedMap K V :=
  entries.foldl (fun m entry => m.set entry.1 entry.2) m

/-- `new Map(entries)`. -/
def ofList (entries : List (K × V)) : OrderedMap K V := setAll empty entries

@[simp] theorem get_empty (k : K) : (empty : OrderedMap K V).get k = none := rfl

theorem lookup_cons_eq (k key : K) (value : V) (rest : List (K × V)) :
    List.lookup k ((key, value) :: rest) = if k = key then some value else rest.lookup k := by
  rw [List.lookup_cons]
  by_cases h : k = key
  · simp [h]
  · simp [beq_false_of_ne h, h]

theorem lookup_setEntry (k k' : K) (v : V) (entries : List (K × V)) :
    (setEntry k v entries).lookup k' = if k' = k then some v else entries.lookup k' := by
  induction entries with
  | nil => rw [setEntry, lookup_cons_eq]
  | cons entry rest ih =>
    obtain ⟨key, value⟩ := entry
    unfold setEntry
    by_cases hkey : key = k
    · subst hkey
      rw [if_pos rfl, lookup_cons_eq, lookup_cons_eq]
      split
      · rfl
      · rfl
    · rw [if_neg hkey, lookup_cons_eq, lookup_cons_eq, ih]
      by_cases h : k' = key
      · subst h
        rw [if_pos rfl, if_neg hkey, if_pos rfl]
      · rw [if_neg h, if_neg h]

/-- **What a map holds once a key is set.** -/
theorem get_set (m : OrderedMap K V) (k k' : K) (v : V) :
    (m.set k v).get k' = if k' = k then some v else m.get k' :=
  lookup_setEntry k k' v m.entries

@[simp] theorem get_set_self (m : OrderedMap K V) (k : K) (v : V) :
    (m.set k v).get k = some v := by
  rw [get_set, if_pos rfl]

theorem get_set_ne (m : OrderedMap K V) {k k' : K} (v : V) (h : k' ≠ k) :
    (m.set k v).get k' = m.get k' := by
  rw [get_set, if_neg h]

/-- **What a map holds once a key is deleted.** -/
theorem get_delete (m : OrderedMap K V) (k k' : K) :
    (m.delete k).get k' = if k' = k then none else m.get k' := by
  obtain ⟨entries, nodup⟩ := m
  unfold get delete
  simp only
  clear nodup
  induction entries with
  | nil => simp
  | cons entry rest ih =>
    obtain ⟨key, value⟩ := entry
    by_cases hkey : key = k
    · rw [List.filter_cons_of_neg (by simpa using hkey), ih, lookup_cons_eq]
      by_cases h : k' = k
      · rw [if_pos h, if_pos h]
      · rw [if_neg h, if_neg h, if_neg (fun heq => h (heq.trans hkey))]
    · rw [List.filter_cons_of_pos (by simpa using hkey), lookup_cons_eq, lookup_cons_eq, ih]
      by_cases h : k' = key
      · subst h
        rw [if_pos rfl, if_neg hkey, if_pos rfl]
      · rw [if_neg h, if_neg h]

variable {m : OrderedMap K V}

/-- The entries of a map are what it holds. -/
theorem mem_entries {k : K} {v : V} : (k, v) ∈ m.entries ↔ m.get k = some v := by
  constructor
  · exact lookup_of_mem m.nodup
  · intro h
    obtain ⟨before, rest, heq, -⟩ := List.lookup_eq_some_iff.mp h
    rw [heq]
    exact List.mem_append_right _ List.mem_cons_self

theorem mem_keys {k : K} : k ∈ m.keys ↔ (m.get k).isSome := by
  rw [keys, List.mem_map]
  constructor
  · intro h
    obtain ⟨⟨key, value⟩, hmem, rfl⟩ := h
    rw [mem_entries.mp hmem]
    rfl
  · intro h
    obtain ⟨value, hget⟩ := Option.isSome_iff_exists.mp h
    exact ⟨(k, value), mem_entries.mpr hget, rfl⟩

theorem mem_values {v : V} : v ∈ m.values ↔ ∃ k, m.get k = some v := by
  rw [values, List.mem_map]
  constructor
  · intro h
    obtain ⟨⟨key, value⟩, hmem, rfl⟩ := h
    exact ⟨key, mem_entries.mp hmem⟩
  · intro h
    obtain ⟨k, hget⟩ := h
    exact ⟨(k, v), mem_entries.mpr hget, rfl⟩

theorem get_mapValues {W : Type*} (f : K → V → W) (m : OrderedMap K V) (k : K) :
    (m.mapValues f).get k = (m.get k).map (f k) := by
  obtain ⟨entries, nodup⟩ := m
  unfold get mapValues
  simp only
  clear nodup
  induction entries with
  | nil => rfl
  | cons entry rest ih =>
    obtain ⟨key, value⟩ := entry
    rw [List.map_cons, lookup_cons_eq, lookup_cons_eq, ih]
    split
    · rename_i h
      subst h
      rfl
    · rfl

@[simp] theorem setAll_nil (m : OrderedMap K V) : m.setAll [] = m := rfl

@[simp] theorem setAll_cons (m : OrderedMap K V) (entry : K × V) (entries : List (K × V)) :
    m.setAll (entry :: entries) = (m.set entry.1 entry.2).setAll entries := rfl

/-- A key that is not among the entries is left alone. -/
theorem get_setAll_of_not_mem (m : OrderedMap K V) {k : K} (h : k ∉ entries.map Prod.fst) :
    (m.setAll entries).get k = m.get k := by
  induction entries generalizing m with
  | nil => rfl
  | cons entry rest ih =>
    rw [List.map_cons, List.mem_cons, not_or] at h
    rw [setAll_cons, ih _ h.2, get_set_ne _ _ h.1]

/-- **What a map holds once entries of distinct keys are set.** -/
theorem get_setAll (m : OrderedMap K V) (h : (entries.map Prod.fst).Nodup) (k : K) :
    (m.setAll entries).get k = (entries.lookup k).or (m.get k) := by
  induction entries generalizing m with
  | nil => simp
  | cons entry rest ih =>
    obtain ⟨key, value⟩ := entry
    rw [List.map_cons, List.nodup_cons] at h
    rw [setAll_cons, ih _ h.2, get_set, lookup_cons_eq]
    by_cases hkey : k = key
    · subst hkey
      have hnone : rest.lookup k = none := by
        rw [List.lookup_eq_none_iff]
        intro other hother
        have hne : k ≠ other.1 := fun heq => h.1 (heq ▸ List.mem_map.mpr ⟨other, hother, rfl⟩)
        simp [hne]
      simp [hnone]
    · simp [hkey]

theorem get_setAll_filter (m m' : OrderedMap K V) (p : K × V → Bool) (k : K) :
    (m.setAll (m'.entries.filter p)).get k =
      ((m'.get k).filter (fun v => p (k, v))).or (m.get k) := by
  have hnodup : ((m'.entries.filter p).map Prod.fst).Nodup :=
    m'.nodup.sublist (List.filter_sublist.map Prod.fst)
  rw [get_setAll _ hnodup]
  congr 1
  apply Option.ext
  intro v
  have hmem := @mem_entries K V _ ⟨_, hnodup⟩ k v
  rw [Option.filter_eq_some_iff, ← mem_entries, ← List.mem_filter (p := p)]
  exact hmem.symm

theorem get_setAll_cases (m : OrderedMap K V) {k : K} {v : V}
    (h : (m.setAll entries).get k = some v) : (k, v) ∈ entries ∨ m.get k = some v := by
  induction entries generalizing m with
  | nil => exact Or.inr h
  | cons entry rest ih =>
    rw [setAll_cons] at h
    rcases ih _ h with hmem | hget
    · exact Or.inl (List.mem_cons_of_mem _ hmem)
    · rw [get_set] at hget
      split at hget
      · rename_i hkey
        refine Or.inl (List.mem_cons.mpr (Or.inl ?_))
        rw [hkey, ← Option.some.inj hget]
      · exact Or.inr hget

/-- A key that is among the entries ends with one of their values. -/
theorem get_setAll_of_mem (m : OrderedMap K V) {k : K} (h : k ∈ entries.map Prod.fst) :
    ∃ v, (k, v) ∈ entries ∧ (m.setAll entries).get k = some v := by
  induction entries generalizing m with
  | nil => cases h
  | cons entry rest ih =>
    rw [setAll_cons]
    by_cases hrest : k ∈ rest.map Prod.fst
    · obtain ⟨v, hmem, hget⟩ := ih (m.set entry.1 entry.2) hrest
      exact ⟨v, List.mem_cons_of_mem _ hmem, hget⟩
    · have hkey : k = entry.1 := by
        rw [List.map_cons, List.mem_cons] at h
        exact h.resolve_right hrest
      refine ⟨entry.2, List.mem_cons.mpr (Or.inl ?_), ?_⟩
      · rw [hkey]
      · rw [get_setAll_of_not_mem _ hrest, hkey, get_set_self]

theorem setEntry_of_not_mem {k : K} {v : V} (h : k ∉ entries.map Prod.fst) :
    setEntry k v entries = entries ++ [(k, v)] := by
  induction entries with
  | nil => rfl
  | cons entry rest ih =>
    rw [List.map_cons, List.mem_cons, not_or] at h
    rw [setEntry, if_neg (fun heq => h.1 heq.symm), ih h.2, List.cons_append]

/-- Distinct keys set in a map that holds none of them stand at its end. -/
theorem entries_setAll (m : OrderedMap K V) (h : ((m.entries ++ entries).map Prod.fst).Nodup) :
    (m.setAll entries).entries = m.entries ++ entries := by
  induction entries generalizing m with
  | nil => simp
  | cons entry rest ih =>
    have hnot : entry.1 ∉ m.entries.map Prod.fst := by
      intro hmem
      rw [List.map_append, List.map_cons, List.nodup_append] at h
      exact h.2.2 _ hmem _ List.mem_cons_self rfl
    have hset : (m.set entry.1 entry.2).entries = m.entries ++ [entry] := setEntry_of_not_mem hnot
    rw [setAll_cons, ih, hset, List.append_assoc]
    · rfl
    · rw [hset, List.append_assoc]
      exact h

/-- The entries of a map made of distinct keys. -/
theorem entries_ofList (h : (entries.map Prod.fst).Nodup) : (ofList entries).entries = entries := by
  rw [ofList, entries_setAll]
  · rfl
  · exact h

end OrderedMap
