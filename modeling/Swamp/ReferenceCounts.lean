import Mathlib.Data.Finmap
import Mathlib.Data.List.Count

/-!
# Reference counts kept in a table

A table of counts has a row for each key that is referred to, and none for any
other.  A reference taken inserts the row or adds one to it; a reference dropped
takes one from it and deletes it at zero, and meets no row when nothing was
counted.  `Exact` ties a table to the number it should hold for each key;
`rowsWhere` counts the rows of another table, and `rowsWhere_insert` and
`rowsWhere_erase` say how the count moves with a row.
-/

namespace ReferenceCounts

variable {K : Type*} [DecidableEq K]

/-- A table of counts. -/
abbrev Counter (K : Type*) := Finmap (fun _ : K => ℕ)

/-- Take one reference: insert the row at one, or add one to it. -/
def take (table : Counter K) (k : K) : Counter K := table.insert k ((table.lookup k).getD 0 + 1)

/-- Drop one reference: what is left of it, and the table without the row at
zero.  `none` when the table counts no reference to the key. -/
def drop (table : Counter K) (k : K) : Option (ℕ × Counter K) :=
  (table.lookup k).map
    (fun n => (n - 1, if n - 1 = 0 then table.erase k else table.insert k (n - 1)))

/-- The table holds these numbers: a row exactly where the number is not zero. -/
def Exact (table : Counter K) (number : K → ℕ) : Prop :=
  ∀ k, table.lookup k = if number k = 0 then none else some (number k)

theorem Exact.empty : Exact (∅ : Counter K) (fun _ => 0) := fun _ => rfl

variable {table : Counter K}

theorem Exact.congr {f g : K → ℕ} (h : Exact table f) (hfg : ∀ k, f k = g k) : Exact table g := by
  intro k
  rw [h k, hfg k]

variable {number : K → ℕ}

theorem Exact.getD (h : Exact table number) (k : K) : (table.lookup k).getD 0 = number k := by
  rw [h k]
  split
  · rename_i hzero
    rw [hzero]
    rfl
  · rfl

/-- **One reference taken.** -/
theorem Exact.take (h : Exact table number) (k : K) :
    Exact (take table k) (fun j => number j + if k = j then 1 else 0) := by
  intro j
  unfold ReferenceCounts.take
  by_cases hj : j = k
  · subst hj
    simp [h.getD]
  · rw [Finmap.lookup_insert_of_ne _ hj, h j]
    simp [Ne.symm hj]

/-- **One reference dropped**, of those that are counted. -/
theorem Exact.drop {k : K} (h : Exact table (fun j => number j + if k = j then 1 else 0)) :
    ∃ next, ReferenceCounts.drop table k = some (number k, next) ∧ Exact next number := by
  have hk : table.lookup k = some (number k + 1) := by simp [h k]
  have hother : ∀ j, j ≠ k → table.lookup j = if number j = 0 then none else some (number j) := by
    intro j hj
    simp [h j, Ne.symm hj]
  refine ⟨if number k = 0 then table.erase k else table.insert k (number k), ?_, ?_⟩
  · simp [ReferenceCounts.drop, hk]
  · intro j
    by_cases hj : j = k
    · subst hj
      split
      · simp
      · simp
    · split
      · rw [Finmap.lookup_erase_ne hj, hother j hj]
      · rw [Finmap.lookup_insert_of_ne _ hj, hother j hj]

variable {V : Type*}

omit [DecidableEq K]

/-- How many rows of a table satisfy a condition. -/
def rowsWhere (cond : K → V → Bool) (table : Finmap (fun _ : K => V)) : ℕ :=
  table.entries.countP (fun row => cond row.1 row.2)

/-- One row, or none, counted by a condition. -/
def rowCount (cond : K → V → Bool) (k : K) (row : Option V) : ℕ :=
  match row with
  | some v => if cond k v then 1 else 0
  | none => 0

@[simp] theorem rowsWhere_empty (cond : K → V → Bool) :
    rowsWhere cond (∅ : Finmap (fun _ : K => V)) = 0 := rfl

variable [DecidableEq K]

theorem rowsWhere_pos (cond : K → V → Bool) (table : Finmap (fun _ : K => V)) :
    0 < rowsWhere cond table ↔ ∃ k v, table.lookup k = some v ∧ cond k v = true := by
  unfold rowsWhere
  rw [Multiset.countP_pos]
  constructor
  · intro h
    obtain ⟨⟨k, v⟩, hmem, hcond⟩ := h
    exact ⟨k, v, Finmap.lookup_eq_some_iff.mpr hmem, hcond⟩
  · intro h
    obtain ⟨k, v, hlookup, hcond⟩ := h
    exact ⟨⟨k, v⟩, Finmap.lookup_eq_some_iff.mp hlookup, hcond⟩

/-- **A row less.** -/
theorem rowsWhere_erase (cond : K → V → Bool) (table : Finmap (fun _ : K => V)) (k : K) :
    rowsWhere cond (table.erase k) + rowCount cond k (table.lookup k) = rowsWhere cond table := by
  induction table using Finmap.induction_on with
  | H list =>
    obtain ⟨entries, hnodup⟩ := list
    simp only [Finmap.erase_toFinmap, Finmap.lookup_toFinmap, rowsWhere, AList.toFinmap_entries,
      AList.lookup, Multiset.coe_countP]
    change (entries.kerase k).countP _ + _ = entries.countP _
    induction entries with
    | nil => rfl
    | cons row rest ih =>
      obtain ⟨key, value⟩ := row
      have hcons := List.nodupKeys_cons.mp hnodup
      by_cases hkey : k = key
      · subst hkey
        have hrest : List.kerase k ((⟨k, value⟩ : (_ : K) × V) :: rest) = rest :=
          List.kerase_cons_eq rfl
        rw [hrest, List.dlookup_cons_eq, List.countP_cons]
        simp [rowCount]
      · rw [List.kerase_cons_ne hkey, List.countP_cons, List.countP_cons,
          List.dlookup_cons_ne rest ⟨key, value⟩ hkey, ← ih hcons.2]
        omega

/-- **A row more, or another in its place.** -/
theorem rowsWhere_insert (cond : K → V → Bool) (table : Finmap (fun _ : K => V)) (k : K) (v : V) :
    rowsWhere cond (table.insert k v) + rowCount cond k (table.lookup k) =
      rowsWhere cond table + rowCount cond k (some v) := by
  have hinsert : rowsWhere cond (table.insert k v) =
      rowsWhere cond (table.erase k) + rowCount cond k (some v) := by
    have h := rowsWhere_erase cond (table.insert k v) k
    have herase : (table.insert k v).erase k = table.erase k := by
      apply Finmap.ext_lookup
      intro j
      by_cases hj : j = k
      · subst hj
        simp
      · rw [Finmap.lookup_erase_ne hj, Finmap.lookup_erase_ne hj, Finmap.lookup_insert_of_ne _ hj]
    rw [herase, Finmap.lookup_insert] at h
    exact h.symm
  rw [hinsert, ← rowsWhere_erase cond table k]
  omega

end ReferenceCounts
