import Mathlib.Data.List.Basic

/-!
# Named records

Records are kept in a list and found by their name, the first of a name standing
for it.
-/

namespace OrderedWalks

variable {α κ : Type} [DecidableEq κ] (key : α → κ)

/-- The first record of a name. -/
def findNamed (name : κ) (records : List α) : Option α :=
  records.find? (fun record => key record = name)

/-- The first record of a name is changed. -/
def modifyFirst (name : κ) (f : α → α) : List α → List α
  | [] => []
  | record :: rest =>
    if key record = name then f record :: rest else record :: modifyFirst name f rest

variable {key} {name other : κ} {f : α → α}

variable {records : List α} {record : α}

theorem findNamed_key (h : findNamed key name records = some record) : key record = name := by
  have hfound := List.find?_some h
  exact of_decide_eq_true hfound

theorem findNamed_mem (h : findNamed key name records = some record) :
    record ∈ records := List.mem_of_find?_eq_some h

theorem findNamed_isSome (hmem : record ∈ records) (hkey : key record = name) :
    ∃ found, findNamed key name records = some found := by
  have hsome : (findNamed key name records).isSome := by
    unfold findNamed
    rw [List.find?_isSome]
    exact ⟨record, hmem, by simp [hkey]⟩
  exact Option.isSome_iff_exists.mp hsome

theorem find_modifyFirst_self (hkey : ∀ record, key (f record) = key record) (records : List α) :
    findNamed key name (modifyFirst key name f records) = (findNamed key name records).map f := by
  induction records with
  | nil => rfl
  | cons record rest ih =>
    unfold findNamed at ih ⊢
    by_cases hname : key record = name
    · simp [modifyFirst, hname, hkey]
    · simp [modifyFirst, hname, ih]

theorem find_modifyFirst_ne (hkey : ∀ record, key (f record) = key record) (hne : other ≠ name)
    (records : List α) :
    findNamed key other (modifyFirst key name f records) = findNamed key other records := by
  induction records with
  | nil => rfl
  | cons record rest ih =>
    unfold findNamed at ih ⊢
    by_cases hname : key record = name
    · simp [modifyFirst, hname, hkey, hne.symm]
    · by_cases hother : key record = other
      · simp [modifyFirst, hother, hne]
      · simp [modifyFirst, hname, hother, ih]

end OrderedWalks
