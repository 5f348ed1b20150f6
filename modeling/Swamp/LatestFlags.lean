import Mathlib.Data.List.MinMax
import Mathlib.Order.Basic
import Swamp.JsText
import Swamp.OrderedMap

/-!
# The latest flags of the catalog

A row of the catalog is one version of a data name.  `is_latest` stands on the
highest promoted version, `is_step_latest` on the highest of each step above the
last version a model method wrote, and a pending row holds neither.  Three parts
of the source set the flags: a promotion by asking which higher rows there are, a
removal by recomputing the group in SQL, and a backfill by `computeLatestFlags`.
-/

namespace Swamp

namespace LatestFlags

open Js

/-- The data name whose versions are told apart. -/
structure Group where
  ns : JsString
  typeNormalized : JsString
  modelId : JsString
  dataName : JsString
deriving DecidableEq

/-- A row, without the columns that no flag depends on. -/
structure CatalogRow where
  group : Group
  version : ℕ
  isLatest : Bool
  isStepLatest : Bool
  stepName : JsString
  isPending : Bool
  pendingPid : ℕ
  pendingHost : JsString
deriving DecidableEq

/-- The catalog, with the names that were renamed and what to. -/
structure Catalog where
  rows : List CatalogRow
  renames : List (Group × JsString)

namespace CatalogRow

/-- `PRIMARY KEY (namespace, type_normalized, model_id, data_name, version)`. -/
def primaryKey (row : CatalogRow) : Group × ℕ := (row.group, row.version)

/-- `(step_name = ? OR ? = '' OR step_name = '')`. -/
def InStepScope (stepName : JsString) (row : CatalogRow) : Prop :=
  row.stepName = stepName ∨ stepName = [] ∨ row.stepName = []

instance (stepName : JsString) (row : CatalogRow) : Decidable (row.InStepScope stepName) :=
  inferInstanceAs (Decidable (_ ∨ _ ∨ _))

/-- `UPDATE catalog SET is_latest = 0`, on a row below a promoted one. -/
def clearLatest (promoted row : CatalogRow) : CatalogRow :=
  if row.group = promoted.group ∧ row.version < promoted.version ∧ row.isLatest then
    { row with isLatest := false }
  else row

/-- `UPDATE catalog SET is_step_latest = 0`, on a row below a promoted one. -/
def clearStepLatest (promoted row : CatalogRow) : CatalogRow :=
  if row.group = promoted.group ∧ row.version < promoted.version ∧
      row.InStepScope promoted.stepName ∧ row.isStepLatest then
    { row with isStepLatest := false }
  else row

end CatalogRow

/-- `upsert`: insert a row, or replace the one with its primary key. -/
def upsert (rows : List CatalogRow) (row : CatalogRow) : List CatalogRow :=
  rows.filter (fun other => other.primaryKey ≠ row.primaryKey) ++ [row]

/-- The highest version of some rows, `SELECT MAX(version)`. -/
def maxVersion (rows : List CatalogRow) : Option ℕ := (rows.map (·.version)).max?

namespace Catalog

/-- No rows. -/
def empty : Catalog := ⟨[], []⟩

/-- The rows of a group. -/
def group (self : Catalog) (g : Group) : List CatalogRow :=
  self.rows.filter (fun row => row.group = g)

/-- The promoted rows of a group, as `groupWhere` selects them. -/
def promoted (self : Catalog) (g : Group) : List CatalogRow :=
  self.rows.filter (fun row => row.group = g ∧ row.isPending = false)

/-- `removeRename`. -/
def removeRename (self : Catalog) (g : Group) : Catalog :=
  { self with renames := self.renames.filter (fun forward => forward.1 ≠ g) }

/-- `#upsertNewVersionRows`. -/
def upsertNewVersion (self : Catalog) (row : CatalogRow) : Catalog :=
  let higherFlagged := self.rows.any (fun other => other.group = row.group ∧
    row.version < other.version ∧ (other.isLatest ∨ other.isStepLatest))
  let higherInScope := self.rows.any (fun other => other.group = row.group ∧
    row.version < other.version ∧ other.InStepScope row.stepName)
  let isLatest := !higherFlagged
  let isStepLatest := isLatest || !higherInScope
  let cleared := (self.rows.map row.clearLatest).map row.clearStepLatest
  let renamed := if isLatest then self.removeRename row.group else self
  { renamed with
    rows := upsert cleared
      { row with
        isLatest := isLatest
        isStepLatest := isStepLatest
        isPending := false
        pendingPid := 0
        pendingHost := [] } }

/-- The flag `latest` of `RECOMPUTE_GROUP_FLAGS_SQL`. -/
def latestFlag (self : Catalog) (g : Group) (row : CatalogRow) : Bool :=
  some row.version = maxVersion (self.promoted g)

/-- The flag `step` of `RECOMPUTE_GROUP_FLAGS_SQL`. -/
def stepFlag (self : Catalog) (g : Group) (row : CatalogRow) : Bool :=
  if row.stepName = [] then some row.version = maxVersion (self.promoted g)
  else if (maxVersion ((self.promoted g).filter (·.stepName = []))).any (row.version < ·) then false
  else some row.version =
    maxVersion ((self.promoted row.group).filter (·.stepName = row.stepName))

/-- A row under `RECOMPUTE_GROUP_FLAGS_SQL`. -/
def reflag (self : Catalog) (g : Group) (row : CatalogRow) : CatalogRow :=
  if row.group = g ∧ row.isPending = false ∧
      (row.isLatest ≠ self.latestFlag g row ∨ row.isStepLatest ≠ self.stepFlag g row) then
    { row with
      isLatest := self.latestFlag g row
      isStepLatest := self.stepFlag g row }
  else row

/-- `recomputeGroupFlags`: the flags of a group's promoted rows, in SQL. -/
def recomputeGroupFlags (self : Catalog) (g : Group) : Catalog :=
  { self with rows := self.rows.map (self.reflag g) }

/-- The catalog without some versions of a group. -/
def deleteVersions (self : Catalog) (g : Group) (versions : List ℕ) : Catalog :=
  { self with rows := self.rows.filter (fun row => ¬ (row.group = g ∧ row.version ∈ versions)) }

/-- `bulkRemoveVersions`. -/
def bulkRemoveVersions (self : Catalog) (g : Group) (versions : List ℕ) : Catalog :=
  if versions = [] then self else (self.deleteVersions g versions).recomputeGroupFlags g

/-- `settlePending`: a pending row loses its mark, or is deleted when it is not
to be kept. -/
def settlePending (self : Catalog) (g : Group) (version : ℕ) (keep : Bool) : Catalog :=
  if keep then
    { self with
      rows := self.rows.map (fun row =>
        if row.group = g ∧ row.version = version ∧ row.isPending then
          { row with isPending := false, pendingPid := 0, pendingHost := [] }
        else row) }
  else
    { self with
      rows := self.rows.filter (fun row =>
        ¬ (row.group = g ∧ row.version = version ∧ row.isPending)) }

/-- `upsertPendingRow`: a deferred write registers its version without flags. -/
def upsertPending (self : Catalog) (row : CatalogRow) : Catalog :=
  { self with
    rows := upsert self.rows { row with isLatest := false, isStepLatest := false, isPending := true } }

end Catalog

/-- The key `computeLatestFlags` groups rows by. -/
def groupKey (g : Group) : JsString :=
  g.ns ++ 0 :: g.typeNormalized ++ 0 :: g.modelId ++ 0 :: g.dataName

/-- The highest version among the rows of a group that count, -1 without one. -/
def highestVersion (counts : CatalogRow → Bool) (group : List CatalogRow) : ℤ :=
  group.foldl
    (fun highest row => if counts row ∧ highest < row.version then row.version else highest) (-1)

/-- `overallMax`. -/
def overallMax (group : List CatalogRow) : ℤ := highestVersion (fun _ => true) group

/-- `globalMax`: the highest version a model method wrote. -/
def globalMax (group : List CatalogRow) : ℤ := highestVersion (fun row => row.stepName = []) group

/-- `maxVersionPerStep`: the highest version of each step above `globalMax`. -/
def maxVersionPerStep (globalMax : ℤ) (group : List CatalogRow) : OrderedMap JsString ℕ :=
  group.foldl
    (fun steps row =>
      if row.stepName ≠ [] ∧ row.version < globalMax then steps
      else if row.stepName ≠ [] then
        match steps.get row.stepName with
        | none => steps.set row.stepName row.version
        | some cur => if cur < row.version then steps.set row.stepName row.version else steps
      else steps)
    .empty

/-- The flags of a row beside its group. -/
def flagRow (group : List CatalogRow) (row : CatalogRow) : CatalogRow :=
  { row with
    isLatest := (row.version : ℤ) = overallMax group
    isStepLatest :=
      if row.stepName = [] then (row.version : ℤ) = overallMax group
      else if row.version < globalMax group then false
      else some row.version = (maxVersionPerStep (globalMax group) group).get row.stepName }

/-- `computeLatestFlags`. -/
def computeLatestFlags (rows : List CatalogRow) : List CatalogRow :=
  rows.map (fun row =>
    flagRow (rows.filter (fun other => groupKey other.group = groupKey row.group)) row)

variable {catalog : Catalog} {row other : CatalogRow} {g : Group}

/-- A row stands above another in one step scope. -/
def CatalogRow.Outranks (other row : CatalogRow) : Prop :=
  other.group = row.group ∧ row.version < other.version ∧ other.InStepScope row.stepName

instance (other row : CatalogRow) : Decidable (other.Outranks row) :=
  inferInstanceAs (Decidable (_ ∧ _ ∧ _))

/-- The highest promoted row of its group. -/
def Catalog.Latest (catalog : Catalog) (row : CatalogRow) : Prop :=
  ∀ other ∈ catalog.promoted row.group, other.version ≤ row.version

/-- No promoted row stands above in one step scope. -/
def Catalog.StepLatest (catalog : Catalog) (row : CatalogRow) : Prop :=
  ∀ other ∈ catalog.promoted row.group, ¬ other.Outranks row

theorem mem_promoted :
    row ∈ catalog.promoted g ↔ row ∈ catalog.rows ∧ row.group = g ∧ row.isPending = false := by
  simp [Catalog.promoted]

theorem mem_group : row ∈ catalog.group g ↔ row ∈ catalog.rows ∧ row.group = g := by
  simp [Catalog.group]

variable {rows : List CatalogRow} {version : ℕ}

theorem maxVersion_eq_some :
    maxVersion rows = some version ↔
      (∃ row ∈ rows, row.version = version) ∧ ∀ row ∈ rows, row.version ≤ version := by
  simp [maxVersion, List.max?_eq_some_iff]

theorem maxVersion_of_mem (h : row ∈ rows) :
    some row.version = maxVersion rows ↔ ∀ other ∈ rows, other.version ≤ row.version := by
  rw [eq_comm, maxVersion_eq_some]
  exact and_iff_right ⟨row, h, rfl⟩

theorem maxVersion_eq_none : maxVersion rows = none ↔ rows = [] := by
  simp [maxVersion]

theorem maxVersion_concat (rows : List CatalogRow) (row : CatalogRow) :
    maxVersion (rows ++ [row]) =
      some ((maxVersion rows).elim row.version (fun highest => max highest row.version)) := by
  rw [maxVersion_eq_some]
  cases h : maxVersion rows with
  | none =>
    rw [maxVersion_eq_none] at h
    subst h
    simp
  | some highest =>
    obtain ⟨⟨top, htop, hversion⟩, hle⟩ := maxVersion_eq_some.mp h
    simp only [Option.elim_some, List.mem_append, List.mem_singleton]
    constructor
    · by_cases hlow : highest ≤ row.version
      · exact ⟨row, Or.inr rfl, (max_eq_right hlow).symm⟩
      · exact ⟨top, Or.inl htop, by omega⟩
    · intro other hother
      cases hother with
      | inl hold =>
        have hbound := hle other hold
        omega
      | inr heq =>
        subst heq
        exact le_max_right _ _

theorem outranks_iff : other.Outranks row ↔ other.group = row.group ∧ row.version < other.version ∧
    (row.stepName = [] ∨ other.stepName = [] ∨ other.stepName = row.stepName) := by
  unfold CatalogRow.Outranks CatalogRow.InStepScope
  grind

/-- **The SQL flag of the latest row.** -/
theorem latestFlag_iff (h : row ∈ catalog.promoted g) :
    catalog.latestFlag g row = true ↔ catalog.Latest row := by
  have hgroup : row.group = g := (mem_promoted.mp h).2.1
  unfold Catalog.latestFlag Catalog.Latest
  rw [decide_eq_true_iff, hgroup]
  exact maxVersion_of_mem h

/-- **The SQL flag of a step's latest row.** -/
theorem stepFlag_iff (h : row ∈ catalog.promoted g) :
    catalog.stepFlag g row = true ↔ catalog.StepLatest row := by
  have hgroup : row.group = g := (mem_promoted.mp h).2.1
  unfold Catalog.stepFlag Catalog.StepLatest
  rw [hgroup]
  by_cases hmethod : row.stepName = []
  · rw [if_pos hmethod, decide_eq_true_iff, maxVersion_of_mem h]
    apply forall₂_congr
    intro other hother
    have hother' : other.group = g := (mem_promoted.mp hother).2.1
    rw [outranks_iff]
    grind
  · rw [if_neg hmethod]
    by_cases habove : ∃ other ∈ catalog.promoted g, other.stepName = [] ∧
        row.version < other.version
    · obtain ⟨other, hother, hname, hlt⟩ := habove
      have hother' : other.group = g := (mem_promoted.mp hother).2.1
      have hmem : other ∈ (catalog.promoted g).filter (·.stepName = []) :=
        List.mem_filter.mpr ⟨hother, decide_eq_true hname⟩
      have hany : (maxVersion ((catalog.promoted g).filter (·.stepName = []))).any
          (row.version < ·) = true := by
        cases hmax : maxVersion ((catalog.promoted g).filter (·.stepName = [])) with
        | none =>
          rw [maxVersion_eq_none] at hmax
          rw [hmax] at hmem
          cases hmem
        | some highest =>
          have hle := (maxVersion_eq_some.mp hmax).2 other hmem
          simp only [Option.any_some, decide_eq_true_iff]
          omega
      rw [if_pos hany]
      refine iff_of_false Bool.false_ne_true (fun hnone => hnone other hother ?_)
      exact outranks_iff.mpr ⟨hother'.trans hgroup.symm, hlt, Or.inr (Or.inl hname)⟩
    · have hany : ¬ (maxVersion ((catalog.promoted g).filter (·.stepName = []))).any
          (row.version < ·) = true := by
        intro hany
        cases hmax : maxVersion ((catalog.promoted g).filter (·.stepName = [])) with
        | none =>
          rw [hmax] at hany
          cases hany
        | some highest =>
          obtain ⟨⟨top, htop, hversion⟩, -⟩ := maxVersion_eq_some.mp hmax
          obtain ⟨hmem, hname⟩ := List.mem_filter.mp htop
          rw [hmax] at hany
          simp only [Option.any_some, decide_eq_true_iff] at hany
          exact habove ⟨top, hmem, of_decide_eq_true hname, hversion ▸ hany⟩
      have hmem : row ∈ (catalog.promoted g).filter (·.stepName = row.stepName) :=
        List.mem_filter.mpr ⟨h, decide_eq_true rfl⟩
      rw [if_neg hany, decide_eq_true_iff, maxVersion_of_mem hmem]
      constructor
      · intro hle other hother houtranks
        obtain ⟨-, hlt, hscope⟩ := outranks_iff.mp houtranks
        have hname : other.stepName = row.stepName := by grind
        have hbound := hle other (List.mem_filter.mpr ⟨hother, decide_eq_true hname⟩)
        omega
      · intro hnone other hother
        obtain ⟨hother, hname⟩ := List.mem_filter.mp hother
        have hother' : other.group = g := (mem_promoted.mp hother).2.1
        by_contra hlt
        refine hnone other hother (outranks_iff.mpr ⟨hother'.trans hgroup.symm, by omega, ?_⟩)
        exact Or.inr (Or.inr (of_decide_eq_true hname))

theorem highestVersion_concat (counts : CatalogRow → Bool) (rows : List CatalogRow)
    (row : CatalogRow) : highestVersion counts (rows ++ [row]) =
      if counts row ∧ highestVersion counts rows < row.version then (row.version : ℤ)
      else highestVersion counts rows := by
  unfold highestVersion
  exact List.foldl_append.trans rfl

theorem highestVersion_spec (counts : CatalogRow → Bool) (rows : List CatalogRow) :
    (highestVersion counts rows = -1 ∨
      ∃ row ∈ rows, counts row = true ∧ (row.version : ℤ) = highestVersion counts rows) ∧
    ∀ row ∈ rows, counts row = true → (row.version : ℤ) ≤ highestVersion counts rows := by
  induction rows using List.reverseRecOn with
  | nil => simp [highestVersion]
  | append_singleton rows row ih =>
    rw [highestVersion_concat]
    grind

theorem eq_overallMax_iff (h : row ∈ rows) :
    (row.version : ℤ) = overallMax rows ↔ ∀ other ∈ rows, other.version ≤ row.version := by
  obtain ⟨hfound, hle⟩ := highestVersion_spec (fun _ => true) rows
  have hrow := hle row h rfl
  constructor
  · intro heq other hother
    have hother' := hle other hother rfl
    unfold overallMax at heq
    omega
  · intro hmax
    unfold overallMax
    cases hfound with
    | inl hnone => omega
    | inr hsome =>
      obtain ⟨top, htop, -, hversion⟩ := hsome
      have hbound := hmax top htop
      omega

theorem lt_globalMax_iff :
    (version : ℤ) < globalMax rows ↔
      ∃ other ∈ rows, other.stepName = [] ∧ version < other.version := by
  obtain ⟨hfound, hle⟩ := highestVersion_spec (fun row => row.stepName = []) rows
  unfold globalMax
  constructor
  · intro hlt
    cases hfound with
    | inl hnone => omega
    | inr hsome =>
      obtain ⟨top, htop, hname, hversion⟩ := hsome
      exact ⟨top, htop, of_decide_eq_true hname, by omega⟩
  · intro habove
    obtain ⟨other, hother, hname, hlt⟩ := habove
    have hbound := hle other hother (decide_eq_true hname)
    omega

theorem get_maxVersionPerStep {globalMax : ℤ} {step : JsString} (hstep : step ≠ [])
    (rows : List CatalogRow) :
    (maxVersionPerStep globalMax rows).get step =
      maxVersion (rows.filter (fun row => row.stepName = step ∧ ¬ row.version < globalMax)) := by
  induction rows using List.reverseRecOn with
  | nil => rfl
  | append_singleton rows row ih =>
    unfold maxVersionPerStep at ih ⊢
    rw [List.foldl_append, List.foldl_cons, List.foldl_nil, List.filter_append]
    by_cases hname : row.stepName = step
    · by_cases hlt : row.version < globalMax
      · rw [if_pos ⟨hname ▸ hstep, hlt⟩, ih, List.filter_cons_of_neg (by simp [hlt])]
        simp
      · rw [if_neg (fun hskip => hlt hskip.2), if_pos (hname ▸ hstep), hname, ih,
          List.filter_cons_of_pos (by simpa [hname] using hlt), List.filter_nil,
          maxVersion_concat]
        cases hmax : maxVersion
            (rows.filter (fun row => row.stepName = step ∧ ¬ row.version < globalMax)) with
        | none => simp
        | some cur =>
          simp only [Option.elim_some]
          split
          · rename_i hcur
            rw [OrderedMap.get_set_self, max_eq_right hcur.le]
          · rename_i hcur
            rw [ih, hmax, max_eq_left (not_lt.mp hcur)]
    · rw [List.filter_cons_of_neg (by simp [hname]), List.filter_nil, List.append_nil, ← ih]
      grind [OrderedMap.get_set_ne]

/-- **`computeLatestFlags` on a group** sets the flags the SQL sets. -/
theorem flagRow_iff (hrow : row ∈ rows) (hgroup : ∀ other ∈ rows, other.group = row.group) :
    ((flagRow rows row).isLatest = true ↔ ∀ other ∈ rows, other.version ≤ row.version) ∧
      ((flagRow rows row).isStepLatest = true ↔ ∀ other ∈ rows, ¬ other.Outranks row) := by
  unfold flagRow
  simp only
  constructor
  · rw [decide_eq_true_iff, eq_overallMax_iff hrow]
  · by_cases hmethod : row.stepName = []
    · rw [if_pos hmethod, decide_eq_true_iff, eq_overallMax_iff hrow]
      apply forall₂_congr
      intro other hother
      have hother' := hgroup other hother
      rw [outranks_iff]
      grind
    · rw [if_neg hmethod]
      by_cases hbelow : (row.version : ℤ) < globalMax rows
      · rw [if_pos hbelow]
        obtain ⟨other, hother, hname, hlt⟩ := lt_globalMax_iff.mp hbelow
        refine iff_of_false Bool.false_ne_true (fun hnone => hnone other hother ?_)
        exact outranks_iff.mpr ⟨hgroup other hother, hlt, Or.inr (Or.inl hname)⟩
      · have hmem : row ∈ rows.filter (fun other =>
            other.stepName = row.stepName ∧ ¬ other.version < globalMax rows) :=
          List.mem_filter.mpr ⟨hrow, by simpa using hbelow⟩
        rw [if_neg hbelow, decide_eq_true_iff, get_maxVersionPerStep hmethod,
          maxVersion_of_mem hmem]
        constructor
        · intro hle other hother houtranks
          obtain ⟨-, hlt, hscope⟩ := outranks_iff.mp houtranks
          have hnone : other.stepName ≠ [] := fun hname =>
            hbelow (lt_globalMax_iff.mpr ⟨other, hother, hname, hlt⟩)
          have hname : other.stepName = row.stepName := by grind
          have hbound := hle other (List.mem_filter.mpr ⟨hother, by
            simp only [hname, true_and, decide_eq_true_iff]
            omega⟩)
          omega
        · intro hnone other hother
          obtain ⟨hother, hname⟩ := List.mem_filter.mp hother
          by_contra hlt
          refine hnone other hother (outranks_iff.mpr ⟨hgroup other hother, by omega, ?_⟩)
          exact Or.inr (Or.inr (of_decide_eq_true hname).1)

/-- The rows of a catalog with their flags, where `stepOf` names the step of each
version.  A promoted row without `is_step_latest` is never the latest, and some
row, which may be pending, stands above it. -/
structure Flagged (stepOf : Group → ℕ → JsString) (catalog : Catalog) : Prop where
  keys : (catalog.rows.map (·.primaryKey)).Nodup
  steps : ∀ row ∈ catalog.rows, row.stepName = stepOf row.group row.version
  pending : ∀ row ∈ catalog.rows, row.isPending = true →
    row.isLatest = false ∧ row.isStepLatest = false
  latest : ∀ row ∈ catalog.rows, row.isPending = false →
    (row.isLatest = true ↔ catalog.Latest row)
  sound : ∀ row ∈ catalog.rows, row.isPending = false → row.isStepLatest = true →
    catalog.StepLatest row
  waiting : ∀ row ∈ catalog.rows, row.isPending = false → row.isStepLatest = false →
    row.isLatest = false ∧ ∃ other ∈ catalog.rows, other.Outranks row

variable {stepOf : Group → ℕ → JsString}

theorem Flagged.empty : Flagged stepOf Catalog.empty := by
  constructor <;> simp [Catalog.empty]

/-- Some promoted row of a group is its latest. -/
theorem exists_latest (h : row ∈ catalog.promoted g) : ∃ top ∈ catalog.promoted g,
    row.version ≤ top.version ∧ catalog.Latest top := by
  cases hmax : maxVersion (catalog.promoted g) with
  | none =>
    rw [maxVersion_eq_none] at hmax
    rw [hmax] at h
    cases h
  | some highest =>
    obtain ⟨⟨top, htop, hversion⟩, hle⟩ := maxVersion_eq_some.mp hmax
    refine ⟨top, htop, hversion ▸ hle row h, fun other hother => ?_⟩
    rw [(mem_promoted.mp htop).2.1] at hother
    exact hversion ▸ hle other hother

theorem mem_upsert :
    other ∈ upsert rows row ↔
      other = row ∨ (other ∈ rows ∧ other.primaryKey ≠ row.primaryKey) := by
  simp [upsert, or_comm]

/-- A replaced row leaves the primary keys distinct. -/
theorem upsert_keys (h : (rows.map (·.primaryKey)).Nodup) :
    ((upsert rows row).map (·.primaryKey)).Nodup := by
  unfold upsert
  rw [List.map_append, List.nodup_append]
  refine ⟨h.sublist (List.filter_sublist.map _), List.nodup_singleton _, ?_⟩
  intro key hkey other hother
  obtain ⟨old, hold, rfl⟩ := List.mem_map.mp hkey
  rw [List.map_singleton, List.mem_singleton] at hother
  rw [hother]
  exact of_decide_eq_true (List.mem_filter.mp hold).2

theorem eq_of_primaryKey (h : other.primaryKey = row.primaryKey) :
    other.group = row.group ∧ other.version = row.version := Prod.mk.inj h

/-- A row under the two updates of a promotion. -/
def lowered (promoted row : CatalogRow) : CatalogRow :=
  promoted.clearStepLatest (promoted.clearLatest row)

@[simp] theorem lowered_group : (lowered row other).group = other.group := by
  unfold lowered CatalogRow.clearStepLatest CatalogRow.clearLatest
  grind

@[simp] theorem lowered_version : (lowered row other).version = other.version := by
  unfold lowered CatalogRow.clearStepLatest CatalogRow.clearLatest
  grind

@[simp] theorem lowered_stepName : (lowered row other).stepName = other.stepName := by
  unfold lowered CatalogRow.clearStepLatest CatalogRow.clearLatest
  grind

@[simp] theorem lowered_isPending : (lowered row other).isPending = other.isPending := by
  unfold lowered CatalogRow.clearStepLatest CatalogRow.clearLatest
  grind

theorem lowered_isLatest : (lowered row other).isLatest = true ↔
    other.isLatest = true ∧ ¬ (other.group = row.group ∧ other.version < row.version) := by
  unfold lowered CatalogRow.clearStepLatest CatalogRow.clearLatest
  grind

theorem lowered_isStepLatest : (lowered row other).isStepLatest = true ↔
    other.isStepLatest = true ∧ ¬ row.Outranks other := by
  unfold lowered CatalogRow.clearStepLatest CatalogRow.clearLatest CatalogRow.Outranks
    CatalogRow.InStepScope
  grind

@[simp] theorem lowered_primaryKey : (lowered row other).primaryKey = other.primaryKey := by
  simp [CatalogRow.primaryKey]

/-- A row that stands above another does so whatever their flags are. -/
theorem CatalogRow.Outranks.congr {other' row' : CatalogRow} (h : other.Outranks row)
    (hother : other'.group = other.group ∧ other'.version = other.version ∧
      other'.stepName = other.stepName)
    (hrow : row'.group = row.group ∧ row'.version = row.version ∧
      row'.stepName = row.stepName) : other'.Outranks row' := by
  unfold CatalogRow.Outranks CatalogRow.InStepScope at h ⊢
  grind

/-- The row a promotion writes. -/
def promotedRow (catalog : Catalog) (row : CatalogRow) : CatalogRow :=
  let higherFlagged := catalog.rows.any (fun other => other.group = row.group ∧
    row.version < other.version ∧ (other.isLatest ∨ other.isStepLatest))
  let higherInScope := catalog.rows.any (fun other => other.group = row.group ∧
    row.version < other.version ∧ other.InStepScope row.stepName)
  { row with
    isLatest := !higherFlagged
    isStepLatest := !higherFlagged || !higherInScope
    isPending := false
    pendingPid := 0
    pendingHost := [] }

theorem upsertNewVersion_rows : (catalog.upsertNewVersion row).rows =
    upsert (catalog.rows.map (lowered row)) (promotedRow catalog row) := by
  unfold Catalog.upsertNewVersion
  simp only [List.map_map]
  rfl

variable {r : CatalogRow}

theorem mem_upsertNewVersion : r ∈ (catalog.upsertNewVersion row).rows ↔
    r = promotedRow catalog row ∨
      ∃ old ∈ catalog.rows, old.primaryKey ≠ row.primaryKey ∧ r = lowered row old := by
  have hkey : (promotedRow catalog row).primaryKey = row.primaryKey := rfl
  rw [upsertNewVersion_rows, mem_upsert, hkey]
  refine or_congr_right ⟨?_, ?_⟩
  · intro h
    obtain ⟨hmem, hne⟩ := h
    obtain ⟨old, hold, rfl⟩ := List.mem_map.mp hmem
    exact ⟨old, hold, by simpa using hne, rfl⟩
  · intro h
    obtain ⟨old, hold, hne, rfl⟩ := h
    exact ⟨List.mem_map.mpr ⟨old, hold, rfl⟩, by simpa using hne⟩

/-- **A promoted row is the latest** when no promoted row stands above it: the
highest of those above holds a flag, and no pending row does. -/
theorem Flagged.promotedRow_isLatest (h : Flagged stepOf catalog) :
    (promotedRow catalog row).isLatest = true ↔
      ∀ other ∈ catalog.promoted row.group, other.version ≤ row.version := by
  unfold promotedRow
  simp only [Bool.not_eq_true', List.any_eq_false, decide_eq_true_iff]
  constructor
  · intro hnone other hother
    by_contra hlt
    obtain ⟨top, htop, hle, hlatest⟩ := exists_latest hother
    obtain ⟨hmem, hgroup, hpending⟩ := mem_promoted.mp htop
    have hflag := (h.latest top hmem hpending).mpr hlatest
    exact hnone top hmem ⟨hgroup, by omega, Or.inl hflag⟩
  · intro hle other hother hflagged
    obtain ⟨hgroup, hlt, hflag⟩ := hflagged
    have hpending : other.isPending = false := by
      by_contra hpending
      obtain ⟨hlatest, hstep⟩ := h.pending other hother (by simpa using hpending)
      simp [hlatest, hstep] at hflag
    have hbound := hle other (mem_promoted.mpr ⟨hother, hgroup, hpending⟩)
    omega

/-- The promoted rows after a promotion. -/
theorem mem_promoted_upsertNewVersion :
    r ∈ (catalog.upsertNewVersion row).promoted g ↔
      (r = promotedRow catalog row ∧ row.group = g) ∨
      ∃ old ∈ catalog.promoted g, old.primaryKey ≠ row.primaryKey ∧ r = lowered row old := by
  rw [mem_promoted, mem_upsertNewVersion]
  constructor
  · intro h
    obtain ⟨hmem, hgroup, hpending⟩ := h
    cases hmem with
    | inl htop =>
      subst htop
      exact Or.inl ⟨rfl, hgroup⟩
    | inr hold =>
      obtain ⟨old, hold, hne, rfl⟩ := hold
      rw [lowered_group] at hgroup
      rw [lowered_isPending] at hpending
      exact Or.inr ⟨old, mem_promoted.mpr ⟨hold, hgroup, hpending⟩, hne, rfl⟩
  · intro h
    cases h with
    | inl htop =>
      obtain ⟨rfl, hgroup⟩ := htop
      exact ⟨Or.inl rfl, hgroup, rfl⟩
    | inr hold =>
      obtain ⟨old, hold, hne, rfl⟩ := hold
      obtain ⟨hmem, hgroup, hpending⟩ := mem_promoted.mp hold
      exact ⟨Or.inr ⟨old, hmem, hne, rfl⟩, by simpa using hgroup, by simpa using hpending⟩

theorem Flagged.latest_promotedRow (h : Flagged stepOf catalog) :
    (promotedRow catalog row).isLatest = true ↔
      (catalog.upsertNewVersion row).Latest (promotedRow catalog row) := by
  rw [h.promotedRow_isLatest]
  constructor
  · intro hle other hother
    cases mem_promoted_upsertNewVersion.mp hother with
    | inl htop => exact htop.1 ▸ le_refl _
    | inr hold =>
      obtain ⟨old, hold, -, rfl⟩ := hold
      rw [lowered_version]
      exact hle old hold
  · intro hle old hold
    by_cases hkey : old.primaryKey = row.primaryKey
    · exact (eq_of_primaryKey hkey).2.le
    · have hbound := hle _ (mem_promoted_upsertNewVersion.mpr (Or.inr ⟨old, hold, hkey, rfl⟩))
      rwa [lowered_version] at hbound

variable {old : CatalogRow}

theorem latest_lowered :
    (catalog.upsertNewVersion row).Latest (lowered row old) ↔
      catalog.Latest old ∧ ¬ (old.group = row.group ∧ old.version < row.version) := by
  unfold Catalog.Latest
  rw [lowered_group, lowered_version]
  constructor
  · intro hle
    have htop : row.group = old.group → row.version ≤ old.version := fun hgroup =>
      hle (promotedRow catalog row) (mem_promoted_upsertNewVersion.mpr (Or.inl ⟨rfl, hgroup⟩))
    refine ⟨fun other hother => ?_, fun hbelow => ?_⟩
    · by_cases hkey : other.primaryKey = row.primaryKey
      · obtain ⟨hgroup, hversion⟩ := eq_of_primaryKey hkey
        rw [hversion]
        exact htop (hgroup.symm.trans (mem_promoted.mp hother).2.1)
      · have hbound := hle _ (mem_promoted_upsertNewVersion.mpr
          (Or.inr ⟨other, hother, hkey, rfl⟩))
        rwa [lowered_version] at hbound
    · have hbound := htop hbelow.1.symm
      omega
  · intro hlatest r hr
    obtain ⟨hle, habove⟩ := hlatest
    cases mem_promoted_upsertNewVersion.mp hr with
    | inl htop =>
      obtain ⟨rfl, hgroup⟩ := htop
      exact not_lt.mp (fun hlt => habove ⟨hgroup.symm, hlt⟩)
    | inr hother =>
      obtain ⟨other, hother, -, rfl⟩ := hother
      rw [lowered_version]
      exact hle other hother

theorem Flagged.stepLatest_promotedRow (h : Flagged stepOf catalog)
    (hflag : (promotedRow catalog row).isStepLatest = true) :
    (catalog.upsertNewVersion row).StepLatest (promotedRow catalog row) := by
  intro other hother houtranks
  cases mem_promoted_upsertNewVersion.mp hother with
  | inl htop =>
    rw [htop.1] at houtranks
    exact lt_irrefl _ houtranks.2.1
  | inr hold =>
    obtain ⟨old, hold, -, rfl⟩ := hold
    have hrow : old.Outranks row := houtranks.congr (by simp) ⟨rfl, rfl, rfl⟩
    by_cases hlatest : (promotedRow catalog row).isLatest = true
    · have hbound := h.promotedRow_isLatest.mp hlatest old hold
      exact absurd hrow.2.1 (by omega)
    · have hscope : catalog.rows.any (fun other => other.group = row.group ∧
          row.version < other.version ∧ other.InStepScope row.stepName) = true :=
        List.any_eq_true.mpr ⟨old, (mem_promoted.mp hold).1, decide_eq_true hrow⟩
      simp only [promotedRow, hscope, Bool.not_true, Bool.or_false] at hflag hlatest
      exact hlatest hflag

theorem stepLatest_lowered (h : catalog.StepLatest old) (hunranked : ¬ row.Outranks old) :
    (catalog.upsertNewVersion row).StepLatest (lowered row old) := by
  intro r hr houtranks
  rw [lowered_group] at hr
  cases mem_promoted_upsertNewVersion.mp hr with
  | inl htop =>
    obtain ⟨rfl, -⟩ := htop
    exact hunranked (houtranks.congr ⟨rfl, rfl, rfl⟩ (by simp))
  | inr hother =>
    obtain ⟨other, hother, -, rfl⟩ := hother
    exact h other hother (houtranks.congr (by simp) (by simp))

theorem promotedRow_waiting (hflag : (promotedRow catalog row).isStepLatest = false) :
    (promotedRow catalog row).isLatest = false ∧
      ∃ other ∈ (catalog.upsertNewVersion row).rows,
        other.Outranks (promotedRow catalog row) := by
  unfold promotedRow at hflag ⊢
  simp only [Bool.or_eq_false_iff, Bool.not_eq_false'] at hflag ⊢
  obtain ⟨hlatest, hscope⟩ := hflag
  refine ⟨by simpa using hlatest, ?_⟩
  obtain ⟨old, hold, habove⟩ := List.any_eq_true.mp hscope
  have hrow : old.Outranks row := of_decide_eq_true habove
  have hne : old.primaryKey ≠ row.primaryKey := fun hkey =>
    absurd hrow.2.1 (by rw [(eq_of_primaryKey hkey).2]; exact lt_irrefl _)
  exact ⟨_, mem_upsertNewVersion.mpr (Or.inr ⟨old, hold, hne, rfl⟩),
    hrow.congr (by simp) ⟨rfl, rfl, rfl⟩⟩

theorem Flagged.lowered_waiting (h : Flagged stepOf catalog)
    (hstep : row.stepName = stepOf row.group row.version) (hold : old ∈ catalog.rows)
    (hpending : old.isPending = false) (hflag : (lowered row old).isStepLatest = false) :
    (lowered row old).isLatest = false ∧
      ∃ other ∈ (catalog.upsertNewVersion row).rows, other.Outranks (lowered row old) := by
  rw [← Bool.not_eq_true, lowered_isLatest]
  by_cases hranked : row.Outranks old
  · refine ⟨fun hlatest => hlatest.2 ⟨hranked.1.symm, hranked.2.1⟩, ?_⟩
    exact ⟨_, mem_upsertNewVersion.mpr (Or.inl rfl), hranked.congr ⟨rfl, rfl, rfl⟩ (by simp)⟩
  · have hunset : old.isStepLatest = false := by
      rw [← Bool.not_eq_true]
      intro hset
      rw [lowered_isStepLatest.mpr ⟨hset, hranked⟩] at hflag
      cases hflag
    obtain ⟨hlatest, other, hother, houtranks⟩ := h.waiting old hold hpending hunset
    refine ⟨fun hset => ?_, ?_⟩
    · rw [hlatest] at hset
      cases hset.1
    · by_cases hkey : other.primaryKey = row.primaryKey
      · obtain ⟨hgroup, hversion⟩ := eq_of_primaryKey hkey
        have hname : other.stepName = row.stepName := by
          rw [h.steps other hother, hstep, hgroup, hversion]
        exact ⟨_, mem_upsertNewVersion.mpr (Or.inl rfl),
          houtranks.congr ⟨hgroup.symm, hversion.symm, hname.symm⟩ (by simp)⟩
      · exact ⟨_, mem_upsertNewVersion.mpr (Or.inr ⟨other, hother, hkey, rfl⟩),
          houtranks.congr (by simp) (by simp)⟩

/-- **A promotion keeps the flags**, in whatever order versions are promoted. -/
theorem Flagged.upsertNewVersion (h : Flagged stepOf catalog)
    (hstep : row.stepName = stepOf row.group row.version) :
    Flagged stepOf (catalog.upsertNewVersion row) := by
  constructor
  case keys =>
    rw [upsertNewVersion_rows]
    apply upsert_keys
    rw [List.map_map]
    simpa [Function.comp_def] using h.keys
  case steps =>
    intro r hr
    cases mem_upsertNewVersion.mp hr with
    | inl htop => exact htop ▸ hstep
    | inr hold =>
      obtain ⟨old, hold, -, rfl⟩ := hold
      simpa using h.steps old hold
  case pending =>
    intro r hr hpending
    cases mem_upsertNewVersion.mp hr with
    | inl htop =>
      rw [htop] at hpending
      cases hpending
    | inr hold =>
      obtain ⟨old, hold, -, rfl⟩ := hold
      obtain ⟨hlatest, hflag⟩ := h.pending old hold (by simpa using hpending)
      constructor
      · rw [← Bool.not_eq_true, lowered_isLatest, hlatest]
        simp
      · rw [← Bool.not_eq_true, lowered_isStepLatest, hflag]
        simp
  case latest =>
    intro r hr hpending
    cases mem_upsertNewVersion.mp hr with
    | inl htop => exact htop ▸ h.latest_promotedRow
    | inr hold =>
      obtain ⟨old, hold, -, rfl⟩ := hold
      rw [lowered_isPending] at hpending
      rw [lowered_isLatest, h.latest old hold hpending, latest_lowered]
  case sound =>
    intro r hr hpending hflag
    cases mem_upsertNewVersion.mp hr with
    | inl htop =>
      subst htop
      exact h.stepLatest_promotedRow hflag
    | inr hold =>
      obtain ⟨old, hold, -, rfl⟩ := hold
      rw [lowered_isPending] at hpending
      obtain ⟨hset, hunranked⟩ := lowered_isStepLatest.mp hflag
      exact stepLatest_lowered (h.sound old hold hpending hset) hunranked
  case waiting =>
    intro r hr hpending hflag
    cases mem_upsertNewVersion.mp hr with
    | inl htop =>
      subst htop
      exact promotedRow_waiting hflag
    | inr hold =>
      obtain ⟨old, hold, -, rfl⟩ := hold
      rw [lowered_isPending] at hpending
      exact h.lowered_waiting hstep hold hpending hflag

theorem Flagged.of_promoted (h : Flagged stepOf catalog) {next : Catalog}
    (hkeys : (next.rows.map (·.primaryKey)).Nodup)
    (hsteps : ∀ row ∈ next.rows, row.stepName = stepOf row.group row.version)
    (hpending : ∀ row ∈ next.rows, row.isPending = true →
      row.isLatest = false ∧ row.isStepLatest = false)
    (hpromoted : ∀ g row, row ∈ next.promoted g ↔ row ∈ catalog.promoted g)
    (hwaiting : ∀ row ∈ catalog.rows, row.isPending = false → row.isStepLatest = false →
      ∃ other ∈ next.rows, other.Outranks row) : Flagged stepOf next := by
  have hold : ∀ row ∈ next.rows, row.isPending = false → row ∈ catalog.rows :=
    fun row hrow hset =>
      (mem_promoted.mp ((hpromoted row.group row).mp (mem_promoted.mpr ⟨hrow, rfl, hset⟩))).1
  constructor
  case keys => exact hkeys
  case steps => exact hsteps
  case pending => exact hpending
  case latest =>
    intro row hrow hset
    rw [h.latest row (hold row hrow hset) hset]
    exact forall_congr' (fun other => imp_congr_left (hpromoted row.group other).symm)
  case sound =>
    intro row hrow hset hflag other hother
    exact h.sound row (hold row hrow hset) hset hflag other ((hpromoted row.group other).mp hother)
  case waiting =>
    intro row hrow hset hflag
    exact ⟨(h.waiting row (hold row hrow hset) hset hflag).1,
      hwaiting row (hold row hrow hset) hset hflag⟩

/-- **A pending insert keeps the flags** when it replaces no promoted row. -/
theorem Flagged.upsertPending (h : Flagged stepOf catalog)
    (hstep : row.stepName = stepOf row.group row.version)
    (hfree : ∀ other ∈ catalog.rows, other.primaryKey = row.primaryKey → other.isPending = true) :
    Flagged stepOf (catalog.upsertPending row) := by
  have hmem : ∀ {r : CatalogRow}, r ∈ (catalog.upsertPending row).rows ↔
      r = { row with isLatest := false, isStepLatest := false, isPending := true } ∨
        (r ∈ catalog.rows ∧ r.primaryKey ≠ row.primaryKey) := mem_upsert
  apply h.of_promoted (upsert_keys h.keys)
  · intro r hr
    cases hmem.mp hr with
    | inl heq => exact heq ▸ hstep
    | inr hold => exact h.steps r hold.1
  · intro r hr hset
    cases hmem.mp hr with
    | inl heq => exact heq ▸ ⟨rfl, rfl⟩
    | inr hold => exact h.pending r hold.1 hset
  · intro g r
    rw [mem_promoted, mem_promoted, hmem]
    constructor
    · intro hr
      obtain ⟨hr, hgroup, hset⟩ := hr
      cases hr with
      | inl heq =>
        rw [heq] at hset
        cases hset
      | inr hold => exact ⟨hold.1, hgroup, hset⟩
    · intro hr
      obtain ⟨hr, hgroup, hset⟩ := hr
      refine ⟨Or.inr ⟨hr, fun hkey => ?_⟩, hgroup, hset⟩
      rw [hfree r hr hkey] at hset
      cases hset
  · intro r hr hset hflag
    obtain ⟨-, other, hother, houtranks⟩ := h.waiting r hr hset hflag
    by_cases hkey : other.primaryKey = row.primaryKey
    · obtain ⟨hgroup, hversion⟩ := eq_of_primaryKey hkey
      have hname : other.stepName = row.stepName := by
        rw [h.steps other hother, hstep, hgroup, hversion]
      exact ⟨_, hmem.mpr (Or.inl rfl),
        houtranks.congr ⟨hgroup.symm, hversion.symm, hname.symm⟩ ⟨rfl, rfl, rfl⟩⟩
    · exact ⟨other, hmem.mpr (Or.inr ⟨hother, hkey⟩), houtranks⟩

/-- No promoted row waits on the pending row of a version alone: one without
`is_step_latest` that it outranks is outranked by another row too. -/
def NoneWaitsOn (catalog : Catalog) (g : Group) (version : ℕ) : Prop :=
  ∀ pending ∈ catalog.rows, pending.primaryKey = (g, version) → pending.isPending = true →
    ∀ row ∈ catalog.rows, row.isPending = false → row.isStepLatest = false →
      pending.Outranks row →
        ∃ other ∈ catalog.rows, other.primaryKey ≠ (g, version) ∧ other.Outranks row

instance (catalog : Catalog) (g : Group) (version : ℕ) :
    Decidable (NoneWaitsOn catalog g version) :=
  inferInstanceAs (Decidable (∀ pending ∈ catalog.rows, pending.primaryKey = (g, version) →
    pending.isPending = true → ∀ row ∈ catalog.rows, row.isPending = false →
      row.isStepLatest = false → pending.Outranks row →
        ∃ other ∈ catalog.rows, other.primaryKey ≠ (g, version) ∧ other.Outranks row))

theorem mem_rollback :
    r ∈ (catalog.settlePending g version false).rows ↔
      r ∈ catalog.rows ∧ ¬ (r.primaryKey = (g, version) ∧ r.isPending = true) := by
  unfold Catalog.settlePending CatalogRow.primaryKey
  rw [if_neg Bool.false_ne_true, List.mem_filter, decide_eq_true_iff, Prod.mk.injEq, and_assoc]

/-- **A rollback keeps the flags** when no promoted row waits on the row it
deletes. -/
theorem Flagged.rollback (h : Flagged stepOf catalog) (hnone : NoneWaitsOn catalog g version) :
    Flagged stepOf (catalog.settlePending g version false) := by
  apply h.of_promoted
  · exact h.keys.sublist (List.filter_sublist.map _)
  · exact fun r hr => h.steps r (mem_rollback.mp hr).1
  · exact fun r hr hset => h.pending r (mem_rollback.mp hr).1 hset
  · intro g r
    rw [mem_promoted, mem_promoted, mem_rollback]
    constructor
    · exact fun hr => ⟨hr.1.1, hr.2⟩
    · intro hr
      refine ⟨⟨hr.1, fun hdeleted => ?_⟩, hr.2⟩
      rw [hr.2.2] at hdeleted
      cases hdeleted.2
  · intro r hr hset hflag
    obtain ⟨-, other, hother, houtranks⟩ := h.waiting r hr hset hflag
    by_cases hdeleted : other.primaryKey = (g, version) ∧ other.isPending = true
    · obtain ⟨another, hanother, hne, houtranks'⟩ :=
        hnone other hother hdeleted.1 hdeleted.2 r hr hset hflag houtranks
      exact ⟨another, mem_rollback.mpr ⟨hanother, fun hkey => hne hkey.1⟩, houtranks'⟩
    · exact ⟨other, mem_rollback.mpr ⟨hother, hdeleted⟩, houtranks⟩

theorem reflag_promoted (h : row ∈ catalog.promoted g) :
    catalog.reflag g row = { row with
      isLatest := catalog.latestFlag g row
      isStepLatest := catalog.stepFlag g row } := by
  obtain ⟨-, hgroup, hpending⟩ := mem_promoted.mp h
  unfold Catalog.reflag
  split
  · rfl
  · rename_i hsame
    simp only [not_and, not_or, not_not] at hsame
    obtain ⟨hlatest, hstep⟩ := hsame hgroup hpending
    rw [← hlatest, ← hstep]

theorem reflag_of_not (h : ¬ (row.group = g ∧ row.isPending = false)) :
    catalog.reflag g row = row :=
  if_neg (fun hset => h ⟨hset.1, hset.2.1⟩)

/-- A row keeps all but its flags. -/
theorem reflag_fields : (catalog.reflag g row).primaryKey = row.primaryKey ∧
    (catalog.reflag g row).group = row.group ∧ (catalog.reflag g row).version = row.version ∧
    (catalog.reflag g row).stepName = row.stepName ∧
    (catalog.reflag g row).isPending = row.isPending := by
  unfold Catalog.reflag CatalogRow.primaryKey
  split
  · exact ⟨rfl, rfl, rfl, rfl, rfl⟩
  · exact ⟨rfl, rfl, rfl, rfl, rfl⟩

theorem mem_promoted_recompute {g' : Group} :
    r ∈ (catalog.recomputeGroupFlags g).promoted g' ↔
      ∃ old ∈ catalog.promoted g', r = catalog.reflag g old := by
  rw [mem_promoted]
  unfold Catalog.recomputeGroupFlags
  constructor
  · intro h
    obtain ⟨hmem, hgroup, hset⟩ := h
    obtain ⟨old, hold, rfl⟩ := List.mem_map.mp hmem
    obtain ⟨-, hsame, -, -, hpending⟩ := @reflag_fields catalog old g
    exact ⟨old, mem_promoted.mpr ⟨hold, hsame ▸ hgroup, hpending ▸ hset⟩, rfl⟩
  · intro h
    obtain ⟨old, hold, rfl⟩ := h
    obtain ⟨hmem, hgroup, hset⟩ := mem_promoted.mp hold
    obtain ⟨-, hsame, -, -, hpending⟩ := @reflag_fields catalog old g
    exact ⟨List.mem_map.mpr ⟨old, hmem, rfl⟩, hsame.trans hgroup, hpending.trans hset⟩

theorem latest_recompute :
    (catalog.recomputeGroupFlags g).Latest (catalog.reflag g old) ↔ catalog.Latest old := by
  unfold Catalog.Latest
  rw [reflag_fields.2.1, reflag_fields.2.2.1]
  constructor
  · intro h other hother
    have hbound := h _ (mem_promoted_recompute.mpr ⟨other, hother, rfl⟩)
    rwa [reflag_fields.2.2.1] at hbound
  · intro h r hr
    obtain ⟨other, hother, rfl⟩ := mem_promoted_recompute.mp hr
    rw [reflag_fields.2.2.1]
    exact h other hother

theorem reflag_outranks :
    (catalog.reflag g other).Outranks (catalog.reflag g old) ↔ other.Outranks old := by
  obtain ⟨-, hgroup, hversion, hname, -⟩ := @reflag_fields catalog old g
  obtain ⟨-, hgroup', hversion', hname', -⟩ := @reflag_fields catalog other g
  constructor
  · intro h
    exact h.congr ⟨hgroup'.symm, hversion'.symm, hname'.symm⟩
      ⟨hgroup.symm, hversion.symm, hname.symm⟩
  · intro h
    exact h.congr ⟨hgroup', hversion', hname'⟩ ⟨hgroup, hversion, hname⟩

theorem stepLatest_recompute :
    (catalog.recomputeGroupFlags g).StepLatest (catalog.reflag g old) ↔
      catalog.StepLatest old := by
  unfold Catalog.StepLatest
  rw [reflag_fields.2.1]
  constructor
  · intro h other hother houtranks
    exact h _ (mem_promoted_recompute.mpr ⟨other, hother, rfl⟩) (reflag_outranks.mpr houtranks)
  · intro h r hr houtranks
    obtain ⟨other, hother, rfl⟩ := mem_promoted_recompute.mp hr
    exact h other hother (reflag_outranks.mp houtranks)

/-- The latest row is its step's latest. -/
theorem Catalog.Latest.stepLatest (h : catalog.Latest row) : catalog.StepLatest row := by
  intro other hother houtranks
  have hbound := h other hother
  exact absurd houtranks.2.1 (by omega)

/-- **A recomputation sets the flags of its group**, whatever they were, and
keeps those of the others. -/
theorem recomputed_flagged (hkeys : (catalog.rows.map (·.primaryKey)).Nodup)
    (hsteps : ∀ row ∈ catalog.rows, row.stepName = stepOf row.group row.version)
    (hpending : ∀ row ∈ catalog.rows, row.isPending = true →
      row.isLatest = false ∧ row.isStepLatest = false)
    (hothers : ∀ row ∈ catalog.rows, row.group ≠ g → row.isPending = false →
      (row.isLatest = true ↔ catalog.Latest row) ∧
        (row.isStepLatest = true → catalog.StepLatest row) ∧
        (row.isStepLatest = false →
          row.isLatest = false ∧ ∃ other ∈ catalog.rows, other.Outranks row)) :
    Flagged stepOf (catalog.recomputeGroupFlags g) := by
  have hmem : ∀ {r : CatalogRow}, r ∈ (catalog.recomputeGroupFlags g).rows →
      ∃ old ∈ catalog.rows, r = catalog.reflag g old := by
    intro r hr
    obtain ⟨old, hold, rfl⟩ := List.mem_map.mp hr
    exact ⟨old, hold, rfl⟩
  have hkeep : ∀ {r : CatalogRow}, r ∈ catalog.rows →
      catalog.reflag g r ∈ (catalog.recomputeGroupFlags g).rows := fun hr =>
    List.mem_map.mpr ⟨_, hr, rfl⟩
  constructor
  case keys =>
    unfold Catalog.recomputeGroupFlags
    rw [List.map_map]
    have hsame : ((·.primaryKey) ∘ catalog.reflag g) = (·.primaryKey) :=
      funext (fun _ => reflag_fields.1)
    rw [hsame]
    exact hkeys
  case steps =>
    intro r hr
    obtain ⟨old, hold, rfl⟩ := hmem hr
    obtain ⟨-, hgroup, hversion, hname, -⟩ := @reflag_fields catalog old g
    rw [hgroup, hversion, hname]
    exact hsteps old hold
  case pending =>
    intro r hr hset
    obtain ⟨old, hold, rfl⟩ := hmem hr
    rw [reflag_fields.2.2.2.2] at hset
    rw [reflag_of_not (by simp [hset])]
    exact hpending old hold hset
  case latest =>
    intro r hr hset
    obtain ⟨old, hold, rfl⟩ := hmem hr
    rw [reflag_fields.2.2.2.2] at hset
    rw [latest_recompute]
    by_cases hgroup : old.group = g
    · have hpromoted : old ∈ catalog.promoted g := mem_promoted.mpr ⟨hold, hgroup, hset⟩
      rw [reflag_promoted hpromoted]
      exact latestFlag_iff hpromoted
    · rw [reflag_of_not (fun hboth => hgroup hboth.1)]
      exact (hothers old hold hgroup hset).1
  case sound =>
    intro r hr hset hflag
    obtain ⟨old, hold, rfl⟩ := hmem hr
    rw [reflag_fields.2.2.2.2] at hset
    rw [stepLatest_recompute]
    by_cases hgroup : old.group = g
    · have hpromoted : old ∈ catalog.promoted g := mem_promoted.mpr ⟨hold, hgroup, hset⟩
      rw [reflag_promoted hpromoted] at hflag
      exact (stepFlag_iff hpromoted).mp hflag
    · rw [reflag_of_not (fun hboth => hgroup hboth.1)] at hflag
      exact (hothers old hold hgroup hset).2.1 hflag
  case waiting =>
    intro r hr hset hflag
    obtain ⟨old, hold, rfl⟩ := hmem hr
    rw [reflag_fields.2.2.2.2] at hset
    by_cases hgroup : old.group = g
    · have hpromoted : old ∈ catalog.promoted g := mem_promoted.mpr ⟨hold, hgroup, hset⟩
      rw [reflag_promoted hpromoted] at hflag
      have hnot : ¬ catalog.StepLatest old := fun hstep => by
        rw [(stepFlag_iff hpromoted).mpr hstep] at hflag
        cases hflag
      constructor
      · rw [reflag_promoted hpromoted]
        exact Bool.not_eq_true _ ▸ fun hlatest =>
          hnot ((latestFlag_iff hpromoted).mp hlatest).stepLatest
      · simp only [Catalog.StepLatest, not_forall, not_not, exists_prop] at hnot
        obtain ⟨other, hother, houtranks⟩ := hnot
        exact ⟨_, hkeep (mem_promoted.mp hother).1, reflag_outranks.mpr houtranks⟩
    · rw [reflag_of_not (fun hboth => hgroup hboth.1)] at hflag
      obtain ⟨hlatest, other, hother, houtranks⟩ := (hothers old hold hgroup hset).2.2 hflag
      refine ⟨?_, _, hkeep hother, reflag_outranks.mpr houtranks⟩
      rw [reflag_of_not (fun hboth => hgroup hboth.1)]
      exact hlatest

/-- **A removal keeps the flags.** -/
theorem Flagged.bulkRemoveVersions (h : Flagged stepOf catalog) (g : Group) (versions : List ℕ) :
    Flagged stepOf (catalog.bulkRemoveVersions g versions) := by
  unfold Catalog.bulkRemoveVersions
  split
  · exact h
  · have hmem : ∀ {r : CatalogRow}, r ∈ (catalog.deleteVersions g versions).rows ↔
        r ∈ catalog.rows ∧ ¬ (r.group = g ∧ r.version ∈ versions) := by
      intro r
      unfold Catalog.deleteVersions
      rw [List.mem_filter, decide_eq_true_iff]
    have hpromoted : ∀ g', g' ≠ g → ∀ r,
        r ∈ (catalog.deleteVersions g versions).promoted g' ↔ r ∈ catalog.promoted g' := by
      intro g' hne r
      rw [mem_promoted, mem_promoted, hmem]
      constructor
      · exact fun hr => ⟨hr.1.1, hr.2⟩
      · exact fun hr => ⟨⟨hr.1, fun hgone => hne (hr.2.1.symm.trans hgone.1)⟩, hr.2⟩
    apply recomputed_flagged
    · exact h.keys.sublist (List.filter_sublist.map _)
    · exact fun row hrow => h.steps row (hmem.mp hrow).1
    · exact fun row hrow => h.pending row (hmem.mp hrow).1
    · intro row hrow hgroup hset
      have hold := (hmem.mp hrow).1
      refine ⟨(h.latest row hold hset).trans ?_, fun hflag other hother => ?_, fun hflag => ?_⟩
      · exact forall_congr' (fun other => imp_congr_left (hpromoted _ hgroup other).symm)
      · exact h.sound row hold hset hflag other ((hpromoted _ hgroup other).mp hother)
      · obtain ⟨hlatest, other, hother, houtranks⟩ := h.waiting row hold hset hflag
        refine ⟨hlatest, other, hmem.mpr ⟨hother, fun hgone => ?_⟩, houtranks⟩
        exact hgroup (houtranks.1.symm.trans hgone.1)

/-- The flags of a group are those of a backfill and of a recomputation in SQL:
one row is latest, and it is its step's; a step has one latest row at most. -/
structure FlagsAgree (catalog : Catalog) (g : Group) : Prop where
  computed : catalog.group g = computeLatestFlags (catalog.group g)
  recomputed : catalog.recomputeGroupFlags g = catalog
  latest : catalog.group g ≠ [] → ((catalog.group g).filter (·.isLatest)).length = 1
  latest_step : ∀ row ∈ catalog.group g, row.isLatest = true → row.isStepLatest = true
  stepLatest : ∀ step, ((catalog.group g).filter
    (fun row => row.stepName = step ∧ row.isStepLatest)).length ≤ 1

/-- No row of a group is pending. -/
def NonePending (catalog : Catalog) (g : Group) : Prop :=
  ∀ row ∈ catalog.group g, row.isPending = false

theorem length_le_one {α : Type*} {items : List α} (hnodup : items.Nodup)
    (hsame : ∀ a ∈ items, ∀ b ∈ items, a = b) : items.length ≤ 1 := by
  cases items with
  | nil => exact Nat.zero_le _
  | cons a rest =>
    cases rest with
    | nil => exact le_refl _
    | cons b rest =>
      have heq : a = b := hsame a (by simp) b (by simp)
      exact absurd (heq ▸ List.mem_cons_self) (List.nodup_cons.mp hnodup).1

section Agree

variable (h : Flagged stepOf catalog) (hnone : NonePending catalog g)

include hnone in
theorem group_eq_promoted : catalog.group g = catalog.promoted g := by
  unfold Catalog.group Catalog.promoted
  apply List.filter_congr
  intro row hrow
  rw [decide_eq_decide]
  exact (and_iff_left_of_imp (fun hgroup => hnone row (mem_group.mpr ⟨hrow, hgroup⟩))).symm

include h hnone

/-- Without a pending row the flags are exact. -/
theorem Flagged.exact (hrow : row ∈ catalog.promoted g) :
    (row.isLatest = true ↔ catalog.Latest row) ∧
      (row.isStepLatest = true ↔ catalog.StepLatest row) := by
  obtain ⟨hmem, hgroup, hset⟩ := mem_promoted.mp hrow
  refine ⟨h.latest row hmem hset, h.sound row hmem hset, fun hstep => ?_⟩
  by_contra hflag
  obtain ⟨-, other, hother, houtranks⟩ := h.waiting row hmem hset (by simpa using hflag)
  have hpending := hnone other (mem_group.mpr ⟨hother, houtranks.1.trans hgroup⟩)
  exact hstep other (mem_promoted.mpr ⟨hother, houtranks.1, hpending⟩) houtranks

theorem Flagged.flag_le_one (flag : CatalogRow → Bool)
    (hflag : ∀ row ∈ catalog.promoted g, ∀ other ∈ catalog.promoted g,
      flag row = true → flag other = true → row.version = other.version) :
    ((catalog.group g).filter flag).length ≤ 1 := by
  rw [group_eq_promoted hnone]
  have hrows : catalog.rows.Nodup := h.keys.of_map _
  refine length_le_one ((hrows.filter _).filter _) (fun a ha b hb => ?_)
  obtain ⟨ha, hseta⟩ := List.mem_filter.mp ha
  obtain ⟨hb, hsetb⟩ := List.mem_filter.mp hb
  obtain ⟨hmema, hgroupa, -⟩ := mem_promoted.mp ha
  obtain ⟨hmemb, hgroupb, -⟩ := mem_promoted.mp hb
  exact List.inj_on_of_nodup_map h.keys hmema hmemb
    (Prod.ext (hgroupa.trans hgroupb.symm) (hflag a ha b hb hseta hsetb))

/-- **The three ways to the flags agree** on a group without a pending row. -/
theorem Flagged.agree : FlagsAgree catalog g := by
  have hgroup := group_eq_promoted hnone
  have hown : ∀ row ∈ catalog.promoted g, row.group = g := fun row hrow =>
    (mem_promoted.mp hrow).2.1
  constructor
  case computed =>
    rw [hgroup]
    unfold computeLatestFlags
    refine ((List.map_congr_left (fun row hrow => ?_)).trans (List.map_id _)).symm
    have hall : (catalog.promoted g).filter
        (fun other => groupKey other.group = groupKey row.group) = catalog.promoted g :=
      List.filter_eq_self.mpr (fun other hother =>
        decide_eq_true (by rw [hown other hother, hown row hrow]))
    rw [hall]
    obtain ⟨hlatest, hstep⟩ := flagRow_iff hrow (fun other hother =>
      (hown other hother).trans (hown row hrow).symm)
    obtain ⟨hlatest', hstep'⟩ := h.exact hnone hrow
    unfold Catalog.Latest at hlatest'
    unfold Catalog.StepLatest at hstep'
    rw [hown row hrow] at hlatest' hstep'
    have hflag : (flagRow (catalog.promoted g) row).isLatest = row.isLatest :=
      Bool.eq_iff_iff.mpr (hlatest.trans hlatest'.symm)
    have hflag' : (flagRow (catalog.promoted g) row).isStepLatest = row.isStepLatest :=
      Bool.eq_iff_iff.mpr (hstep.trans hstep'.symm)
    calc flagRow (catalog.promoted g) row
        = { row with
            isLatest := (flagRow (catalog.promoted g) row).isLatest
            isStepLatest := (flagRow (catalog.promoted g) row).isStepLatest } := rfl
      _ = row := by rw [hflag, hflag']
  case recomputed =>
    unfold Catalog.recomputeGroupFlags
    have hsame : catalog.rows.map (catalog.reflag g) = catalog.rows := by
      refine (List.map_congr_left (fun row hrow => ?_)).trans (List.map_id _)
      by_cases hpromoted : row ∈ catalog.promoted g
      · obtain ⟨hlatest, hstep⟩ := h.exact hnone hpromoted
        rw [reflag_promoted hpromoted,
          Bool.eq_iff_iff.mpr ((latestFlag_iff hpromoted).trans hlatest.symm),
          Bool.eq_iff_iff.mpr ((stepFlag_iff hpromoted).trans hstep.symm)]
        rfl
      · exact reflag_of_not (fun hboth => hpromoted (mem_promoted.mpr ⟨hrow, hboth⟩))
    rw [hsame]
  case latest =>
    intro hne
    rw [hgroup] at hne
    obtain ⟨row, hrow⟩ := List.exists_mem_of_ne_nil _ hne
    obtain ⟨top, htop, -, hlatest⟩ := exists_latest hrow
    have hle := h.flag_le_one hnone (·.isLatest) (by
      intro a ha b hb hseta hsetb
      have hab := (h.exact hnone ha).1.mp hseta b (hown a ha ▸ hb)
      have hba := (h.exact hnone hb).1.mp hsetb a (hown b hb ▸ ha)
      omega)
    have hpos : 0 < ((catalog.group g).filter (·.isLatest)).length :=
      List.length_pos_of_mem (List.mem_filter.mpr
        ⟨hgroup ▸ htop, (h.exact hnone htop).1.mpr hlatest⟩)
    omega
  case latest_step =>
    intro row hrow hlatest
    rw [hgroup] at hrow
    obtain ⟨hiff, hstep⟩ := h.exact hnone hrow
    exact hstep.mpr (hiff.mp hlatest).stepLatest
  case stepLatest =>
    intro step
    refine h.flag_le_one hnone _ (fun a ha b hb hseta hsetb => ?_)
    obtain ⟨hnamea, hseta⟩ := of_decide_eq_true hseta
    obtain ⟨hnameb, hsetb⟩ := of_decide_eq_true hsetb
    have hab := (h.exact hnone ha).2.mp hseta b (hown a ha ▸ hb)
    have hba := (h.exact hnone hb).2.mp hsetb a (hown b hb ▸ ha)
    have hgroups : b.group = a.group := (hown b hb).trans (hown a ha).symm
    unfold CatalogRow.Outranks CatalogRow.InStepScope at hab hba
    grind

end Agree

/-- What the writers of the catalog do, one after another. -/
inductive CatalogOp where
  | upsertPending (row : CatalogRow)
  | upsertNewVersion (row : CatalogRow)
  | bulkRemoveVersions (g : Group) (versions : List ℕ)
  | rollback (g : Group) (version : ℕ)

/-- The catalog after an op. -/
def Catalog.perform (self : Catalog) : CatalogOp → Catalog
  | .upsertPending row => self.upsertPending row
  | .upsertNewVersion row => self.upsertNewVersion row
  | .bulkRemoveVersions g versions => self.bulkRemoveVersions g versions
  | .rollback g version => self.settlePending g version false

/-- The catalog after a run from an empty one. -/
def Catalog.reached (ops : List CatalogOp) : Catalog := ops.foldl Catalog.perform .empty

/-- The step that an op gives a version is the one it always has. -/
def CatalogOp.Steps (stepOf : Group → ℕ → JsString) : CatalogOp → Prop
  | .upsertPending row => row.stepName = stepOf row.group row.version
  | .upsertNewVersion row => row.stepName = stepOf row.group row.version
  | .bulkRemoveVersions _ _ => True
  | .rollback _ _ => True

/-- A pending insert replaces no promoted row, and no promoted row waits on the
row a rollback deletes. -/
def CatalogOp.Meets (catalog : Catalog) : CatalogOp → Prop
  | .upsertPending row =>
    ∀ other ∈ catalog.rows, other.primaryKey = row.primaryKey → other.isPending = true
  | .upsertNewVersion _ => True
  | .bulkRemoveVersions _ _ => True
  | .rollback g version => NoneWaitsOn catalog g version

instance (catalog : Catalog) : (op : CatalogOp) → Decidable (op.Meets catalog)
  | .upsertPending row => inferInstanceAs (Decidable
      (∀ other ∈ catalog.rows, other.primaryKey = row.primaryKey → other.isPending = true))
  | .upsertNewVersion _ => inferInstanceAs (Decidable True)
  | .bulkRemoveVersions _ _ => inferInstanceAs (Decidable True)
  | .rollback g version => inferInstanceAs (Decidable (NoneWaitsOn catalog g version))

/-- **One op keeps the flags.** -/
theorem Flagged.perform (h : Flagged stepOf catalog) {op : CatalogOp} (hsteps : op.Steps stepOf)
    (hmeets : op.Meets catalog) : Flagged stepOf (catalog.perform op) := by
  cases op with
  | upsertPending row => exact h.upsertPending hsteps hmeets
  | upsertNewVersion row => exact h.upsertNewVersion hsteps
  | bulkRemoveVersions g versions => exact h.bulkRemoveVersions g versions
  | rollback g version => exact h.rollback hmeets

/-- Every op of a run meets its condition where it is done. -/
def Catalog.RunMeets (self : Catalog) : List CatalogOp → Prop
  | [] => True
  | op :: ops => op.Meets self ∧ (self.perform op).RunMeets ops

instance Catalog.decideRunMeets : (self : Catalog) → (ops : List CatalogOp) →
    Decidable (self.RunMeets ops)
  | _, [] => inferInstanceAs (Decidable True)
  | self, op :: ops =>
    have := Catalog.decideRunMeets (self.perform op) ops
    inferInstanceAs (Decidable (op.Meets self ∧ (self.perform op).RunMeets ops))

theorem Catalog.RunMeets.before {before after : List CatalogOp}
    (h : catalog.RunMeets (before ++ after)) : catalog.RunMeets before := by
  induction before generalizing catalog with
  | nil => trivial
  | cons op before ih => exact ⟨h.1, ih h.2⟩

/-- A run keeps the flags. -/
theorem Flagged.run (h : Flagged stepOf catalog) {ops : List CatalogOp}
    (hsteps : ∀ op ∈ ops, op.Steps stepOf) (hmeets : catalog.RunMeets ops) :
    Flagged stepOf (ops.foldl Catalog.perform catalog) := by
  induction ops generalizing catalog with
  | nil => exact h
  | cons op ops ih =>
    have hnext := h.perform (hsteps op List.mem_cons_self) hmeets.1
    exact ih hnext (fun next hnext => hsteps next (List.mem_cons_of_mem _ hnext)) hmeets.2

/-- **The flags agree along every run** in which no pending insert replaces a
promoted row and no rollback deletes a row that a promoted one waits on: in each
state reached, on each group without a pending row. -/
theorem flags_agree_of_meets (stepOf : Group → ℕ → JsString) (ops : List CatalogOp)
    (hsteps : ∀ op ∈ ops, op.Steps stepOf) (hmeets : Catalog.empty.RunMeets ops)
    {before after : List CatalogOp} (hrun : ops = before ++ after) (g : Group)
    (hnone : NonePending (.reached before) g) : FlagsAgree (.reached before) g := by
  subst hrun
  have hflagged : Flagged stepOf (.reached before) :=
    Flagged.empty.run (fun op hop => hsteps op (List.mem_append_left _ hop)) hmeets.before
  exact hflagged.agree hnone

/-- **The condition on a rollback is exact**: when it deletes the last pending row
of a group, the flags agree after it just when no promoted row waited on it. -/
theorem rollback_agrees_iff (h : Flagged stepOf catalog)
    (hlast : NonePending (catalog.settlePending g version false) g) :
    FlagsAgree (catalog.settlePending g version false) g ↔ NoneWaitsOn catalog g version := by
  constructor
  · intro hagree pending hpending hkey hset row hrow hpromoted hflag houtranks
    have hgroup : row.group = g := houtranks.1.symm.trans (Prod.mk.inj hkey).1
    have hkept : row ∈ (catalog.settlePending g version false).promoted g := by
      refine mem_promoted.mpr ⟨mem_rollback.mpr ⟨hrow, fun hgone => ?_⟩, hgroup, hpromoted⟩
      rw [hpromoted] at hgone
      cases hgone.2
    have hrecomputed := congrArg Catalog.rows hagree.recomputed
    have hsame : (catalog.settlePending g version false).reflag g row = row := by
      unfold Catalog.recomputeGroupFlags at hrecomputed
      exact List.map_inj_left.mp (hrecomputed.trans (List.map_id _).symm) row (mem_promoted.mp hkept).1
    rw [reflag_promoted hkept] at hsame
    have hunset := (congrArg CatalogRow.isStepLatest hsame).trans hflag
    have hnot : ¬ (catalog.settlePending g version false).StepLatest row := fun hstep => by
      rw [(stepFlag_iff hkept).mpr hstep] at hunset
      cases hunset
    simp only [Catalog.StepLatest, not_forall, not_not, exists_prop] at hnot
    obtain ⟨other, hother, houtranks'⟩ := hnot
    obtain ⟨hmem, hgroup', hset'⟩ := mem_promoted.mp hother
    refine ⟨other, (mem_rollback.mp hmem).1, fun hsamekey => ?_, houtranks'⟩
    have heq := List.inj_on_of_nodup_map h.keys (mem_rollback.mp hmem).1 hpending
      (hsamekey.trans hkey.symm)
    rw [heq, hset] at hset'
    cases hset'
  · intro hnone
    exact (h.rollback hnone).agree hlast

/-- A data name of a test. -/
def report : Group := ⟨js "main", js "test", js "model-001", js "report"⟩

/-- Version 1 is written by step `a`, 2 by step `b`, and 3 by a model method. -/
def reportStep (_ : Group) (version : ℕ) : JsString :=
  if version = 1 then js "a" else if version = 2 then js "b" else []

/-- A version of the report. -/
def reportRow (version : ℕ) : CatalogRow :=
  ⟨report, version, false, false, reportStep report version, false, 0, []⟩

/-- Three deferred writes: the second and the first are promoted, and the third,
which was never finished, is deleted. -/
def unfinishedReport : List CatalogOp :=
  [.upsertPending (reportRow 1), .upsertPending (reportRow 2), .upsertPending (reportRow 3),
    .upsertNewVersion (reportRow 2), .upsertNewVersion (reportRow 1), .rollback report 3]

/-- The same with the third version begun after the others are promoted. -/
def finishedReport : List CatalogOp :=
  [.upsertPending (reportRow 1), .upsertPending (reportRow 2), .upsertNewVersion (reportRow 2),
    .upsertNewVersion (reportRow 1), .upsertPending (reportRow 3), .rollback report 3]

/-- The third version, begun last, keeps no row waiting: the flags agree without it. -/
theorem rollback_agrees_iff_report :
    let catalog := Catalog.reached (finishedReport.take 5)
    FlagsAgree (catalog.settlePending report 3 false) report ∧ NoneWaitsOn catalog report 3 := by
  intro catalog
  have hsteps : ∀ op ∈ finishedReport.take 5, op.Steps reportStep := by
    unfold finishedReport
    simp [CatalogOp.Steps, reportRow]
  have hflagged : Flagged reportStep catalog :=
    Flagged.empty.run hsteps (by decide +kernel)
  have hwaits : NoneWaitsOn catalog report 3 := by decide +kernel
  exact ⟨(rollback_agrees_iff hflagged (by unfold NonePending; decide +kernel)).mpr hwaits, hwaits⟩

/-- **A rollback leaves a row without its flag.**  The first version is its step's
latest once the third is gone, and its row says it is not. -/
theorem unfinished_report_apart :
    ¬ ∀ (stepOf : Group → ℕ → JsString) (ops : List CatalogOp),
      (∀ op ∈ ops, op.Steps stepOf) → ∀ before after, ops = before ++ after →
        ∀ g, NonePending (.reached before) g → FlagsAgree (.reached before) g := by
  intro h
  have hsteps : ∀ op ∈ unfinishedReport, op.Steps reportStep := by
    unfold unfinishedReport
    simp [CatalogOp.Steps, reportRow]
  have hnone : NonePending (.reached unfinishedReport) report := by
    unfold NonePending
    decide +kernel
  have hagree := h reportStep unfinishedReport hsteps unfinishedReport []
    (List.append_nil _).symm report hnone
  exact absurd hagree.computed (by decide +kernel)

/-- No row waits on the third version, and the flags agree without it. -/
theorem finished_report_agrees : FlagsAgree (.reached finishedReport) report := by
  have hsteps : ∀ op ∈ finishedReport, op.Steps reportStep := by
    unfold finishedReport
    simp [CatalogOp.Steps, reportRow]
  have hmeets : Catalog.empty.RunMeets finishedReport := by decide +kernel
  refine flags_agree_of_meets reportStep finishedReport hsteps hmeets
    (List.append_nil _).symm report ?_
  unfold NonePending
  decide +kernel

end LatestFlags

end Swamp
