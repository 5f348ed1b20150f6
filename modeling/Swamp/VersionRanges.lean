import Mathlib.Order.Bounds.Defs
import Swamp.ExceptRules
import Swamp.JsValue
import Swamp.RangeSet

/-!
# Removed versions as ranges

`VersionRanges` is the immutable set of positive version numbers a data name
has recorded and then removed.  Its ranges are canonical by construction, so
equal sets are equal values (`VersionRanges.ext_mem`) and serialize equally.

Each operation has one membership lemma, which is all later proofs use of it;
`canonical_sets` says that they are the operations of sets.
-/

namespace Swamp

open Js RangeSet ExceptRules

/-- A data version: a positive safe integer, as `isVersion` asks. -/
structure Version where
  val : ℕ
  pos : 1 ≤ val
  safe : val ≤ maxSafeInteger

theorem Version.ext_val {a b : Version} (h : a.val = b.val) : a = b := by
  cases a
  cases b
  simpa using h

/-- Keys are sorted by their text, code unit by code unit. -/
instance : DecidableEq Version := fun a b =>
  decidable_of_iff (a.val = b.val) ⟨Version.ext_val, congrArg Version.val⟩

theorem Version.pos_of {n : ℕ} (h : 1 ≤ n ∧ n ≤ maxSafeInteger) : 1 ≤ n := h.1

theorem Version.safe_of {n : ℕ} (h : 1 ≤ n ∧ n ≤ maxSafeInteger) : n ≤ maxSafeInteger := h.2

/-- The first version. -/
def Version.first : Version := ⟨1, Nat.le_refl 1, by decide⟩

/-- A range of versions, first to last. -/
def IsVersionRange (r : Range) : Prop := 1 ≤ r.1 ∧ r.1 ≤ r.2 ∧ r.2 ≤ maxSafeInteger

instance (r : Range) : Decidable (IsVersionRange r) :=
  inferInstanceAs (Decidable (1 ≤ r.1 ∧ r.1 ≤ r.2 ∧ r.2 ≤ maxSafeInteger))

/-- An immutable set of version numbers: sorted, disjoint, never adjacent
ranges. -/
structure VersionRanges where
  ranges : List Range
  canonical : Canonical ranges
  versions : ∀ r ∈ ranges, IsVersionRange r

namespace VersionRanges

/-- The empty set. -/
def EMPTY : VersionRanges := ⟨[], canonical_nil, by simp⟩

/-- The set some ranges cover: sorted by their first version and merged. -/
def ofRanges (rs : List Range) (h : ∀ r ∈ rs, IsVersionRange r) : VersionRanges where
  ranges := merge rs
  canonical := merge_canonical (fun r hr => (h r hr).2.1)
  versions := fun r hr =>
    ⟨le_merge_first (fun r hr => (h r hr).2.1) (fun r hr => (h r hr).1) r hr,
      (merge_canonical (fun r hr => (h r hr).2.1)).ordered r hr,
      merge_last_le (fun r hr => (h r hr).2.1) (fun r hr => (h r hr).2.2) r hr⟩

/-- One range as a snapshot holds it: a pair of versions in order. -/
def readRange (range : List Json) : Except (List Json) {r : Range // IsVersionRange r} :=
  match range with
  | [first, last] =>
    match first.safeNat, last.safeNat with
    | some f, some l =>
      if h : IsVersionRange (f, l) then .ok ⟨(f, l), h⟩ else .error range
    | _, _ => .error range
  | _ => .error range

theorem isVersionRange_of_read {rs : List {r : Range // IsVersionRange r}} :
    ∀ r ∈ rs.map Subtype.val, IsVersionRange r := by
  intro r hr
  obtain ⟨read, -, rfl⟩ := List.mem_map.mp hr
  exact read.2

/-- `VersionRanges.of`: every range is checked, and the first that is not a range
of positive versions is the error. -/
def of (ranges : List (List Json)) : Except (List Json) VersionRanges := do
  let rs ← ranges.mapM readRange
  return ofRanges (rs.map Subtype.val) isVersionRange_of_read

/-- Whether the set is empty. -/
def isEmpty (self : VersionRanges) : Bool := self.ranges.isEmpty

/-- The highest version of the set, zero when it is empty. -/
def max (self : VersionRanges) : ℕ := (self.ranges.getLast?.map Prod.snd).getD 0

/-- Binary search over the ranges. -/
def has (self : VersionRanges) (version : ℕ) : Bool :=
  search self.ranges version self.ranges.length 0 self.ranges.length

/-- Keys are sorted by their text, code unit by code unit. -/
instance : Membership ℕ VersionRanges := ⟨fun self n => self.has n = true⟩

instance (self : VersionRanges) (n : ℕ) : Decidable (n ∈ self) :=
  inferInstanceAs (Decidable (self.has n = true))

/-- The set with one more version. -/
def add (self : VersionRanges) (version : Version) : VersionRanges :=
  if self.has version.val then self
  else
    ofRanges (self.ranges ++ [(version.val, version.val)]) (by
      intro r hr
      rcases List.mem_append.mp hr with hr | hr
      · exact self.versions r hr
      · rw [List.mem_singleton.mp hr]
        exact ⟨version.pos, le_refl _, version.safe⟩)

/-- Range by range equality. -/
def equals (self other : VersionRanges) : Bool := self.ranges == other.ranges

/-- The union of two sets. -/
def union (self other : VersionRanges) : VersionRanges :=
  if other.isEmpty then self
  else if self.isEmpty then other
  else
    ofRanges (self.ranges ++ other.ranges) (by
      intro r hr
      rcases List.mem_append.mp hr with hr | hr
      · exact self.versions r hr
      · exact other.versions r hr)

/-- The set without one version. -/
def delete (self : VersionRanges) (version : ℕ) : VersionRanges :=
  if self.has version then
    { ranges := remove self.ranges version
      canonical := remove_canonical self.canonical version
      versions := by
        intro s hs
        obtain ⟨r, hr, hsr⟩ := List.mem_flatMap.mp hs
        have hinside := cut_inside (self.canonical.ordered r hr) hsr
        have hversions := self.versions r hr
        exact ⟨le_trans hversions.1 hinside.1, hinside.2.1,
          le_trans hinside.2.2 hversions.2.2⟩ }
  else self

theorem mem_iff (self : VersionRanges) (n : ℕ) : n ∈ self ↔ Mem self.ranges n :=
  search_all_iff self.canonical n

/-- The binary search answers membership. -/
@[simp] theorem has_iff (self : VersionRanges) (n : ℕ) : self.has n = true ↔ n ∈ self :=
  Iff.rfl

@[simp] theorem not_mem_EMPTY (n : ℕ) : n ∉ EMPTY := by
  rw [mem_iff]
  exact mem_nil n

@[simp] theorem mem_ofRanges (rs : List Range) (h : ∀ r ∈ rs, IsVersionRange r) (n : ℕ) :
    n ∈ ofRanges rs h ↔ Mem rs n := by
  rw [mem_iff]
  exact mem_merge (fun r hr => (h r hr).2.1) n

/-- **Equal sets are equal values.** -/
theorem ext_mem {a b : VersionRanges} (h : ∀ n, n ∈ a ↔ n ∈ b) : a = b := by
  have hranges : a.ranges = b.ranges := by
    apply a.canonical.ext b.canonical
    intro n
    rw [← mem_iff, ← mem_iff]
    exact h n
  cases a
  cases b
  simpa using hranges

@[simp] theorem mem_add (self : VersionRanges) (version : Version) (n : ℕ) :
    n ∈ self.add version ↔ n ∈ self ∨ n = version.val := by
  unfold add
  split
  · rename_i hhas
    constructor
    · exact Or.inl
    · rintro (h | rfl)
      · exact h
      · exact hhas
  · rw [mem_ofRanges, mem_append, ← mem_iff, mem_cons]
    simp only [Covers, mem_nil, or_false]
    constructor
    · rintro (h | h)
      · exact Or.inl h
      · exact Or.inr (by omega)
    · rintro (h | h)
      · exact Or.inl h
      · exact Or.inr (by omega)

@[simp] theorem mem_delete (self : VersionRanges) (version n : ℕ) :
    n ∈ self.delete version ↔ n ∈ self ∧ n ≠ version := by
  unfold delete
  split
  · rw [mem_iff, mem_iff]
    exact mem_remove self.ranges version n
  · rename_i hhas
    constructor
    · intro h
      exact ⟨h, fun heq => hhas (heq ▸ h)⟩
    · exact And.left

theorem isEmpty_iff (self : VersionRanges) : self.isEmpty = true ↔ ∀ n, n ∉ self := by
  constructor
  · intro h n hn
    rw [mem_iff] at hn
    rw [List.isEmpty_iff.mp h] at hn
    exact mem_nil n hn
  · intro h
    have heq : self = EMPTY := ext_mem (fun n => iff_of_false (h n) (not_mem_EMPTY n))
    rw [heq]
    rfl

@[simp] theorem mem_union (self other : VersionRanges) (n : ℕ) :
    n ∈ self.union other ↔ n ∈ self ∨ n ∈ other := by
  unfold union
  split
  · rename_i hempty
    have := (isEmpty_iff other).mp hempty n
    tauto
  · split
    · rename_i hempty
      have := (isEmpty_iff self).mp hempty n
      tauto
    · rw [mem_ofRanges, mem_append, ← mem_iff, ← mem_iff]

theorem max_mem {self : VersionRanges} (h : self.isEmpty = false) : self.max ∈ self := by
  obtain ⟨r, hr⟩ : ∃ r, self.ranges.getLast? = some r := by
    cases hlast : self.ranges.getLast? with
    | none =>
      have : self.isEmpty = true := by simp [isEmpty, List.getLast?_eq_none_iff.mp hlast]
      rw [this] at h
      cases h
    | some r => exact ⟨r, rfl⟩
  have hmem : r ∈ self.ranges := List.mem_of_getLast? hr
  rw [mem_iff]
  exact ⟨r, hmem, by simp [max, hr, Covers, self.canonical.ordered r hmem]⟩

/-- A bound of every version bounds `max`. -/
theorem max_le {self : VersionRanges} {bound : ℕ} (h : ∀ n ∈ self, n ≤ bound) :
    self.max ≤ bound := by
  cases hempty : self.isEmpty with
  | true =>
    have : self.ranges = [] := List.isEmpty_iff.mp hempty
    simp [max, this]
  | false => exact h _ (max_mem hempty)

/-- The ranges of a set as JSON arrays. -/
def toJson (self : VersionRanges) : List (List Json) :=
  self.ranges.map (fun r => [Json.ofNat r.1, Json.ofNat r.2])

theorem readRange_ofNat {r : Range} (h : IsVersionRange r) :
    readRange [Json.ofNat r.1, Json.ofNat r.2] = .ok ⟨r, h⟩ := by
  have hfirst : (Json.ofNat r.1).safeNat = some r.1 :=
    Json.safeNat_ofNat (le_trans h.2.1 h.2.2)
  have hlast : (Json.ofNat r.2).safeNat = some r.2 := Json.safeNat_ofNat h.2.2
  simp only [readRange, hfirst, hlast]
  exact dif_pos h

private theorem mapM_readRange (rs : List Range) (h : ∀ r ∈ rs, IsVersionRange r) :
    ∃ out, (rs.map (fun r => [Json.ofNat r.1, Json.ofNat r.2])).mapM readRange = .ok out ∧
      out.map Subtype.val = rs := by
  induction rs with
  | nil => exact ⟨[], rfl, rfl⟩
  | cons r rs ih =>
    obtain ⟨out, hout, hval⟩ := ih (fun s hs => h s (List.mem_cons_of_mem _ hs))
    refine ⟨⟨r, h r List.mem_cons_self⟩ :: out, ?_, by simp [hval]⟩
    rw [List.map_cons, List.mapM_cons, readRange_ofNat (h r List.mem_cons_self), hout]
    rfl

/-- **A set reads back.**  `of` accepts the ranges of a set and gives the set. -/
theorem of_toJson (self : VersionRanges) : of self.toJson = .ok self := by
  obtain ⟨out, hout, hval⟩ := mapM_readRange self.ranges self.versions
  have hsame : ofRanges (out.map Subtype.val) isVersionRange_of_read = self :=
    ext_mem (fun n => by rw [mem_ofRanges, hval, mem_iff])
  rw [of, toJson, hout]
  exact congrArg Except.ok hsame

/-- The numbers a set of ranges stands for. -/
def elements (self : VersionRanges) : Set ℕ := {n | ∃ r ∈ self.ranges, r.1 ≤ n ∧ n ≤ r.2}

theorem mem_elements (self : VersionRanges) (n : ℕ) : n ∈ self.elements ↔ n ∈ self :=
  (self.mem_iff n).symm

theorem ranges_eq_iff (self other : VersionRanges) :
    self.ranges = other.ranges ↔ self.elements = other.elements := by
  constructor
  · intro h
    rw [elements, elements, h]
  · intro h
    have hmem : ∀ n, n ∈ self ↔ n ∈ other := by
      intro n
      rw [← mem_elements, ← mem_elements, h]
    rw [ext_mem hmem]

theorem max_spec (self : VersionRanges) :
    IsGreatest self.elements self.max ∨ self.elements = ∅ ∧ self.max = 0 := by
  cases hempty : self.isEmpty with
  | true =>
    have hnil : self.ranges = [] := List.isEmpty_iff.mp hempty
    refine Or.inr ⟨?_, by simp [max, hnil]⟩
    rw [Set.eq_empty_iff_forall_notMem]
    intro n hn
    exact (isEmpty_iff self).mp hempty n ((self.mem_elements n).mp hn)
  | false =>
    refine Or.inl ⟨(self.mem_elements _).mpr (max_mem hempty), ?_⟩
    intro n hn
    obtain ⟨r, hr, -, hle⟩ := hn
    obtain ⟨last, hlast⟩ := Option.isSome_iff_exists.mp
      (List.getLast?_isSome.mpr (List.ne_nil_of_mem hr))
    have hmax : self.max = last.2 := by simp [max, hlast]
    obtain ⟨front, hfront⟩ := List.getLast?_eq_some_iff.mp hlast
    have hapart := self.canonical.apart
    have hordered := self.canonical.ordered last (List.mem_of_getLast? hlast)
    rw [hfront] at hr hapart
    rcases List.mem_append.mp hr with hbefore | hsame
    · have hgap := (List.pairwise_append.mp hapart).2.2 r hbefore last
        (List.mem_singleton_self last)
      omega
    · rw [hmax, ← List.mem_singleton.mp hsame]
      exact hle

theorem elements_of {ranges : List (List Json)} {built : VersionRanges}
    (h : of ranges = .ok built) (n : ℕ) :
    n ∈ built.elements ↔
      ∃ range ∈ ranges, ∃ r, readRange range = .ok r ∧ r.val.1 ≤ n ∧ n ≤ r.val.2 := by
  obtain ⟨rs, hread, h⟩ := bind_ok h
  obtain rfl := Except.ok.inj h
  rw [mem_elements, mem_ofRanges]
  constructor
  · intro hmem
    obtain ⟨r, hr, hcovers⟩ := hmem
    obtain ⟨read, hmem, rfl⟩ := List.mem_map.mp hr
    obtain ⟨range, hrange, hok⟩ := mem_mapM hread hmem
    exact ⟨range, hrange, read, hok, hcovers⟩
  · intro hmem
    obtain ⟨range, hrange, r, hok, hcovers⟩ := hmem
    obtain ⟨read, hread, hok'⟩ := mapM_of_mem hread hrange
    obtain rfl := Except.ok.inj (hok.symm.trans hok')
    exact ⟨r.val, List.mem_map_of_mem hread, hcovers⟩

/-- **A canonical representation of finite sets of versions.**  The ranges are sorted and
leave a gap between neighbours, the search decides membership, the operations are those of
sets, and two sets are equal just when their ranges are. -/
theorem canonical_sets (self other : VersionRanges) :
    self.ranges.Pairwise (fun a b => a.2 + 1 < b.1) ∧ (∀ r ∈ self.ranges, 1 ≤ r.1 ∧ r.1 ≤ r.2) ∧
      (∀ n ∈ self.elements, 1 ≤ n ∧ n ≤ maxSafeInteger) ∧
      (∀ n, self.has n = true ↔ n ∈ self.elements) ∧
      (∀ version : Version, (self.add version).elements = insert version.val self.elements) ∧
      (self.union other).elements = self.elements ∪ other.elements ∧
      (∀ version, (self.delete version).elements = self.elements \ {version}) ∧
      (IsGreatest self.elements self.max ∨ self.elements = ∅ ∧ self.max = 0) ∧
      (∀ ranges built, of ranges = .ok built → ∀ n, n ∈ built.elements ↔
        ∃ range ∈ ranges, ∃ r, readRange range = .ok r ∧ r.val.1 ≤ n ∧ n ≤ r.val.2) ∧
      (self.ranges = other.ranges ↔ self.elements = other.elements) ∧
      (self.equals other = true ↔ self.elements = other.elements) := by
  refine ⟨self.canonical.apart, fun r hr => ⟨(self.versions r hr).1, (self.versions r hr).2.1⟩,
    ?_, fun n => (self.mem_elements n).symm, ?_, ?_, ?_, self.max_spec,
    fun ranges built h n => elements_of h n, self.ranges_eq_iff other, ?_⟩
  · intro n hn
    obtain ⟨r, hr, hfirst, hlast⟩ := hn
    have hversions := self.versions r hr
    exact ⟨le_trans hversions.1 hfirst, le_trans hlast hversions.2.2⟩
  · intro version
    ext n
    rw [mem_elements, mem_add, Set.mem_insert_iff, mem_elements, or_comm]
  · ext n
    rw [mem_elements, mem_union, Set.mem_union, mem_elements, mem_elements]
  · intro version
    ext n
    rw [mem_elements, mem_delete, Set.mem_sdiff, mem_elements, Set.mem_singleton_iff]
  · rw [← ranges_eq_iff]
    exact beq_iff_eq

theorem canonical_sets_sample :
    (of [[.num 5, .num 6], [.num 1, .num 2], [.num 3, .num 3]]).map ranges =
        .ok [(1, 3), (5, 6)] ∧
      ∀ built, of [[.num 5, .num 6], [.num 1, .num 2], [.num 3, .num 3]] = .ok built →
        (6 ∈ built.elements ↔ ∃ range ∈ [[Json.num 5, .num 6], [.num 1, .num 2], [.num 3, .num 3]],
          ∃ r, readRange range = .ok r ∧ r.val.1 ≤ 6 ∧ 6 ≤ r.val.2) := by
  refine ⟨rfl, fun built h => ?_⟩
  obtain ⟨-, -, -, -, -, -, -, -, hof, -⟩ := canonical_sets EMPTY EMPTY
  exact hof _ built h 6

end VersionRanges

end Swamp
