import Mathlib.Data.List.Sort
import Mathlib.Data.Finset.Image
import Swamp.OrderedMap
import Swamp.PathPlaces

/-!
# Which characters came from data

A `ProvenanceMap` marks places of a value: those that are data with everything below
them, ranges of characters of single strings, and objects whose keys are data.  A map
is put at a place of another by `graft`, and at many places at once by `graftAll`.
-/

namespace Swamp

namespace Provenance

open Js

/-- `DataRange`: from the first place up to the second. -/
abbrev DataRange := ℕ × ℕ

/-- Whether a place stands in one of the ranges. -/
def Covers (ranges : List DataRange) (i : ℕ) : Prop := ∃ range ∈ ranges, range.1 ≤ i ∧ i < range.2

/-- The order ranges are sorted in. -/
def rangeOrder (a b : DataRange) : Prop := a.1 < b.1 ∨ a.1 = b.1 ∧ a.2 ≤ b.2

/-- Keys are sorted by their text, code unit by code unit. -/
instance : DecidableRel rangeOrder :=
  fun a b => inferInstanceAs (Decidable (a.1 < b.1 ∨ a.1 = b.1 ∧ a.2 ≤ b.2))

/-- Sorted ranges behind `last`, those that meet made one. -/
def mergeFrom (last : DataRange) : List DataRange → List DataRange
  | [] => [last]
  | range :: rest =>
    if range.1 ≤ last.2 then mergeFrom (last.1, max last.2 range.2) rest
    else last :: mergeFrom range rest

def mergeRanges (ranges : List DataRange) : List DataRange :=
  match (ranges.filter (fun range => range.1 < range.2)).insertionSort rangeOrder with
  | [] => []
  | first :: rest => mergeFrom first rest

variable {i : ℕ}

theorem covers_nil : ¬ Covers [] i := by
  intro h
  obtain ⟨_, hmem, _⟩ := h
  cases hmem

theorem covers_cons {range : DataRange} {rest : List DataRange} :
    Covers (range :: rest) i ↔ (range.1 ≤ i ∧ i < range.2) ∨ Covers rest i := by
  simp [Covers]

theorem covers_append {a b : List DataRange} : Covers (a ++ b) i ↔ Covers a i ∨ Covers b i := by
  simp only [Covers, List.mem_append, or_and_right, exists_or]

theorem covers_mergeFrom {last : DataRange} {rest : List DataRange}
    (hsorted : (last :: rest).Pairwise rangeOrder) :
    Covers (mergeFrom last rest) i ↔ Covers (last :: rest) i := by
  induction rest generalizing last with
  | nil => rfl
  | cons range rest ih =>
    obtain ⟨hlast, hrest⟩ := List.pairwise_cons.mp hsorted
    have hfirst := hlast range List.mem_cons_self
    have hle : last.1 ≤ range.1 := by
      cases hfirst with
      | inl h => exact h.le
      | inr h => exact h.1.le
    rw [mergeFrom]
    split
    · rename_i hmeet
      have hsorted' : ((last.1, max last.2 range.2) :: rest).Pairwise rangeOrder := by
        refine List.pairwise_cons.mpr ⟨?_, (List.pairwise_cons.mp hrest).2⟩
        intro other hother
        have h1 := hlast other (List.mem_cons_of_mem _ hother)
        have h2 := (List.pairwise_cons.mp hrest).1 other hother
        unfold rangeOrder at *
        simp only
        omega
      rw [ih hsorted', covers_cons, covers_cons, covers_cons, ← or_assoc]
      apply or_congr_left
      simp only
      omega
    · rw [covers_cons, ih hrest]
      exact covers_cons.symm

/-- Keys are sorted by their text, code unit by code unit. -/
instance : Std.Total rangeOrder := ⟨by intro a b; unfold rangeOrder; omega⟩

/-- Keys are sorted by their text, code unit by code unit. -/
instance : IsTrans DataRange rangeOrder := ⟨by intro a b c; unfold rangeOrder; omega⟩

/-- **Merging covers what the ranges cover.** -/
theorem covers_mergeRanges {ranges : List DataRange} :
    Covers (mergeRanges ranges) i ↔ Covers ranges i := by
  have hsame : Covers ((ranges.filter (fun range => range.1 < range.2)).insertionSort
      rangeOrder) i ↔ Covers ranges i := by
    unfold Covers
    apply exists_congr
    intro range
    rw [(List.perm_insertionSort _ _).mem_iff, List.mem_filter, decide_eq_true_eq]
    constructor
    · exact fun h => ⟨h.1.1, h.2⟩
    · exact fun h => ⟨⟨h.1, by omega⟩, h.2⟩
  rw [← hsame, mergeRanges]
  have hsorted := List.pairwise_insertionSort rangeOrder
    (ranges.filter (fun range => range.1 < range.2))
  cases hlist : (ranges.filter (fun range => range.1 < range.2)).insertionSort rangeOrder with
  | nil => rfl
  | cons first rest => exact covers_mergeFrom (hlist ▸ hsorted)

structure ProvenanceMap where
  whole : Finset JsString
  ranges : OrderedMap JsString (List DataRange)
  keys : Finset JsString

namespace ProvenanceMap

/-- `ProvenanceMap.authored()`. -/
def authored : ProvenanceMap := ⟨∅, .empty, ∅⟩

/-- `ProvenanceMap.data()`. -/
def data : ProvenanceMap := ⟨{[]}, .empty, ∅⟩

def isAuthored (map : ProvenanceMap) : Bool :=
  map.whole = ∅ && map.ranges.entries.isEmpty && map.keys = ∅

/-- Whether one of the paths above a path is among some. -/
def underWhole (whole : Finset JsString) (path : JsString) : Bool :=
  (ancestorsOf path).any (· ∈ whole)

def isWholeDataAt (map : ProvenanceMap) (path : JsString) : Bool :=
  underWhole map.whole (canonicalPath path)

def rangesAt (map : ProvenanceMap) (path : JsString) : List DataRange :=
  (map.ranges.get (canonicalPath path)).getD []

def overlapsData (map : ProvenanceMap) (path : JsString) (start stop : ℕ) : Bool :=
  map.isWholeDataAt path ||
    (map.rangesAt path).any (fun range => range.1 < stop && start < range.2)

/-- Add the ranges of a path under its canonical form. -/
def addRanges (ranges : OrderedMap JsString (List DataRange))
    (entry : JsString × List DataRange) : OrderedMap JsString (List DataRange) :=
  let path := canonicalPath entry.1
  match ranges.get path with
  | some value => ranges.set path (mergeRanges (value ++ entry.2))
  | none => ranges.set path entry.2

def canonicalRanges (entries : List (JsString × List DataRange)) :
    OrderedMap JsString (List DataRange) := entries.foldl addRanges .empty

/-- `ProvenanceMap.of`. -/
def ofParts (wholeIn : Finset JsString) (rangesIn : OrderedMap JsString (List DataRange))
    (keysIn : Finset JsString) : ProvenanceMap :=
  let whole := wholeIn.image canonicalPath
  let ranges := canonicalRanges rangesIn.entries
  if [] ∈ whole then data
  else
    let pruned := OrderedMap.ofList (ranges.entries.filter (fun entry =>
      !entry.2.isEmpty && !underWhole whole entry.1))
    let keys := (keysIn.image canonicalPath).filter (fun path => underWhole whole path = false)
    if whole = ∅ ∧ pruned.entries = [] ∧ keys = ∅ then authored else ⟨whole, pruned, keys⟩

def graft (map : ProvenanceMap) (path : JsString) (sub : ProvenanceMap) : ProvenanceMap :=
  let path := canonicalPath path
  ofParts
    (map.whole.filter (fun key => isAtOrUnder key path = false) ∪
      sub.whole.image (prefixPath path))
    ((OrderedMap.ofList (map.ranges.entries.filter (fun entry => !isAtOrUnder entry.1 path))).setAll
      (sub.ranges.entries.map (fun entry => (prefixPath path entry.1, entry.2))))
    (map.keys.filter (fun key => isAtOrUnder key path = false) ∪ sub.keys.image (prefixPath path))

/-- The one pass of `graftAll`. -/
def graftEach (map : ProvenanceMap) (entries : List (JsString × ProvenanceMap)) : ProvenanceMap :=
  let targets := entries.map Prod.fst
  let replaced := fun key => (ancestorsOf key).any (· ∈ targets)
  ofParts
    (map.whole.filter (fun key => replaced key = false) ∪
      entries.foldl (fun whole entry => whole ∪ entry.2.whole.image (prefixPath entry.1)) ∅)
    ((OrderedMap.ofList (map.ranges.entries.filter (fun entry => !replaced entry.1))).setAll
      (entries.flatMap (fun entry => entry.2.ranges.entries.map (fun inner =>
        (prefixPath entry.1 inner.1, inner.2)))))
    (map.keys.filter (fun key => replaced key = false) ∪
      entries.foldl (fun keys entry => keys ∪ entry.2.keys.image (prefixPath entry.1)) ∅)

def graftAll (map : ProvenanceMap) (entries : List (JsString × ProvenanceMap)) : ProvenanceMap :=
  match entries with
  | [] => map
  | [(path, sub)] => map.graft path sub
  | entries => map.graftEach (entries.map (fun entry => (canonicalPath entry.1, entry.2)))

def withRanges (map : ProvenanceMap) (path : JsString) (ranges : List DataRange) :
    ProvenanceMap :=
  let path := canonicalPath path
  let merged := mergeRanges ranges
  let next := map.graft path authored
  if merged = [] then next
  else ofParts next.whole (next.ranges.set path merged) next.keys

/-- Whether a character of the string at a path came from data. -/
def IsData (map : ProvenanceMap) (path : JsString) (i : ℕ) : Prop :=
  map.isWholeDataAt path = true ∨ Covers (map.rangesAt path) i

/-- Every path a map marks is canonical. -/
structure Canonical (map : ProvenanceMap) : Prop where
  whole : ∀ path ∈ map.whole, canonicalPath path = path
  ranges : ∀ path ∈ map.ranges.keys, canonicalPath path = path

theorem nil_mem_ancestorsOf (path : JsString) : [] ∈ ancestorsOf path :=
  mem_ancestorsOf.mpr (Or.inr (Or.inl rfl))

variable {whole : Finset JsString} {path : JsString}

theorem underWhole_iff :
    underWhole whole path = true ↔ ∃ above ∈ ancestorsOf path, above ∈ whole := by
  simp [underWhole]

theorem overlapsData_of_isData {map : ProvenanceMap} {start stop : ℕ} (h : map.IsData path i)
    (hstart : start ≤ i) (hstop : i < stop) : map.overlapsData path start stop = true := by
  unfold overlapsData
  cases h with
  | inl hwhole => rw [hwhole, Bool.true_or]
  | inr hcovers =>
    obtain ⟨range, hmem, hle, hlt⟩ := hcovers
    rw [Bool.or_eq_true, List.any_eq_true]
    refine Or.inr ⟨range, hmem, ?_⟩
    simp only [Bool.and_eq_true, decide_eq_true_eq]
    omega

variable {ranges : OrderedMap JsString (List DataRange)}

/-- What the ranges a map holds for a path cover. -/
theorem covers_get :
    Covers ((ranges.get path).getD []) i ↔
      ∃ value, (path, value) ∈ ranges.entries ∧ Covers value i := by
  simp only [OrderedMap.mem_entries]
  cases ranges.get path with
  | none => simp [covers_nil]
  | some value => simp

theorem covers_addRanges {entry : JsString × List DataRange} :
    Covers (((addRanges ranges entry).get path).getD []) i ↔
      Covers ((ranges.get path).getD []) i ∨ (canonicalPath entry.1 = path ∧ Covers entry.2 i) := by
  unfold addRanges
  by_cases hpath : canonicalPath entry.1 = path
  · subst hpath
    cases hget : ranges.get (canonicalPath entry.1) with
    | none => simp [hget, covers_nil]
    | some value => simp [hget, covers_mergeRanges, covers_append]
  · cases hget : ranges.get (canonicalPath entry.1) with
    | none | some value => simp [hget, OrderedMap.get_set_ne _ _ (Ne.symm hpath), hpath]

theorem covers_canonicalRanges {entries : List (JsString × List DataRange)} :
    Covers (((canonicalRanges entries).get path).getD []) i ↔
      ∃ entry ∈ entries, canonicalPath entry.1 = path ∧ Covers entry.2 i := by
  have hfold : ∀ ranges : OrderedMap JsString (List DataRange),
      Covers (((entries.foldl addRanges ranges).get path).getD []) i ↔
        Covers ((ranges.get path).getD []) i ∨
          ∃ entry ∈ entries, canonicalPath entry.1 = path ∧ Covers entry.2 i := by
    induction entries with
    | nil => simp
    | cons entry rest ih =>
      intro ranges
      rw [List.foldl_cons, ih, covers_addRanges, or_assoc]
      simp only [List.mem_cons, or_and_right, exists_or, exists_eq_left]
  rw [canonicalRanges, hfold]
  simp [covers_nil]

theorem covers_pruned :
    Covers (((OrderedMap.ofList (ranges.entries.filter (fun entry =>
      !entry.2.isEmpty && !underWhole whole entry.1))).get path).getD []) i ↔
      underWhole whole path = false ∧ Covers ((ranges.get path).getD []) i := by
  have hnodup : ((ranges.entries.filter (fun entry =>
      !entry.2.isEmpty && !underWhole whole entry.1)).map Prod.fst).Nodup :=
    ranges.nodup.sublist (List.filter_sublist.map Prod.fst)
  rw [covers_get, covers_get, OrderedMap.entries_ofList hnodup]
  simp only [List.mem_filter, Bool.and_eq_true, Bool.not_eq_true']
  constructor
  · intro h
    obtain ⟨value, ⟨hmem, _, hunder⟩, hcovers⟩ := h
    exact ⟨hunder, value, hmem, hcovers⟩
  · intro h
    obtain ⟨hunder, value, hmem, hcovers⟩ := h
    refine ⟨value, ⟨hmem, ?_, hunder⟩, hcovers⟩
    cases value with
    | nil => exact absurd hcovers covers_nil
    | cons range rest => rfl

/-- A map without a mark is the authored one. -/
theorem authored_eq {map : ProvenanceMap}
    (h : map.whole = ∅ ∧ map.ranges.entries = [] ∧ map.keys = ∅) : authored = map := by
  obtain ⟨whole, ⟨entries, nodup⟩, keys⟩ := map
  obtain ⟨hwhole, hranges, hkeys⟩ := h
  simp only at hwhole hranges hkeys
  subst hwhole hranges hkeys
  rfl

theorem underWhole_image :
    underWhole (whole.image canonicalPath) path = true ↔
      ∃ key ∈ whole, canonicalPath key ∈ ancestorsOf path := by
  rw [underWhole_iff]
  simp only [Finset.mem_image]
  constructor
  · intro h
    obtain ⟨above, habove, key, hkey, heq⟩ := h
    exact ⟨key, hkey, heq ▸ habove⟩
  · intro h
    obtain ⟨key, hkey, habove⟩ := h
    exact ⟨_, habove, key, hkey, rfl⟩

/-- **What a map made of parts marks**: what its parts mark, folded or not. -/
theorem isData_ofParts {keys : Finset JsString} :
    (ofParts whole ranges keys).IsData path i ↔
      (∃ key ∈ whole, canonicalPath key ∈ ancestorsOf (canonicalPath path)) ∨
        ∃ entry ∈ ranges.entries,
          canonicalPath entry.1 = canonicalPath path ∧ Covers entry.2 i := by
  rw [← underWhole_image, ← covers_canonicalRanges]
  unfold ofParts
  by_cases hroot : [] ∈ whole.image canonicalPath
  · -- The whole value is data, and so is every path.
    have hall : ∀ some : Finset JsString, [] ∈ some → underWhole some (canonicalPath path) = true :=
      fun some hmem => underWhole_iff.mpr ⟨[], nil_mem_ancestorsOf _, hmem⟩
    simp only [if_pos hroot]
    refine iff_of_true (Or.inl ?_) (Or.inl (hall _ hroot))
    exact hall _ (Finset.mem_singleton_self _)
  · simp only [if_neg hroot]
    have hsame : ∀ map : ProvenanceMap,
        (if map.whole = ∅ ∧ map.ranges.entries = [] ∧ map.keys = ∅ then authored else map) =
          map := by
      intro map
      split
      · rename_i h
        exact authored_eq h
      · rfl
    rw [hsame ⟨_, _, _⟩, IsData, isWholeDataAt, rangesAt, covers_pruned]
    cases underWhole (whole.image canonicalPath) (canonicalPath path) <;> simp

end ProvenanceMap

end Provenance

end Swamp
