import Swamp.ProvenanceMap

/-!
# Maps put at places

`graftAll` replaces what a map says at and below each of several places, none of them
below another, by a map of its own.

Where a map is only said to mark no more than before, its paths are canonical: a path
that still has something to fold is folded once more when the map is put together
again.
-/

namespace Swamp

namespace Provenance

open Js

namespace ProvenanceMap

/-- Changes with the path of their place, as `graftAll` takes them. -/
def atPaths (changes : List (List Step × ProvenanceMap)) : List (JsString × ProvenanceMap) :=
  changes.map (fun change => (pathOf change.1, change.2))

/-- No place of a change stands at or below that of another. -/
def Apart (changes : List (List Step × ProvenanceMap)) : Prop :=
  changes.Pairwise (fun a b => ¬ a.1 <+: b.1 ∧ ¬ b.1 <+: a.1)

/-- No change stands at or above a path. -/
def Untouched (changes : List (List Step × ProvenanceMap)) (path : JsString) : Prop :=
  ∀ change ∈ changes, pathOf change.1 ∉ ancestorsOf path

variable {map : ProvenanceMap} {changes : List (List Step × ProvenanceMap)}

theorem Apart.eq_of_prefix (h : Apart changes) {a b : List Step × ProvenanceMap}
    (ha : a ∈ changes) (hb : b ∈ changes) (hab : a.1 <+: b.1) : a = b := by
  by_contra hne
  have hsymm : Std.Symm (fun a b : List Step × ProvenanceMap => ¬ a.1 <+: b.1 ∧ ¬ b.1 <+: a.1) :=
    ⟨fun _ _ hboth => And.symm hboth⟩
  exact (h.forall ha hb hne).1 hab

theorem mem_ancestorsOf_prefixPath_pathOf (place : List Step) (path : JsString) :
    pathOf place ∈ ancestorsOf (prefixPath (pathOf place) path) :=
  isAtOrUnder_pathOf.mp (isAtOrUnder_prefixPath _ _)

/-- The ranges of the changes, each under its place. -/
def innerRanges (changes : List (List Step × ProvenanceMap)) : List (JsString × List DataRange) :=
  changes.flatMap (fun change => change.2.ranges.entries.map (fun inner =>
    (prefixPath (pathOf change.1) inner.1, inner.2)))

theorem innerRanges_nodup (h : Apart changes) : ((innerRanges changes).map Prod.fst).Nodup := by
  induction changes with
  | nil => exact List.nodup_nil
  | cons change rest ih =>
    obtain ⟨hfirst, hrest⟩ := List.pairwise_cons.mp h
    rw [innerRanges, List.flatMap_cons, List.map_append, List.map_map]
    refine List.nodup_append.mpr ⟨?_, ih hrest, ?_⟩
    · have hkeys := change.2.ranges.nodup
      have hmap := hkeys.map (fun _ _ heq => prefixPath_cancel heq :
        Function.Injective (prefixPath (pathOf change.1)))
      rwa [List.map_map] at hmap
    · intro a ha b hb heq
      subst heq
      obtain ⟨inner, _, ha⟩ := List.mem_map.mp ha
      obtain ⟨entry, hentry, hb⟩ := List.mem_map.mp hb
      obtain ⟨other, hother, hentry⟩ := List.mem_flatMap.mp hentry
      obtain ⟨inner', _, hentry⟩ := List.mem_map.mp hentry
      obtain ⟨hleft, hright⟩ := hfirst other hother
      -- Two places above one path stand one above the other.
      have habove : pathOf change.1 ∈ ancestorsOf a := ha ▸ mem_ancestorsOf_prefixPath_pathOf _ _
      have habove' : pathOf other.1 ∈ ancestorsOf a := by
        rw [← hb, ← hentry]
        exact mem_ancestorsOf_prefixPath_pathOf _ _
      rcases Nat.le_total (pathOf change.1).length (pathOf other.1).length with hle | hle
      · exact hleft (pathOf_mem_ancestorsOf.mp (mem_ancestorsOf_of_le habove habove' hle))
      · exact hright (pathOf_mem_ancestorsOf.mp (mem_ancestorsOf_of_le habove' habove hle))

/-- The paths and ranges a map is made of once the changes are put at their places. -/
structure Grafted (map : ProvenanceMap) (changes : List (List Step × ProvenanceMap))
    (whole : Finset JsString) (ranges : OrderedMap JsString (List DataRange)) : Prop where
  mem_whole : ∀ key, key ∈ whole ↔ (key ∈ map.whole ∧ Untouched changes key) ∨
    ∃ change ∈ changes, ∃ inner ∈ change.2.whole, prefixPath (pathOf change.1) inner = key
  mem_ranges : ∀ entry, entry ∈ ranges.entries ↔
    (entry ∈ map.ranges.entries ∧ Untouched changes entry.1) ∨ entry ∈ innerRanges changes

theorem grafted_entries (happart : Apart changes) {touched : JsString → Bool}
    (htouched : ∀ path, touched path = false ↔ Untouched changes path)
    {entry : JsString × List DataRange} :
    entry ∈ ((OrderedMap.ofList (map.ranges.entries.filter (fun entry => !touched entry.1))).setAll
      (innerRanges changes)).entries ↔
      (entry ∈ map.ranges.entries ∧ Untouched changes entry.1) ∨ entry ∈ innerRanges changes := by
  have hkept : ((map.ranges.entries.filter (fun entry => !touched entry.1)).map Prod.fst).Nodup :=
    map.ranges.nodup.sublist (List.filter_sublist.map Prod.fst)
  have hnodup : (((map.ranges.entries.filter (fun entry => !touched entry.1)) ++
      innerRanges changes).map Prod.fst).Nodup := by
    rw [List.map_append]
    refine List.nodup_append.mpr ⟨hkept, innerRanges_nodup happart, ?_⟩
    intro a ha b hb heq
    subst heq
    obtain ⟨entry, hentry, ha⟩ := List.mem_map.mp ha
    obtain ⟨inner, hinner, hb⟩ := List.mem_map.mp hb
    obtain ⟨change, hchange, hinner⟩ := List.mem_flatMap.mp hinner
    obtain ⟨_, _, hinner⟩ := List.mem_map.mp hinner
    have huntouched := (htouched _).mp (by simpa using (List.mem_filter.mp hentry).2)
    apply huntouched change hchange
    rw [ha, ← hb, ← hinner]
    exact mem_ancestorsOf_prefixPath_pathOf _ _
  rw [OrderedMap.entries_setAll, OrderedMap.entries_ofList hkept, List.mem_append, List.mem_filter,
    Bool.not_eq_true', htouched]
  rw [OrderedMap.entries_ofList hkept]
  exact hnodup

theorem mem_foldl_union {α : Type} {f : α → Finset JsString} {entries : List α}
    {start : Finset JsString} {key : JsString} :
    key ∈ entries.foldl (fun whole entry => whole ∪ f entry) start ↔
      key ∈ start ∨ ∃ entry ∈ entries, key ∈ f entry := by
  induction entries generalizing start with
  | nil => simp
  | cons entry rest ih =>
    rw [List.foldl_cons, ih, Finset.mem_union, or_assoc]
    simp only [List.mem_cons, or_and_right, exists_or, exists_eq_left]

/-- **What `graftAll` makes its map of.** -/
theorem graftAll_parts (happart : Apart changes) (hne : changes ≠ []) :
    ∃ whole ranges keys, map.graftAll (atPaths changes) = ofParts whole ranges keys ∧
      Grafted map changes whole ranges ∧
      ∀ key, key ∈ keys ↔ (key ∈ map.keys ∧ Untouched changes key) ∨
        ∃ change ∈ changes, ∃ inner ∈ change.2.keys, prefixPath (pathOf change.1) inner = key := by
  match changes, hne with
  | [change], _ =>
    have htouched : ∀ path, isAtOrUnder path (pathOf change.1) = false ↔
        Untouched [change] path := by
      intro path
      rw [← Bool.not_eq_true, isAtOrUnder_pathOf]
      simp [Untouched]
    have hinner : change.2.ranges.entries.map (fun entry =>
        (prefixPath (pathOf change.1) entry.1, entry.2)) = innerRanges [change] := by
      simp [innerRanges]
    refine ⟨_, _, _, rfl, ⟨?_, ?_⟩, ?_⟩
    · intro key
      rw [canonicalPath_pathOf]
      simp [htouched]
    · intro entry
      rw [canonicalPath_pathOf, hinner]
      exact grafted_entries happart htouched
    · intro key
      rw [canonicalPath_pathOf]
      simp [htouched]
  | first :: second :: rest, _ =>
    have hcanonical : (atPaths (first :: second :: rest)).map (fun entry =>
        (canonicalPath entry.1, entry.2)) = atPaths (first :: second :: rest) := by
      simp only [atPaths, List.map_map]
      apply List.map_congr_left
      intro change _
      simp [canonicalPath_pathOf]
    have htouched : ∀ path, (ancestorsOf path).any
        (· ∈ (atPaths (first :: second :: rest)).map Prod.fst) = false ↔
        Untouched (first :: second :: rest) path := by
      intro path
      rw [List.any_eq_false]
      simp only [decide_eq_true_eq, atPaths, List.map_map, List.mem_map, Function.comp]
      constructor
      · intro h change hchange habove
        exact h _ habove ⟨change, hchange, rfl⟩
      · intro h above habove hmem
        obtain ⟨change, hchange, rfl⟩ := hmem
        exact h change hchange habove
    have hform : map.graftAll (atPaths (first :: second :: rest)) =
        map.graftEach (atPaths (first :: second :: rest)) :=
      congrArg map.graftEach hcanonical
    have hinner : (atPaths (first :: second :: rest)).flatMap (fun entry =>
        entry.2.ranges.entries.map (fun inner => (prefixPath entry.1 inner.1, inner.2))) =
        innerRanges (first :: second :: rest) := List.flatMap_map ..
    refine ⟨_, _, _, hform, ⟨?_, ?_⟩, ?_⟩
    · intro key
      rw [Finset.mem_union, Finset.mem_filter, htouched, mem_foldl_union]
      simp [atPaths]
    · intro entry
      rw [hinner]
      exact grafted_entries happart htouched
    · intro key
      rw [Finset.mem_union, Finset.mem_filter, htouched, mem_foldl_union]
      simp [atPaths]

theorem isWholeDataAt_pathOf {place : List Step} :
    map.isWholeDataAt (pathOf place) = true ↔
      ∃ above, above <+: place ∧ pathOf above ∈ map.whole := by
  rw [isWholeDataAt, canonicalPath_pathOf, underWhole_iff]
  constructor
  · intro h
    obtain ⟨path, hpath, hmem⟩ := h
    obtain ⟨above, habove, heq⟩ := mem_ancestorsOf_pathOf.mp hpath
    exact ⟨above, habove, heq ▸ hmem⟩
  · intro h
    obtain ⟨above, habove, hmem⟩ := h
    exact ⟨_, pathOf_mem_ancestorsOf.mpr habove, hmem⟩

theorem covers_rangesAt_pathOf {place : List Step} {i : ℕ} :
    Covers (map.rangesAt (pathOf place)) i ↔
      ∃ value, (pathOf place, value) ∈ map.ranges.entries ∧ Covers value i := by
  rw [rangesAt, canonicalPath_pathOf, covers_get]

theorem isData_graftAll (happart : Apart changes) (hne : changes ≠ []) {place : List Step} {i : ℕ} :
    (map.graftAll (atPaths changes)).IsData (pathOf place) i ↔
      (∃ key ∈ map.whole, Untouched changes key ∧
          canonicalPath key ∈ ancestorsOf (pathOf place)) ∨
        (∃ change ∈ changes, ∃ inner ∈ change.2.whole,
          canonicalPath (prefixPath (pathOf change.1) inner) ∈ ancestorsOf (pathOf place)) ∨
        (∃ entry ∈ map.ranges.entries, Untouched changes entry.1 ∧
          canonicalPath entry.1 = pathOf place ∧ Covers entry.2 i) ∨
        ∃ change ∈ changes, ∃ inner ∈ change.2.ranges.entries,
          canonicalPath (prefixPath (pathOf change.1) inner.1) = pathOf place ∧
            Covers inner.2 i := by
  obtain ⟨whole, ranges, keys, heq, hgrafted, _⟩ := @graftAll_parts map changes happart hne
  rw [heq, isData_ofParts, canonicalPath_pathOf]
  simp only [hgrafted.mem_whole, hgrafted.mem_ranges, innerRanges, List.mem_flatMap, List.mem_map]
  constructor
  · intro h
    rcases h with ⟨key, hkey | ⟨change, hchange, inner, hinner, rfl⟩, habove⟩ |
      ⟨entry, hentry | ⟨change, hchange, inner, hinner, rfl⟩, hpath, hcovers⟩
    · exact Or.inl ⟨key, hkey.1, hkey.2, habove⟩
    · exact Or.inr (Or.inl ⟨change, hchange, inner, hinner, habove⟩)
    · exact Or.inr (Or.inr (Or.inl ⟨entry, hentry.1, hentry.2, hpath, hcovers⟩))
    · exact Or.inr (Or.inr (Or.inr ⟨change, hchange, inner, hinner, hpath, hcovers⟩))
  · intro h
    rcases h with ⟨key, hkey, huntouched, habove⟩ | ⟨change, hchange, inner, hinner, habove⟩ |
      ⟨entry, hentry, huntouched, hpath, hcovers⟩ | ⟨change, hchange, inner, hinner, hpath, hcovers⟩
    · exact Or.inl ⟨key, Or.inl ⟨hkey, huntouched⟩, habove⟩
    · exact Or.inl ⟨_, Or.inr ⟨change, hchange, inner, hinner, rfl⟩, habove⟩
    · exact Or.inr ⟨entry, Or.inl ⟨hentry, huntouched⟩, hpath, hcovers⟩
    · exact Or.inr ⟨_, Or.inr ⟨change, hchange, inner, hinner, rfl⟩, hpath, hcovers⟩

/-- **What a map marks stays marked below the place it is put at.** -/
theorem isData_graftAll_under (happart : Apart changes) {root : List Step} {sub : ProvenanceMap}
    (hmem : (root, sub) ∈ changes) {place : List Step} {i : ℕ} (h : sub.IsData (pathOf place) i) :
    (map.graftAll (atPaths changes)).IsData (pathOf (root ++ place)) i := by
  rw [isData_graftAll happart (List.ne_nil_of_mem hmem)]
  have hpath : ∀ above, canonicalPath (prefixPath (pathOf root) (pathOf above)) =
      pathOf (root ++ above) := by
    intro above
    rw [prefixPath_pathOf, canonicalPath_pathOf]
  cases h with
  | inl hwhole =>
    obtain ⟨above, habove, hkey⟩ := isWholeDataAt_pathOf.mp hwhole
    refine Or.inr (Or.inl ⟨_, hmem, _, hkey, ?_⟩)
    rw [hpath, pathOf_mem_ancestorsOf]
    exact (List.prefix_append_right_inj root).mpr habove
  | inr hcovers =>
    obtain ⟨value, hentry, hcovers⟩ := covers_rangesAt_pathOf.mp hcovers
    exact Or.inr (Or.inr (Or.inr ⟨_, hmem, _, hentry, hpath place, hcovers⟩))

theorem untouched_of_mem {place : List Step} {path : JsString}
    (hout : ∀ change ∈ changes, ¬ change.1 <+: place) (h : path ∈ ancestorsOf (pathOf place)) :
    Untouched changes path := by
  intro change hchange habove
  obtain ⟨above, habove', heq⟩ := mem_ancestorsOf_pathOf.mp h
  rw [heq, pathOf_mem_ancestorsOf] at habove
  exact hout change hchange (habove.trans habove')

/-- **What stands below none of the places stays marked**, -/
theorem isData_graftAll_kept (happart : Apart changes) {place : List Step}
    (hout : ∀ change ∈ changes, ¬ change.1 <+: place) {i : ℕ} (h : map.IsData (pathOf place) i) :
    (map.graftAll (atPaths changes)).IsData (pathOf place) i := by
  by_cases hne : changes = []
  · rw [hne]
    exact h
  rw [isData_graftAll happart hne]
  cases h with
  | inl hwhole =>
    obtain ⟨above, habove, hkey⟩ := isWholeDataAt_pathOf.mp hwhole
    have hmem : pathOf above ∈ ancestorsOf (pathOf place) := pathOf_mem_ancestorsOf.mpr habove
    refine Or.inl ⟨_, hkey, untouched_of_mem hout hmem, ?_⟩
    rwa [canonicalPath_pathOf]
  | inr hcovers =>
    obtain ⟨value, hentry, hcovers⟩ := covers_rangesAt_pathOf.mp hcovers
    have hmem : pathOf place ∈ ancestorsOf (pathOf place) :=
      pathOf_mem_ancestorsOf.mpr (List.prefix_refl _)
    exact Or.inr (Or.inr (Or.inl ⟨_, hentry, untouched_of_mem hout hmem,
      canonicalPath_pathOf place, hcovers⟩))

theorem prefix_of_eq {root place : List Step} {path : JsString}
    (h : canonicalPath (prefixPath (pathOf root) path) = pathOf place) : root <+: place := by
  apply @prefix_of_mem_ancestorsOf root place path
  rw [h, pathOf_mem_ancestorsOf]

/-- **and, where the map's paths are canonical, nothing else does.** -/
theorem isData_of_graftAll (happart : Apart changes) (hcanonical : map.Canonical)
    {place : List Step} (hout : ∀ change ∈ changes, ¬ change.1 <+: place) {i : ℕ}
    (h : (map.graftAll (atPaths changes)).IsData (pathOf place) i) :
    map.IsData (pathOf place) i := by
  by_cases hne : changes = []
  · rw [hne] at h
    exact h
  have hself : pathOf place ∈ ancestorsOf (pathOf place) :=
    pathOf_mem_ancestorsOf.mpr (List.prefix_refl _)
  rcases (isData_graftAll happart hne).mp h with ⟨key, hkey, _, habove⟩ |
    ⟨change, hchange, inner, _, habove⟩ | ⟨entry, hentry, _, hpath, hcovers⟩ |
    ⟨change, hchange, inner, _, hpath, _⟩
  · rw [hcanonical.whole key hkey] at habove
    obtain ⟨above, habove, heq⟩ := mem_ancestorsOf_pathOf.mp habove
    exact Or.inl (isWholeDataAt_pathOf.mpr ⟨above, habove, heq ▸ hkey⟩)
  · exact absurd (prefix_of_mem_ancestorsOf habove) (hout change hchange)
  · rw [hcanonical.ranges entry.1 (List.mem_map_of_mem hentry)] at hpath
    exact Or.inr (covers_rangesAt_pathOf.mpr ⟨entry.2, hpath ▸ hentry, hcovers⟩)
  · exact absurd (prefix_of_eq hpath) (hout change hchange)

/-- The ranges of one string. -/
theorem withRanges_authored (ranges : List DataRange) :
    (authored.withRanges [] ranges).whole = ∅ ∧
      (authored.withRanges [] ranges).ranges.entries =
        if mergeRanges ranges = [] then [] else [([], mergeRanges ranges)] := by
  have hgraft : authored.graft [] authored = authored := rfl
  have hroot : canonicalPath [] = [] := rfl
  unfold withRanges
  simp only [hgraft, hroot]
  split
  · exact ⟨rfl, rfl⟩
  · rename_i hne
    have hsome : (mergeRanges ranges).isEmpty = false := by simpa using hne
    have hranges : canonicalRanges (authored.ranges.set [] (mergeRanges ranges)).entries =
        authored.ranges.set [] (mergeRanges ranges) := rfl
    have hnone : ∀ path, underWhole ∅ path = false := by
      intro path
      simp [underWhole]
    have hentries : (authored.ranges.set [] (mergeRanges ranges)).entries =
        [([], mergeRanges ranges)] := rfl
    have hkept : (authored.ranges.set [] (mergeRanges ranges)).entries.filter (fun entry =>
        !entry.2.isEmpty && !underWhole ∅ entry.1) = [([], mergeRanges ranges)] := by
      rw [hentries, List.filter_cons_of_pos (by simp [hsome, hnone]), List.filter_nil]
    have hparts : ofParts authored.whole (authored.ranges.set [] (mergeRanges ranges))
        authored.keys = ⟨∅, OrderedMap.ofList [([], mergeRanges ranges)], ∅⟩ := by
      have hwhole : authored.whole.image canonicalPath = ∅ := rfl
      have hkeys : authored.keys.image canonicalPath = ∅ := rfl
      unfold ofParts
      simp only [hranges, hwhole, hkeys, hkept, Finset.filter_empty]
      rfl
    rw [hparts]
    exact ⟨rfl, rfl⟩

/-- **Ranges put at a place mark the characters they cover**, -/
theorem isData_graftAll_ranges (happart : Apart changes) {place : List Step}
    {ranges : List DataRange} (hmem : (place, authored.withRanges [] ranges) ∈ changes) {i : ℕ}
    (h : Covers ranges i) : (map.graftAll (atPaths changes)).IsData (pathOf place) i := by
  have hsub : (authored.withRanges [] ranges).IsData (pathOf []) i := by
    have hcovers := covers_mergeRanges.mpr h
    have hne : mergeRanges ranges ≠ [] := fun heq => covers_nil (heq ▸ hcovers)
    refine Or.inr (covers_rangesAt_pathOf.mpr ⟨mergeRanges ranges, ?_, hcovers⟩)
    rw [(withRanges_authored ranges).2, if_neg hne]
    exact List.mem_singleton_self _
  have hunder := @isData_graftAll_under map _ happart _ _ hmem _ _ hsub
  rwa [List.append_nil] at hunder

/-- **and no other, where the map's paths are canonical and the place was not data as a
whole.** -/
theorem covers_of_graftAll (happart : Apart changes) (hcanonical : map.Canonical)
    {place : List Step} (hfresh : map.isWholeDataAt (pathOf place) = false)
    {ranges : List DataRange} (hmem : (place, authored.withRanges [] ranges) ∈ changes) {i : ℕ}
    (h : (map.graftAll (atPaths changes)).IsData (pathOf place) i) : Covers ranges i := by
  have hself : pathOf place ∈ ancestorsOf (pathOf place) :=
    pathOf_mem_ancestorsOf.mpr (List.prefix_refl _)
  obtain ⟨hwhole, hentries⟩ := withRanges_authored ranges
  rcases (isData_graftAll happart (List.ne_nil_of_mem hmem)).mp h with ⟨key, hkey, _, habove⟩ |
    ⟨change, hchange, inner, hinner, habove⟩ | ⟨entry, hentry, huntouched, hpath, _⟩ |
    ⟨change, hchange, inner, hinner, hpath, hcovers⟩
  · rw [hcanonical.whole key hkey] at habove
    obtain ⟨above, habove, heq⟩ := mem_ancestorsOf_pathOf.mp habove
    rw [isWholeDataAt_pathOf.mpr ⟨above, habove, heq ▸ hkey⟩] at hfresh
    cases hfresh
  · have hsame := happart.eq_of_prefix hchange hmem (prefix_of_mem_ancestorsOf habove)
    rw [hsame, hwhole] at hinner
    cases hinner
  · rw [hcanonical.ranges entry.1 (List.mem_map_of_mem hentry)] at hpath
    exact absurd (hpath ▸ hself) (huntouched _ hmem)
  · have hsame := happart.eq_of_prefix hchange hmem (prefix_of_eq hpath)
    rw [hsame, hentries] at hinner
    split at hinner
    · cases hinner
    · rw [List.mem_singleton.mp hinner] at hcovers
      exact covers_mergeRanges.mp hcovers

end ProvenanceMap

end Provenance

end Swamp
