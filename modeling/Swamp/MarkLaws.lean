import Swamp.MapMarks

/-!
# Grafting, by place

What `graft`, `graftAll`, `withRanges` and `withWholeData` do to the marks of a map.  A
graft replaces what is said at and below its place, but what lies strictly below a place
that is data as a whole stays data.  Grafting at many places is grafting one by one, in
any order.
-/

namespace Swamp

namespace Provenance

open Js

namespace ProvenanceMap

variable {map : ProvenanceMap} {changes : List (List Step × ProvenanceMap)}

/-- Changes with the marks of what they graft. -/
def changeMarks (changes : List (List Step × ProvenanceMap)) : List (List Step × Marks) :=
  changes.map (fun change => (change.1, change.2.marks))

theorem untouched_pathOf {place : List Step} :
    Untouched changes (pathOf place) ↔ ∀ change ∈ changes, ¬ change.1 <+: place := by
  simp only [Untouched, pathOf_mem_ancestorsOf]

/-- The paths of the map and of the changes, before they are put in order. -/
structure Composed (map : ProvenanceMap) (changes : List (List Step × ProvenanceMap))
    (made : ProvenanceMap) : Prop where
  grafted : Grafted map changes made.whole made.ranges
  mem_keys : ∀ key, key ∈ made.keys ↔ (key ∈ map.keys ∧ Untouched changes key) ∨
    ∃ change ∈ changes, ∃ inner ∈ change.2.keys, prefixPath (pathOf change.1) inner = key

theorem graftAll_composed (happart : Apart changes) (hne : changes ≠ []) :
    ∃ made, map.graftAll (atPaths changes) = ofParts made.whole made.ranges made.keys ∧
      Composed map changes made := by
  obtain ⟨whole, ranges, keys, heq, hgrafted, hkeys⟩ := @graftAll_parts map changes happart hne
  exact ⟨⟨whole, ranges, keys⟩, heq, hgrafted, hkeys⟩

variable {made : ProvenanceMap}

theorem Composed.placed (h : Composed map changes made) (hmap : Placed map)
    (hsubs : ∀ change ∈ changes, Placed change.2) : Placed made where
  whole := by
    intro key hkey
    rcases (h.grafted.mem_whole key).mp hkey with ⟨hmem, _⟩ | ⟨change, hchange, inner, hinner, rfl⟩
    · exact hmap.whole key hmem
    · obtain ⟨place, rfl⟩ := (hsubs change hchange).whole inner hinner
      exact ⟨change.1 ++ place, prefixPath_pathOf _ _⟩
  ranges := by
    intro entry hentry
    rcases (h.grafted.mem_ranges entry).mp hentry with ⟨hmem, _⟩ | hinner
    · exact hmap.ranges entry hmem
    · obtain ⟨change, hchange, hput⟩ := List.mem_flatMap.mp hinner
      obtain ⟨inner, hmem, rfl⟩ := List.mem_map.mp hput
      obtain ⟨place, hplace⟩ := (hsubs change hchange).ranges inner hmem
      exact ⟨change.1 ++ place, by rw [hplace, prefixPath_pathOf]⟩
  keys := by
    intro key hkey
    rcases (h.mem_keys key).mp hkey with ⟨hmem, _⟩ | ⟨change, hchange, inner, hinner, rfl⟩
    · exact hmap.keys key hmem
    · obtain ⟨place, rfl⟩ := (hsubs change hchange).keys inner hinner
      exact ⟨change.1 ++ place, prefixPath_pathOf _ _⟩
  ordered := by
    intro entry hentry
    rcases (h.grafted.mem_ranges entry).mp hentry with ⟨hmem, _⟩ | hinner
    · exact hmap.ordered entry hmem
    · obtain ⟨change, hchange, hput⟩ := List.mem_flatMap.mp hinner
      obtain ⟨inner, hmem, rfl⟩ := List.mem_map.mp hput
      exact (hsubs change hchange).ordered inner hmem

/-- A path of a place that a change puts there. -/
theorem prefixPath_eq_pathOf {root place : List Step} {inner : JsString}
    (hinner : ∃ other, inner = pathOf other) :
    prefixPath (pathOf root) inner = pathOf place ↔
      ∃ below, place = root ++ below ∧ inner = pathOf below := by
  obtain ⟨other, rfl⟩ := hinner
  rw [prefixPath_pathOf]
  constructor
  · exact fun h => ⟨other, (pathOf_injective h).symm, rfl⟩
  · intro h
    obtain ⟨below, rfl, heq⟩ := h
    rw [pathOf_injective heq]

theorem pathOf_mem_iff {paths own : Finset JsString} {read : ProvenanceMap → Finset JsString}
    (h : ∀ key, key ∈ paths ↔ (key ∈ own ∧ Untouched changes key) ∨
      ∃ change ∈ changes, ∃ inner ∈ read change.2, prefixPath (pathOf change.1) inner = key)
    (hread : ∀ change ∈ changes, ∀ key ∈ read change.2, ∃ place, key = pathOf place)
    {place : List Step} :
    pathOf place ∈ paths ↔
      (pathOf place ∈ own ∧ ∀ change ∈ changes, ¬ change.1 <+: place) ∨
        ∃ change ∈ changes, ∃ below, place = change.1 ++ below ∧ pathOf below ∈ read change.2 := by
  rw [h, untouched_pathOf]
  refine or_congr_right (exists_congr (fun change => and_congr_right (fun hchange => ?_)))
  constructor
  · intro hexists
    obtain ⟨inner, hinner, heq⟩ := hexists
    obtain ⟨below, hplace, rfl⟩ :=
      (prefixPath_eq_pathOf (hread change hchange inner hinner)).mp heq
    exact ⟨below, hplace, hinner⟩
  · intro hexists
    obtain ⟨below, rfl, hinner⟩ := hexists
    exact ⟨_, hinner, prefixPath_pathOf _ _⟩

theorem Composed.mem_ranges (h : Composed map changes made)
    (hsubs : ∀ change ∈ changes, Placed change.2) {place : List Step} {value : List DataRange} :
    (pathOf place, value) ∈ made.ranges.entries ↔
      ((pathOf place, value) ∈ map.ranges.entries ∧ ∀ change ∈ changes, ¬ change.1 <+: place) ∨
        ∃ change ∈ changes, ∃ below, place = change.1 ++ below ∧
          (pathOf below, value) ∈ change.2.ranges.entries := by
  rw [h.grafted.mem_ranges, untouched_pathOf]
  apply or_congr_right
  simp only [innerRanges, List.mem_flatMap, List.mem_map]
  refine exists_congr (fun change => and_congr_right (fun hchange => ?_))
  constructor
  · intro hexists
    obtain ⟨inner, hinner, heq⟩ := hexists
    obtain ⟨hpath, rfl⟩ := Prod.mk.inj heq
    obtain ⟨below, hplace, hbelow⟩ :=
      (prefixPath_eq_pathOf ((hsubs change hchange).ranges inner hinner)).mp hpath
    exact ⟨below, hplace, hbelow ▸ hinner⟩
  · intro hexists
    obtain ⟨below, rfl, hinner⟩ := hexists
    exact ⟨_, hinner, by rw [prefixPath_pathOf]⟩

/-- No place of a change stands at or below that of another. -/
def Marks.Apart (changes : List (List Step × Marks)) : Prop :=
  changes.Pairwise (fun a b => ¬ a.1 <+: b.1 ∧ ¬ b.1 <+: a.1)

theorem apart_changeMarks (h : Apart changes) : Marks.Apart (changeMarks changes) :=
  List.pairwise_map.mpr h

/-- One change only reaches a place below its own. -/
theorem exists_change_iff {α : Type} {changes : List (List Step × α)}
    (h : changes.Pairwise (fun a b => ¬ a.1 <+: b.1 ∧ ¬ b.1 <+: a.1)) {root below : List Step}
    {sub : α} (hmem : (root, sub) ∈ changes) {P : List Step × α → List Step → Prop} :
    (∃ change ∈ changes, ∃ rest, root ++ below = change.1 ++ rest ∧ P change rest) ↔
      P (root, sub) below := by
  constructor
  · intro hexists
    obtain ⟨change, hchange, rest, heq, hP⟩ := hexists
    have hsame : (root, sub) = change := by
      by_contra hne
      have hsymm : Std.Symm (fun a b : List Step × α => ¬ a.1 <+: b.1 ∧ ¬ b.1 <+: a.1) :=
        ⟨fun _ _ hboth => And.symm hboth⟩
      obtain ⟨hleft, hright⟩ := h.forall hmem hchange hne
      rcases List.prefix_or_prefix_of_prefix (List.prefix_append root below)
        (heq ▸ List.prefix_append change.1 rest) with hle | hle
      · exact hleft hle
      · exact hright hle
    subst hsame
    rwa [List.append_cancel_left heq]
  · exact fun hP => ⟨_, hmem, below, rfl, hP⟩

theorem not_exists_change {α : Type} {changes : List (List Step × α)} {place : List Step}
    (hout : ∀ change ∈ changes, ¬ change.1 <+: place) {P : List Step × α → List Step → Prop} :
    ¬ ∃ change ∈ changes, ∃ rest, place = change.1 ++ rest ∧ P change rest := by
  intro hexists
  obtain ⟨change, hchange, rest, heq, _⟩ := hexists
  exact hout change hchange (heq ▸ List.prefix_append change.1 rest)

namespace Marks

variable {marks : Marks} {changes : List (List Step × Marks)}
  {read : Marks → List Step → Prop}

theorem put_under (h : Apart changes) {root below : List Step} {sub : Marks}
    (hmem : (root, sub) ∈ changes) :
    marks.put changes read (root ++ below) ↔ marks.Above root ∨ read sub below := by
  have hin : ¬ ∀ change ∈ changes, ¬ change.1 <+: root ++ below :=
    fun hout => hout _ hmem (List.prefix_append root below)
  rw [put, exists_change_iff h hmem (P := fun change rest =>
    marks.Above change.1 ∨ read change.2 rest)]
  exact or_iff_left (fun hboth => hin hboth.1)

theorem put_outside {place : List Step} (hout : ∀ change ∈ changes, ¬ change.1 <+: place) :
    marks.put changes read place ↔ read marks place := by
  rw [put, or_iff_right (not_exists_change hout (P := fun change rest =>
    marks.Above change.1 ∨ read change.2 rest))]
  exact and_iff_right hout

end Marks

theorem Marks.put_iff {marks : Marks} {changes : List (List Step × Marks)}
    {read : Marks → List Step → Prop} {said : List Step → Prop} (h : Marks.Apart changes)
    (hunder : ∀ change ∈ changes, ∀ below,
      said (change.1 ++ below) ↔ marks.Above change.1 ∨ read change.2 below)
    (hout : ∀ place, (∀ change ∈ changes, ¬ change.1 <+: place) →
      (said place ↔ read marks place)) (place : List Step) :
    said place ↔ marks.put changes read place := by
  by_cases hin : ∃ change ∈ changes, change.1 <+: place
  · obtain ⟨change, hchange, below, rfl⟩ := hin
    rw [hunder change hchange, Marks.put_under h hchange]
  · have hnone : ∀ change ∈ changes, ¬ change.1 <+: place :=
      fun change hchange hle => hin ⟨change, hchange, hle⟩
    rw [hout place hnone, Marks.put_outside hnone]

section Made

variable (h : Composed map changes made) (happart : Apart changes)
  (hsubs : ∀ change ∈ changes, Placed change.2)

include h happart hsubs

theorem Composed.whole_under {root : List Step} {sub : ProvenanceMap}
    (hmem : (root, sub) ∈ changes) (below : List Step) :
    made.marks.whole (root ++ below) ↔ map.marks.Above root ∨ sub.marks.whole below := by
  have hplaces := fun place => @pathOf_mem_iff changes _ _ _ h.grafted.mem_whole
    (fun change hchange => (hsubs change hchange).whole) place
  have hself : root <+: root ++ below := List.prefix_append root below
  rw [whole_marks]
  constructor
  · intro hexists
    obtain ⟨above, habove, hin⟩ := hexists
    rcases (hplaces above).mp hin with ⟨hown, hout⟩ | ⟨change, hchange, rest, rfl, hsub⟩
    · -- A path that was kept and reaches the place stands strictly above the change.
      have hnot := hout _ hmem
      have hle := (List.prefix_or_prefix_of_prefix habove hself).resolve_right hnot
      exact Or.inl ⟨above, hle, fun heq => hnot (heq ▸ List.prefix_refl _),
        whole_marks.mpr ⟨above, List.prefix_refl _, hown⟩⟩
    · obtain ⟨more, hmore⟩ := habove
      rw [List.append_assoc] at hmore
      have hone := (@exists_change_iff _ _ happart _ below _ hmem (fun change rest =>
        ∃ above, above <+: rest ∧ pathOf above ∈ change.2.whole)).mp
        ⟨change, hchange, rest ++ more, hmore.symm, rest, List.prefix_append rest more, hsub⟩
      exact Or.inr (whole_marks.mpr hone)
  · intro hsaid
    rcases hsaid with ⟨above, hle, hne, hwhole⟩ | hwhole
    · obtain ⟨top, htop, hown⟩ := whole_marks.mp hwhole
      refine ⟨top, (htop.trans hle).trans hself, (hplaces top).mpr (Or.inl ⟨hown, ?_⟩)⟩
      intro change hchange hchangeTop
      have hroot : change.1 <+: root := (hchangeTop.trans htop).trans hle
      have hsame := happart.eq_of_prefix hchange hmem hroot
      subst hsame
      exact hne (hle.eq_of_length_le (hchangeTop.trans htop).length_le)
    · obtain ⟨above, habove, hin⟩ := whole_marks.mp hwhole
      exact ⟨root ++ above, (List.prefix_append_right_inj root).mpr habove,
        (hplaces _).mpr (Or.inr ⟨_, hmem, above, rfl, hin⟩)⟩

omit happart in
theorem Composed.whole_outside {place : List Step}
    (hout : ∀ change ∈ changes, ¬ change.1 <+: place) :
    made.marks.whole place ↔ map.marks.whole place := by
  have hplaces := fun place => @pathOf_mem_iff changes _ _ _ h.grafted.mem_whole
    (fun change hchange => (hsubs change hchange).whole) place
  rw [whole_marks, whole_marks]
  refine exists_congr (fun above => and_congr_right (fun habove => ?_))
  have hnone : ∀ change ∈ changes, ¬ change.1 <+: above :=
    fun change hchange hle => hout change hchange (hle.trans habove)
  rw [hplaces, or_iff_left (not_exists_change hnone (P := fun change rest =>
    pathOf rest ∈ change.2.whole))]
  exact and_iff_left hnone

/-- What grafting does to the three kinds of marks. -/
theorem Composed.marks_eq : made.marks = map.marks.graftAll (changeMarks changes) := by
  have hapart := apart_changeMarks happart
  have hsub : ∀ change ∈ changeMarks changes, ∃ sub, (change.1, sub) ∈ changes ∧
      Placed sub ∧ change.2 = sub.marks := by
    intro change hchange
    obtain ⟨inner, hinner, rfl⟩ := List.mem_map.mp hchange
    exact ⟨inner.2, hinner, hsubs inner hinner, rfl⟩
  have hnone : ∀ {place : List Step}, (∀ change ∈ changeMarks changes, ¬ change.1 <+: place) →
      ∀ change ∈ changes, ¬ change.1 <+: place := fun hout change hchange =>
    hout _ (List.mem_map_of_mem (f := fun change => (change.1, change.2.marks)) hchange)
  ext place
  · refine Marks.put_iff hapart ?_ ?_ place
    · intro change hchange below
      obtain ⟨sub, hmem, _, heq⟩ := hsub change hchange
      rw [heq]
      exact h.whole_under happart hsubs hmem below
    · exact fun place hout => h.whole_outside hsubs (hnone hout)
  · rename_i i
    refine @Marks.put_iff _ _ (fun marks place => marks.char place i)
      (fun place => made.marks.char place i) hapart ?_ ?_ place
    · intro change hchange below
      obtain ⟨sub, hmem, _, heq⟩ := hsub change hchange
      rw [heq, char_marks, char_marks, h.whole_under happart hsubs hmem, or_assoc]
      refine or_congr_right (or_congr_right (exists_congr (fun value =>
        and_congr_left (fun _ => ?_))))
      rw [h.mem_ranges hsubs, exists_change_iff happart hmem (P := fun change rest =>
        (pathOf rest, value) ∈ change.2.ranges.entries)]
      exact or_iff_right (fun hboth => hboth.2 _ hmem (List.prefix_append _ below))
    · intro place hout
      rw [char_marks, char_marks, h.whole_outside hsubs (hnone hout)]
      refine or_congr_right (exists_congr (fun value => and_congr_left (fun _ => ?_)))
      rw [h.mem_ranges hsubs, or_iff_left (not_exists_change (hnone hout)
        (P := fun change rest => (pathOf rest, value) ∈ change.2.ranges.entries))]
      exact and_iff_left (hnone hout)
  · have hplaces := fun place => @pathOf_mem_iff changes _ _ _ h.mem_keys
      (fun change hchange => (hsubs change hchange).keys) place
    refine Marks.put_iff hapart ?_ ?_ place
    · intro change hchange below
      obtain ⟨sub, hmem, _, heq⟩ := hsub change hchange
      rw [heq, keys_marks, keys_marks, h.whole_under happart hsubs hmem, or_assoc, hplaces,
        exists_change_iff happart hmem (P := fun change rest => pathOf rest ∈ change.2.keys)]
      refine or_congr_right (or_congr_right ?_)
      exact or_iff_right (fun hboth => hboth.2 _ hmem (List.prefix_append _ below))
    · intro place hout
      rw [keys_marks, keys_marks, h.whole_outside hsubs (hnone hout), hplaces,
        or_iff_left (not_exists_change (hnone hout)
          (P := fun change rest => pathOf rest ∈ change.2.keys))]
      exact or_congr_right (and_iff_left (hnone hout))

end Made

theorem Placed.graftAll (hmap : Placed map) (happart : Apart changes)
    (hsubs : ∀ change ∈ changes, Placed change.2) : Placed (map.graftAll (atPaths changes)) := by
  by_cases hne : changes = []
  · rw [hne]
    exact hmap
  · obtain ⟨made, heq, hcomposed⟩ := @graftAll_composed map changes happart hne
    rw [heq]
    exact (hcomposed.placed hmap hsubs).ofParts

/-- **What grafting at many places does**: each map's own marks below its place, the old
ones elsewhere. -/
theorem marks_graftAll (hmap : Placed map) (happart : Apart changes)
    (hsubs : ∀ change ∈ changes, Placed change.2) :
    (map.graftAll (atPaths changes)).marks = map.marks.graftAll (changeMarks changes) := by
  by_cases hne : changes = []
  · subst hne
    ext place <;> simp [Marks.graftAll, Marks.put, changeMarks, atPaths, ProvenanceMap.graftAll]
  · obtain ⟨made, heq, hcomposed⟩ := @graftAll_composed map changes happart hne
    rw [heq, marks_ofParts (hcomposed.placed hmap hsubs)]
    exact hcomposed.marks_eq happart hsubs

theorem apart_singleton (change : List Step × ProvenanceMap) : Apart [change] :=
  List.pairwise_singleton _ _

theorem graft_eq (map : ProvenanceMap) (root : List Step) (sub : ProvenanceMap) :
    map.graft (pathOf root) sub = map.graftAll (atPaths [(root, sub)]) := rfl

variable {sub : ProvenanceMap}

theorem Placed.graft (hmap : Placed map) (hsub : Placed sub) (root : List Step) :
    Placed (map.graft (pathOf root) sub) := by
  rw [graft_eq]
  apply hmap.graftAll (apart_singleton _)
  intro change hchange
  rw [List.mem_singleton.mp hchange]
  exact hsub

/-- **What grafting does.** -/
theorem marks_graft (hmap : Placed map) (hsub : Placed sub) (root : List Step) :
    (map.graft (pathOf root) sub).marks = map.marks.graft root sub.marks := by
  rw [graft_eq, marks_graftAll hmap (apart_singleton _)]
  · rfl
  intro change hchange
  rw [List.mem_singleton.mp hchange]
  exact hsub

theorem Placed.withWholeData (hmap : Placed map) (root : List Step) :
    Placed (map.withWholeData (pathOf root)) := hmap.graft placed_data root

theorem marks_withWholeData (hmap : Placed map) (root : List Step) :
    (map.withWholeData (pathOf root)).marks = map.marks.graft root Marks.data := by
  rw [withWholeData, marks_graft hmap placed_data, marks_data]

/-- The ranges of one string put in a map. -/
def ranged (map : ProvenanceMap) (root : List Step) (ranges : List DataRange) : ProvenanceMap :=
  ⟨map.whole, map.ranges.set (pathOf root) ranges, map.keys⟩

theorem placed_ranged (hmap : Placed map) (root : List Step) (ranges : List DataRange) :
    Placed (map.ranged root (mergeRanges ranges)) where
  whole := hmap.whole
  ranges := by
    intro entry hentry
    rw [ranged, OrderedMap.mem_entries, OrderedMap.get_set] at hentry
    split at hentry
    · rename_i heq
      exact ⟨root, heq⟩
    · exact hmap.ranges entry (OrderedMap.mem_entries.mpr hentry)
  keys := hmap.keys
  ordered := by
    intro entry hentry
    rw [ranged, OrderedMap.mem_entries, OrderedMap.get_set] at hentry
    split at hentry
    · rw [← Option.some.inj hentry]
      exact ordered_mergeRanges
    · exact hmap.ordered entry (OrderedMap.mem_entries.mpr hentry)

theorem withRanges_pathOf (map : ProvenanceMap) (root : List Step) (ranges : List DataRange) :
    map.withRanges (pathOf root) ranges =
      if mergeRanges ranges = [] then map.graft (pathOf root) authored
      else
        let made := (map.graft (pathOf root) authored).ranged root (mergeRanges ranges)
        ofParts made.whole made.ranges made.keys := by
  simp only [withRanges, canonicalPath_pathOf, ranged]

theorem Placed.withRanges (hmap : Placed map) (root : List Step) (ranges : List DataRange) :
    Placed (map.withRanges (pathOf root) ranges) := by
  have hgraft := hmap.graft placed_authored root
  rw [withRanges_pathOf]
  split
  · exact hgraft
  · exact (placed_ranged hgraft root ranges).ofParts

theorem authored_marks : authored.marks = Marks.ofRanges [] := by
  rw [marks_authored rfl]
  ext place
  · rfl
  · simp [Marks.ofRanges, covers_nil]
  · rfl

theorem Marks.put_one {marks sub : Marks} {read : Marks → List Step → Prop} {root : List Step}
    (below : List Step) :
    marks.put [(root, sub)] read (root ++ below) ↔ marks.Above root ∨ read sub below :=
  Marks.put_under (List.pairwise_singleton _ _) (List.mem_singleton_self _)

theorem Marks.put_other {marks sub : Marks} {read : Marks → List Step → Prop}
    {root place : List Step} (h : ¬ root <+: place) :
    marks.put [(root, sub)] read place ↔ read marks place := by
  apply Marks.put_outside
  intro change hchange
  rw [List.mem_singleton.mp hchange]
  exact h

theorem Marks.put_one_iff {marks sub : Marks} {read : Marks → List Step → Prop}
    {said : List Step → Prop} {root : List Step}
    (hunder : ∀ below, said (root ++ below) ↔ marks.Above root ∨ read sub below)
    (hout : ∀ place, ¬ root <+: place → (said place ↔ read marks place)) (place : List Step) :
    said place ↔ marks.put [(root, sub)] read place := by
  refine Marks.put_iff (List.pairwise_singleton _ _) ?_ ?_ place
  · intro change hchange
    rw [List.mem_singleton.mp hchange]
    exact hunder
  · exact fun place h => hout place (h _ (List.mem_singleton_self _))

variable {ranges : List DataRange}

theorem whole_ranged {root place : List Step} :
    (map.ranged root ranges).marks.whole place ↔ map.marks.whole place := by
  rw [whole_marks, whole_marks]
  rfl

theorem keys_ranged {root place : List Step} :
    (map.ranged root ranges).marks.keys place ↔ map.marks.keys place := by
  rw [keys_marks, keys_marks, whole_ranged]
  rfl

theorem char_ranged {root place : List Step} {i : ℕ} :
    (map.ranged root ranges).marks.char place i ↔
      map.marks.whole place ∧ place = root ∨ place = root ∧ Covers ranges i ∨
        place ≠ root ∧ map.marks.char place i := by
  rw [char_marks, ← covers_get, whole_ranged, ranged, OrderedMap.get_set]
  by_cases hplace : place = root
  · simp [hplace]
  · rw [if_neg (fun heq => hplace (pathOf_injective heq)), covers_get, ← char_marks]
    simp [hplace]

/-- **What setting the ranges of a string does.** -/
theorem marks_withRanges (hmap : Placed map) (root : List Step) (ranges : List DataRange) :
    (map.withRanges (pathOf root) ranges).marks =
      map.marks.graft root (Marks.ofRanges ranges) := by
  have hgraft := hmap.graft placed_authored root
  have hmarks := marks_graft hmap placed_authored root
  rw [authored_marks] at hmarks
  rw [withRanges_pathOf]
  split
  · rename_i hnone
    rw [hmarks]
    congr 1
    simp only [Marks.ofRanges, ← @covers_mergeRanges _ ranges, hnone]
  · rw [marks_ofParts (placed_ranged hgraft root ranges)]
    generalize map.graft (pathOf root) authored = next at hmarks
    ext place
    · rw [whole_ranged, hmarks]
      refine @Marks.put_one_iff _ _ Marks.whole _ _ ?_ ?_ place
      · exact @Marks.put_one map.marks (Marks.ofRanges []) Marks.whole root
      · exact fun place hout => Marks.put_other hout
    · rename_i i
      refine @Marks.put_one_iff _ _ (fun marks place => marks.char place i)
        (fun place => (next.ranged root (mergeRanges ranges)).marks.char place i) _ ?_ ?_ place
      · intro below
        have hwhole : next.marks.whole (root ++ below) ↔ map.marks.Above root := by
          rw [hmarks]
          exact (Marks.put_one below).trans (or_iff_left id)
        have hchar : next.marks.char (root ++ below) i ↔ map.marks.Above root := by
          rw [hmarks]
          refine (@Marks.put_one _ _ (fun marks place => marks.char place i) _ below).trans ?_
          exact or_iff_left (fun h => covers_nil h.2)
        rw [char_ranged, hwhole, hchar, covers_mergeRanges]
        simp only [Marks.ofRanges, List.append_right_eq_self]
        by_cases hbelow : below = [] <;> simp [hbelow]
      · intro place hout
        have hne : place ≠ root := fun heq => hout (heq ▸ List.prefix_refl _)
        rw [char_ranged, hmarks]
        simp only [hne, and_false, false_and, false_or, ne_eq, not_false_eq_true, true_and]
        exact @Marks.put_other _ _ (fun marks place => marks.char place i) _ _ hout
    · rw [keys_ranged, hmarks]
      refine @Marks.put_one_iff _ _ Marks.keys _ _ ?_ ?_ place
      · exact @Marks.put_one map.marks (Marks.ofRanges []) Marks.keys root
      · exact fun place hout => Marks.put_other hout

namespace Marks

variable {marks : Marks} {changes : List (List Step × Marks)}

theorem above_graft {root place : List Step} {sub : Marks} (hout : ¬ root <+: place) :
    (marks.graft root sub).Above place ↔ marks.Above place := by
  refine exists_congr (fun above => and_congr_right (fun hle => and_congr_right (fun _ => ?_)))
  exact put_other (fun h => hout (h.trans hle))

/-- The first change made first. -/
theorem put_cons {read : Marks → List Step → Prop} {first : List Step × Marks}
    (h : Apart (first :: changes))
    (hread : ∀ marks sub root place, read (Marks.graft marks root sub) place ↔
      marks.put [(root, sub)] read place) (place : List Step) :
    (marks.graft first.1 first.2).put changes read place ↔
      marks.put (first :: changes) read place := by
  obtain ⟨hfirst, hrest⟩ := List.pairwise_cons.mp h
  refine put_iff h ?_ ?_ place
  · intro change hchange below
    rcases List.mem_cons.mp hchange with rfl | hchange
    · have hout : ∀ other ∈ changes, ¬ other.1 <+: change.1 ++ below := by
        intro other hother hle
        obtain ⟨hleft, hright⟩ := hfirst other hother
        exact (List.prefix_or_prefix_of_prefix hle (List.prefix_append _ _)).elim hright hleft
      rw [put_outside hout, hread, put_one]
    · rw [put_under hrest hchange, above_graft (hfirst change hchange).1]
  · intro place hout
    rw [put_outside (fun other hother => hout other (List.mem_cons_of_mem _ hother)), hread,
      put_other (hout first List.mem_cons_self)]

theorem graftAll_cons {first : List Step × Marks} (h : Apart (first :: changes)) :
    (marks.graft first.1 first.2).graftAll changes = marks.graftAll (first :: changes) := by
  ext place
  · exact put_cons h (fun _ _ _ _ => Iff.rfl) place
  · rename_i i
    exact @put_cons _ _ (fun marks place => marks.char place i) _ h
      (fun _ _ _ _ => Iff.rfl) place
  · exact put_cons h (fun _ _ _ _ => Iff.rfl) place

/-- One by one is all at once. -/
theorem foldl_graft (h : Apart changes) :
    changes.foldl (fun marks change => marks.graft change.1 change.2) marks =
      marks.graftAll changes := by
  induction changes generalizing marks with
  | nil => ext place <;> simp [graftAll, put]
  | cons first rest ih => rw [List.foldl_cons, ih (List.pairwise_cons.mp h).2, graftAll_cons h]

/-- The order of the changes does not matter. -/
theorem graftAll_perm {order : List (List Step × Marks)} (h : order.Perm changes) :
    marks.graftAll order = marks.graftAll changes := by
  ext place <;> simp only [graftAll, put, h.mem_iff]

end Marks

theorem Apart.perm {order : List (List Step × ProvenanceMap)} (h : Apart changes)
    (hperm : order.Perm changes) : Apart order :=
  hperm.symm.pairwise h (fun hboth => And.symm hboth)

/-- Maps grafted one by one. -/
def graftEachInTurn (map : ProvenanceMap) (changes : List (List Step × ProvenanceMap)) :
    ProvenanceMap := changes.foldl (fun map change => map.graft (pathOf change.1) change.2) map

theorem marks_graftEachInTurn (hmap : Placed map) (hsubs : ∀ change ∈ changes, Placed change.2) :
    (map.graftEachInTurn changes).marks =
      (changeMarks changes).foldl (fun marks change => marks.graft change.1 change.2)
        map.marks := by
  induction changes generalizing map with
  | nil => rfl
  | cons first rest ih =>
    have hfirst := hsubs first List.mem_cons_self
    have hrest : ∀ change ∈ rest, Placed change.2 :=
      fun change hchange => hsubs change (List.mem_cons_of_mem _ hchange)
    have hstep := ih (hmap.graft hfirst first.1) hrest
    rw [marks_graft hmap hfirst] at hstep
    exact hstep

/-- **Grafting at many places is grafting one by one, in any order.** -/
theorem marks_grafts (hmap : Placed map) (happart : Apart changes)
    (hsubs : ∀ change ∈ changes, Placed change.2) {order : List (List Step × ProvenanceMap)}
    (hperm : order.Perm changes) :
    (map.graftAll (atPaths changes)).marks = (map.graftEachInTurn order).marks := by
  have hsubs' : ∀ change ∈ order, Placed change.2 :=
    fun change hchange => hsubs change (hperm.mem_iff.mp hchange)
  rw [marks_graftAll hmap happart hsubs, marks_graftEachInTurn hmap hsubs',
    Marks.foldl_graft (apart_changeMarks (happart.perm hperm))]
  exact (Marks.graftAll_perm (hperm.map _)).symm

/-- **Paths determine their places, and every operation on maps whose paths are those of
places is the operation on their marks.** -/
theorem paths_and_maps :
    (∀ place key, pathOf (place ++ [.key key]) = keyPath (pathOf place) key) ∧
    (∀ place index, pathOf (place ++ [.index index]) = indexPath (pathOf place) index) ∧
    (∀ a b, pathOf a = pathOf b → a = b) ∧
    (∀ place path, path ∈ ancestorsOf (pathOf place) ↔
      ∃ above, above <+: place ∧ path = pathOf above) ∧
    (∀ place root, isAtOrUnder (pathOf place) (pathOf root) = true ↔ root <+: place) ∧
    ∀ map, Placed map →
      (∀ other, Placed other → Placed (map.union other) ∧
        (map.union other).marks = map.marks.union other.marks) ∧
      (∀ root, Placed (map.subtree (pathOf root)) ∧
        (map.subtree (pathOf root)).marks = map.marks.subtree root) ∧
      (∀ root sub, Placed sub → Placed (map.graft (pathOf root) sub) ∧
        (map.graft (pathOf root) sub).marks = map.marks.graft root sub.marks) ∧
      (∀ root ranges, Placed (map.withRanges (pathOf root) ranges) ∧
        (map.withRanges (pathOf root) ranges).marks =
          map.marks.graft root (Marks.ofRanges ranges)) ∧
      (∀ root, Placed (map.withWholeData (pathOf root)) ∧
        (map.withWholeData (pathOf root)).marks = map.marks.graft root Marks.data) ∧
      (∀ changes, Apart changes → (∀ change ∈ changes, Placed change.2) →
        Placed (map.graftAll (atPaths changes)) ∧
        (map.graftAll (atPaths changes)).marks = map.marks.graftAll (changeMarks changes) ∧
        ∀ order, order.Perm changes →
          (map.graftAll (atPaths changes)).marks = (map.graftEachInTurn order).marks) ∧
      ∃ back, fromData map.toData = some back ∧ Placed back ∧ back.marks = map.marks := by
  refine ⟨?_, ?_, fun a b h => pathOf_injective h, fun place path => mem_ancestorsOf_pathOf, ?_, ?_⟩
  · exact fun place key => (keyPath_pathOf place key).symm
  · exact fun place index => (indexPath_pathOf place index).symm
  · intro place root
    rw [isAtOrUnder_pathOf, pathOf_mem_ancestorsOf]
  · intro map hmap
    refine ⟨?_, ?_, ?_, ?_, ?_, ?_, marks_fromData hmap⟩
    · exact fun other hother => ⟨hmap.union hother, marks_union hmap hother⟩
    · exact fun root => ⟨hmap.subtree root, marks_subtree hmap root⟩
    · exact fun root sub hsub => ⟨hmap.graft hsub root, marks_graft hmap hsub root⟩
    · exact fun root ranges => ⟨hmap.withRanges root ranges, marks_withRanges hmap root ranges⟩
    · exact fun root => ⟨hmap.withWholeData root, marks_withWholeData hmap root⟩
    · exact fun changes happart hsubs => ⟨hmap.graftAll happart hsubs,
        marks_graftAll hmap happart hsubs, fun order hperm => marks_grafts hmap happart hsubs hperm⟩

/-- A text at an index under a key with a dot in it, data but for its first two units. -/
def sampleMap : ProvenanceMap :=
  authored.withRanges (pathOf [.key (js "a.b"), .index 0]) [⟨2, 5⟩, ⟨4, 9⟩]

/-- Data at an index beside it, and the text itself under another key. -/
def sampleChanges : List (List Step × ProvenanceMap) :=
  [([.key (js "a.b"), .index 1], data), ([.key (js "c")], sampleMap)]

/-- Two grafts at once, in the other order, written and read back. -/
theorem paths_and_maps_sample :
    (sampleMap.graftAll (atPaths sampleChanges)).marks =
      (sampleMap.graftEachInTurn sampleChanges.reverse).marks ∧
    ∃ back, fromData (sampleMap.graftAll (atPaths sampleChanges)).toData = some back ∧
      back.marks = (sampleMap.graftAll (atPaths sampleChanges)).marks := by
  have hmaps := paths_and_maps.2.2.2.2.2
  have hplaced : Placed sampleMap := ((hmaps authored placed_authored).2.2.2.1 _ _).1
  have happart : Apart sampleChanges :=
    List.pairwise_pair.mpr ⟨by decide +kernel, by decide +kernel⟩
  have hsubs : ∀ change ∈ sampleChanges, Placed change.2 :=
    List.forall_mem_cons.mpr ⟨placed_data, List.forall_mem_singleton.mpr hplaced⟩
  obtain ⟨hgrafted, -, horder⟩ := (hmaps sampleMap hplaced).2.2.2.2.2.1 _ happart hsubs
  obtain ⟨back, hback, -, hmarks⟩ := (hmaps _ hgrafted).2.2.2.2.2.2
  exact ⟨horder _ (List.reverse_perm _), back, hback, hmarks⟩

/-- What a graft marks is not told by what the two maps mark at the place: a place below
one that is data as a whole stays data, one that is data by itself does not. -/
theorem graft_not_pointwise :
    ¬ ∃ said : Prop → Prop → Prop, ∀ map sub root place i, Placed map → Placed sub →
      ((map.graft (pathOf root) sub).marks.char (root ++ place) i ↔
        said (map.marks.char (root ++ place) i) (sub.marks.char place i)) := by
  intro h
  obtain ⟨said, hsaid⟩ := h
  let root : List Step := [.key (js "a")]
  let own := authored.withWholeData (pathOf root)
  have hown : Placed own := placed_authored.withWholeData _
  have hchar : ∀ map, Placed map → ((map.graft (pathOf root) authored).marks.char (root ++ []) 0 ↔
      map.marks.Above root) := by
    intro map hmap
    rw [marks_graft hmap placed_authored, authored_marks]
    refine (@Marks.put_one _ _ (fun marks place => marks.char place 0) root []).trans ?_
    exact or_iff_left (fun hcovers => covers_nil hcovers.2)
  have hdata : data.marks.Above root :=
    ⟨[], List.nil_prefix, by decide, by rw [marks_data]; trivial⟩
  have hfresh : ¬ own.marks.Above root := by
    intro habove
    obtain ⟨above, hle, hne, hwhole⟩ := habove
    have hout : ¬ root <+: above := fun hroot => hne (hle.eq_of_length_le hroot.length_le)
    rw [marks_withWholeData placed_authored, authored_marks] at hwhole
    exact (Marks.put_other hout).mp hwhole
  have hboth : data.marks.char (root ++ []) 0 ↔ own.marks.char (root ++ []) 0 := by
    rw [marks_data, marks_withWholeData placed_authored]
    apply iff_of_true trivial
    exact (@Marks.put_one _ _ (fun marks place => marks.char place 0) root []).mpr
      (Or.inr trivial)
  have hone := (hchar data placed_data).symm.trans
    (hsaid data authored root [] 0 placed_data placed_authored)
  have htwo := (hchar own hown).symm.trans (hsaid own authored root [] 0 hown placed_authored)
  rw [hboth] at hone
  exact hfresh (htwo.mpr (hone.mp hdata))

end ProvenanceMap

end Provenance

end Swamp
