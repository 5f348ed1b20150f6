import Mathlib.Data.Finset.Sort
import Mathlib.Data.List.Lex
import Swamp.GraftedMaps

/-!
# What the operations on a map mean

The marks of a map are read by place, not by path: the places that are data with
everything below them, the characters that are data, and the objects whose keys are.
Where every path of a map is that of a place, each operation on maps is an operation
on their marks, and a map read back from what was written of it marks the same.
-/

namespace Swamp

namespace Provenance

open Js

namespace ProvenanceMap

def hasDataKeysAt (map : ProvenanceMap) (path : JsString) : Bool :=
  map.isWholeDataAt path || canonicalPath path ∈ map.keys

/-- A path below a root, seen from the root. -/
def reroot (path root : JsString) : JsString :=
  if path = root then []
  else
    let rest := path.drop root.length
    if rest.head? = some (unit '.') then rest.drop 1 else rest

/-- What is marked below a place, seen from it. -/
def subtree (map : ProvenanceMap) (path : JsString) : ProvenanceMap :=
  let path := canonicalPath path
  if path = [] then map
  else if map.isWholeDataAt path then data
  else
    ofParts
      ((map.whole.filter (fun key => isAtOrUnder key path = true)).image (reroot · path))
      (OrderedMap.ofList ((map.ranges.entries.filter (fun entry => isAtOrUnder entry.1 path)).map
        (fun entry => (reroot entry.1 path, entry.2))))
      ((map.keys.filter (fun key => isAtOrUnder key path = true)).image (reroot · path))

def withWholeData (map : ProvenanceMap) (path : JsString) : ProvenanceMap := map.graft path data

/-- Add the ranges of a path to those it has. -/
def joinRanges (ranges : OrderedMap JsString (List DataRange))
    (entry : JsString × List DataRange) : OrderedMap JsString (List DataRange) :=
  ranges.set entry.1 (mergeRanges ((ranges.get entry.1).getD [] ++ entry.2))

def union (map other : ProvenanceMap) : ProvenanceMap :=
  if other.isAuthored then map
  else if map.isAuthored then other
  else
    ofParts (map.whole ∪ other.whole) (other.ranges.entries.foldl joinRanges map.ranges)
      (map.keys ∪ other.keys)

/-- What is written of a map.  Bounds of ranges are offsets into strings, which never
reach the bound the schema sets on integers. -/
structure ProvenanceMapData where
  whole : List JsString
  ranges : OrderedMap JsString (List DataRange)
  keys : Option (List JsString)

def toData (map : ProvenanceMap) : ProvenanceMapData where
  whole := map.whole.sort
  ranges := OrderedMap.ofList (map.ranges.entries.insertionSort (fun a b => a.1 ≤ b.1))
  keys := if map.keys = ∅ then none else some map.keys.sort

/-- `DataRangesSchema`. -/
def parsesRanges (ranges : List DataRange) : Bool := ranges.all (fun range => range.1 ≤ range.2)

def fromData (parsed : ProvenanceMapData) : Option ProvenanceMap :=
  if parsed.ranges.entries.all (fun entry => parsesRanges entry.2) then
    some (ofParts parsed.whole.toFinset
      (OrderedMap.ofList (parsed.ranges.entries.map (fun entry => (entry.1, mergeRanges entry.2))))
      ((parsed.keys.getD []).toFinset))
  else none

/-- What is said of the places of a value: which are data with everything below them,
which of their characters are, and which objects have keys that are. -/
@[ext] structure Marks where
  whole : List Step → Prop
  char : List Step → ℕ → Prop
  keys : List Step → Prop

/-- The puts of a group that stay in it to be skipped: all those of the key in
the group being appended, and stored ones elsewhere. -/
def marks (map : ProvenanceMap) : Marks where
  whole := fun place => map.isWholeDataAt (pathOf place) = true
  char := fun place i => map.IsData (pathOf place) i
  keys := fun place => map.hasDataKeysAt (pathOf place) = true

namespace Marks

/-- What either marks. -/
def union (marks other : Marks) : Marks where
  whole := fun place => marks.whole place ∨ other.whole place
  char := fun place i => marks.char place i ∨ other.char place i
  keys := fun place => marks.keys place ∨ other.keys place

/-- What is marked below a place, seen from it. -/
def subtree (marks : Marks) (root : List Step) : Marks where
  whole := fun place => marks.whole (root ++ place)
  char := fun place i => marks.char (root ++ place) i
  keys := fun place => marks.keys (root ++ place)

/-- Whether a place strictly above one is data with everything below it. -/
def Above (marks : Marks) (root : List Step) : Prop :=
  ∃ above, above <+: root ∧ above ≠ root ∧ marks.whole above

/-- What stands at a place when changes are made: the change's own word at and below the
place of a change, unless that place lies below one that is data as a whole; what stood
there before anywhere else. -/
def put (marks : Marks) (changes : List (List Step × Marks)) (read : Marks → List Step → Prop)
    (place : List Step) : Prop :=
  (∃ change ∈ changes, ∃ below, place = change.1 ++ below ∧
      (marks.Above change.1 ∨ read change.2 below)) ∨
    (∀ change ∈ changes, ¬ change.1 <+: place) ∧ read marks place

def graftAll (marks : Marks) (changes : List (List Step × Marks)) : Marks where
  whole := marks.put changes Marks.whole
  char := fun place i => marks.put changes (fun marks place => marks.char place i) place
  keys := marks.put changes Marks.keys

def graft (marks : Marks) (root : List Step) (sub : Marks) : Marks := marks.graftAll [(root, sub)]

/-- Everything is data. -/
def data : Marks := ⟨fun _ => True, fun _ _ => True, fun _ => True⟩

/-- The characters of one string that the ranges cover. -/
def ofRanges (ranges : List DataRange) : Marks where
  whole := fun _ => False
  char := fun place i => place = [] ∧ Covers ranges i
  keys := fun _ => False

end Marks

/-- Every path of the map is that of a place, and every range starts before it ends. -/
structure Placed (map : ProvenanceMap) : Prop where
  whole : ∀ key ∈ map.whole, ∃ place, key = pathOf place
  ranges : ∀ entry ∈ map.ranges.entries, ∃ place, entry.1 = pathOf place
  keys : ∀ key ∈ map.keys, ∃ place, key = pathOf place
  ordered : ∀ entry ∈ map.ranges.entries, ∀ range ∈ entry.2, range.1 ≤ range.2

variable {map : ProvenanceMap}

variable {place : List Step}

theorem whole_marks : map.marks.whole place ↔ ∃ above, above <+: place ∧ pathOf above ∈ map.whole :=
  isWholeDataAt_pathOf

theorem char_marks {i : ℕ} :
    map.marks.char place i ↔ map.marks.whole place ∨
      ∃ value, (pathOf place, value) ∈ map.ranges.entries ∧ Covers value i :=
  or_congr_right covers_rangesAt_pathOf

theorem keys_marks : map.marks.keys place ↔ map.marks.whole place ∨ pathOf place ∈ map.keys := by
  simp only [marks, hasDataKeysAt, Bool.or_eq_true, decide_eq_true_eq, canonicalPath_pathOf]

/-- What is data as a whole is so wherever it is read below. -/
theorem whole_marks_of_prefix {above : List Step} (h : map.marks.whole above)
    (hle : above <+: place) : map.marks.whole place := by
  obtain ⟨root, hroot, hmem⟩ := whole_marks.mp h
  exact whole_marks.mpr ⟨root, hroot.trans hle, hmem⟩

variable {ranges : OrderedMap JsString (List DataRange)}

theorem canonicalRanges_eq (h : ∀ entry ∈ ranges.entries, canonicalPath entry.1 = entry.1) :
    canonicalRanges ranges.entries = ranges := by
  have hset : ∀ (entries : List (JsString × List DataRange))
      (done : OrderedMap JsString (List DataRange)),
      (∀ entry ∈ entries, canonicalPath entry.1 = entry.1) →
      ((done.entries ++ entries).map Prod.fst).Nodup →
      entries.foldl addRanges done = done.setAll entries := by
    intro entries
    induction entries with
    | nil => exact fun _ _ _ => rfl
    | cons entry rest ih =>
      intro done hcanonical hnodup
      have hentry := hcanonical entry List.mem_cons_self
      have hnew : done.get entry.1 = none := by
        have hnot : entry.1 ∉ done.keys := by
          intro hmem
          rw [List.map_append, List.map_cons] at hnodup
          exact (List.nodup_append.mp hnodup).2.2 _ hmem _ List.mem_cons_self rfl
        rw [OrderedMap.mem_keys] at hnot
        simpa using hnot
      have hadd : addRanges done entry = done.set entry.1 entry.2 := by
        simp only [addRanges, hentry, hnew]
      rw [List.foldl_cons, hadd, OrderedMap.setAll_cons]
      refine ih _ (fun other hother => hcanonical other (List.mem_cons_of_mem _ hother)) ?_
      have hentries : (done.set entry.1 entry.2).entries = done.entries ++ [entry] := by
        apply OrderedMap.setEntry_of_not_mem
        intro hmem
        rw [List.map_append, List.map_cons] at hnodup
        exact (List.nodup_append.mp hnodup).2.2 _ hmem _ List.mem_cons_self rfl
      rwa [hentries, List.append_assoc]
  have hall := hset ranges.entries .empty h ranges.nodup
  rw [canonicalRanges, hall]
  have hentries := OrderedMap.entries_ofList ranges.nodup
  obtain ⟨entries, nodup⟩ := ranges
  exact OrderedMap.mk.injEq .. ▸ hentries

theorem placed_authored : Placed authored where
  whole := by simp [authored]
  ranges := by simp [authored, OrderedMap.empty]
  keys := by simp [authored]
  ordered := by simp [authored, OrderedMap.empty]

theorem placed_data : Placed data where
  whole := fun key hkey => ⟨[], Finset.mem_singleton.mp hkey⟩
  ranges := by simp [data, OrderedMap.empty]
  keys := by simp [data]
  ordered := by simp [data, OrderedMap.empty]

theorem Placed.canonical (h : Placed map) :
    map.whole.image canonicalPath = map.whole ∧ map.keys.image canonicalPath = map.keys ∧
      canonicalRanges map.ranges.entries = map.ranges := by
  have hsame : ∀ some : Finset JsString, (∀ key ∈ some, ∃ place, key = pathOf place) →
      some.image canonicalPath = some := by
    intro some hsome
    have hid : some.image canonicalPath = some.image id := by
      apply Finset.image_congr
      intro key hkey
      obtain ⟨place, rfl⟩ := hsome key hkey
      exact canonicalPath_pathOf place
    rw [hid, Finset.image_id]
  refine ⟨hsame _ h.whole, hsame _ h.keys, canonicalRanges_eq (fun entry hentry => ?_)⟩
  obtain ⟨place, hplace⟩ := h.ranges entry hentry
  rw [hplace, canonicalPath_pathOf]

theorem ofParts_root (h : Placed map) (hroot : [] ∈ map.whole) :
    ofParts map.whole map.ranges map.keys = data := by
  unfold ofParts
  simp only [h.canonical.1, if_pos hroot]

theorem ofParts_placed (h : Placed map) (hroot : [] ∉ map.whole) :
    ofParts map.whole map.ranges map.keys =
      ⟨map.whole, OrderedMap.ofList (map.ranges.entries.filter (fun entry =>
        !entry.2.isEmpty && !underWhole map.whole entry.1)),
        map.keys.filter (fun path => underWhole map.whole path = false)⟩ := by
  obtain ⟨hwhole, hkeys, hranges⟩ := h.canonical
  unfold ofParts
  simp only [hwhole, hkeys, hranges, if_neg hroot]
  split
  · rename_i hnone
    exact authored_eq hnone
  · rfl

variable {entry : JsString × List DataRange}

theorem mem_ofParts_ranges :
    entry ∈ (OrderedMap.ofList (map.ranges.entries.filter (fun entry =>
      !entry.2.isEmpty && !underWhole map.whole entry.1))).entries ↔
      entry ∈ map.ranges.entries ∧ entry.2.isEmpty = false ∧
        underWhole map.whole entry.1 = false := by
  rw [OrderedMap.entries_ofList (map.ranges.nodup.sublist (List.filter_sublist.map Prod.fst)),
    List.mem_filter, Bool.and_eq_true, Bool.not_eq_true', Bool.not_eq_true']

theorem underWhole_pathOf : underWhole map.whole (pathOf place) = true ↔ map.marks.whole place := by
  simp only [marks, isWholeDataAt, canonicalPath_pathOf]

/-- **Putting a map in order keeps what it marks.** -/
theorem marks_ofParts (h : Placed map) :
    (ofParts map.whole map.ranges map.keys).marks = map.marks := by
  by_cases hroot : [] ∈ map.whole
  · rw [ofParts_root h hroot]
    have hwhole : ∀ place, map.marks.whole place := fun place =>
      whole_marks.mpr ⟨[], List.nil_prefix, hroot⟩
    have hdata : ∀ place, data.marks.whole place := fun place =>
      whole_marks.mpr ⟨[], List.nil_prefix, Finset.mem_singleton_self _⟩
    ext place
    · exact iff_of_true (hdata place) (hwhole place)
    · exact iff_of_true (char_marks.mpr (Or.inl (hdata place)))
        (char_marks.mpr (Or.inl (hwhole place)))
    · exact iff_of_true (keys_marks.mpr (Or.inl (hdata place)))
        (keys_marks.mpr (Or.inl (hwhole place)))
  · rw [ofParts_placed h hroot]
    ext place
    · rw [whole_marks, whole_marks]
    · rename_i i
      rw [char_marks, char_marks, whole_marks, whole_marks]
      simp only [mem_ofParts_ranges]
      rw [← @whole_marks map place]
      by_cases hwhole : map.marks.whole place
      · exact iff_of_true (Or.inl hwhole) (Or.inl hwhole)
      refine or_congr_right (exists_congr (fun value => and_congr_left (fun hcovers => ?_)))
      have hunder : underWhole map.whole (pathOf place) = false := by
        rw [← Bool.not_eq_true, underWhole_pathOf]
        exact hwhole
      have hsome : value.isEmpty = false := by
        cases value with
        | nil => exact absurd hcovers covers_nil
        | cons range rest => rfl
      simp only [hunder, hsome, and_true]
    · rw [keys_marks, keys_marks, whole_marks, whole_marks]
      simp only [Finset.mem_filter]
      rw [← @whole_marks map place, ← underWhole_pathOf]
      cases underWhole map.whole (pathOf place) <;> simp

theorem Placed.ofParts (h : Placed map) : Placed (ofParts map.whole map.ranges map.keys) := by
  by_cases hroot : [] ∈ map.whole
  · rw [ofParts_root h hroot]
    exact placed_data
  · rw [ofParts_placed h hroot]
    constructor
    · exact h.whole
    · exact fun entry hentry => h.ranges entry (mem_ofParts_ranges.mp hentry).1
    · exact fun key hkey => h.keys key (Finset.mem_filter.mp hkey).1
    · exact fun entry hentry => h.ordered entry (mem_ofParts_ranges.mp hentry).1

theorem ordered_mergeFrom {last : DataRange} {rest : List DataRange} (hlast : last.1 ≤ last.2)
    (hrest : ∀ range ∈ rest, range.1 ≤ range.2) :
    ∀ range ∈ mergeFrom last rest, range.1 ≤ range.2 := by
  induction rest generalizing last with
  | nil =>
    intro range hrange
    rw [List.mem_singleton.mp hrange]
    exact hlast
  | cons first rest ih =>
    have hfirst := hrest first List.mem_cons_self
    have hmore : ∀ range ∈ rest, range.1 ≤ range.2 := fun range hrange =>
      hrest range (List.mem_cons_of_mem _ hrange)
    rw [mergeFrom]
    split
    · exact ih (hlast.trans (le_max_left _ _)) hmore
    · intro range hrange
      rcases List.mem_cons.mp hrange with rfl | hrange
      · exact hlast
      · exact ih hfirst hmore range hrange

theorem ordered_mergeRanges {ranges : List DataRange} :
    ∀ range ∈ mergeRanges ranges, range.1 ≤ range.2 := by
  have hall : ∀ range ∈ (ranges.filter (fun range => range.1 < range.2)).insertionSort rangeOrder,
      range.1 ≤ range.2 := by
    intro range hrange
    rw [(List.perm_insertionSort _ _).mem_iff, List.mem_filter, decide_eq_true_eq] at hrange
    exact hrange.2.le
  unfold mergeRanges
  split
  · simp
  · rename_i first rest heq
    rw [heq] at hall
    exact ordered_mergeFrom (hall first List.mem_cons_self)
      (fun range hrange => hall range (List.mem_cons_of_mem _ hrange))

theorem covers_joinRanges {entries : List (JsString × List DataRange)} {path : JsString} {i : ℕ} :
    Covers (((entries.foldl joinRanges ranges).get path).getD []) i ↔
      Covers ((ranges.get path).getD []) i ∨ ∃ entry ∈ entries, entry.1 = path ∧
        Covers entry.2 i := by
  induction entries generalizing ranges with
  | nil => simp
  | cons entry rest ih =>
    have hstep : Covers (((joinRanges ranges entry).get path).getD []) i ↔
        Covers ((ranges.get path).getD []) i ∨ (entry.1 = path ∧ Covers entry.2 i) := by
      unfold joinRanges
      by_cases hpath : entry.1 = path
      · subst hpath
        simp [covers_mergeRanges, covers_append]
      · simp [OrderedMap.get_set_ne _ _ (Ne.symm hpath), hpath]
    rw [List.foldl_cons, ih, hstep, or_assoc]
    simp only [List.mem_cons, or_and_right, exists_or, exists_eq_left]

/-- What joined ranges are made of. -/
theorem mem_joinRanges {entries : List (JsString × List DataRange)}
    {P : JsString × List DataRange → Prop} (hranges : ∀ entry ∈ ranges.entries, P entry)
    (hnew : ∀ entry ∈ entries, ∀ more, P (entry.1, mergeRanges more)) :
    ∀ entry ∈ (entries.foldl joinRanges ranges).entries, P entry := by
  induction entries generalizing ranges with
  | nil => exact hranges
  | cons first rest ih =>
    refine ih ?_ (fun entry hentry => hnew entry (List.mem_cons_of_mem _ hentry))
    intro entry hentry
    rw [joinRanges, OrderedMap.mem_entries, OrderedMap.get_set] at hentry
    split at hentry
    · rename_i hkey
      have hnew := hnew first List.mem_cons_self ((ranges.get first.1).getD [] ++ first.2)
      rwa [Option.some.inj hentry, ← hkey] at hnew
    · exact hranges entry (OrderedMap.mem_entries.mpr hentry)

variable {other : ProvenanceMap}

theorem isAuthored_iff :
    map.isAuthored = true ↔ map.whole = ∅ ∧ map.ranges.entries = [] ∧ map.keys = ∅ := by
  simp [isAuthored, and_assoc]

theorem marks_authored (h : map.isAuthored = true) :
    map.marks = ⟨fun _ => False, fun _ _ => False, fun _ => False⟩ := by
  obtain ⟨hwhole, hranges, hkeys⟩ := isAuthored_iff.mp h
  have hnone : ∀ place, ¬ map.marks.whole place := by
    intro place
    rw [whole_marks, hwhole]
    simp
  ext place
  · exact iff_false_intro (hnone place)
  · rw [char_marks, hranges]
    simp [hnone]
  · rw [keys_marks, hkeys]
    simp [hnone]

theorem placed_joined (h : Placed map) (hother : Placed other) :
    Placed ⟨map.whole ∪ other.whole, other.ranges.entries.foldl joinRanges map.ranges,
      map.keys ∪ other.keys⟩ where
  whole := by
    intro key hkey
    exact (Finset.mem_union.mp hkey).elim (h.whole key) (hother.whole key)
  ranges := mem_joinRanges h.ranges (fun entry hentry _ => hother.ranges entry hentry)
  keys := by
    intro key hkey
    exact (Finset.mem_union.mp hkey).elim (h.keys key) (hother.keys key)
  ordered := mem_joinRanges h.ordered (fun _ _ _ => ordered_mergeRanges)

theorem Placed.union (h : Placed map) (hother : Placed other) : Placed (map.union other) := by
  unfold ProvenanceMap.union
  split
  · exact h
  split
  · exact hother
  exact (placed_joined h hother).ofParts

/-- **A union marks what either map marks.** -/
theorem marks_union (h : Placed map) (hother : Placed other) :
    (map.union other).marks = map.marks.union other.marks := by
  unfold ProvenanceMap.union
  split
  · rename_i hauthored
    rw [marks_authored hauthored]
    simp [Marks.union]
  split
  · rename_i hauthored
    rw [marks_authored hauthored]
    simp [Marks.union]
  rw [marks_ofParts (placed_joined h hother)]
  have hwhole : ∀ place, (⟨map.whole ∪ other.whole,
      other.ranges.entries.foldl joinRanges map.ranges, map.keys ∪ other.keys⟩ :
      ProvenanceMap).marks.whole place ↔ map.marks.whole place ∨ other.marks.whole place := by
    intro place
    simp only [whole_marks, Finset.mem_union, and_or_left, exists_or]
  ext place
  · exact hwhole place
  · rename_i i
    rw [char_marks, hwhole, ← covers_get, covers_joinRanges, covers_get]
    simp only [Marks.union, char_marks]
    have hentries : (∃ entry ∈ other.ranges.entries, entry.1 = pathOf place ∧ Covers entry.2 i) ↔
        ∃ value, (pathOf place, value) ∈ other.ranges.entries ∧ Covers value i := by
      constructor
      · intro hexists
        obtain ⟨⟨path, value⟩, hentry, hpath, hcovers⟩ := hexists
        exact ⟨value, hpath ▸ hentry, hcovers⟩
      · intro hexists
        obtain ⟨value, hentry, hcovers⟩ := hexists
        exact ⟨_, hentry, rfl, hcovers⟩
    rw [hentries]
    exact or_or_or_comm
  · rw [keys_marks, hwhole]
    simp only [Marks.union, keys_marks, Finset.mem_union]
    exact or_or_or_comm

theorem head_pathOf (place : List Step) : (pathOf place).head? ≠ some (unit '.') := by
  induction place using List.reverseRecOn with
  | nil => simp
  | append_singleton place step ih =>
    rw [pathOf_concat]
    have hsegment := segment_segment step
    by_cases hroot : pathOf place = []
    · rw [hroot, prefixPath_nil, List.head?_eq_getElem?]
      exact (hsegment.separators 0 rfl).1
    · rw [prefixPath_eq hroot hsegment.nonempty, List.head?_append_of_ne_nil _ hroot]
      exact ih

theorem reroot_pathOf (root place : List Step) :
    reroot (pathOf (root ++ place)) (pathOf root) = pathOf place := by
  by_cases hplace : place = []
  · rw [hplace, List.append_nil]
    exact if_pos rfl
  have hne : pathOf place ≠ [] := fun heq => hplace (pathOf_injective heq)
  have hother : pathOf (root ++ place) ≠ pathOf root := by
    intro heq
    exact hplace (List.self_eq_append_right.mp (pathOf_injective heq).symm)
  have hhead := head_pathOf place
  rw [reroot, if_neg hother, ← prefixPath_pathOf]
  by_cases hroot : pathOf root = []
  · rw [hroot, prefixPath_nil]
    simp only [List.length_nil, List.drop_zero, if_neg hhead]
  · rw [prefixPath_eq hroot hne]
    simp only [List.drop_left]
    unfold link
    split
    · rfl
    · simp

/-- The paths and ranges below a place, seen from it. -/
def below (map : ProvenanceMap) (path : JsString) : ProvenanceMap where
  whole := (map.whole.filter (fun key => isAtOrUnder key path = true)).image (reroot · path)
  ranges := OrderedMap.ofList ((map.ranges.entries.filter (fun entry =>
    isAtOrUnder entry.1 path)).map (fun entry => (reroot entry.1 path, entry.2)))
  keys := (map.keys.filter (fun key => isAtOrUnder key path = true)).image (reroot · path)

/-- The paths of places below a root, seen from it. -/
theorem mem_rerooted {keys : Finset JsString} (hkeys : ∀ key ∈ keys, ∃ place, key = pathOf place)
    {root : List Step} {key : JsString} :
    key ∈ (keys.filter (fun key => isAtOrUnder key (pathOf root) = true)).image
        (reroot · (pathOf root)) ↔
      ∃ place, key = pathOf place ∧ pathOf (root ++ place) ∈ keys := by
  simp only [Finset.mem_image, Finset.mem_filter]
  constructor
  · intro h
    obtain ⟨key, ⟨hmem, hunder⟩, rfl⟩ := h
    obtain ⟨place, rfl⟩ := hkeys key hmem
    obtain ⟨place, rfl⟩ := pathOf_mem_ancestorsOf.mp (isAtOrUnder_pathOf.mp hunder)
    exact ⟨place, reroot_pathOf root place, hmem⟩
  · intro h
    obtain ⟨place, rfl, hmem⟩ := h
    refine ⟨_, ⟨hmem, ?_⟩, reroot_pathOf root place⟩
    rw [isAtOrUnder_pathOf, pathOf_mem_ancestorsOf]
    exact List.prefix_append root place

theorem mem_below_ranges (h : Placed map) {root : List Step} :
    entry ∈ (map.below (pathOf root)).ranges.entries ↔
      ∃ place, entry.1 = pathOf place ∧ (pathOf (root ++ place), entry.2) ∈ map.ranges.entries := by
  have hunder : ∀ entry ∈ map.ranges.entries.filter (fun entry =>
      isAtOrUnder entry.1 (pathOf root)), ∃ place, entry.1 = pathOf (root ++ place) := by
    intro entry hentry
    obtain ⟨hentry, hunder⟩ := List.mem_filter.mp hentry
    obtain ⟨place, hplace⟩ := h.ranges entry hentry
    rw [hplace, isAtOrUnder_pathOf] at hunder
    obtain ⟨place, rfl⟩ := pathOf_mem_ancestorsOf.mp hunder
    exact ⟨place, hplace⟩
  have hnodup : (((map.ranges.entries.filter (fun entry => isAtOrUnder entry.1 (pathOf root))).map
      (fun entry => (reroot entry.1 (pathOf root), entry.2))).map Prod.fst).Nodup := by
    rw [List.map_map]
    have hkept : ((map.ranges.entries.filter (fun entry =>
        isAtOrUnder entry.1 (pathOf root))).map Prod.fst).Nodup :=
      map.ranges.nodup.sublist (List.filter_sublist.map Prod.fst)
    refine List.Nodup.map_on ?_ (List.Nodup.of_map _ hkept)
    intro a ha b hb heq
    obtain ⟨place, hplace⟩ := hunder a ha
    obtain ⟨place', hplace'⟩ := hunder b hb
    simp only [Function.comp, hplace, hplace', reroot_pathOf] at heq
    exact List.inj_on_of_nodup_map hkept ha hb
      (by rw [hplace, hplace', pathOf_injective heq])
  rw [below]
  simp only
  rw [OrderedMap.entries_ofList hnodup, List.mem_map]
  constructor
  · intro hexists
    obtain ⟨entry, hentry, rfl⟩ := hexists
    obtain ⟨place, hplace⟩ := hunder entry hentry
    refine ⟨place, ?_, ?_⟩
    · simp only [hplace, reroot_pathOf]
    · rw [← hplace]
      exact (List.mem_filter.mp hentry).1
  · intro hexists
    obtain ⟨place, hplace, hentry⟩ := hexists
    refine ⟨_, List.mem_filter.mpr ⟨hentry, ?_⟩, ?_⟩
    · rw [isAtOrUnder_pathOf, pathOf_mem_ancestorsOf]
      exact List.prefix_append root place
    · simp only [reroot_pathOf, ← hplace]

theorem placed_below (h : Placed map) (root : List Step) : Placed (map.below (pathOf root)) where
  whole := by
    intro key hkey
    obtain ⟨place, hplace, _⟩ := (mem_rerooted h.whole).mp hkey
    exact ⟨place, hplace⟩
  ranges := by
    intro entry hentry
    obtain ⟨place, hplace, _⟩ := (mem_below_ranges h).mp hentry
    exact ⟨place, hplace⟩
  keys := by
    intro key hkey
    obtain ⟨place, hplace, _⟩ := (mem_rerooted h.keys).mp hkey
    exact ⟨place, hplace⟩
  ordered := by
    intro entry hentry
    obtain ⟨place, _, hmem⟩ := (mem_below_ranges h).mp hentry
    exact h.ordered (pathOf (root ++ place), entry.2) hmem

theorem subtree_pathOf (map : ProvenanceMap) (root : List Step) :
    map.subtree (pathOf root) =
      if root = [] then map
      else if map.isWholeDataAt (pathOf root) then data
      else ofParts (map.below (pathOf root)).whole (map.below (pathOf root)).ranges
        (map.below (pathOf root)).keys := by
  have hroot : pathOf root = [] ↔ root = [] :=
    ⟨fun heq => @pathOf_injective root [] heq, fun heq => heq ▸ rfl⟩
  simp only [subtree, canonicalPath_pathOf, hroot, below]

theorem Placed.subtree (h : Placed map) (root : List Step) :
    Placed (map.subtree (pathOf root)) := by
  rw [subtree_pathOf]
  split
  · exact h
  split
  · exact placed_data
  exact (placed_below h root).ofParts

theorem marks_data : data.marks = Marks.data := by
  have hwhole : ∀ place, data.marks.whole place := fun place =>
    whole_marks.mpr ⟨[], List.nil_prefix, Finset.mem_singleton_self _⟩
  ext place
  · exact iff_true_intro (hwhole place)
  · exact iff_true_intro (char_marks.mpr (Or.inl (hwhole place)))
  · exact iff_true_intro (keys_marks.mpr (Or.inl (hwhole place)))

/-- **A subtree marks what is marked below its place.** -/
theorem marks_subtree (h : Placed map) (root : List Step) :
    (map.subtree (pathOf root)).marks = map.marks.subtree root := by
  rw [subtree_pathOf]
  split
  · rename_i hroot
    subst hroot
    rfl
  split
  · rename_i _ hdata
    have hwhole : ∀ place, map.marks.whole (root ++ place) := fun place =>
      whole_marks_of_prefix hdata (List.prefix_append root place)
    rw [marks_data]
    ext place
    · exact iff_of_true trivial (hwhole place)
    · exact iff_of_true trivial (char_marks.mpr (Or.inl (hwhole place)))
    · exact iff_of_true trivial (keys_marks.mpr (Or.inl (hwhole place)))
  · rename_i _ hfresh
    rw [marks_ofParts (placed_below h root)]
    have hwhole : ∀ place, (map.below (pathOf root)).marks.whole place ↔
        map.marks.whole (root ++ place) := by
      intro place
      rw [whole_marks, whole_marks]
      constructor
      · intro hexists
        obtain ⟨above, habove, hmem⟩ := hexists
        obtain ⟨other, heq, hmem⟩ := (mem_rerooted h.whole).mp hmem
        rw [← pathOf_injective heq] at hmem
        exact ⟨root ++ above, (List.prefix_append_right_inj root).mpr habove, hmem⟩
      · intro hexists
        obtain ⟨above, habove, hmem⟩ := hexists
        -- Nothing at or above the root is data as a whole.
        have hroot : ¬ above <+: root := fun hle =>
          hfresh (whole_marks.mpr ⟨above, hle, hmem⟩)
        have hunder := (List.prefix_or_prefix_of_prefix habove
          (List.prefix_append root place)).resolve_left hroot
        obtain ⟨above, rfl⟩ := hunder
        exact ⟨above, (List.prefix_append_right_inj root).mp habove,
          (mem_rerooted h.whole).mpr ⟨above, rfl, hmem⟩⟩
    ext place
    · exact hwhole place
    · rename_i i
      rw [char_marks, hwhole]
      simp only [Marks.subtree]
      rw [@char_marks map (root ++ place)]
      refine or_congr_right (exists_congr (fun value => and_congr_left (fun _ => ?_)))
      rw [mem_below_ranges h]
      constructor
      · intro hexists
        obtain ⟨other, heq, hmem⟩ := hexists
        rwa [← pathOf_injective heq] at hmem
      · exact fun hmem => ⟨place, rfl, hmem⟩
    · rw [keys_marks, hwhole]
      simp only [Marks.subtree]
      rw [@keys_marks map (root ++ place)]
      apply or_congr_right
      simp only [below, mem_rerooted h.keys]
      constructor
      · intro hexists
        obtain ⟨other, heq, hmem⟩ := hexists
        rwa [← pathOf_injective heq] at hmem
      · exact fun hmem => ⟨place, rfl, hmem⟩

/-- What is read back of a map, before it is put in order. -/
def readBack (map : ProvenanceMap) : ProvenanceMap where
  whole := map.whole
  ranges := OrderedMap.ofList (map.toData.ranges.entries.map (fun entry =>
    (entry.1, mergeRanges entry.2)))
  keys := map.keys

theorem toData_ranges (map : ProvenanceMap) :
    map.toData.ranges.entries = map.ranges.entries.insertionSort (fun a b => a.1 ≤ b.1) :=
  OrderedMap.entries_ofList
    ((List.perm_insertionSort _ _).map Prod.fst |>.nodup_iff.mpr map.ranges.nodup)

theorem mem_toData_ranges : entry ∈ map.toData.ranges.entries ↔ entry ∈ map.ranges.entries := by
  rw [toData_ranges, (List.perm_insertionSort _ _).mem_iff]

theorem mem_readBack :
    entry ∈ map.readBack.ranges.entries ↔
      ∃ value, (entry.1, value) ∈ map.ranges.entries ∧ mergeRanges value = entry.2 := by
  have hnodup : ((map.toData.ranges.entries.map (fun entry =>
      (entry.1, mergeRanges entry.2))).map Prod.fst).Nodup := by
    rw [List.map_map]
    exact map.toData.ranges.nodup
  rw [readBack]
  simp only
  rw [OrderedMap.entries_ofList hnodup, List.mem_map]
  constructor
  · intro h
    obtain ⟨inner, hinner, rfl⟩ := h
    exact ⟨inner.2, mem_toData_ranges.mp hinner, rfl⟩
  · intro h
    obtain ⟨value, hentry, heq⟩ := h
    exact ⟨_, mem_toData_ranges.mpr hentry, by rw [heq]⟩

theorem placed_readBack (h : Placed map) : Placed map.readBack where
  whole := h.whole
  ranges := by
    intro entry hentry
    obtain ⟨value, hmem, _⟩ := mem_readBack.mp hentry
    exact h.ranges (entry.1, value) hmem
  keys := h.keys
  ordered := by
    intro entry hentry
    obtain ⟨value, _, heq⟩ := mem_readBack.mp hentry
    exact heq ▸ ordered_mergeRanges

theorem fromData_toData (h : Placed map) :
    fromData map.toData =
      some (ofParts map.readBack.whole map.readBack.ranges map.readBack.keys) := by
  have hparses : map.toData.ranges.entries.all (fun entry => parsesRanges entry.2) = true := by
    refine List.all_eq_true.mpr (fun entry hentry => List.all_eq_true.mpr (fun range hrange => ?_))
    exact decide_eq_true (h.ordered entry (mem_toData_ranges.mp hentry) range hrange)
  have hwhole : map.toData.whole.toFinset = map.whole := Finset.sort_toFinset _ _
  have hkeys : (map.toData.keys.getD []).toFinset = map.keys := by
    unfold toData
    simp only
    split
    · rename_i hnone
      rw [hnone]
      rfl
    · exact Finset.sort_toFinset _ _
  unfold fromData
  rw [if_pos hparses, hwhole, hkeys]
  rfl

/-- **A map read back marks what the map written marks.** -/
theorem marks_fromData (h : Placed map) :
    ∃ back, fromData map.toData = some back ∧ Placed back ∧ back.marks = map.marks := by
  refine ⟨_, fromData_toData h, (placed_readBack h).ofParts, ?_⟩
  rw [marks_ofParts (placed_readBack h)]
  have hwhole : ∀ place, map.readBack.marks.whole place ↔ map.marks.whole place := by
    intro place
    rw [whole_marks, whole_marks]
    rfl
  ext place
  · exact hwhole place
  · rename_i i
    rw [char_marks, char_marks, hwhole]
    apply or_congr_right
    simp only [mem_readBack]
    constructor
    · intro hexists
      obtain ⟨_, ⟨value, hentry, rfl⟩, hcovers⟩ := hexists
      exact ⟨value, hentry, covers_mergeRanges.mp hcovers⟩
    · intro hexists
      obtain ⟨value, hentry, hcovers⟩ := hexists
      exact ⟨_, ⟨value, hentry, rfl⟩, covers_mergeRanges.mpr hcovers⟩
  · rw [keys_marks, keys_marks, hwhole]
    rfl

end ProvenanceMap

end Provenance

end Swamp
