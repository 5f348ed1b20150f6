import Mathlib.Data.Finmap
import Mathlib.Data.Finset.Sort

/-!
# Maps: their entries in key order, and overlays written back

A change is staged in an overlay: an association list with one entry for each
key it touches.  Writing it back runs over the entries once, in the order they
stand.  Since the keys of an overlay are distinct, the order does not matter,
and the map that results is known key by key: `lookup_foldl` is the general
fact, `lookup_writeAll` and `lookup_writeBack` the two uses of it.

`sortedEntries` lists a map by its keys; `ofEntries` reads such a list back.
-/

namespace MapOverlay

variable {K : Type*} [DecidableEq K] {A V : Type*}

/-- **Write-back, key by key.**  A step that sets only its own key, to a value
`final` of the staged one, leaves `final` at every staged key and the old value
at every other. -/
theorem lookup_foldl (step : Finmap (fun _ : K => V) → K → A → Finmap (fun _ : K => V))
    (final : A → Option V)
    (hown : ∀ m k a, (step m k a).lookup k = final a)
    (hother : ∀ m k a k', k' ≠ k → (step m k a).lookup k' = m.lookup k')
    (overlay : AList (fun _ : K => A)) (base : Finmap (fun _ : K => V)) (k : K) :
    (overlay.foldl step base).lookup k =
      match overlay.lookup k with
      | some a => final a
      | none => base.lookup k := by
  obtain ⟨entries, hnodup⟩ := overlay
  simp only [AList.foldl, AList.lookup]
  induction entries generalizing base with
  | nil => simp
  | cons entry entries ih =>
    obtain ⟨key, a⟩ := entry
    have hcons := List.nodupKeys_cons.mp hnodup
    rw [List.foldl_cons, ih _ hcons.2]
    by_cases hkey : k = key
    · subst hkey
      have hnone : entries.dlookup k = none := List.dlookup_eq_none.mpr hcons.1
      rw [hnone, List.dlookup_cons_eq]
      exact hown base k a
    · have hskip : List.dlookup k (⟨key, a⟩ :: entries) = entries.dlookup k :=
        List.dlookup_cons_ne entries ⟨key, a⟩ (by simpa using hkey)
      rw [hskip]
      cases entries.dlookup k with
      | none => exact hother base key a k hkey
      | some b => rfl

/-- Write every staged value. -/
def writeAll (overlay : AList (fun _ : K => V)) (base : Finmap (fun _ : K => V)) :
    Finmap (fun _ : K => V) :=
  overlay.foldl (fun m k v => m.insert k v) base

/-- Write every staged value, and delete where `none` is staged. -/
def writeBack (overlay : AList (fun _ : K => Option V)) (base : Finmap (fun _ : K => V)) :
    Finmap (fun _ : K => V) :=
  overlay.foldl
    (fun m k staged =>
      match staged with
      | none => m.erase k
      | some v => m.insert k v)
    base

theorem lookup_writeAll (overlay : AList (fun _ : K => V)) (base : Finmap (fun _ : K => V))
    (k : K) :
    (writeAll overlay base).lookup k = (overlay.lookup k).or (base.lookup k) := by
  rw [writeAll, lookup_foldl (fun m k v => m.insert k v) some]
  · cases overlay.lookup k with
    | none | some v => rfl
  · exact fun m k v => Finmap.lookup_insert m
  · exact fun m k v k' hne => Finmap.lookup_insert_of_ne m hne

theorem lookup_writeBack (overlay : AList (fun _ : K => Option V))
    (base : Finmap (fun _ : K => V)) (k : K) :
    (writeBack overlay base).lookup k = (overlay.lookup k).getD (base.lookup k) := by
  rw [writeBack, lookup_foldl _ id]
  · cases overlay.lookup k with
    | none | some staged => rfl
  · intro m k staged
    cases staged with
    | none => exact Finmap.lookup_erase k m
    | some v => exact Finmap.lookup_insert m
  · intro m k staged k' hne
    cases staged with
    | none => exact Finmap.lookup_erase_ne hne
    | some v => exact Finmap.lookup_insert_of_ne m hne

/-- **A fold over the entries, key by key.**  A step that changes only its own
key, by `final`, leaves every other key alone. -/
theorem lookup_foldl_entries {W : Type*}
    (step : Finmap (fun _ : K => V) → K → W → Finmap (fun _ : K => V))
    (final : Option V → W → Option V)
    (hown : ∀ m k w, (step m k w).lookup k = final (m.lookup k) w)
    (hother : ∀ m k w k', k' ≠ k → (step m k w).lookup k' = m.lookup k')
    (entries : List (K × W)) (hnodup : (entries.map Prod.fst).Nodup)
    (base : Finmap (fun _ : K => V)) (k : K) :
    (entries.foldl (fun m e => step m e.1 e.2) base).lookup k =
      match entries.lookup k with
      | some w => final (base.lookup k) w
      | none => base.lookup k := by
  induction entries generalizing base with
  | nil => simp
  | cons entry entries ih =>
    obtain ⟨key, w⟩ := entry
    have hcons := List.nodup_cons.mp hnodup
    rw [List.foldl_cons, ih hcons.2]
    by_cases hkey : k = key
    · subst hkey
      have hnone : entries.lookup k = none := by
        rw [List.lookup_eq_none_iff]
        intro e he
        simp only [bne_iff_ne, ne_eq]
        rintro rfl
        exact hcons.1 (List.mem_map.mpr ⟨e, he, rfl⟩)
      rw [hnone, List.lookup_cons_self]
      exact hown base k w
    · have hskip : List.lookup k ((key, w) :: entries) = entries.lookup k := by
        have hbeq : (k == key) = false := beq_false_of_ne hkey
        rw [List.lookup_cons, hbeq]
      rw [hskip]
      cases entries.lookup k with
      | none => exact hother base key w k hkey
      | some w' => simp only [hother base key w k hkey]

section Sorted

variable {K V : Type*} [LinearOrder K] [DecidableEq K]

/-- The entries of a map, in the order of their keys. -/
def sortedEntries (m : Finmap (fun _ : K => V)) : List (K × V) :=
  m.keys.sort.filterMap (fun k => (m.lookup k).map (fun v => (k, v)))

@[simp] theorem mem_sortedEntries {m : Finmap (fun _ : K => V)} {k : K} {v : V} :
    (k, v) ∈ sortedEntries m ↔ m.lookup k = some v := by
  unfold sortedEntries
  rw [List.mem_filterMap]
  constructor
  · rintro ⟨key, -, hkey⟩
    obtain ⟨value, hvalue, heq⟩ := Option.map_eq_some_iff.mp hkey
    obtain ⟨rfl, rfl⟩ := Prod.mk.inj heq
    exact hvalue
  · intro h
    have hmem : k ∈ m.keys := Finmap.mem_keys.mpr (Finmap.mem_iff.mpr ⟨v, h⟩)
    exact ⟨k, (Finset.mem_sort _).mpr hmem, by simp [h]⟩

theorem sortedEntries_keys (m : Finmap (fun _ : K => V)) :
    (sortedEntries m).map Prod.fst = m.keys.sort := by
  have hall : ∀ k ∈ m.keys.sort, ∃ v, m.lookup k = some v := by
    intro k hk
    exact Finmap.mem_iff.mp (Finmap.mem_keys.mp ((Finset.mem_sort _).mp hk))
  unfold sortedEntries
  generalize m.keys.sort = keys at hall
  induction keys with
  | nil => rfl
  | cons key keys ih =>
    obtain ⟨v, hv⟩ := hall key List.mem_cons_self
    rw [List.filterMap_cons_some (b := (key, v)) (by simp [hv]), List.map_cons,
      ih (fun k hk => hall k (List.mem_cons_of_mem _ hk))]

theorem sortedEntries_nodup (m : Finmap (fun _ : K => V)) :
    ((sortedEntries m).map Prod.fst).Nodup := by
  rw [sortedEntries_keys]
  exact Finset.sort_nodup _ _

@[simp] theorem lookup_sortedEntries (m : Finmap (fun _ : K => V)) (k : K) :
    (sortedEntries m).lookup k = m.lookup k := by
  have hmem : ∀ v, (k, v) ∈ sortedEntries m ↔ m.lookup k = some v := fun v => mem_sortedEntries
  cases hfound : (sortedEntries m).lookup k with
  | some v =>
    obtain ⟨before, rest, heq, -⟩ := List.lookup_eq_some_iff.mp hfound
    exact ((hmem v).mp (heq ▸ List.mem_append_right _ List.mem_cons_self)).symm
  | none =>
    cases hlookup : m.lookup k with
    | none => rfl
    | some v =>
      have hnot := List.lookup_eq_none_iff.mp hfound (k, v) ((hmem v).mpr hlookup)
      simp at hnot

/-- Insert every entry of a list. -/
def ofEntries (entries : List (K × V)) : Finmap (fun _ : K => V) :=
  entries.foldl (fun m e => m.insert e.1 e.2) ∅

/-- **A map reads back from its entries.** -/
theorem ofEntries_sortedEntries (m : Finmap (fun _ : K => V)) :
    ofEntries (sortedEntries m) = m := by
  apply Finmap.ext_lookup
  intro k
  rw [ofEntries, lookup_foldl_entries (fun m k v => m.insert k v) (fun _ v => some v)
    (fun m k v => Finmap.lookup_insert m) (fun m k v k' hne => Finmap.lookup_insert_of_ne m hne)
    _ (sortedEntries_nodup m), lookup_sortedEntries]
  cases m.lookup k with
  | none | some v => rfl

end Sorted

end MapOverlay
