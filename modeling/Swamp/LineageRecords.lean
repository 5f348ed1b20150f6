import Swamp.PublishedLineage

/-!
# What the published records decide

The decisions of a writer read the list of published lineages; these lemmas say
what they decide in terms of the records at each fence.
-/

namespace Swamp

open Js MapOverlay

section Highest

variable {α β : Type} {find : α → Option β} {rank : β → ℕ}

theorem highestBy_concat (find : α → Option β) (rank : β → ℕ) (items : List α) (item : α) :
    (find item = none → highestBy find rank (items ++ [item]) = highestBy find rank items) ∧
    (∀ found, find item = some found → highestBy find rank items = none →
      highestBy find rank (items ++ [item]) = some found) ∧
    ∀ found, find item = some found → ∀ held, highestBy find rank items = some held →
      highestBy find rank (items ++ [item]) =
        if rank held < rank found then some found else some held := by
  unfold highestBy
  rw [List.foldl_append, List.foldl_cons, List.foldl_nil]
  refine ⟨?_, ?_, ?_⟩
  · intro hitem
    rw [hitem]
  · intro found hitem hheld
    rw [hitem, hheld]
  · intro found hitem held hheld
    rw [hitem, hheld]

/-- What a fold for the highest ends with: one it found or the one it held, and
none of a higher rank was found. -/
theorem highestBy_spec (items : List α) :
    (∀ b, highestBy find rank items = some b →
      (∃ a ∈ items, find a = some b) ∧ ∀ a ∈ items, ∀ c, find a = some c → rank c ≤ rank b) ∧
    (highestBy find rank items = none → ∀ a ∈ items, find a = none) := by
  induction items using List.reverseRecOn with
  | nil => simp [highestBy]
  | append_singleton items item ih =>
    obtain ⟨hsome, hnone⟩ := ih
    have hlast := highestBy_concat find rank items item
    cases hitem : find item with
    | none =>
      rw [hlast.1 hitem]
      grind
    | some found =>
      cases hheld : highestBy find rank items with
      | none =>
        have hrest := hnone hheld
        rw [hlast.2.1 found hitem hheld]
        grind
      | some held =>
        have hrest := hsome held hheld
        rw [hlast.2.2 found hitem held hheld]
        split
        · grind
        · grind

end Highest

namespace LineageWorld

variable {root : ReplicaRoot} {s : World}

variable {lineage : PublishedLineage}

theorem mem_publishedList :
    lineage ∈ s.publishedList ↔ ∃ records, s.records.lookup lineage.fence = some records ∧
      lineage = ⟨lineage.fence, records.started, records.confirmed, records.head⟩ := by
  unfold World.publishedList
  constructor
  · intro h
    obtain ⟨⟨fence, records⟩, hentry, rfl⟩ := List.mem_map.mp h
    exact ⟨records, mem_sortedEntries.mp hentry, rfl⟩
  · intro h
    obtain ⟨records, hlookup, hlineage⟩ := h
    exact List.mem_map.mpr ⟨(lineage.fence, records), mem_sortedEntries.mpr hlookup, hlineage.symm⟩

variable {fence : ℕ}

theorem published_at (h : s.recordsOf fence ≠ LineageRecords.none) :
    (⟨fence, (s.recordsOf fence).started, (s.recordsOf fence).confirmed,
      (s.recordsOf fence).head⟩ : PublishedLineage) ∈ s.publishedList := by
  rw [mem_publishedList]
  unfold World.recordsOf at h ⊢
  cases hlookup : s.records.lookup fence with
  | none =>
    rw [hlookup] at h
    exact absurd rfl h
  | some records => exact ⟨records, rfl, rfl⟩

theorem recordsOf_published (h : lineage ∈ s.publishedList) :
    lineage.started = (s.recordsOf lineage.fence).started ∧
      lineage.confirmed = (s.recordsOf lineage.fence).confirmed ∧
      lineage.head = (s.recordsOf lineage.fence).head := by
  obtain ⟨records, hlookup, hlineage⟩ := mem_publishedList.mp h
  unfold World.recordsOf
  rw [hlookup, hlineage]
  exact ⟨rfl, rfl, rfl⟩

/-- A lineage with a start under the root, a confirmation, and a head of its
own. -/
structure IsComplete (root : ReplicaRoot) (s : World) (fence : ℕ) : Prop where
  started : isStarted root s fence = true
  confirmed : (s.recordsOf fence).confirmed ≠ none
  head : ∃ head, (s.recordsOf fence).head = some head ∧ head.fence = fence

theorem isStarted_of_published (h : lineage ∈ s.publishedList) :
    lineage.isStarted root = isStarted root s lineage.fence := by
  unfold PublishedLineage.isStarted isStarted
  rw [(recordsOf_published h).1]

theorem ne_none_of_started (h : isStarted root s fence = true) :
    s.recordsOf fence ≠ LineageRecords.none := by
  intro hnone
  unfold isStarted at h
  rw [hnone] at h
  cases h

theorem complete_iff (h : lineage ∈ s.publishedList) {found : CompleteLineage} :
    lineage.complete root = some found ↔ found.fence = lineage.fence ∧
      isStarted root s lineage.fence = true ∧ found.head.fence = lineage.fence ∧
      (s.recordsOf lineage.fence).started = some found.started ∧
      (s.recordsOf lineage.fence).confirmed = some found.confirmed ∧
      (s.recordsOf lineage.fence).head = some found.head := by
  obtain ⟨hstarted, hconfirmed, hhead⟩ := recordsOf_published h
  rw [← isStarted_of_published h, ← hstarted, ← hconfirmed, ← hhead]
  obtain ⟨fence, started, confirmed, head⟩ := lineage
  obtain ⟨foundFence, foundStarted, foundConfirmed, foundHead⟩ := found
  unfold PublishedLineage.complete PublishedLineage.isStarted
  cases started with
  | none => simp
  | some started =>
    cases confirmed with
    | none => simp
    | some confirmed =>
      cases head with
      | none => simp
      | some head =>
        simp only [Option.ite_none_right_eq_some, Option.some.injEq,
          CompleteLineage.mk.injEq]
        grind

/-- A complete lineage is found. -/
theorem find_complete (h : IsComplete root s fence) :
    ∃ lineage ∈ s.publishedList, ∃ found, lineage.complete root = some found ∧
      found.fence = fence := by
  have hmem := published_at (ne_none_of_started h.started)
  obtain ⟨head, hhead, hfence⟩ := h.head
  obtain ⟨confirmed, hconfirmed⟩ := Option.ne_none_iff_exists'.mp h.confirmed
  cases hstarted : (s.recordsOf fence).started with
  | none =>
    have hnot := h.started
    unfold isStarted at hnot
    rw [hstarted] at hnot
    cases hnot
  | some started =>
    exact ⟨_, hmem, ⟨fence, started, confirmed, head⟩,
      (complete_iff hmem).mpr ⟨rfl, h.started, hfence, hstarted, hconfirmed, hhead⟩, rfl⟩

/-- What the current lineage is. -/
theorem current_some {current : CompleteLineage}
    (h : currentLineage root s.publishedList = some current) :
    isStarted root s current.fence = true ∧ (s.recordsOf current.fence).head = some current.head ∧
      ∀ fence, IsComplete root s fence → fence ≤ current.fence := by
  obtain ⟨⟨lineage, hmem, hcomplete⟩, hhighest⟩ := (highestBy_spec s.publishedList).1 current h
  obtain ⟨hfence, hstarted, -, -, -, hhead⟩ := (complete_iff hmem).mp hcomplete
  rw [hfence]
  refine ⟨hstarted, hhead, ?_⟩
  intro fence hfound
  obtain ⟨other, hother, found, hotherFound, rfl⟩ := find_complete hfound
  rw [← hfence]
  exact hhighest other hother found hotherFound

theorem current_none (h : currentLineage root s.publishedList = none) (fence : ℕ) :
    ¬ IsComplete root s fence := by
  intro hfound
  obtain ⟨lineage, hmem, found, hcomplete, -⟩ := find_complete hfound
  have hnone := (highestBy_spec s.publishedList).2 h lineage hmem
  rw [hnone] at hcomplete
  cases hcomplete

/-- What the newest started fence is. -/
theorem newest_some (h : newestStartedFence root s.publishedList = some fence) :
    isStarted root s fence = true ∧ ∀ other, isStarted root s other = true → other ≤ fence := by
  obtain ⟨⟨lineage, hmem, hfound⟩, hhighest⟩ := (highestBy_spec s.publishedList).1 fence h
  refine ⟨?_, ?_⟩
  · split at hfound
    · rename_i hstarted
      rw [isStarted_of_published hmem, Option.some.inj hfound] at hstarted
      exact hstarted
    · cases hfound
  · intro other hother
    have hpublished := published_at (ne_none_of_started hother)
    apply hhighest _ hpublished other
    rw [if_pos]
    rw [isStarted_of_published hpublished]
    exact hother

/-- **How a local copy fares**: there is nothing to restore, its own lineage is
the newest started and past the current one, it holds the current lineage, or it
is restored from it. -/
theorem decideLocalCopy_cases (held : Option LocalCopy) :
    (currentLineage root s.publishedList = none ∧
      decideLocalCopy root held s.publishedList = .none) ∨
    ∃ current, currentLineage root s.publishedList = some current ∧
      ((∃ kind, decideLocalCopy root held s.publishedList = .restore kind current) ∨
       (decideLocalCopy root held s.publishedList = .current ∧
        ∃ l, held = some l ∧
         ((∃ own, l.lineage = some own ∧ current.fence < own.lineageFence ∧
            newestStartedFence root s.publishedList = some own.lineageFence) ∨
          ∃ copy, l.copy = some copy ∧ copy.lineageFence = current.fence))) := by
  unfold decideLocalCopy
  cases hcurrent : currentLineage root s.publishedList with
  | none => exact Or.inl ⟨rfl, rfl⟩
  | some current =>
    refine Or.inr ⟨current, rfl, ?_⟩
    cases held with
    | none => exact Or.inl ⟨.missing, rfl⟩
    | some l =>
      simp only
      split
      · rename_i howns
        refine Or.inr ⟨rfl, l, rfl, Or.inl ?_⟩
        unfold ownsNewest at howns
        split at howns
        · rename_i own hown
          simp only [Bool.and_eq_true, decide_eq_true_eq] at howns
          exact ⟨own, hown, howns.1.2, howns.2⟩
        · cases howns
      · cases hcopy : l.copy with
        | none => exact Or.inl ⟨.foreign, rfl⟩
        | some copy =>
          simp only
          split
          · exact Or.inl ⟨.foreign, rfl⟩
          · rename_i hsame
            split
            · refine Or.inr ⟨rfl, l, rfl, Or.inr ⟨copy, hcopy, ?_⟩⟩
              simp only [Bool.or_eq_true, Bool.not_eq_true', decide_eq_true_eq, not_or,
                Decidable.not_not] at hsame
              exact hsame.2
            · exact Or.inl ⟨.behind, rfl⟩

end LineageWorld

end Swamp
