import Swamp.PartitionApply

/-!
# What every partition keeps to

A data name is sound when its live versions lie between 1 and its high-water
mark and its removed ones stay apart from them and below the mark.  It grows
when its mark does not fall and no version it recorded is forgotten, live or
removed.  Every mutator keeps names sound and lets them only grow; the facts
are proved once for an entry and lifted to the partition.
-/

namespace Swamp

open Js MapOverlay

variable {d : DataName}

namespace DataName

/-- The versions of a name are consistent. -/
structure Sound (d : DataName) : Prop where
  live_pos : ∀ v ∈ d.live, 1 ≤ v
  live_le : ∀ v ∈ d.live, v ≤ d.highWater
  removed_le : ∀ v ∈ d.removed, v ≤ d.highWater
  disjoint : ∀ v ∈ d.removed, v ∉ d.live
  safe : d.highWater ≤ maxSafeInteger

/-- A version the name recorded, removed or kept. -/
def Recorded (d : DataName) (v : ℕ) : Prop := v ∈ d.live ∨ v ∈ d.removed

/-- The mark does not fall and no recorded version is forgotten. -/
def Grows (before next : DataName) : Prop :=
  before.highWater ≤ next.highWater ∧ ∀ v, before.Recorded v → next.Recorded v

theorem Grows.refl (d : DataName) : d.Grows d := ⟨le_refl _, fun _ h => h⟩

theorem Grows.trans {a b c : DataName} (hab : a.Grows b) (hbc : b.Grows c) : a.Grows c :=
  ⟨le_trans hab.1 hbc.1, fun v h => hbc.2 v (hab.2 v h)⟩

theorem unwritten_sound : unwritten.Sound where
  live_pos := by simp [unwritten]
  live_le := by simp [unwritten]
  removed_le := by simp [unwritten]
  disjoint := by simp [unwritten]
  safe := Nat.zero_le _

theorem recordVersion_sound (h : d.Sound) (version : Version) :
    (d.recordVersion version).Sound where
  live_pos := by
    intro v hv
    rcases Finset.mem_insert.mp hv with rfl | hv
    · exact version.pos
    · exact h.live_pos v hv
  live_le := by
    intro v hv
    rcases Finset.mem_insert.mp hv with rfl | hv
    · exact le_max_right _ _
    · exact le_trans (h.live_le v hv) (le_max_left _ _)
  removed_le := by
    intro v hv
    have hold := ((VersionRanges.mem_delete _ _ _).mp hv).1
    exact le_trans (h.removed_le v hold) (le_max_left _ _)
  disjoint := by
    intro v hv hlive
    obtain ⟨hold, hne⟩ := (VersionRanges.mem_delete _ _ _).mp hv
    rcases Finset.mem_insert.mp hlive with heq | hlive
    · exact hne heq
    · exact h.disjoint v hold hlive
  safe := max_le h.safe version.safe

theorem recordVersion_grows (d : DataName) (version : Version) :
    d.Grows (d.recordVersion version) := by
  refine ⟨le_max_left _ _, ?_⟩
  intro v hv
  by_cases heq : v = version.val
  · exact Or.inl (Finset.mem_insert.mpr (Or.inl heq))
  · rcases hv with hlive | hremoved
    · exact Or.inl (Finset.mem_insert_of_mem hlive)
    · exact Or.inr ((VersionRanges.mem_delete _ _ _).mpr ⟨hremoved, heq⟩)

theorem removeVersion_sound (h : d.Sound) (version : Version) :
    (d.removeVersion version).Sound := by
  unfold removeVersion
  split
  · rename_i hmem
    refine ⟨?_, ?_, ?_, ?_, h.safe⟩
    · exact fun v hv => h.live_pos v (Finset.mem_of_mem_erase hv)
    · exact fun v hv => h.live_le v (Finset.mem_of_mem_erase hv)
    · intro v hv
      rcases (VersionRanges.mem_add _ _ _).mp hv with hold | rfl
      · exact h.removed_le v hold
      · exact h.live_le _ hmem
    · intro v hv hlive
      obtain ⟨hne, hlive⟩ := Finset.mem_erase.mp hlive
      rcases (VersionRanges.mem_add _ _ _).mp hv with hold | heq
      · exact h.disjoint v hold hlive
      · exact hne heq
  · exact h

theorem removeVersion_grows (d : DataName) (version : Version) :
    d.Grows (d.removeVersion version) := by
  unfold removeVersion
  split
  · refine ⟨le_refl _, ?_⟩
    intro v hv
    by_cases heq : v = version.val
    · exact Or.inr ((VersionRanges.mem_add _ _ _).mpr (Or.inr heq))
    · rcases hv with hlive | hremoved
      · exact Or.inl (Finset.mem_erase.mpr ⟨heq, hlive⟩)
      · exact Or.inr ((VersionRanges.mem_add _ _ _).mpr (Or.inl hremoved))
  · exact Grows.refl d

@[simp] theorem removeVersion_highWater (d : DataName) (version : Version) :
    (d.removeVersion version).highWater = d.highWater := by
  unfold removeVersion
  split
  · rfl
  · rfl

end DataName

namespace Partition

open DataName

theorem retainVersion_sound (h : d.Sound) (version : Version) :
    (retainVersion d version).2.Sound := by
  unfold retainVersion
  split
  · refine ⟨h.live_pos, ?_, ?_, h.disjoint, max_le h.safe version.safe⟩
    · exact fun v hv => le_trans (h.live_le v hv) (le_max_left _ _)
    · exact fun v hv => le_trans (h.removed_le v hv) (le_max_left _ _)
  · rename_i hnew
    refine ⟨h.live_pos, ?_, ?_, ?_, max_le h.safe version.safe⟩
    · exact fun v hv => le_trans (h.live_le v hv) (le_max_left _ _)
    · intro v hv
      rcases (VersionRanges.mem_add _ _ _).mp hv with hold | rfl
      · exact le_trans (h.removed_le v hold) (le_max_left _ _)
      · exact le_max_right _ _
    · intro v hv hlive
      rcases (VersionRanges.mem_add _ _ _).mp hv with hold | rfl
      · exact h.disjoint v hold hlive
      · exact hnew (Or.inl hlive)

theorem retainVersion_grows (d : DataName) (version : Version) :
    d.Grows (retainVersion d version).2 := by
  unfold retainVersion
  split
  · exact ⟨le_max_left _ _, fun v hv => hv⟩
  · refine ⟨le_max_left _ _, ?_⟩
    rintro v (hlive | hremoved)
    · exact Or.inl hlive
    · exact Or.inr ((VersionRanges.mem_add _ _ _).mpr (Or.inl hremoved))

theorem le_retainVersion_highWater (d : DataName) (version : Version) :
    version.val ≤ (retainVersion d version).2.highWater := by
  unfold retainVersion
  split
  · exact le_max_right _ _
  · exact le_max_right _ _

/-- Deleting a list of versions, one after another. -/
theorem mem_foldl_delete (versions : List ℕ) (ranges : VersionRanges) (v : ℕ) :
    v ∈ versions.foldl VersionRanges.delete ranges ↔ v ∈ ranges ∧ v ∉ versions := by
  induction versions generalizing ranges with
  | nil => simp
  | cons w versions ih =>
    rw [List.foldl_cons, ih, VersionRanges.mem_delete, List.mem_cons]
    tauto

/-- The removed versions a later state's entry leaves: both states' own, but for
the live ones. -/
theorem mem_retainEntry_removed (d theirs : DataName) (v : ℕ) :
    v ∈ (retainEntry d theirs).2.removed ↔ (v ∈ d.removed ∨ v ∈ theirs.removed) ∧ v ∉ d.live := by
  unfold retainEntry
  rw [mem_foldl_delete, VersionRanges.mem_union, Finset.mem_sort]

theorem retainEntry_sound {theirs : DataName} (h : d.Sound) (htheirs : theirs.Sound) :
    (retainEntry d theirs).2.Sound where
  live_pos := h.live_pos
  live_le := fun v hv => le_trans (h.live_le v hv) (le_max_left _ _)
  removed_le := by
    intro v hv
    rcases ((mem_retainEntry_removed d theirs v).mp hv).1 with hold | hnew
    · exact le_trans (h.removed_le v hold) (le_max_left _ _)
    · exact le_trans (htheirs.removed_le v hnew) (le_max_right _ _)
  disjoint := fun v hv => ((mem_retainEntry_removed d theirs v).mp hv).2
  safe := max_le h.safe htheirs.safe

theorem retainEntry_grows (d theirs : DataName) : d.Grows (retainEntry d theirs).2 := by
  refine ⟨le_max_left _ _, ?_⟩
  intro v hv
  by_cases hlive : v ∈ d.live
  · exact Or.inl hlive
  · rcases hv with hlive' | hremoved
    · exact absurd hlive' hlive
    · exact Or.inr ((mem_retainEntry_removed d theirs v).mpr ⟨Or.inl hremoved, hlive⟩)

/-- An entry of a map of names: sound, and of a name that was written. -/
def Written (entry : Option DataName) : Prop :=
  ∀ d, entry = some d → d.Sound ∧ 1 ≤ d.highWater

/-- What every partition keeps to. -/
structure Sound (p : Partition) : Prop where
  seq_safe : p.seq ≤ maxSafeInteger
  holder_ne : p.leaseHolder ≠ some []
  holder_fence : p.leaseHolder ≠ none → p.leaseFence ≠ none
  names : ∀ name, Written (p.names.lookup name)

/-- Every name grows. -/
def Grows (before next : Partition) : Prop :=
  ∀ name, (before.nameEntry name).Grows (next.nameEntry name)

theorem Grows.refl (p : Partition) : p.Grows p := fun _ => DataName.Grows.refl _

theorem Grows.trans {a b c : Partition} (hab : a.Grows b) (hbc : b.Grows c) : a.Grows c :=
  fun name => (hab name).trans (hbc name)

variable {p : Partition}

theorem Sound.nameEntry (h : p.Sound) (name : JsString) : (p.nameEntry name).Sound := by
  unfold Partition.nameEntry
  cases hlookup : p.names.lookup name with
  | none => exact unwritten_sound
  | some d => exact (h.names name d hlookup).1

theorem empty_sound (key : PartitionKey) : (empty key).Sound where
  seq_safe := Nat.zero_le _
  holder_ne := by simp [empty]
  holder_fence := by simp [empty]
  names := by
    intro name d h
    simp [empty] at h

/-- An op keeps an entry written. -/
theorem onName_written {entry : Option DataName} (h : Written entry) (name : JsString) (op : Op) :
    Written (op.onName name entry) := by
  cases op with
  | put op | lease op => exact h
  | dataVersion op =>
    simp only [Op.onName]
    split
    · intro d hd
      cases hd
      have hsound : (entry.getD unwritten).Sound := by
        cases hentry : entry with
        | none => exact unwritten_sound
        | some d => exact (h d hentry).1
      exact ⟨recordVersion_sound hsound _,
        le_trans op.metadata.version.pos (le_max_right _ _)⟩
    · exact h
  | tombstone op =>
    simp only [Op.onName]
    split
    · split
      · intro d hd
        obtain ⟨old, hold, rfl⟩ := Option.map_eq_some_iff.mp hd
        obtain ⟨hsound, hwritten⟩ := h old hold
        exact ⟨removeVersion_sound hsound _, by rwa [removeVersion_highWater]⟩
      · exact h
    · exact h

/-- An op lets an entry only grow. -/
theorem onName_grows (entry : Option DataName) (name : JsString) (op : Op) :
    (entry.getD unwritten).Grows ((op.onName name entry).getD unwritten) := by
  cases op with
  | put op | lease op => exact DataName.Grows.refl _
  | dataVersion op =>
    simp only [Op.onName]
    split
    · exact recordVersion_grows _ _
    · exact DataName.Grows.refl _
  | tombstone op =>
    simp only [Op.onName]
    split
    · split
      · cases entry with
        | none => exact DataName.Grows.refl _
        | some d => exact removeVersion_grows d _
      · exact DataName.Grows.refl _
    · exact DataName.Grows.refl _

theorem foldl_onName_written {entry : Option DataName} (h : Written entry) (name : JsString)
    (ops : List Op) : Written (ops.foldl (fun d op => op.onName name d) entry) := by
  induction ops generalizing entry with
  | nil => exact h
  | cons op ops ih => exact ih (onName_written h name op)

theorem foldl_onName_grows (entry : Option DataName) (name : JsString) (ops : List Op) :
    (entry.getD unwritten).Grows
      ((ops.foldl (fun d op => op.onName name d) entry).getD unwritten) := by
  induction ops generalizing entry with
  | nil => exact DataName.Grows.refl _
  | cons op ops ih => exact (onName_grows entry name op).trans (ih _)

/-- A lease is held by somebody, and under a fence. -/
def LeaseSound (lease : Option Fence × Option JsString) : Prop :=
  lease.2 ≠ some [] ∧ (lease.2 ≠ none → lease.1 ≠ none)

theorem foldl_onLease_sound {lease : Option Fence × Option JsString} (h : LeaseSound lease)
    (ops : List Op) : LeaseSound (ops.foldl Op.onLease lease) := by
  induction ops generalizing lease with
  | nil => exact h
  | cons op ops ih =>
    apply ih
    cases op with
    | put op | tombstone op | dataVersion op => exact h
    | lease op =>
      refine ⟨?_, ?_⟩
      · intro hempty
        exact op.holder_ne (Option.some.inj hempty)
      · intro _ hnone
        cases hnone

/-- **A commit that lands keeps the partition sound.** -/
theorem Landed.sound {next : Partition} {commit : Commit} {replay observed : Bool}
    (h : p.Landed commit replay observed next) (hsound : p.Sound) : next.Sound := by
  have hlease : LeaseSound (next.leaseFence, next.leaseHolder) := by
    rw [h.lease]
    exact foldl_onLease_sound ⟨hsound.holder_ne, hsound.holder_fence⟩ commit.ops
  refine ⟨?_, hlease.1, hlease.2, ?_⟩
  · rw [h.next_seq]
    exact commit.seq_safe
  · intro name
    rw [h.name_lookup name]
    exact foldl_onName_written (hsound.names name) name commit.ops

/-- **A commit that lands forgets no version.** -/
theorem Landed.grows {next : Partition} {commit : Commit} {replay observed : Bool}
    (h : p.Landed commit replay observed next) : p.Grows next := by
  intro name
  unfold nameEntry
  rw [h.name_lookup name]
  exact foldl_onName_grows _ name commit.ops

theorem nameEntry_insert (p : Partition) (target name : JsString) (d : DataName) :
    ({ p with names := p.names.insert target d } : Partition).nameEntry name =
      if name = target then d else p.nameEntry name := by
  unfold nameEntry
  split
  · rename_i h
    subst h
    simp
  · rename_i h
    simp [Finmap.lookup_insert_of_ne _ h]

/-- Writing one sound entry that its name grew into. -/
theorem insert_sound (h : p.Sound) (name : JsString) (hd : d.Sound) (hwritten : 1 ≤ d.highWater) :
    ({ p with names := p.names.insert name d } : Partition).Sound where
  seq_safe := h.seq_safe
  holder_ne := h.holder_ne
  holder_fence := h.holder_fence
  names := by
    intro other e he
    by_cases hother : other = name
    · subst hother
      simp only [Finmap.lookup_insert, Option.some.injEq] at he
      subst he
      exact ⟨hd, hwritten⟩
    · simp only [Finmap.lookup_insert_of_ne _ hother] at he
      exact h.names other e he

theorem insert_grows (p : Partition) (name : JsString) (hd : (p.nameEntry name).Grows d) :
    p.Grows { p with names := p.names.insert name d } := by
  intro other
  rw [nameEntry_insert]
  split
  · rename_i h
    subst h
    exact hd
  · exact DataName.Grows.refl _

/-- What one step of a fold keeps of the partition, the whole fold keeps; the
flag beside the partition plays no part. -/
private theorem foldl_keeps {α : Type*} (step : Bool × Partition → α → Bool × Partition)
    (Keeps : Partition → Partition → Prop) (hrefl : ∀ p, Keeps p p)
    (htrans : ∀ a b c, Keeps a b → Keeps b c → Keeps a c) (items : List α)
    (hstep : ∀ state, ∀ item ∈ items, Keeps state.2 (step state item).2)
    (state : Bool × Partition) : Keeps state.2 (items.foldl step state).2 := by
  induction items generalizing state with
  | nil => exact hrefl _
  | cons item items ih =>
    rw [List.foldl_cons]
    refine htrans _ _ _ (hstep state item List.mem_cons_self) (ih ?_ _)
    exact fun state item hitem => hstep state item (List.mem_cons_of_mem _ hitem)

/-- One partition after another, sound if the first is, with the same key and
every name grown. -/
structure Retains (before next : Partition) : Prop where
  key : next.key = before.key
  sound : before.Sound → next.Sound
  grows : before.Grows next

theorem Retains.refl (p : Partition) : p.Retains p := ⟨rfl, id, Grows.refl p⟩

theorem Retains.trans {a b c : Partition} (hab : a.Retains b) (hbc : b.Retains c) : a.Retains c :=
  ⟨hbc.key.trans hab.key, fun h => hbc.sound (hab.sound h), hab.grows.trans hbc.grows⟩

/-- **Keeping dropped versions** keeps the partition sound and forgets none. -/
theorem retainDroppedVersions_retains (p : Partition) (name : JsString)
    (versions : List Version) : p.Retains (p.retainDroppedVersions name versions).2 := by
  refine foldl_keeps _ Retains Retains.refl (fun _ _ _ => Retains.trans) versions ?_ (false, p)
  rintro ⟨changed, q⟩ version -
  refine ⟨rfl, ?_, insert_grows q name (retainVersion_grows _ version)⟩
  intro hq
  exact insert_sound hq name (retainVersion_sound (hq.nameEntry name) version)
    (le_trans version.pos (le_retainVersion_highWater _ version))

/-- **Keeping a later state's versions** keeps the partition sound and forgets
none. -/
theorem retainVersionsOf_retains (p : Partition) {later : Partition} (hlater : later.Sound) :
    p.Retains (p.retainVersionsOf later).2 := by
  refine foldl_keeps _ Retains Retains.refl (fun _ _ _ => Retains.trans) _ ?_ (false, p)
  rintro ⟨changed, q⟩ ⟨name, theirs⟩ hentry
  obtain ⟨htheirs, hwritten⟩ := hlater.names name theirs (mem_sortedEntries.mp hentry)
  refine ⟨rfl, ?_, insert_grows q name (retainEntry_grows _ theirs)⟩
  intro hq
  exact insert_sound hq name (retainEntry_sound (hq.nameEntry name) htheirs)
    (le_trans hwritten (le_max_right _ _))

end Partition

end Swamp
