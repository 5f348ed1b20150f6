import Swamp.WriterLease

/-!
# What every operation on the lease's store keeps

Pruning deletes old fence records, so a slow process can create a fence number
that was used before.  The store then has a higher fence, since a prune keeps
the fence it is made for.
-/

namespace Swamp.WriterLease

open Js Interleaving

/-- The fence a key records, zero when it records none. -/
def recordedFence (key : JsString) : ℕ :=
  match parseWriterLeaseKey key with
  | some (.fence, fence) => fence
  | _ => 0

/-- The highest fence with a record in the store. -/
def highestFence (store : LeaseStore) : ℕ := store.keys.sup recordedFence

variable {key : JsString} {fence : ℕ}

theorem recordedFence_eq (h : parseWriterLeaseKey key = some (.fence, fence)) :
    recordedFence key = fence := by
  unfold recordedFence
  rw [h]

variable {store : LeaseStore}

theorem recordedFence_le (h : key ∈ store) : recordedFence key ≤ highestFence store :=
  Finset.le_sup (Finmap.mem_keys.mpr h)

theorem highestFence_insert (store : LeaseStore) (key : JsString) (value : LeaseValue) :
    highestFence store ≤ highestFence (store.insert key value) := by
  apply Finset.sup_le
  intro other hother
  apply recordedFence_le
  rw [Finmap.mem_insert]
  exact Or.inr (Finmap.mem_keys.mp hother)

theorem highestFence_erase (h : recordedFence key < highestFence store ∨ recordedFence key = 0) :
    highestFence store ≤ highestFence (store.erase key) := by
  apply Finset.sup_le
  intro other hother
  by_cases hsame : other = key
  · subst hsame
    rcases h with hlt | hzero
    · -- Another key records the highest fence.
      obtain ⟨top, htop, hsup⟩ : ∃ top ∈ store.keys, recordedFence top = highestFence store := by
        have hne : store.keys.Nonempty := ⟨other, hother⟩
        obtain ⟨top, htop, hsup⟩ := Finset.exists_mem_eq_sup store.keys hne recordedFence
        exact ⟨top, htop, hsup.symm⟩
      have hkept : top ∈ store.erase other := by
        rw [Finmap.mem_erase]
        refine ⟨?_, Finmap.mem_keys.mp htop⟩
        intro heq
        rw [heq] at hsup
        omega
      exact le_trans hlt.le (hsup ▸ recordedFence_le hkept)
    · rw [hzero]
      exact Nat.zero_le _
  · apply recordedFence_le
    rw [Finmap.mem_erase]
    exact ⟨hsame, Finmap.mem_keys.mp hother⟩

theorem highestOf_cons (first : ℕ) (key : JsString) (keys : List JsString) :
    highestOf first (key :: keys) = highestOf (max first (recordedFence key)) keys := by
  unfold highestOf recordedFence
  rw [List.foldl_cons]
  congr 1
  rcases parseWriterLeaseKey key with _ | ⟨kind, fence⟩
  · simp
  · cases kind with
    | fence =>
      simp only
      split
      · omega
      · omega
    | heartbeat | released => simp

theorem le_highestOf (first : ℕ) (keys : List JsString) :
    first ≤ highestOf first keys ∧ ∀ key ∈ keys, recordedFence key ≤ highestOf first keys := by
  induction keys generalizing first with
  | nil => exact ⟨le_refl _, by simp⟩
  | cons key keys ih =>
    rw [highestOf_cons]
    obtain ⟨hfirst, hrest⟩ := ih (max first (recordedFence key))
    refine ⟨le_trans (le_max_left _ _) hfirst, ?_⟩
    intro other hother
    rcases List.mem_cons.mp hother with rfl | hother
    · exact le_trans (le_max_right _ _) hfirst
    · exact hrest other hother

theorem prefix_of_parse {parsed : LeaseKeyKind × ℕ} (h : parseWriterLeaseKey key = some parsed) :
    WRITER_LEASE_PREFIX <+: key := by
  unfold parseWriterLeaseKey at h
  obtain ⟨kind, -, hkind⟩ := List.exists_of_findSome?_eq_some h
  obtain ⟨fence, hfence, -⟩ := Option.map_eq_some_iff.mp hkind
  unfold fenceOf at hfence
  simp only at hfence
  split at hfence
  · rename_i hstem
    exact (List.prefix_append _ _).trans hstem.1
  · cases hfence

theorem recordedFence_leaseKey (h : isFence fence = true) :
    recordedFence (leaseKey .fence fence) = fence :=
  recordedFence_eq (parse_leaseKey h .fence)

theorem recordedFence_heartbeat (h : isFence fence = true) :
    recordedFence (leaseKey .heartbeat fence) = 0 := by
  unfold recordedFence
  rw [parse_leaseKey h]

/-- No higher fence has a record, and the fence is not marked released. -/
structure Clear (store : LeaseStore) (fence : ℕ) : Prop where
  highest : highestFence store ≤ fence
  unreleased : leaseKey .released fence ∉ store

theorem clear_of_list {keys : List JsString}
    (hkeys : ∀ key, key ∈ keys ↔ key ∈ store ∧ WRITER_LEASE_PREFIX <+: key)
    (hfence : isFence fence = true) (hhighest : highestOf fence keys ≤ fence)
    (hreleased : releasedIn keys fence = false) : Clear store fence := by
  refine ⟨Finset.sup_le ?_, ?_⟩
  · intro key hkey
    rcases hparse : parseWriterLeaseKey key with _ | ⟨kind, other⟩
    · simp [recordedFence, hparse]
    · have hmem := (hkeys key).mpr ⟨Finmap.mem_keys.mp hkey, prefix_of_parse hparse⟩
      exact le_trans ((le_highestOf fence keys).2 key hmem) hhighest
  · intro hmem
    have hparse := parse_leaseKey hfence .released
    have hlisted := (hkeys _).mpr ⟨hmem, prefix_of_parse hparse⟩
    have hany : releasedIn keys fence = true :=
      List.any_eq_true.mpr ⟨_, hlisted, beq_iff_eq.mpr hparse⟩
    rw [hany] at hreleased
    cases hreleased

/-- What the creations say of the store. -/
structure World.Sound (s : World) : Prop where
  kept : ∀ c ∈ s.created, c.key ∈ s.store ∨ recordedFence c.key < highestFence s.store ∨
    recordedFence c.key = 0
  again : s.created.Pairwise (fun a b => a.key = b.key →
    recordedFence a.key < highestFence s.store ∨ recordedFence a.key = 0)

/-- What no operation undoes. -/
structure World.Later (s s' : World) : Prop where
  highest : highestFence s.store ≤ highestFence s'.store
  created : s.created <+: s'.created
  checked : s.checked <+: s'.checked
  lost : ∀ id, (s.fields id).lost.isSome = true → (s'.fields id).lost.isSome = true

theorem World.Later.refl (s : World) : s.Later s :=
  ⟨le_refl _, List.prefix_rfl, List.prefix_rfl, fun _ h => h⟩

theorem World.Later.trans {a b c : World} (hab : a.Later b) (hbc : b.Later c) : a.Later c :=
  ⟨le_trans hab.highest hbc.highest, hab.created.trans hbc.created, hab.checked.trans hbc.checked,
    fun id h => hbc.lost id (hab.lost id h)⟩

/-- The discipline of the lease. -/
def discipline : Discipline World where
  inv := World.Sound
  later := World.Later
  refl := World.Later.refl
  trans := World.Later.trans

theorem World.sound_initial (store : LeaseStore) : (World.initial store).Sound :=
  ⟨by simp [World.initial], by simp [World.initial]⟩

/-- A key whose deletion does not take the highest fence away. -/
def World.Deletable (s : World) (key : JsString) : Prop :=
  recordedFence key < highestFence s.store ∨ recordedFence key = 0

variable {s s' : World}

theorem World.Deletable.later (h : s.Deletable key) (hle : s.Later s') : s'.Deletable key := by
  rcases h with hlt | hzero
  · exact Or.inl (lt_of_lt_of_le hlt hle.highest)
  · exact Or.inr hzero

theorem World.Sound.mono (h : s.Sound) (hcreated : s'.created = s.created)
    (hhighest : highestFence s.store ≤ highestFence s'.store)
    (hkept : ∀ key ∈ s.store, key ∈ s'.store ∨ s.Deletable key) : s'.Sound := by
  have hraise : ∀ {key}, s.Deletable key → s'.Deletable key := by
    intro key hkey
    rcases hkey with hlt | hzero
    · exact Or.inl (lt_of_lt_of_le hlt hhighest)
    · exact Or.inr hzero
  refine ⟨?_, ?_⟩
  · intro c hc
    rw [hcreated] at hc
    rcases h.kept c hc with hstore | hcovered
    · rcases hkept c.key hstore with hstill | hdeletable
      · exact Or.inl hstill
      · exact Or.inr (hraise hdeletable)
    · exact Or.inr (hraise hcovered)
  · rw [hcreated]
    exact h.again.imp (fun hpair heq => hraise (hpair heq))

theorem World.Sound.put (h : s.Sound) (key : JsString) (value : LeaseValue) :
    (s.put key value).Sound := by
  refine h.mono rfl (highestFence_insert _ _ _) ?_
  intro other hother
  exact Or.inl (Finmap.mem_insert.mpr (Or.inr hother))

theorem World.Later.put (s : World) (key : JsString) (value : LeaseValue) :
    s.Later (s.put key value) :=
  ⟨highestFence_insert _ _ _, List.prefix_rfl, List.prefix_rfl, fun _ h => h⟩

theorem World.Sound.create (h : s.Sound) (t : ℕ) (habsent : key ∉ s.store) (value : LeaseValue) :
    (s.create t key value).Sound := by
  have hput := h.put key value
  refine ⟨?_, ?_⟩
  · intro c hc
    rcases List.mem_append.mp hc with hc | hc
    · exact hput.kept c hc
    · rw [List.mem_singleton.mp hc]
      exact Or.inl (Finmap.mem_insert.mpr (Or.inl rfl))
  · refine List.pairwise_append.mpr ⟨hput.again, List.pairwise_singleton _ _, ?_⟩
    intro c hc new hnew heq
    have hkey : c.key = key := by rw [heq, List.mem_singleton.mp hnew]
    rcases h.kept c hc with hstore | hcovered
    · exact absurd (hkey ▸ hstore) habsent
    · rcases hcovered with hlt | hzero
      · exact Or.inl (lt_of_lt_of_le hlt (highestFence_insert _ _ _))
      · exact Or.inr hzero

theorem World.Sound.delete (h : s.Sound) (hkey : s.Deletable key) : (s.delete key).Sound := by
  refine h.mono rfl (highestFence_erase hkey) ?_
  intro other hother
  by_cases hsame : other = key
  · rw [hsame]
    exact Or.inr hkey
  · exact Or.inl (Finmap.mem_erase.mpr ⟨hsame, hother⟩)

theorem World.Later.delete (hkey : s.Deletable key) : s.Later (s.delete key) :=
  ⟨highestFence_erase hkey, List.prefix_rfl, List.prefix_rfl, fun _ h => h⟩

theorem World.Sound.note (h : s.Sound) (t : ℕ) (purpose : ListPurpose) :
    (s.note t purpose).Sound := by
  cases purpose with
  | read | prune => exact h
  | check hold => exact ⟨h.kept, h.again⟩

theorem World.Later.note (s : World) (t : ℕ) (purpose : ListPurpose) :
    s.Later (s.note t purpose) := by
  cases purpose with
  | read | prune => exact World.Later.refl s
  | check hold => exact ⟨le_refl _, List.prefix_rfl, List.prefix_append _ _, fun _ h => h⟩

theorem World.Later.setFields {id : ℕ} {fields : HoldFields}
    (hlost : (s.fields id).lost.isSome = true → fields.lost.isSome = true) :
    s.Later (s.setFields id fields) := by
  refine ⟨le_refl _, List.prefix_rfl, List.prefix_rfl, ?_⟩
  intro other hother
  unfold World.setFields
  by_cases hsame : other = id
  · subst hsame
    simpa using hlost hother
  · simpa [Function.update_of_ne hsame] using hother

/-- **Every operation keeps the discipline**, but for the deletion of a key that
records the highest fence. -/
theorem exec_keeps {t : ℕ} {op : Op} {r : op.Res} (hsound : s.Sound)
    (hdelete : ∀ key, op = .delete key → s.Deletable key) (hexec : exec t op s r s') :
    s'.Sound ∧ s.Later s' := by
  have hsame : s' = s → s'.Sound ∧ s.Later s' := by
    intro heq
    rw [heq]
    exact ⟨hsound, World.Later.refl s⟩
  cases op with
  | list purpose =>
    rcases hexec with ⟨keys, -, -, rfl⟩ | ⟨e, -, heq⟩
    · exact ⟨hsound.note t purpose, World.Later.note s t purpose⟩
    · exact hsame heq
  | get key | fields id => exact hsame hexec.1
  | put key value =>
    have hput := And.intro (hsound.put key value) (World.Later.put s key value)
    rcases hexec with ⟨-, rfl⟩ | ⟨e, -, heq | rfl⟩
    · exact hput
    · exact hsame heq
    · exact hput
  | putIfAbsent key value =>
    rcases hexec with ⟨habsent, -, rfl⟩ | ⟨-, -, heq⟩ | ⟨e, -, heq | ⟨-, rfl⟩⟩
    · refine ⟨hsound.create t habsent value, ?_⟩
      exact ⟨highestFence_insert _ _ _, List.prefix_append _ _, List.prefix_rfl, fun _ h => h⟩
    · exact hsame heq
    · exact hsame heq
    · exact ⟨hsound.put key value, World.Later.put s key value⟩
  | delete key =>
    have hkey := hdelete key rfl
    have hdeleted := And.intro (hsound.delete hkey) (World.Later.delete hkey)
    rcases hexec with ⟨-, rfl⟩ | ⟨e, -, heq | rfl⟩
    · exact hdeleted
    · exact hsame heq
    · exact hdeleted
  | setLost id error =>
    have heq : s' = s.setFields id { s.fields id with lost := some error } := hexec
    rw [heq]
    exact ⟨⟨hsound.kept, hsound.again⟩, World.Later.setFields (fun _ => rfl)⟩
  | setReleased id =>
    have heq : s' = s.setFields id { s.fields id with released := true } := hexec
    rw [heq]
    exact ⟨⟨hsound.kept, hsound.again⟩, World.Later.setFields (fun h => h)⟩
  | now | isoNow | nonce | judgeHolder | delay ms => exact hsame hexec

end Swamp.WriterLease
