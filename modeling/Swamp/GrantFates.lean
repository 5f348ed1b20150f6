import Swamp.GrantReconciler

/-!
# The fates of stored grants

Once the writes of a reconciliation are applied, in whichever order, each stored grant
has met one fate: it is left as it was, revoked, or kept for the entry that has its key.
One copy of each key is kept and a grant is created where there is none.
-/

namespace Swamp

open Js

namespace Access

theorem parseFileSourceFilename_eq_some {source filename : JsString} :
    parseFileSourceFilename source = some filename ↔ source = FILE_SOURCE ++ filename := by
  unfold parseFileSourceFilename isFileSource startsWith
  constructor
  · intro h
    split at h
    · rename_i hlead
      obtain ⟨rest, rfl⟩ := List.isPrefixOf_iff_prefix.mp hlead
      rw [List.drop_left] at h
      rw [Option.some.inj h]
    · cases h
  · intro h
    rw [h, if_pos (List.isPrefixOf_iff_prefix.mpr (List.prefix_append _ _)), List.drop_left]

theorem mem_queryFileGrants {store : GrantStore} {stored : StoredFileGrant} :
    stored ∈ queryFileGrants store ↔
      store.get stored.modelId = some ⟨stored.grant, stored.instanceName⟩ ∧
        isFileSource stored.grant.source = true := by
  rw [queryFileGrants, List.mem_filter, List.mem_map]
  apply and_congr_left
  intro _
  constructor
  · intro h
    obtain ⟨⟨modelId, record⟩, hmem, rfl⟩ := h
    exact OrderedMap.mem_entries.mp hmem
  · intro h
    exact ⟨(stored.modelId, ⟨stored.grant, stored.instanceName⟩),
      OrderedMap.mem_entries.mpr h, rfl⟩

/-- A model id has one stored grant. -/
theorem eq_of_modelId {store : GrantStore} {stored other : StoredFileGrant}
    (h : stored ∈ queryFileGrants store) (hother : other ∈ queryFileGrants store)
    (hid : stored.modelId = other.modelId) : stored = other := by
  have hget := (mem_queryFileGrants.mp h).1
  rw [hid, (mem_queryFileGrants.mp hother).1] at hget
  obtain ⟨hgrant, hname⟩ := GrantRecord.mk.inj (Option.some.inj hget)
  cases stored
  cases other
  simp_all

variable {copies : List StoredFileGrant}

theorem mem_of_selectKeeper {keeper : StoredFileGrant} (h : selectKeeper copies = some keeper) :
    keeper ∈ copies := by
  rw [← List.mem_insertionSort (fun a b => a.modelId ≤ b.modelId)]
  rcases Option.or_eq_some_iff.mp h with hfound | ⟨-, hhead⟩
  · exact List.mem_of_find?_eq_some hfound
  · exact List.mem_of_mem_head? hhead

theorem selectKeeper_eq_none : selectKeeper copies = none ↔ copies = [] := by
  constructor
  · intro h
    have hhead := (Option.or_eq_none_iff.mp h).2
    rw [List.head?_eq_none_iff] at hhead
    exact (hhead ▸ (List.perm_insertionSort _ copies).symm).eq_nil
  · intro h
    rw [h]
    rfl

/-- An active copy is kept where there is one. -/
theorem selectKeeper_active {copy : StoredFileGrant} (h : copy ∈ copies)
    (hactive : copy.grant.state = .active) :
    ∃ keeper, selectKeeper copies = some keeper ∧ keeper.grant.state = .active := by
  have hsome : ((copies.insertionSort (fun a b => a.modelId ≤ b.modelId)).find?
      (fun copy => copy.grant.state = .active)).isSome := by
    rw [List.find?_isSome]
    exact ⟨copy, (List.mem_insertionSort _).mpr h, by simpa using hactive⟩
  obtain ⟨keeper, hfound⟩ := Option.isSome_iff_exists.mp hsome
  refine ⟨keeper, ?_, by simpa using List.find?_some hfound⟩
  rw [selectKeeper]
  simp only [hfound, Option.some_or]

/-- What an entry makes of the copy it keeps. -/
def SourcedGrant.keep (grant : SourcedGrant) (entry : GrantFileEntry) : SourcedGrant :=
  match grant.state with
  | .active =>
    if methodsEqual grant.methods entry.methods then grant
    else { grant with methods := entry.methods }
  | .revoked => { grant with state := .active, methods := entry.methods }

theorem methodsEqual_self (methods : Option (List JsString)) :
    methodsEqual methods methods = true := by
  cases methods with
  | none => rfl
  | some methods => simp [methodsEqual]

@[simp] theorem revoke_state (grant : SourcedGrant) : grant.revoke.state = .revoked := rfl

@[simp] theorem revoke_source (grant : SourcedGrant) : grant.revoke.source = grant.source := rfl

@[simp] theorem revoke_key (grant : SourcedGrant) :
    grantIdentityKey grant.revoke = grantIdentityKey grant := rfl

variable {grant : SourcedGrant}

theorem revoke_of_revoked (h : grant.state = .revoked) : grant.revoke = grant := by
  unfold SourcedGrant.revoke
  rw [← h]

theorem revoke_ne_iff : grant.revoke ≠ grant ↔ grant.state = .active := by
  constructor
  · intro h
    cases hstate : grant.state with
    | active => rfl
    | revoked => exact absurd (revoke_of_revoked hstate) h
  · intro h heq
    rw [← heq] at h
    cases h

@[simp] theorem keep_state (grant : SourcedGrant) (entry : GrantFileEntry) :
    (grant.keep entry).state = .active := by
  unfold SourcedGrant.keep
  split
  · split
    · assumption
    · assumption
  · rfl

@[simp] theorem keep_source (grant : SourcedGrant) (entry : GrantFileEntry) :
    (grant.keep entry).source = grant.source := by
  unfold SourcedGrant.keep
  split
  · split <;> rfl
  · rfl

@[simp] theorem keep_key (grant : SourcedGrant) (entry : GrantFileEntry) :
    grantIdentityKey (grant.keep entry) = grantIdentityKey grant := by
  unfold SourcedGrant.keep
  split
  · split <;> rfl
  · rfl

theorem keep_methods (grant : SourcedGrant) (entry : GrantFileEntry) :
    methodsEqual (grant.keep entry).methods entry.methods = true := by
  unfold SourcedGrant.keep
  split
  · split
    · assumption
    · exact methodsEqual_self _
  · exact methodsEqual_self _

theorem keep_eq_self_iff {entry : GrantFileEntry} :
    grant.keep entry = grant ↔
      grant.state = .active ∧ methodsEqual grant.methods entry.methods = true := by
  constructor
  · intro h
    rw [← h]
    exact ⟨keep_state grant entry, keep_methods grant entry⟩
  · intro h
    unfold SourcedGrant.keep
    rw [h.1]
    simp only [h.2, if_true]

section

variable (fileEntries : OrderedMap JsString (List GrantFileEntry))
  (isSourceUnavailable : JsString → Bool) (all : List StoredFileGrant)

/-- What becomes of a stored grant. -/
def fate (stored : StoredFileGrant) : SourcedGrant :=
  match parseFileSourceFilename stored.grant.source with
  | none => stored.grant
  | some filename =>
    let key := grantIdentityKey stored.grant
    match fileEntries.get filename with
    | none => if isSourceUnavailable filename then stored.grant else stored.grant.revoke
    | some entries =>
      match entries.find? (fun entry => entryIdentityKey entry = key) with
      | none => stored.grant.revoke
      | some entry =>
        if selectKeeper (copiesOf all filename key) = some stored then
          stored.grant.keep entry
        else stored.grant.revoke

@[simp] theorem fate_source (stored : StoredFileGrant) :
    (fate fileEntries isSourceUnavailable all stored).source = stored.grant.source := by
  unfold fate
  grind [revoke_source, keep_source]

@[simp] theorem fate_key (stored : StoredFileGrant) :
    grantIdentityKey (fate fileEntries isSourceUnavailable all stored) =
      grantIdentityKey stored.grant := by
  unfold fate
  grind [revoke_key, keep_key]

end

/-- The keys of each file are distinct. -/
def DistinctKeys (fileEntries : OrderedMap JsString (List GrantFileEntry)) : Prop :=
  ∀ filename entries, fileEntries.get filename = some entries →
    (entries.map entryIdentityKey).Nodup

/-- What creations draw is new: no two draw one model id, and none is stored. -/
structure FreshIds (draws : JsString → ℕ → DrawnIds) (store : GrantStore) : Prop where
  injective : ∀ filename i filename' i',
    (draws filename i).modelId = (draws filename' i').modelId → filename = filename' ∧ i = i'
  unused : ∀ filename i, store.get (draws filename i).modelId = none

/-- The entry of a key, where keys are distinct. -/
theorem find?_of_key {entries : List GrantFileEntry} (h : (entries.map entryIdentityKey).Nodup)
    {entry : GrantFileEntry} (hentry : entry ∈ entries) {key : JsString}
    (hkey : key = entryIdentityKey entry) :
    entries.find? (fun entry => entryIdentityKey entry = key) = some entry := by
  subst hkey
  cases hfound : entries.find? (fun other => entryIdentityKey other = entryIdentityKey entry) with
  | none =>
    have hno := List.find?_eq_none.mp hfound entry hentry
    simp at hno
  | some other =>
    have hsame : entryIdentityKey other = entryIdentityKey entry := by
      simpa using List.find?_some hfound
    rw [List.inj_on_of_nodup_map h (List.mem_of_find?_eq_some hfound) hentry hsame]

/-- An entry's file and place. -/
def EntryAt (fileEntries : OrderedMap JsString (List GrantFileEntry)) (filename : JsString)
    (i : ℕ) (entry : GrantFileEntry) : Prop :=
  ∃ entries, fileEntries.get filename = some entries ∧ entries[i]? = some entry

section

variable {fileEntries : OrderedMap JsString (List GrantFileEntry)}
  {isSourceUnavailable : JsString → Bool} {store : GrantStore}
  {draws : JsString → ℕ → DrawnIds}

/-- The fate of a copy that an entry has the key of. -/
theorem fate_of_entry (hkeys : DistinctKeys fileEntries) {all : List StoredFileGrant}
    {filename : JsString} {i : ℕ} {entry : GrantFileEntry}
    (hentry : EntryAt fileEntries filename i entry) {stored : StoredFileGrant}
    (hfile : parseFileSourceFilename stored.grant.source = some filename)
    (hkey : grantIdentityKey stored.grant = entryIdentityKey entry) :
    fate fileEntries isSourceUnavailable all stored =
      if selectKeeper (copiesOf all filename (entryIdentityKey entry)) = some stored then
        stored.grant.keep entry
      else stored.grant.revoke := by
  obtain ⟨entries, hget, hat⟩ := hentry
  have hfound := find?_of_key (hkeys filename entries hget) (List.mem_of_getElem? hat) hkey
  unfold fate
  simp only [hfile, hget]
  rw [hfound, hkey]

theorem fate_of_deserted {all : List StoredFileGrant} {filename : JsString}
    {stored : StoredFileGrant}
    (hfile : parseFileSourceFilename stored.grant.source = some filename)
    (h : Deserted fileEntries isSourceUnavailable filename (grantIdentityKey stored.grant)) :
    fate fileEntries isSourceUnavailable all stored = stored.grant.revoke := by
  unfold fate
  unfold Deserted at h
  cases hget : fileEntries.get filename with
  | none =>
    rw [hget] at h
    simp only [hfile, hget, h]
    rfl
  | some entries =>
    rw [hget] at h
    have hfound : entries.find? (fun entry => entryIdentityKey entry =
        grantIdentityKey stored.grant) = none := by
      rw [List.find?_eq_none]
      intro entry hentry
      simp only [decide_eq_true_eq]
      exact fun heq => h (heq ▸ List.mem_map_of_mem hentry)
    simp only [hfile, hget, hfound]

/-- The fate of a grant that no file accounts for. -/
theorem fate_of_kept {all : List StoredFileGrant} {stored : StoredFileGrant}
    (h : ∀ filename, parseFileSourceFilename stored.grant.source = some filename →
      fileEntries.get filename = none ∧ isSourceUnavailable filename = true) :
    fate fileEntries isSourceUnavailable all stored = stored.grant := by
  unfold fate
  cases hfile : parseFileSourceFilename stored.grant.source with
  | none => rfl
  | some filename =>
    obtain ⟨hget, hout⟩ := h filename hfile
    simp only [hget, hout, if_true]

theorem accounted (fileEntries : OrderedMap JsString (List GrantFileEntry))
    (isSourceUnavailable : JsString → Bool) (stored : StoredFileGrant) :
    (∀ filename, parseFileSourceFilename stored.grant.source = some filename →
      fileEntries.get filename = none ∧ isSourceUnavailable filename = true) ∨
    ∃ filename, parseFileSourceFilename stored.grant.source = some filename ∧
      (Deserted fileEntries isSourceUnavailable filename (grantIdentityKey stored.grant) ∨
        ∃ i entry, EntryAt fileEntries filename i entry ∧
          grantIdentityKey stored.grant = entryIdentityKey entry) := by
  cases hfile : parseFileSourceFilename stored.grant.source with
  | none => exact Or.inl (fun filename h => by cases h)
  | some filename =>
    cases hget : fileEntries.get filename with
    | none =>
      by_cases hout : isSourceUnavailable filename = true
      · apply Or.inl
        intro other h
        obtain rfl := Option.some.inj h
        exact ⟨hget, hout⟩
      · refine Or.inr ⟨filename, rfl, Or.inl ?_⟩
        rw [Deserted, hget]
        simpa using hout
    | some entries =>
      refine Or.inr ⟨filename, rfl, ?_⟩
      by_cases hkey : grantIdentityKey stored.grant ∈ entries.map entryIdentityKey
      · obtain ⟨entry, hentry, hkey⟩ := List.mem_map.mp hkey
        obtain ⟨i, hat⟩ := List.mem_iff_getElem?.mp hentry
        exact Or.inr ⟨i, entry, ⟨entries, hget, hat⟩, hkey.symm⟩
      · exact Or.inl (by rwa [Deserted, hget])

/-- The kept copy is the one with its model id. -/
theorem keeper_modelId_iff {filename key : JsString} {copy : StoredFileGrant}
    (hcopy : copy ∈ copiesOf (queryFileGrants store) filename key) :
    (selectKeeper (copiesOf (queryFileGrants store) filename key)).map StoredFileGrant.modelId =
        some copy.modelId ↔
      selectKeeper (copiesOf (queryFileGrants store) filename key) = some copy := by
  constructor
  · intro h
    obtain ⟨keeper, hkeeper, hid⟩ := Option.map_eq_some_iff.mp h
    have hmem := (mem_copiesOf.mp (mem_of_selectKeeper hkeeper)).1
    rw [hkeeper, eq_of_modelId hmem (mem_copiesOf.mp hcopy).1 hid]
  · intro h
    rw [h]
    rfl

variable {write : GrantWrite}

/-- What an entry does to the copy it keeps. -/
theorem mem_reconcileKeeper {filename : JsString} {drawn : DrawnIds} {entry : GrantFileEntry} :
    write ∈ (reconcileKeeper filename drawn entry (selectKeeper copies)).writes ↔
      (∃ keeper, selectKeeper copies = some keeper ∧ keeper.grant.keep entry ≠ keeper.grant ∧
        write = keeper.write (keeper.grant.keep entry)) ∨
      (copies = [] ∧
        write = (drawn.modelId, ⟨buildFileGrant drawn entry filename, drawn.instanceName⟩)) := by
  rw [← selectKeeper_eq_none]
  cases selectKeeper copies with
  | none => simp [reconcileKeeper]
  | some keeper =>
    simp only [Option.some.injEq, exists_eq_left', reduceCtorEq, false_and, or_false]
    cases hstate : keeper.grant.state with
    | revoked =>
      have hne : keeper.grant.keep entry ≠ keeper.grant := by
        rw [Ne, keep_eq_self_iff, hstate]
        simp
      simp [reconcileKeeper, SourcedGrant.keep, hstate] at hne ⊢
      simp [hne]
    | active =>
      cases hmethods : methodsEqual keeper.grant.methods entry.methods with
      | true =>
        have hsame : keeper.grant.keep entry = keeper.grant :=
          keep_eq_self_iff.mpr ⟨hstate, hmethods⟩
        simp [reconcileKeeper, hstate, hmethods, hsame]
      | false =>
        have hne : keeper.grant.keep entry ≠ keeper.grant := by
          rw [Ne, keep_eq_self_iff, hmethods]
          simp
        simp [reconcileKeeper, SourcedGrant.keep, hstate, hmethods] at hne ⊢
        simp [hne]

/-- What an entry does to the copies of its key. -/
theorem mem_reconcileEntry {filename : JsString} {drawn : DrawnIds} {entry : GrantFileEntry} :
    write ∈ (reconcileEntry filename drawn entry
        (((groupByFilename (queryFileGrants store)).get filename).getD OrderedMap.empty)).writes ↔
      (∃ copy ∈ copiesOf (queryFileGrants store) filename (entryIdentityKey entry),
        selectKeeper (copiesOf (queryFileGrants store) filename (entryIdentityKey entry)) ≠
            some copy ∧
          copy.grant.revoke ≠ copy.grant ∧ write = copy.write copy.grant.revoke) ∨
      (∃ keeper,
        selectKeeper (copiesOf (queryFileGrants store) filename (entryIdentityKey entry)) =
            some keeper ∧
          keeper.grant.keep entry ≠ keeper.grant ∧
            write = keeper.write (keeper.grant.keep entry)) ∨
      (copiesOf (queryFileGrants store) filename (entryIdentityKey entry) = [] ∧
        write = (drawn.modelId, ⟨buildFileGrant drawn entry filename, drawn.instanceName⟩)) := by
  have hcopies := get_groupByFilename (queryFileGrants store) filename (entryIdentityKey entry)
  unfold copiesIn at hcopies
  unfold reconcileEntry
  simp only [hcopies, Reconciled.add, List.mem_append, mem_revokeCopies]
  apply or_congr
  · refine exists_congr (fun copy => and_congr_right (fun hcopy => ?_))
    rw [decide_eq_true_eq, Ne, keeper_modelId_iff hcopy, revoke_ne_iff]
  · exact mem_reconcileKeeper

/-- **The writes are the fates that change a grant, and the creations.** -/
theorem mem_writes (hkeys : DistinctKeys fileEntries) :
    write ∈ (reconcileAllFileGrants fileEntries store isSourceUnavailable draws).writes ↔
      (∃ stored ∈ queryFileGrants store,
        fate fileEntries isSourceUnavailable (queryFileGrants store) stored ≠ stored.grant ∧
          write = stored.write
            (fate fileEntries isSourceUnavailable (queryFileGrants store) stored)) ∨
      ∃ filename i entry, EntryAt fileEntries filename i entry ∧
        copiesOf (queryFileGrants store) filename (entryIdentityKey entry) = [] ∧
          write = ((draws filename i).modelId,
            ⟨buildFileGrant (draws filename i) entry filename,
              (draws filename i).instanceName⟩) := by
  rw [mem_reconcileAll]
  simp only [mem_reconcileEntry]
  constructor
  · intro h
    rcases h with ⟨filename, entries, i, entry, hget, hat, hwrite⟩ |
      ⟨stored, hstored, hactive, ⟨filename, hfile, hdeserted⟩, rfl⟩
    · have hentry : EntryAt fileEntries filename i entry := ⟨entries, hget, hat⟩
      rcases hwrite with ⟨copy, hcopy, hother, hne, rfl⟩ | ⟨keeper, hkeeper, hne, rfl⟩ |
        ⟨hnone, rfl⟩
      · obtain ⟨hmem, hfile, hkey⟩ := mem_copiesOf.mp hcopy
        have hfate := @fate_of_entry _ isSourceUnavailable hkeys (queryFileGrants store) _ _ _
          hentry _ hfile hkey
        rw [if_neg hother] at hfate
        exact Or.inl ⟨copy, hmem, hfate ▸ hne, by rw [hfate]⟩
      · obtain ⟨hmem, hfile, hkey⟩ := mem_copiesOf.mp (mem_of_selectKeeper hkeeper)
        have hfate := @fate_of_entry _ isSourceUnavailable hkeys (queryFileGrants store) _ _ _
          hentry _ hfile hkey
        rw [if_pos hkeeper] at hfate
        exact Or.inl ⟨keeper, hmem, hfate ▸ hne, by rw [hfate]⟩
      · exact Or.inr ⟨filename, i, entry, hentry, hnone, rfl⟩
    · have hfate := @fate_of_deserted _ _ (queryFileGrants store) _ _ hfile hdeserted
      exact Or.inl ⟨stored, hstored, hfate ▸ revoke_ne_iff.mpr hactive, by rw [hfate]⟩
  · intro h
    rcases h with ⟨stored, hstored, hne, rfl⟩ | ⟨filename, i, entry, hentry, hnone, rfl⟩
    · rcases accounted fileEntries isSourceUnavailable stored with hkept |
        ⟨filename, hfile, hdeserted | ⟨i, entry, hentry, hkey⟩⟩
      · exact absurd (fate_of_kept hkept) hne
      · rw [fate_of_deserted hfile hdeserted] at hne ⊢
        exact Or.inr ⟨stored, hstored, revoke_ne_iff.mp hne, ⟨filename, hfile, hdeserted⟩, rfl⟩
      · rw [fate_of_entry hkeys hentry hfile hkey] at hne ⊢
        obtain ⟨entries, hget, hat⟩ := hentry
        refine Or.inl ⟨filename, entries, i, entry, hget, hat, ?_⟩
        by_cases hkeeper : selectKeeper (copiesOf (queryFileGrants store) filename
            (entryIdentityKey entry)) = some stored
        · rw [if_pos hkeeper] at hne ⊢
          exact Or.inr (Or.inl ⟨stored, hkeeper, hne, rfl⟩)
        · rw [if_neg hkeeper] at hne ⊢
          exact Or.inl ⟨stored, mem_copiesOf.mpr ⟨hstored, hfile, hkey⟩, hkeeper, hne, rfl⟩
    · obtain ⟨entries, hget, hat⟩ := hentry
      exact Or.inl ⟨filename, entries, i, entry, hget, hat, Or.inr (Or.inr ⟨hnone, rfl⟩)⟩

/-- A creation of the run: an entry without copies. -/
def Creates (fileEntries : OrderedMap JsString (List GrantFileEntry)) (store : GrantStore)
    (filename : JsString) (i : ℕ) (entry : GrantFileEntry) : Prop :=
  EntryAt fileEntries filename i entry ∧
    copiesOf (queryFileGrants store) filename (entryIdentityKey entry) = []

variable {applied : List GrantWrite}

section

variable (hkeys : DistinctKeys fileEntries) (hfresh : FreshIds draws store)
  (happlied : applied.Perm
    (reconcileAllFileGrants fileEntries store isSourceUnavailable draws).writes)

include hkeys hfresh happlied

theorem get_applied_stored {stored : StoredFileGrant} (hstored : stored ∈ queryFileGrants store) :
    (store.setAll applied).get stored.modelId =
      some ⟨fate fileEntries isSourceUnavailable (queryFileGrants store) stored,
        stored.instanceName⟩ := by
  by_cases hmem : stored.modelId ∈ applied.map Prod.fst
  · obtain ⟨record, hwrite, hget⟩ := store.get_setAll_of_mem hmem
    rw [hget]
    rcases (mem_writes hkeys).mp (happlied.mem_iff.mp hwrite) with
      ⟨other, hother, -, heq⟩ | ⟨filename, i, entry, -, -, heq⟩
    · obtain ⟨hid, hrecord⟩ := Prod.mk.inj heq
      rw [hrecord, eq_of_modelId hstored hother hid]
    · have hid : stored.modelId = (draws filename i).modelId := (Prod.mk.inj heq).1
      have hget := (mem_queryFileGrants.mp hstored).1
      rw [hid, hfresh.unused] at hget
      cases hget
  · rw [store.get_setAll_of_not_mem hmem, (mem_queryFileGrants.mp hstored).1]
    by_contra hne
    refine hmem (List.mem_map.mpr ⟨_, happlied.mem_iff.mpr ((mem_writes hkeys).mpr
      (Or.inl ⟨stored, hstored, ?_, rfl⟩)), rfl⟩)
    exact fun heq => hne (by rw [heq])

theorem get_applied_created {filename : JsString} {i : ℕ} {entry : GrantFileEntry}
    (hcreated : Creates fileEntries store filename i entry) :
    (store.setAll applied).get (draws filename i).modelId =
      some ⟨buildFileGrant (draws filename i) entry filename, (draws filename i).instanceName⟩ := by
  have hmem : (draws filename i).modelId ∈ applied.map Prod.fst :=
    List.mem_map.mpr ⟨_, happlied.mem_iff.mpr ((mem_writes hkeys).mpr
      (Or.inr ⟨filename, i, entry, hcreated.1, hcreated.2, rfl⟩)), rfl⟩
  obtain ⟨record, hwrite, hget⟩ := store.get_setAll_of_mem hmem
  rw [hget]
  rcases (mem_writes hkeys).mp (happlied.mem_iff.mp hwrite) with
    ⟨other, hother, -, heq⟩ | ⟨filename', i', entry', hentry', -, heq⟩
  · have hid : (draws filename i).modelId = other.modelId := (Prod.mk.inj heq).1
    have hget := (mem_queryFileGrants.mp hother).1
    rw [← hid, hfresh.unused] at hget
    cases hget
  · obtain ⟨hid, hrecord⟩ := Prod.mk.inj heq
    obtain ⟨rfl, rfl⟩ := hfresh.injective _ _ _ _ hid
    obtain ⟨entries, hget, hat⟩ := hcreated.1
    obtain ⟨entries', hget', hat'⟩ := hentry'
    rw [hget] at hget'
    obtain rfl := Option.some.inj hget'
    rw [hat] at hat'
    obtain rfl := Option.some.inj hat'
    rw [hrecord]

theorem get_applied_cases {modelId : JsString} {record : GrantRecord}
    (h : (store.setAll applied).get modelId = some record) :
    (store.get modelId = some record ∧ isFileSource record.grant.source = false) ∨
      (∃ stored ∈ queryFileGrants store, modelId = stored.modelId ∧
        record = ⟨fate fileEntries isSourceUnavailable (queryFileGrants store) stored,
          stored.instanceName⟩) ∨
      ∃ filename i entry, Creates fileEntries store filename i entry ∧
        modelId = (draws filename i).modelId ∧
        record = ⟨buildFileGrant (draws filename i) entry filename,
          (draws filename i).instanceName⟩ := by
  rcases store.get_setAll_cases h with hwrite | hget
  · rcases (mem_writes hkeys).mp (happlied.mem_iff.mp hwrite) with
      ⟨stored, hstored, -, heq⟩ | ⟨filename, i, entry, hentry, hnone, heq⟩
    · exact Or.inr (Or.inl ⟨stored, hstored, (Prod.mk.inj heq).1, (Prod.mk.inj heq).2⟩)
    · exact Or.inr (Or.inr ⟨filename, i, entry, ⟨hentry, hnone⟩, (Prod.mk.inj heq).1,
        (Prod.mk.inj heq).2⟩)
  · cases hsource : isFileSource record.grant.source with
    | false => exact Or.inl ⟨hget, rfl⟩
    | true =>
      have hstored : (⟨record.grant, modelId, record.instanceName⟩ : StoredFileGrant) ∈
          queryFileGrants store := mem_queryFileGrants.mpr ⟨hget, hsource⟩
      have hafter := get_applied_stored hkeys hfresh happlied hstored
      simp only [h] at hafter
      exact Or.inr (Or.inl ⟨_, hstored, rfl, Option.some.inj hafter⟩)

/-- A grant of no file stays as it is. -/
theorem get_applied_other {modelId : JsString} {record : GrantRecord}
    (hsource : isFileSource record.grant.source = false) :
    (store.setAll applied).get modelId = some record ↔ store.get modelId = some record := by
  constructor
  · intro h
    rcases get_applied_cases hkeys hfresh happlied h with ⟨hget, -⟩ |
      ⟨stored, hstored, rfl, rfl⟩ | ⟨filename, i, entry, -, rfl, rfl⟩
    · exact hget
    · rw [fate_source, (mem_queryFileGrants.mp hstored).2] at hsource
      cases hsource
    · have hfile : parseFileSourceFilename (FILE_SOURCE ++ filename) = some filename :=
        parseFileSourceFilename_eq_some.mpr rfl
      unfold parseFileSourceFilename at hfile
      rw [show isFileSource (FILE_SOURCE ++ filename) = false from hsource] at hfile
      cases hfile
  · intro h
    rw [store.get_setAll_of_not_mem, h]
    intro hmem
    obtain ⟨write, hwrite, rfl⟩ := List.mem_map.mp hmem
    rcases (mem_writes hkeys).mp (happlied.mem_iff.mp hwrite) with
      ⟨stored, hstored, -, rfl⟩ | ⟨filename, i, entry, -, -, rfl⟩
    · have hget := mem_queryFileGrants.mp hstored
      rw [show store.get stored.modelId = some record from h] at hget
      rw [Option.some.inj hget.1] at hsource
      rw [hget.2] at hsource
      cases hsource
    · rw [hfresh.unused] at h
      cases h

end

/-- A stored grant once its fate has met it. -/
def StoredFileGrant.met (stored : StoredFileGrant) (grant : SourcedGrant) : StoredFileGrant :=
  { stored with grant := grant }

/-- The grant created for an entry. -/
def createdGrant (draws : JsString → ℕ → DrawnIds) (filename : JsString) (i : ℕ)
    (entry : GrantFileEntry) : StoredFileGrant where
  grant := buildFileGrant (draws filename i) entry filename
  modelId := (draws filename i).modelId
  instanceName := (draws filename i).instanceName

/-- The grant that ends standing for an entry: the kept copy, or the created one. -/
def grantOfEntry (store : GrantStore) (draws : JsString → ℕ → DrawnIds) (filename : JsString)
    (i : ℕ) (entry : GrantFileEntry) : StoredFileGrant :=
  match selectKeeper (copiesOf (queryFileGrants store) filename (entryIdentityKey entry)) with
  | some keeper => keeper.met (keeper.grant.keep entry)
  | none => createdGrant draws filename i entry

theorem isFileSource_of_filename {source filename : JsString}
    (h : parseFileSourceFilename source = some filename) : isFileSource source = true := by
  unfold parseFileSourceFilename at h
  split at h
  · assumption
  · cases h

theorem createdGrant_file (draws : JsString → ℕ → DrawnIds) (filename : JsString) (i : ℕ)
    (entry : GrantFileEntry) :
    parseFileSourceFilename (createdGrant draws filename i entry).grant.source = some filename :=
  parseFileSourceFilename_eq_some.mpr rfl

theorem grantOfEntry_file (store : GrantStore) (draws : JsString → ℕ → DrawnIds)
    (filename : JsString) (i : ℕ) (entry : GrantFileEntry) :
    parseFileSourceFilename (grantOfEntry store draws filename i entry).grant.source =
      some filename := by
  unfold grantOfEntry
  split
  · rename_i keeper hkeeper
    have hfile := (mem_copiesOf.mp (mem_of_selectKeeper hkeeper)).2.1
    rwa [StoredFileGrant.met, keep_source]
  · exact createdGrant_file draws filename i entry

theorem grantOfEntry_key (store : GrantStore) (draws : JsString → ℕ → DrawnIds)
    (filename : JsString) (i : ℕ) (entry : GrantFileEntry) :
    grantIdentityKey (grantOfEntry store draws filename i entry).grant =
      entryIdentityKey entry := by
  unfold grantOfEntry
  split
  · rename_i keeper hkeeper
    have hkey := (mem_copiesOf.mp (mem_of_selectKeeper hkeeper)).2.2
    rwa [StoredFileGrant.met, keep_key]
  · rfl

theorem grantOfEntry_active (store : GrantStore) (draws : JsString → ℕ → DrawnIds)
    (filename : JsString) (i : ℕ) (entry : GrantFileEntry) :
    (grantOfEntry store draws filename i entry).grant.state = .active := by
  unfold grantOfEntry
  split
  · exact keep_state _ _
  · rfl

theorem grantOfEntry_methods (store : GrantStore) (draws : JsString → ℕ → DrawnIds)
    (filename : JsString) (i : ℕ) (entry : GrantFileEntry) :
    methodsEqual (grantOfEntry store draws filename i entry).grant.methods entry.methods =
      true := by
  unfold grantOfEntry
  split
  · exact keep_methods _ _
  · exact methodsEqual_self _

/-- Entries of one file and one key are one entry. -/
theorem entry_of_key (hkeys : DistinctKeys fileEntries) {filename : JsString} {i j : ℕ}
    {entry other : GrantFileEntry} (hentry : EntryAt fileEntries filename i entry)
    (hother : EntryAt fileEntries filename j other)
    (hkey : entryIdentityKey entry = entryIdentityKey other) : i = j ∧ entry = other := by
  obtain ⟨entries, hget, hat⟩ := hentry
  obtain ⟨entries', hget', hat'⟩ := hother
  obtain rfl := Option.some.inj (hget.symm.trans hget')
  have hlength : i < (entries.map entryIdentityKey).length := by
    rw [List.length_map]
    exact (List.getElem?_eq_some_iff.mp hat).1
  have hsame : i = j := by
    refine (List.getElem?_inj hlength (hkeys filename entries hget)).mp ?_
    rw [List.getElem?_map, List.getElem?_map, hat, hat', Option.map_some, Option.map_some, hkey]
  subst hsame
  exact ⟨rfl, Option.some.inj (hat.symm.trans hat')⟩

section

variable (hkeys : DistinctKeys fileEntries) (hfresh : FreshIds draws store)
  (happlied : applied.Perm
    (reconcileAllFileGrants fileEntries store isSourceUnavailable draws).writes)

include hkeys hfresh happlied

/-- The file grants stored afterwards. -/
theorem mem_query_applied {stored : StoredFileGrant} :
    stored ∈ queryFileGrants (store.setAll applied) ↔
      (∃ before ∈ queryFileGrants store, stored = before.met
        (fate fileEntries isSourceUnavailable (queryFileGrants store) before)) ∨
      ∃ filename i entry, Creates fileEntries store filename i entry ∧
        stored = createdGrant draws filename i entry := by
  rw [mem_queryFileGrants]
  constructor
  · intro h
    rcases get_applied_cases hkeys hfresh happlied h.1 with ⟨-, hother⟩ |
      ⟨before, hbefore, hid, hrecord⟩ | ⟨filename, i, entry, hcreated, hid, hrecord⟩
    · rw [h.2] at hother
      cases hother
    · obtain ⟨hgrant, hname⟩ := GrantRecord.mk.inj hrecord
      refine Or.inl ⟨before, hbefore, ?_⟩
      rw [StoredFileGrant.met, ← hgrant, ← hid, ← hname]
    · obtain ⟨hgrant, hname⟩ := GrantRecord.mk.inj hrecord
      refine Or.inr ⟨filename, i, entry, hcreated, ?_⟩
      rw [createdGrant, ← hgrant, ← hid, ← hname]
  · intro h
    rcases h with ⟨before, hbefore, rfl⟩ | ⟨filename, i, entry, hcreated, rfl⟩
    · refine ⟨get_applied_stored hkeys hfresh happlied hbefore, ?_⟩
      rw [StoredFileGrant.met, fate_source]
      exact (mem_queryFileGrants.mp hbefore).2
    · exact ⟨get_applied_created hkeys hfresh happlied hcreated,
        isFileSource_of_filename (createdGrant_file draws filename i entry)⟩

/-- The grant of an entry is stored. -/
theorem grantOfEntry_mem {filename : JsString} {i : ℕ} {entry : GrantFileEntry}
    (hentry : EntryAt fileEntries filename i entry) :
    grantOfEntry store draws filename i entry ∈ queryFileGrants (store.setAll applied) := by
  rw [mem_query_applied hkeys hfresh happlied]
  unfold grantOfEntry
  split
  · rename_i keeper hkeeper
    obtain ⟨hmem, hfile, hkey⟩ := mem_copiesOf.mp (mem_of_selectKeeper hkeeper)
    refine Or.inl ⟨keeper, hmem, ?_⟩
    rw [fate_of_entry hkeys hentry hfile hkey, if_pos hkeeper]
  · rename_i hnone
    exact Or.inr ⟨filename, i, entry, ⟨hentry, selectKeeper_eq_none.mp hnone⟩, rfl⟩

/-- **An active grant of a file is the grant of one of its entries.** -/
theorem active_applied {stored : StoredFileGrant}
    (hstored : stored ∈ queryFileGrants (store.setAll applied)) {filename : JsString}
    (hfile : parseFileSourceFilename stored.grant.source = some filename)
    (hactive : stored.grant.state = .active) :
    (fileEntries.get filename = none ∧ isSourceUnavailable filename = true) ∨
      ∃ i entry, EntryAt fileEntries filename i entry ∧
        stored = grantOfEntry store draws filename i entry := by
  rcases (mem_query_applied hkeys hfresh happlied).mp hstored with
    ⟨before, hbefore, rfl⟩ | ⟨file, i, entry, hcreated, rfl⟩
  · rw [StoredFileGrant.met, fate_source] at hfile
    rcases accounted fileEntries isSourceUnavailable before with hkept |
      ⟨file, hfile', hdeserted | ⟨i, entry, hentry, hkey⟩⟩
    · exact Or.inl (hkept filename hfile)
    · rw [StoredFileGrant.met, fate_of_deserted hfile' hdeserted] at hactive
      cases hactive
    · obtain rfl := Option.some.inj (hfile'.symm.trans hfile)
      rw [StoredFileGrant.met, fate_of_entry hkeys hentry hfile' hkey] at hactive ⊢
      by_cases hkeeper : selectKeeper (copiesOf (queryFileGrants store) file
          (entryIdentityKey entry)) = some before
      · rw [if_pos hkeeper]
        refine Or.inr ⟨i, entry, hentry, ?_⟩
        rw [grantOfEntry, hkeeper]
        rfl
      · rw [if_neg hkeeper] at hactive
        cases hactive
  · obtain rfl := Option.some.inj ((createdGrant_file draws file i entry).symm.trans hfile)
    refine Or.inr ⟨i, entry, hcreated.1, ?_⟩
    rw [grantOfEntry, hcreated.2]
    rfl

theorem keeper_applied {filename : JsString} {i : ℕ} {entry : GrantFileEntry}
    (hentry : EntryAt fileEntries filename i entry) :
    selectKeeper (copiesOf (queryFileGrants (store.setAll applied)) filename
      (entryIdentityKey entry)) = some (grantOfEntry store draws filename i entry) := by
  have hcopy : grantOfEntry store draws filename i entry ∈
      copiesOf (queryFileGrants (store.setAll applied)) filename (entryIdentityKey entry) :=
    mem_copiesOf.mpr ⟨grantOfEntry_mem hkeys hfresh happlied hentry,
      grantOfEntry_file store draws filename i entry,
      grantOfEntry_key store draws filename i entry⟩
  obtain ⟨keeper, hkeeper, hactive⟩ :=
    selectKeeper_active hcopy (grantOfEntry_active store draws filename i entry)
  obtain ⟨hmem, hfile, hkey⟩ := mem_copiesOf.mp (mem_of_selectKeeper hkeeper)
  rcases active_applied hkeys hfresh happlied hmem hfile hactive with hgone |
    ⟨j, other, hother, rfl⟩
  · obtain ⟨entries, hget, -⟩ := hentry
    rw [hget] at hgone
    cases hgone.1
  · rw [grantOfEntry_key] at hkey
    obtain ⟨rfl, rfl⟩ := entry_of_key hkeys hother hentry hkey
    exact hkeeper

/-- **A second run writes nothing**, whatever it would draw. -/
theorem rerun_writes_nothing (draws' : JsString → ℕ → DrawnIds) :
    (reconcileAllFileGrants fileEntries (store.setAll applied) isSourceUnavailable
      draws').writes = [] := by
  rw [List.eq_nil_iff_forall_not_mem]
  intro write hwrite
  rcases (mem_writes hkeys).mp hwrite with ⟨stored, hstored, hne, -⟩ |
    ⟨filename, i, entry, hentry, hnone, -⟩
  · apply hne
    rcases accounted fileEntries isSourceUnavailable stored with hkept |
      ⟨filename, hfile, hdeserted | ⟨i, entry, hentry, hkey⟩⟩
    · exact fate_of_kept hkept
    · rw [fate_of_deserted hfile hdeserted]
      by_contra hactive
      rcases active_applied hkeys hfresh happlied hstored hfile (revoke_ne_iff.mp hactive) with
        ⟨hget, hout⟩ | ⟨i, entry, ⟨entries, hget, hat⟩, rfl⟩
      · rw [Deserted, hget, hout] at hdeserted
        cases hdeserted
      · rw [Deserted, hget, grantOfEntry_key] at hdeserted
        exact hdeserted (List.mem_map_of_mem (List.mem_of_getElem? hat))
    · rw [fate_of_entry hkeys hentry hfile hkey, keeper_applied hkeys hfresh happlied hentry]
      by_cases hsame : some (grantOfEntry store draws filename i entry) = some stored
      · rw [if_pos hsame, ← Option.some.inj hsame]
        exact keep_eq_self_iff.mpr ⟨grantOfEntry_active store draws filename i entry,
          grantOfEntry_methods store draws filename i entry⟩
      · rw [if_neg hsame]
        by_contra hactive
        rcases active_applied hkeys hfresh happlied hstored hfile (revoke_ne_iff.mp hactive) with
          ⟨hget, -⟩ | ⟨j, other, hother, rfl⟩
        · obtain ⟨entries, hget', -⟩ := hentry
          rw [hget'] at hget
          cases hget
        · rw [grantOfEntry_key] at hkey
          obtain ⟨rfl, rfl⟩ := entry_of_key hkeys hother hentry hkey
          exact hsame rfl
  · rw [← selectKeeper_eq_none, keeper_applied hkeys hfresh happlied hentry] at hnone
    cases hnone

end

end

end Access

end Swamp
