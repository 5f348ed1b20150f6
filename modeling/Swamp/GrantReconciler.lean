import Swamp.JsText
import Swamp.ReadFingerprint

/-!
# Bringing the stored grants to what the grant files say

A stored grant that came from a grant file carries the file's name as its source.
Each entry of a file is compared with the stored copies of its identity key: one
copy is kept, brought up to date or made active again, the others are revoked, and a
grant is created where there is no copy.  What no entry names is revoked, and so is
every grant of a file that is gone; a file that could not be read keeps its grants.
-/

namespace Swamp

open Js

namespace Access

/-- `Grant`, with where it came from. -/
structure SourcedGrant extends Grant where
  source : JsString
deriving DecidableEq

/-- `GrantFileEntry`. -/
structure GrantFileEntry where
  subject : Subject
  effect : Effect
  actions : List Action
  resource : ResourceSelector
  condition : Option JsString
  methods : Option (List JsString)

/-- A stored grant and the name of its definition. -/
structure GrantRecord where
  grant : SourcedGrant
  instanceName : JsString
deriving DecidableEq

/-- The stored grants by the id of their definition. -/
abbrev GrantStore := OrderedMap JsString GrantRecord

/-- `StoredFileGrant`. -/
structure StoredFileGrant where
  grant : SourcedGrant
  modelId : JsString
  instanceName : JsString
deriving DecidableEq

/-- What a stored grant is written as. -/
abbrev GrantWrite := JsString × GrantRecord

def FILE_SOURCE : JsString := js "file:"

def isFileSource (source : JsString) : Bool := startsWith source FILE_SOURCE

/-- `parseFileSourceFilename`, none where it throws. -/
def parseFileSourceFilename (source : JsString) : Option JsString :=
  if isFileSource source then some (source.drop FILE_SOURCE.length) else none

/-- `queryFileGrants`, of a store that holds its records. -/
def queryFileGrants (store : GrantStore) : List StoredFileGrant :=
  (store.entries.map (fun entry => ⟨entry.2.grant, entry.1, entry.2.instanceName⟩)).filter
    (fun stored => isFileSource stored.grant.source)

/-- `condition?.trim() ?? ""`. -/
def conditionText (condition : Option JsString) : JsString := (condition.map trim).getD []

/-- The key of what a grant or an entry names. -/
def identityKey (subject : Subject) (effect : Effect) (actions : List Action)
    (resource : ResourceSelector) (condition : Option JsString) : JsString :=
  (subject.kind.text ++ js ":" ++ subject.name) ++ js "|" ++ effect.text ++ js "|" ++
    (js ",").intercalate (sortTexts (actions.map Action.text)) ++ js "|" ++
    (resource.kind.text ++ js ":" ++ resource.pattern) ++ js "|" ++ conditionText condition

def grantIdentityKey (grant : SourcedGrant) : JsString :=
  identityKey grant.subject grant.effect grant.actions grant.resource grant.condition

def entryIdentityKey (entry : GrantFileEntry) : JsString :=
  identityKey entry.subject entry.effect entry.actions entry.resource entry.condition

/-- What a creation draws: the ids of the grant and of its definition, and the
definition's name. -/
structure DrawnIds where
  id : JsString
  instanceName : JsString
  modelId : JsString

def buildFileGrant (drawn : DrawnIds) (entry : GrantFileEntry) (filename : JsString) :
    SourcedGrant where
  id := drawn.id
  subject := entry.subject
  effect := entry.effect
  actions := entry.actions
  resource := entry.resource
  condition := entry.condition
  methods := entry.methods
  state := .active
  source := FILE_SOURCE ++ filename

def methodsEqual (a b : Option (List JsString)) : Bool :=
  match a, b with
  | none, none => true
  | some a, some b => a.length == b.length && sortTexts a == sortTexts b
  | _, _ => false

/-- A file's copies by identity key. -/
abbrev CopiesByKey := OrderedMap JsString (List StoredFileGrant)

/-- One grant among the copies of its file and key. -/
def addCopy (byFile : OrderedMap JsString CopiesByKey) (entry : StoredFileGrant) :
    OrderedMap JsString CopiesByKey :=
  match parseFileSourceFilename entry.grant.source with
  | none => byFile
  | some filename =>
    let fileMap := (byFile.get filename).getD OrderedMap.empty
    let key := grantIdentityKey entry.grant
    let copies := (fileMap.get key).getD []
    byFile.set filename (fileMap.set key (copies ++ [entry]))

def groupByFilename (allFileGrants : List StoredFileGrant) : OrderedMap JsString CopiesByKey :=
  allFileGrants.foldl addCopy OrderedMap.empty

/-- `selectKeeper`, none where there is no copy. -/
def selectKeeper (copies : List StoredFileGrant) : Option StoredFileGrant :=
  let byModelId := copies.insertionSort (fun a b => a.modelId ≤ b.modelId)
  (byModelId.find? (fun copy => copy.grant.state = .active)).or byModelId.head?

/-- `MaterializeResult`. -/
structure MaterializeResult where
  created : ℕ
  updated : ℕ
  revoked : ℕ
  reactivated : ℕ
  unchanged : ℕ

/-- Counts of one thing each, and the writes that go with them. -/
structure Reconciled where
  result : MaterializeResult
  writes : List GrantWrite

/-- Nothing done. -/
def Reconciled.none : Reconciled := ⟨⟨0, 0, 0, 0, 0⟩, []⟩

/-- One after the other. -/
def Reconciled.add (first next : Reconciled) : Reconciled where
  result :=
    { created := first.result.created + next.result.created
      updated := first.result.updated + next.result.updated
      revoked := first.result.revoked + next.result.revoked
      reactivated := first.result.reactivated + next.result.reactivated
      unchanged := first.result.unchanged + next.result.unchanged }
  writes := first.writes ++ next.writes

/-- In turn. -/
def Reconciled.sum (parts : List Reconciled) : Reconciled := parts.foldl Reconciled.add .none

/-- Write a stored grant back changed. -/
def StoredFileGrant.write (stored : StoredFileGrant) (grant : SourcedGrant) : GrantWrite :=
  (stored.modelId, ⟨grant, stored.instanceName⟩)

/-- The grant revoked. -/
def SourcedGrant.revoke (grant : SourcedGrant) : SourcedGrant := { grant with state := .revoked }

/-- Revoke the copies that `among` asks for and that are not revoked yet. -/
def revokeCopies (among : StoredFileGrant → Bool) (copies : List StoredFileGrant) : Reconciled :=
  let revoked := copies.filter (fun copy => among copy && copy.grant.state = .active)
  ⟨⟨0, 0, revoked.length, 0, 0⟩, revoked.map (fun copy => copy.write copy.grant.revoke)⟩

/-- What an entry does to the copy it keeps, or creates. -/
def reconcileKeeper (filename : JsString) (drawn : DrawnIds) (entry : GrantFileEntry)
    (existing : Option StoredFileGrant) : Reconciled :=
  match existing with
  | some existing =>
    match existing.grant.state with
    | .active =>
      if methodsEqual existing.grant.methods entry.methods then
        ⟨⟨0, 0, 0, 0, 1⟩, []⟩
      else
        ⟨⟨0, 1, 0, 0, 0⟩,
          [existing.write { existing.grant with methods := entry.methods }]⟩
    | .revoked =>
      ⟨⟨0, 0, 0, 1, 0⟩,
        [existing.write
          { existing.grant with state := .active, methods := entry.methods }]⟩
  | none =>
    ⟨⟨1, 0, 0, 0, 0⟩,
      [(drawn.modelId, ⟨buildFileGrant drawn entry filename, drawn.instanceName⟩)]⟩

/-- One entry of a file.  A copy is the kept one when it has its model id, of which
there is one among the stored grants. -/
def reconcileEntry (filename : JsString) (drawn : DrawnIds) (entry : GrantFileEntry)
    (grantsForFile : CopiesByKey) : Reconciled :=
  let copies := (grantsForFile.get (entryIdentityKey entry)).getD []
  let existing := selectKeeper copies
  (revokeCopies (fun copy => decide (existing.map StoredFileGrant.modelId ≠ some copy.modelId))
    copies).add (reconcileKeeper filename drawn entry existing)

/-- `reconcileOneFile`.  `draws` gives what the entry at an index draws. -/
def reconcileOneFile (filename : JsString) (draws : ℕ → DrawnIds) (entries : List GrantFileEntry)
    (grantsForFile : CopiesByKey) : Reconciled :=
  let desiredKeys := entries.map entryIdentityKey
  let reconciled := entries.zipIdx.map (fun entry =>
    reconcileEntry filename (draws entry.2) entry.1 grantsForFile)
  let left := (grantsForFile.entries.filter (fun copies => !desiredKeys.contains copies.1)).map
    (fun copies => revokeCopies (fun _ => true) copies.2)
  Reconciled.sum (reconciled ++ left)

/-- `reconcileAllFileGrants`: each file with its entries, then the stored sources that
no file maps to and that are not unavailable. -/
def reconcileAllFileGrants (fileEntries : OrderedMap JsString (List GrantFileEntry))
    (store : GrantStore) (isSourceUnavailable : JsString → Bool)
    (draws : JsString → ℕ → DrawnIds) : Reconciled :=
  let grantsByFile := groupByFilename (queryFileGrants store)
  let processed := fileEntries.entries.map (fun file =>
    reconcileOneFile file.1 (draws file.1) file.2
      ((grantsByFile.get file.1).getD OrderedMap.empty))
  let deleted := (grantsByFile.entries.filter (fun file =>
      !fileEntries.has file.1 && !isSourceUnavailable file.1)).map
    (fun file => reconcileOneFile file.1 (draws file.1) [] file.2)
  Reconciled.sum (processed ++ deleted.filter (fun done => done.result.revoked ≠ 0))

/-- The copies a grouping holds for a file and a key. -/
def copiesIn (byFile : OrderedMap JsString CopiesByKey) (filename key : JsString) :
    List StoredFileGrant :=
  (((byFile.get filename).getD OrderedMap.empty).get key).getD []

/-- The copies among the stored grants. -/
def copiesOf (allFileGrants : List StoredFileGrant) (filename key : JsString) :
    List StoredFileGrant :=
  allFileGrants.filter (fun stored =>
    parseFileSourceFilename stored.grant.source = some filename ∧
      grantIdentityKey stored.grant = key)

theorem mem_copiesOf {all : List StoredFileGrant} {filename key : JsString}
    {stored : StoredFileGrant} :
    stored ∈ copiesOf all filename key ↔
      stored ∈ all ∧ parseFileSourceFilename stored.grant.source = some filename ∧
        grantIdentityKey stored.grant = key := by
  simp [copiesOf]

theorem copiesIn_addCopy (byFile : OrderedMap JsString CopiesByKey) (entry : StoredFileGrant)
    (filename key : JsString) :
    copiesIn (addCopy byFile entry) filename key =
      copiesIn byFile filename key ++ copiesOf [entry] filename key := by
  unfold addCopy
  cases hsource : parseFileSourceFilename entry.grant.source with
  | none => simp [copiesOf, hsource]
  | some file =>
    by_cases hfile : filename = file
    · subst hfile
      by_cases hkey : key = grantIdentityKey entry.grant
      · simp [copiesIn, copiesOf, hsource, hkey]
      · simp [copiesIn, copiesOf, hsource, OrderedMap.get_set_ne _ _ hkey, Ne.symm hkey]
    · simp [copiesIn, copiesOf, hsource, OrderedMap.get_set_ne _ _ hfile, Ne.symm hfile]

theorem copiesIn_foldl (all : List StoredFileGrant) (byFile : OrderedMap JsString CopiesByKey)
    (filename key : JsString) :
    copiesIn (all.foldl addCopy byFile) filename key =
      copiesIn byFile filename key ++ copiesOf all filename key := by
  induction all generalizing byFile with
  | nil => simp [copiesOf]
  | cons entry rest ih =>
    rw [List.foldl_cons, ih, copiesIn_addCopy, List.append_assoc]
    congr 1
    exact (@List.filter_append _ _ [entry] rest).symm

/-- **A file's map holds the stored copies of each key.** -/
theorem get_groupByFilename (all : List StoredFileGrant) (filename key : JsString) :
    copiesIn (groupByFilename all) filename key = copiesOf all filename key :=
  copiesIn_foldl all OrderedMap.empty filename key

theorem mem_getD_iff {K V : Type*} [DecidableEq K] {m : OrderedMap K (List V)} {k : K} {v : V} :
    v ∈ (m.get k).getD [] ↔ ∃ vs, (k, vs) ∈ m.entries ∧ v ∈ vs := by
  cases h : m.get k with
  | none | some vs => simp [OrderedMap.mem_entries, h]

theorem writes_foldl (parts : List Reconciled) (start : Reconciled) :
    (parts.foldl Reconciled.add start).writes = start.writes ++ parts.flatMap (·.writes) := by
  induction parts generalizing start with
  | nil => simp
  | cons part rest ih => simp [ih, Reconciled.add]

@[simp] theorem writes_sum (parts : List Reconciled) :
    (Reconciled.sum parts).writes = parts.flatMap (·.writes) := writes_foldl parts .none

theorem revoked_foldl (parts : List Reconciled) (start : Reconciled) :
    (parts.foldl Reconciled.add start).result.revoked =
      start.result.revoked + (parts.map (·.result.revoked)).sum := by
  induction parts generalizing start with
  | nil => simp
  | cons part rest ih =>
    simp [ih, Reconciled.add]
    omega

variable {write : GrantWrite}

theorem mem_revokeCopies {among : StoredFileGrant → Bool} {copies : List StoredFileGrant} :
    write ∈ (revokeCopies among copies).writes ↔
      ∃ copy ∈ copies, among copy = true ∧ copy.grant.state = .active ∧
        write = copy.write copy.grant.revoke := by
  simp only [revokeCopies, List.mem_map, List.mem_filter, Bool.and_eq_true, decide_eq_true_eq]
  constructor
  · intro h
    obtain ⟨copy, ⟨hcopy, hamong, hactive⟩, rfl⟩ := h
    exact ⟨copy, hcopy, hamong, hactive, rfl⟩
  · intro h
    obtain ⟨copy, hcopy, hamong, hactive, rfl⟩ := h
    exact ⟨copy, ⟨hcopy, hamong, hactive⟩, rfl⟩

theorem mem_reconcileOneFile {filename : JsString} {draws : ℕ → DrawnIds}
    {entries : List GrantFileEntry} {grantsForFile : CopiesByKey} :
    write ∈ (reconcileOneFile filename draws entries grantsForFile).writes ↔
      (∃ i entry, entries[i]? = some entry ∧
        write ∈ (reconcileEntry filename (draws i) entry grantsForFile).writes) ∨
      ∃ key, key ∉ entries.map entryIdentityKey ∧
        ∃ copy ∈ (grantsForFile.get key).getD [], copy.grant.state = .active ∧
          write = copy.write copy.grant.revoke := by
  unfold reconcileOneFile
  rw [writes_sum, List.flatMap_append, List.mem_append]
  apply or_congr
  · simp only [List.mem_flatMap, List.mem_map]
    constructor
    · intro h
      obtain ⟨part, ⟨⟨entry, i⟩, hentry, rfl⟩, hwrite⟩ := h
      exact ⟨i, entry, List.mem_zipIdx_iff_getElem?.mp hentry, hwrite⟩
    · intro h
      obtain ⟨i, entry, hentry, hwrite⟩ := h
      exact ⟨_, ⟨(entry, i), List.mem_zipIdx_iff_getElem?.mpr hentry, rfl⟩, hwrite⟩
  · simp only [List.mem_flatMap, List.mem_map, List.mem_filter]
    constructor
    · intro h
      obtain ⟨part, ⟨⟨key, copies⟩, ⟨hmem, hkey⟩, rfl⟩, hwrite⟩ := h
      obtain ⟨copy, hcopy, -, hactive, rfl⟩ := mem_revokeCopies.mp hwrite
      exact ⟨key, by simpa using hkey, copy, mem_getD_iff.mpr ⟨copies, hmem, hcopy⟩, hactive, rfl⟩
    · intro h
      obtain ⟨key, hkey, copy, hcopy, hactive, rfl⟩ := h
      obtain ⟨copies, hmem, hin⟩ := mem_getD_iff.mp hcopy
      exact ⟨_, ⟨(key, copies), ⟨hmem, by simpa using hkey⟩, rfl⟩,
        mem_revokeCopies.mpr ⟨copy, hin, rfl, hactive, rfl⟩⟩

theorem revoked_deleted (filename : JsString) (draws : ℕ → DrawnIds)
    (grantsForFile : CopiesByKey) :
    (reconcileOneFile filename draws [] grantsForFile).result.revoked =
      (reconcileOneFile filename draws [] grantsForFile).writes.length := by
  rw [reconcileOneFile, writes_sum, Reconciled.sum, revoked_foldl, List.length_flatMap]
  simp [revokeCopies, Reconciled.none, Function.comp_def]

/-- The file of a grant is deserted: it is gone, or no entry of it has the grant's key. -/
def Deserted (fileEntries : OrderedMap JsString (List GrantFileEntry))
    (isSourceUnavailable : JsString → Bool) (filename key : JsString) : Prop :=
  match fileEntries.get filename with
  | some entries => key ∉ entries.map entryIdentityKey
  | none => isSourceUnavailable filename = false

variable {draws : JsString → ℕ → DrawnIds} {fileEntries : OrderedMap JsString (List GrantFileEntry)}

theorem mem_flatMap_files {byFile : OrderedMap JsString CopiesByKey} :
    write ∈ (fileEntries.entries.map (fun file =>
        reconcileOneFile file.1 (draws file.1) file.2
          ((byFile.get file.1).getD OrderedMap.empty))).flatMap (·.writes) ↔
      ∃ filename entries, fileEntries.get filename = some entries ∧
        write ∈ (reconcileOneFile filename (draws filename) entries
          ((byFile.get filename).getD OrderedMap.empty)).writes := by
  simp only [List.mem_flatMap, List.mem_map, Prod.exists, ← OrderedMap.mem_entries]
  constructor
  · intro h
    obtain ⟨part, ⟨filename, entries, hmem, rfl⟩, hwrite⟩ := h
    exact ⟨filename, entries, hmem, hwrite⟩
  · intro h
    obtain ⟨filename, entries, hmem, hwrite⟩ := h
    exact ⟨_, ⟨filename, entries, hmem, rfl⟩, hwrite⟩

/-- The revocations of the sources that are gone. -/
theorem mem_flatMap_deleted {isSourceUnavailable : JsString → Bool}
    {byFile : OrderedMap JsString CopiesByKey} :
    write ∈ ((((byFile.entries.filter (fun file =>
        !fileEntries.has file.1 && !isSourceUnavailable file.1)).map
        (fun file => reconcileOneFile file.1 (draws file.1) [] file.2)).filter
        (fun done => done.result.revoked ≠ 0)).flatMap (·.writes)) ↔
      ∃ filename key, fileEntries.get filename = none ∧ isSourceUnavailable filename = false ∧
        ∃ copy ∈ copiesIn byFile filename key, copy.grant.state = .active ∧
          write = copy.write copy.grant.revoke := by
  simp only [List.mem_flatMap, List.mem_filter, List.mem_map, Prod.exists]
  constructor
  · intro h
    obtain ⟨part, ⟨⟨filename, grantsForFile, ⟨hmem, hgone⟩, rfl⟩, -⟩, hwrite⟩ := h
    have hkind : fileEntries.get filename = none ∧ isSourceUnavailable filename = false := by
      simpa [OrderedMap.has] using hgone
    rcases mem_reconcileOneFile.mp hwrite with hentry | hleft
    · obtain ⟨i, entry, hentry, -⟩ := hentry
      cases hentry
    · obtain ⟨key, -, copy, hcopy, hactive, rfl⟩ := hleft
      have hget : byFile.get filename = some grantsForFile := OrderedMap.mem_entries.mp hmem
      refine ⟨filename, key, hkind.1, hkind.2, copy, ?_, hactive, rfl⟩
      simpa [copiesIn, hget] using hcopy
  · intro h
    obtain ⟨filename, key, hgone, havailable, copy, hcopy, hactive, rfl⟩ := h
    cases hget : byFile.get filename with
    | none => simp [copiesIn, hget] at hcopy
    | some grantsForFile =>
      have hwrite : copy.write copy.grant.revoke ∈
          (reconcileOneFile filename (draws filename) [] grantsForFile).writes :=
        mem_reconcileOneFile.mpr (Or.inr ⟨key, by simp, copy, by
          simpa [copiesIn, hget] using hcopy, hactive, rfl⟩)
      refine ⟨_, ⟨⟨filename, grantsForFile, ⟨OrderedMap.mem_entries.mpr hget, ?_⟩, rfl⟩, ?_⟩,
        hwrite⟩
      · simp [OrderedMap.has, hgone, havailable]
      · rw [revoked_deleted]
        simpa using List.ne_nil_of_mem hwrite

/-- **What a reconciliation writes**: what each entry does to the copies of its key,
and a revocation for each active grant whose file and key are deserted. -/
theorem mem_reconcileAll {store : GrantStore} {isSourceUnavailable : JsString → Bool} :
    write ∈ (reconcileAllFileGrants fileEntries store isSourceUnavailable draws).writes ↔
      (∃ filename entries i entry, fileEntries.get filename = some entries ∧
        entries[i]? = some entry ∧
        write ∈ (reconcileEntry filename (draws filename i) entry
          (((groupByFilename (queryFileGrants store)).get filename).getD
            OrderedMap.empty)).writes) ∨
      ∃ stored ∈ queryFileGrants store, stored.grant.state = .active ∧
        (∃ filename, parseFileSourceFilename stored.grant.source = some filename ∧
          Deserted fileEntries isSourceUnavailable filename (grantIdentityKey stored.grant)) ∧
        write = stored.write stored.grant.revoke := by
  rw [reconcileAllFileGrants, writes_sum, List.flatMap_append, List.mem_append,
    mem_flatMap_files, mem_flatMap_deleted]
  simp only [mem_reconcileOneFile]
  constructor
  · intro h
    rcases h with ⟨filename, entries, hget, ⟨i, entry, hentry, hwrite⟩ | hleft⟩ | hgone
    · exact Or.inl ⟨filename, entries, i, entry, hget, hentry, hwrite⟩
    · obtain ⟨key, hkey, copy, hcopy, hactive, rfl⟩ := hleft
      have hof : copy ∈ copiesOf (queryFileGrants store) filename key := by
        rw [← get_groupByFilename]
        exact hcopy
      obtain ⟨hstored, hfile, rfl⟩ := mem_copiesOf.mp hof
      exact Or.inr ⟨copy, hstored, hactive, ⟨filename, hfile, by rwa [Deserted, hget]⟩, rfl⟩
    · obtain ⟨filename, key, hget, havailable, copy, hcopy, hactive, rfl⟩ := hgone
      rw [get_groupByFilename, mem_copiesOf] at hcopy
      exact Or.inr ⟨copy, hcopy.1, hactive, ⟨filename, hcopy.2.1, by rwa [Deserted, hget]⟩, rfl⟩
  · intro h
    rcases h with ⟨filename, entries, i, entry, hget, hentry, hwrite⟩ |
      ⟨stored, hstored, hactive, ⟨filename, hfile, hdeserted⟩, rfl⟩
    · exact Or.inl ⟨filename, entries, hget, Or.inl ⟨i, entry, hentry, hwrite⟩⟩
    · have hcopy : stored ∈ copiesIn (groupByFilename (queryFileGrants store)) filename
          (grantIdentityKey stored.grant) := by
        rw [get_groupByFilename]
        exact mem_copiesOf.mpr ⟨hstored, hfile, rfl⟩
      cases hget : fileEntries.get filename with
      | none =>
        rw [Deserted, hget] at hdeserted
        exact Or.inr ⟨filename, _, hget, hdeserted, stored, hcopy, hactive, rfl⟩
      | some entries =>
        rw [Deserted, hget] at hdeserted
        exact Or.inl ⟨filename, entries, hget,
          Or.inr ⟨_, hdeserted, stored, hcopy, hactive, rfl⟩⟩

end Access

end Swamp
