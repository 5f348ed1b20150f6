import Swamp.FailClosed

/-!
# Loading the access policy

A build lists the grant and group records, reads and parses each, and makes a
snapshot of what it could read.  A record that fails keeps what it carried in the
last build that read it, if that was an active deny or the members of a group;
an allow is left out, and so is every allow to a group that failed.

What a record holds is parsed by `parseGrant` and `parseGroup`, parameters; an
input of a build is what the repository lists and gives for each record.
-/

namespace Swamp.Access

open Js

/-- Why a listing fails. -/
inductive ListError where
  | notFound
  | other

/-- What `getContent` gives for a record: it throws, there is none, or a text,
with what `JSON.parse` reads of it. -/
inductive Content where
  | throws
  | missing
  | text (value : Option Json)

/-- A listed data item, with the content a read of it gives. -/
structure DataItem where
  modelType : ModelType
  modelId : JsString
  dataName : JsString
  content : Content

/-- `UnreadableModelRecord`: one that could not be listed. -/
structure SkippedRecord where
  modelType : ModelType
  modelId : JsString
  dataName : Option JsString
  notFound : Bool

/-- What `findAllForType` gives. -/
structure FoundAll where
  items : Except ListError (List DataItem)
  skipped : List SkippedRecord

/-- What a build meets: the records of each kind, under their type and under the
type with an `@`. -/
structure BuildInput where
  grants : FoundAll
  orphanedGrants : FoundAll
  groups : FoundAll
  orphanedGroups : FoundAll

/-- `recordKey`. -/
def recordKey (modelType : ModelType) (modelId : JsString) : JsString :=
  modelType.normalized ++ js "/" ++ modelId

/-- `FailedRecord`, by its key. -/
structure FailedRecord where
  record : JsString
  notFound : Bool

/-- `#findAllIncludingOrphaned`. -/
def findAllIncludingOrphaned (canonical orphaned : FoundAll) :
    Except ListError (List DataItem × List SkippedRecord) :=
  match canonical.items with
  | .error e => .error e
  | .ok items =>
    match orphaned.items with
    | .ok more => .ok (items ++ more, canonical.skipped ++ orphaned.skipped)
    | .error .notFound => .ok (items, canonical.skipped ++ orphaned.skipped)
    | .error .other => .error .other

/-- `failedAccessData`: the failures of the access data or of a whole model. -/
def failedAccessData (skipped : List SkippedRecord) (accessDataName : JsString) :
    List FailedRecord :=
  (skipped.filter (fun s => s.dataName = none ∨ s.dataName = some accessDataName)).map
    (fun s => ⟨recordKey s.modelType s.modelId, s.notFound⟩)

section

variable {V : Type}

/-- `missingAndNeverRead`. -/
def missingAndNeverRead (failed : FailedRecord) (lastKnown : OrderedMap JsString V) : Bool :=
  failed.notFound && !lastKnown.has failed.record

/-- `RecordRead`. -/
inductive RecordRead where
  | attrs (value : Json)
  | error (notFound : Bool)
  | skip

/-- `#readRecord`. -/
def readRecord (content : Content) (known : Bool) : RecordRead :=
  match content with
  | .throws => .error false
  | .missing => if known then .error true else .skip
  | .text (some value) => .attrs value
  | .text none => .error false

/-- The records a build has read and those that failed. -/
structure ReadRecords (V : Type) where
  known : OrderedMap JsString V
  read : List V
  failed : List FailedRecord

/-- Read and parse one item of the access data. -/
def readItem (parse : Json → Option V) (accessDataName : JsString)
    (lastKnown : OrderedMap JsString V) (records : ReadRecords V) (item : DataItem) :
    ReadRecords V :=
  if item.dataName ≠ accessDataName then records
  else
    let record := recordKey item.modelType item.modelId
    match readRecord item.content (lastKnown.has record) with
    | .skip => records
    | .error notFound => { records with failed := records.failed ++ [⟨record, notFound⟩] }
    | .attrs value =>
      match parse value with
      | none => { records with failed := records.failed ++ [⟨record, false⟩] }
      | some parsed =>
        { records with
          known := records.known.set record parsed
          read := records.read ++ [parsed] }

/-- The records of one kind: those listed are read, those that failed to list
come first among the failed. -/
def readItems (parse : Json → Option V) (accessDataName : JsString)
    (lastKnown : OrderedMap JsString V) (items : List DataItem) (skipped : List SkippedRecord) :
    ReadRecords V :=
  items.foldl (readItem parse accessDataName lastKnown)
    ⟨.empty, [], (failedAccessData skipped accessDataName).filter
      (fun failed => !missingAndNeverRead failed lastKnown)⟩

/-- A failed record keeps what was last known of it. -/
def carryOver (lastKnown known : OrderedMap JsString V) (failed : List FailedRecord) :
    OrderedMap JsString V :=
  failed.foldl
    (fun known failure =>
      match lastKnown.get failure.record with
      | some last => known.set failure.record last
      | none => known)
    known

end

/-- `retainedUnreadableGrant`. -/
def retainedUnreadableGrant (lastKnown : Option Grant) : Option Grant :=
  lastKnown.filter (fun grant => grant.effect = .deny ∧ grant.state = .active)

/-- `withoutAllowsToGroups`. -/
def withoutAllowsToGroups (grants : List Grant) (suspendedGroups : List JsString) : List Grant :=
  grants.filter (fun grant =>
    ¬ (grant.effect = .allow ∧ grant.subject.kind = .group ∧ grant.subject.name ∈ suspendedGroups))

/-- `PolicySnapshotLoader`: its snapshot, what it last knew, and whether a build
has ended well. -/
structure PolicySnapshotLoader where
  snapshot : PolicySnapshot
  lastKnownGrants : OrderedMap JsString Grant
  lastKnownGroups : OrderedMap JsString Group
  built : Bool

/-- Why a build fails: a listing, or, at the first build, records that cannot be
read. -/
inductive LoadError where
  | listing (error : ListError)
  | unreadableRecords (records : List FailedRecord)

namespace PolicySnapshotLoader

section

variable (parseGrant : Json → Option Grant) (parseGroup : Json → Option Group)
  (evaluator : ConditionEvaluator)

/-- A loader that has built nothing. -/
def initial : PolicySnapshotLoader :=
  ⟨PolicySnapshot.create [] [] alwaysFalse, .empty, .empty, false⟩

variable (self : PolicySnapshotLoader)

/-- What a build makes of the listed records, once each was read. -/
def assemble (grants : ReadRecords Grant) (groups : ReadRecords Group) :
    Except LoadError PolicySnapshotLoader :=
  let keptGrants := grants.failed.filterMap
    (fun failure => retainedUnreadableGrant (self.lastKnownGrants.get failure.record))
  let keptGroups := groups.failed.filterMap
    (fun failure => self.lastKnownGroups.get failure.record)
  let active := grants.read.filter (fun grant => grant.state = .active) ++ keptGrants
  let unreadable := grants.failed ++ groups.failed
  if self.built = false ∧ unreadable ≠ [] then .error (.unreadableRecords unreadable)
  else
    .ok
      { snapshot := PolicySnapshot.create
          (withoutAllowsToGroups active (keptGroups.map Group.name)) (groups.read ++ keptGroups)
          evaluator
        lastKnownGrants := carryOver self.lastKnownGrants grants.known grants.failed
        lastKnownGroups := carryOver self.lastKnownGroups groups.known groups.failed
        built := true }

/-- `#buildSnapshotWithCounts`. -/
def buildSnapshot (input : BuildInput) : Except LoadError PolicySnapshotLoader :=
  match findAllIncludingOrphaned input.grants input.orphanedGrants,
    findAllIncludingOrphaned input.groups input.orphanedGroups with
  | .error e, _ => .error (.listing e)
  | .ok _, .error e => .error (.listing e)
  | .ok (grantItems, skippedGrants), .ok (groupItems, skippedGroups) =>
    self.assemble evaluator
      (readItems parseGrant (js "grant-main") self.lastKnownGrants grantItems skippedGrants)
      (readItems parseGroup (js "group-main") self.lastKnownGroups groupItems skippedGroups)

/-- `#build`: the state is replaced when the build ends well. -/
def build (input : BuildInput) : PolicySnapshotLoader :=
  match self.buildSnapshot parseGrant parseGroup evaluator input with
  | .ok next => next
  | .error _ => self

/-- The loader after a sequence of builds. -/
def builds (inputs : List BuildInput) : PolicySnapshotLoader :=
  inputs.foldl (build parseGrant parseGroup evaluator) self

end

end PolicySnapshotLoader

section

variable {V : Type} (parse : Json → Option V) (accessDataName : JsString)

/-- A record is listed and readable with some content. -/
def ReadsAs (items : List DataItem) (record : JsString) (v : V) : Prop :=
  ∃ item ∈ items, item.dataName = accessDataName ∧
    recordKey item.modelType item.modelId = record ∧
    ∃ value, item.content = .text (some value) ∧ parse value = some v

/-- The content of a record cannot be read, parsed or validated. -/
def Unparsed (content : Content) : Prop :=
  ∀ value, content = .text (some value) → parse value = none

/-- A record is listed, but fails to list, read, parse or validate. -/
def FailsIn (items : List DataItem) (skipped : List SkippedRecord) (record : JsString) : Prop :=
  (∃ s ∈ skipped, (s.dataName = none ∨ s.dataName = some accessDataName) ∧
      recordKey s.modelType s.modelId = record) ∨
    ∃ item ∈ items, item.dataName = accessDataName ∧
      recordKey item.modelType item.modelId = record ∧ Unparsed parse item.content

variable {parse accessDataName} {lastKnown : OrderedMap JsString V}

/-- One item: read, failed, or passed over. -/
theorem readItem_cases (records : ReadRecords V) (item : DataItem) :
    (∃ value v, item.dataName = accessDataName ∧ item.content = .text (some value) ∧
      parse value = some v ∧
      readItem parse accessDataName lastKnown records item =
        { records with
          known := records.known.set (recordKey item.modelType item.modelId) v
          read := records.read ++ [v] }) ∨
    (∃ notFound, item.dataName = accessDataName ∧ Unparsed parse item.content ∧
      readItem parse accessDataName lastKnown records item =
        { records with
          failed := records.failed ++ [⟨recordKey item.modelType item.modelId, notFound⟩] }) ∨
    (readItem parse accessDataName lastKnown records item = records ∧
      (item.dataName ≠ accessDataName ∨ (item.content = .missing ∧
        lastKnown.has (recordKey item.modelType item.modelId) = false))) := by
  unfold readItem
  by_cases hname : item.dataName = accessDataName
  · rw [if_neg (not_not.mpr hname)]
    cases hcontent : item.content with
    | throws =>
      refine Or.inr (Or.inl ⟨false, hname, ?_, rfl⟩)
      intro value hvalue
      cases hvalue
    | missing =>
      cases hknown : lastKnown.has (recordKey item.modelType item.modelId) with
      | true =>
        refine Or.inr (Or.inl ⟨true, hname, ?_, by simp [readRecord, hknown]⟩)
        intro value hvalue
        cases hvalue
      | false => exact Or.inr (Or.inr ⟨by simp [readRecord, hknown], Or.inr ⟨rfl, rfl⟩⟩)
    | text value =>
      cases value with
      | none =>
        refine Or.inr (Or.inl ⟨false, hname, ?_, rfl⟩)
        intro value hvalue
        cases hvalue
      | some value =>
        cases hparse : parse value with
        | none =>
          refine Or.inr (Or.inl ⟨false, hname, ?_, by simp [readRecord, hparse]⟩)
          intro other hother
          cases hother
          exact hparse
        | some v =>
          exact Or.inl ⟨value, v, hname, rfl, hparse, by simp [readRecord, hparse]⟩
  · exact Or.inr (Or.inr ⟨if_pos hname, Or.inl hname⟩)

variable {items : List DataItem} {skipped : List SkippedRecord}

/-- The records read are those that parse. -/
theorem mem_read {v : V} :
    v ∈ (readItems parse accessDataName lastKnown items skipped).read ↔
      ∃ record, ReadsAs parse accessDataName items record v := by
  unfold readItems
  induction items using List.reverseRecOn with
  | nil => simp [ReadsAs]
  | append_singleton items item ih =>
    rw [List.foldl_append, List.foldl_cons, List.foldl_nil]
    have hsplit : (∃ record, ReadsAs parse accessDataName (items ++ [item]) record v) ↔
        (∃ record, ReadsAs parse accessDataName items record v) ∨
          ∃ record, ReadsAs parse accessDataName [item] record v := by
      simp only [ReadsAs, List.mem_append, or_and_right, exists_or]
    rw [hsplit, ← ih]
    rcases readItem_cases (items.foldl (readItem parse accessDataName
      lastKnown) ⟨.empty, [], (failedAccessData skipped accessDataName).filter
        (fun failed => !missingAndNeverRead failed lastKnown)⟩) item with
      ⟨value, w, hname, hcontent, hparse, heq⟩ | ⟨notFound, hname, hunparsed, heq⟩ | ⟨heq, hpass⟩
    · rw [heq, List.mem_append, List.mem_singleton]
      apply or_congr Iff.rfl
      constructor
      · intro hv
        exact ⟨_, item, List.mem_singleton_self _, hname, rfl, value, hcontent, hv ▸ hparse⟩
      · intro hread
        obtain ⟨record, other, hother, -, -, value', hcontent', hparse'⟩ := hread
        rw [List.mem_singleton.mp hother, hcontent] at hcontent'
        cases hcontent'
        rw [hparse] at hparse'
        exact (Option.some.inj hparse').symm
    · rw [heq]
      refine (or_iff_left ?_).symm
      intro hread
      obtain ⟨record, other, hother, -, -, value', hcontent', hparse'⟩ := hread
      rw [List.mem_singleton.mp hother] at hcontent'
      rw [hunparsed value' hcontent'] at hparse'
      cases hparse'
    · rw [heq]
      refine (or_iff_left ?_).symm
      intro hread
      obtain ⟨record, other, hother, hname', -, value', hcontent', -⟩ := hread
      rw [List.mem_singleton.mp hother] at hname' hcontent'
      rcases hpass with hne | ⟨hmissing, -⟩
      · exact hne hname'
      · rw [hmissing] at hcontent'
        cases hcontent'

theorem known_of_reads {record : JsString} {v : V}
    (hreads : ReadsAs parse accessDataName items record v)
    (honly : ∀ w, ReadsAs parse accessDataName items record w → w = v) :
    (readItems parse accessDataName lastKnown items skipped).known.get record = some v := by
  unfold readItems
  induction items using List.reverseRecOn with
  | nil =>
    obtain ⟨item, hitem, -⟩ := hreads
    cases hitem
  | append_singleton items item ih =>
    rw [List.foldl_append, List.foldl_cons, List.foldl_nil]
    have hbefore : ∀ w, ReadsAs parse accessDataName items record w → w = v := by
      intro w hw
      obtain ⟨other, hother, hrest⟩ := hw
      exact honly w ⟨other, List.mem_append_left _ hother, hrest⟩
    -- The record was read by an earlier item, or is by this one.
    have hcases : ReadsAs parse accessDataName items record v ∨
        ReadsAs parse accessDataName [item] record v := by
      obtain ⟨other, hother, hrest⟩ := hreads
      rcases List.mem_append.mp hother with hother | hother
      · exact Or.inl ⟨other, hother, hrest⟩
      · exact Or.inr ⟨other, hother, hrest⟩
    rcases readItem_cases (items.foldl (readItem parse accessDataName
      lastKnown) ⟨.empty, [], (failedAccessData skipped accessDataName).filter
        (fun failed => !missingAndNeverRead failed lastKnown)⟩) item with
      ⟨value, w, hname, hcontent, hparse, heq⟩ | ⟨notFound, hname, hunparsed, heq⟩ | ⟨heq, hpass⟩
    · rw [heq]
      simp only [OrderedMap.get_set]
      split
      · rename_i hrecord
        have hw := honly w ⟨item, List.mem_append_right _ (List.mem_singleton_self _), hname,
          hrecord.symm, value, hcontent, hparse⟩
        rw [hw]
      · rename_i hrecord
        rcases hcases with hearlier | hnow
        · exact ih hearlier hbefore
        · obtain ⟨other, hother, -, hkey, -⟩ := hnow
          rw [List.mem_singleton.mp hother] at hkey
          exact absurd hkey.symm hrecord
    · rw [heq]
      rcases hcases with hearlier | hnow
      · exact ih hearlier hbefore
      · obtain ⟨other, hother, -, -, value', hcontent', hparse'⟩ := hnow
        rw [List.mem_singleton.mp hother] at hcontent'
        rw [hunparsed value' hcontent'] at hparse'
        cases hparse'
    · rw [heq]
      rcases hcases with hearlier | hnow
      · exact ih hearlier hbefore
      · obtain ⟨other, hother, hname', -, value', hcontent', -⟩ := hnow
        rw [List.mem_singleton.mp hother] at hname' hcontent'
        rcases hpass with hne | ⟨hmissing, -⟩
        · exact absurd hname' hne
        · rw [hmissing] at hcontent'
          cases hcontent'

/-- A record among the failed does fail. -/
theorem fails_of_failed {failure : FailedRecord}
    (h : failure ∈ (readItems parse accessDataName lastKnown items skipped).failed) :
    FailsIn parse accessDataName items skipped failure.record := by
  unfold readItems at h
  induction items using List.reverseRecOn with
  | nil =>
    obtain ⟨hfailed, -⟩ := List.mem_filter.mp h
    obtain ⟨s, hs, rfl⟩ := List.mem_map.mp hfailed
    obtain ⟨hmem, hname⟩ := List.mem_filter.mp hs
    exact Or.inl ⟨s, hmem, by simpa using hname, rfl⟩
  | append_singleton items item ih =>
    rw [List.foldl_append, List.foldl_cons, List.foldl_nil] at h
    have hlater : FailsIn parse accessDataName items skipped failure.record →
        FailsIn parse accessDataName (items ++ [item]) skipped failure.record := by
      intro hfails
      rcases hfails with hskipped | ⟨other, hother, hrest⟩
      · exact Or.inl hskipped
      · exact Or.inr ⟨other, List.mem_append_left _ hother, hrest⟩
    rcases readItem_cases (items.foldl (readItem parse accessDataName
      lastKnown) ⟨.empty, [], (failedAccessData skipped accessDataName).filter
        (fun failed => !missingAndNeverRead failed lastKnown)⟩) item with
      ⟨value, w, hname, hcontent, hparse, heq⟩ | ⟨notFound, hname, hunparsed, heq⟩ | ⟨heq, -⟩
    · rw [heq] at h
      exact hlater (ih h)
    · rw [heq, List.mem_append, List.mem_singleton] at h
      rcases h with h | rfl
      · exact hlater (ih h)
      · exact Or.inr ⟨item, List.mem_append_right _ (List.mem_singleton_self _), hname, rfl,
          hunparsed⟩
    · rw [heq] at h
      exact hlater (ih h)

theorem failed_of_fails {record : JsString} (hknown : lastKnown.has record = true)
    (h : FailsIn parse accessDataName items skipped record) :
    ∃ failure ∈ (readItems parse accessDataName lastKnown items skipped).failed,
      failure.record = record := by
  unfold readItems
  induction items using List.reverseRecOn with
  | nil =>
    rcases h with ⟨s, hs, hname, hkey⟩ | ⟨item, hitem, -⟩
    · refine ⟨⟨record, s.notFound⟩, List.mem_filter.mpr ⟨?_, ?_⟩, rfl⟩
      · refine List.mem_map.mpr ⟨s, List.mem_filter.mpr ⟨hs, by simpa using hname⟩, ?_⟩
        rw [hkey]
      · simp [missingAndNeverRead, hknown]
    · cases hitem
  | append_singleton items item ih =>
    rw [List.foldl_append, List.foldl_cons, List.foldl_nil]
    have hcases : FailsIn parse accessDataName items skipped record ∨
        (item.dataName = accessDataName ∧ recordKey item.modelType item.modelId = record ∧
          Unparsed parse item.content) := by
      rcases h with hskipped | ⟨other, hother, hrest⟩
      · exact Or.inl (Or.inl hskipped)
      · rcases List.mem_append.mp hother with hother | hother
        · exact Or.inl (Or.inr ⟨other, hother, hrest⟩)
        · rw [List.mem_singleton.mp hother] at hrest
          exact Or.inr hrest
    rcases readItem_cases (items.foldl (readItem parse accessDataName
      lastKnown) ⟨.empty, [], (failedAccessData skipped accessDataName).filter
        (fun failed => !missingAndNeverRead failed lastKnown)⟩) item with
      ⟨value, w, hname, hcontent, hparse, heq⟩ | ⟨notFound, hname, hunparsed, heq⟩ | ⟨heq, hpass⟩
    · rw [heq]
      rcases hcases with hearlier | ⟨-, -, hunparsed⟩
      · exact ih hearlier
      · rw [hunparsed value hcontent] at hparse
        cases hparse
    · rw [heq]
      rcases hcases with hearlier | ⟨-, hkey, -⟩
      · obtain ⟨failure, hfailure, hrecord⟩ := ih hearlier
        exact ⟨failure, List.mem_append_left _ hfailure, hrecord⟩
      · exact ⟨_, List.mem_append_right _ (List.mem_singleton_self _), hkey⟩
    · rw [heq]
      rcases hcases with hearlier | ⟨hname, hkey, -⟩
      · exact ih hearlier
      · rcases hpass with hne | ⟨-, hunknown⟩
        · exact absurd hname hne
        · rw [hkey, hknown] at hunknown
          cases hunknown

/-- What is known after the failed records: what was last known of each. -/
theorem get_carryOver (known : OrderedMap JsString V) (failed : List FailedRecord)
    (record : JsString) :
    (carryOver lastKnown known failed).get record =
      if ∃ failure ∈ failed, failure.record = record then
        (lastKnown.get record).or (known.get record)
      else known.get record := by
  unfold carryOver
  induction failed using List.reverseRecOn with
  | nil => simp
  | append_singleton failed failure ih =>
    rw [List.foldl_append, List.foldl_cons, List.foldl_nil]
    simp only [List.mem_append, List.mem_singleton, or_and_right, exists_or, exists_eq_left]
    cases hlast : lastKnown.get failure.record with
    | none =>
      simp only
      rw [ih]
      by_cases hrecord : failure.record = record
      · rw [← hrecord, hlast]
        simp
      · simp [hrecord]
    | some last =>
      simp only [OrderedMap.get_set]
      by_cases hrecord : failure.record = record
      · rw [← hrecord, hlast]
        simp
      · rw [if_neg (fun heq => hrecord heq.symm), ih]
        simp [hrecord]

end

/-- A grant is in a snapshot. -/
def PolicySnapshot.Holds (snapshot : PolicySnapshot) (grant : Grant) : Prop :=
  grant ∈ snapshot.grantsForSubjects [subjectToString grant.subject]

variable {grants : List Grant} {grant : Grant}

theorem holds_create {groups : List Group} {evaluator : ConditionEvaluator} :
    (PolicySnapshot.create grants groups evaluator).Holds grant ↔ grant ∈ grants := by
  unfold PolicySnapshot.Holds
  rw [grantsForSubjects_create]
  simp

variable {group : Group}

theorem mem_groupsForPrincipal {groups : List Group} {evaluator : ConditionEvaluator}
    (hgroup : group ∈ groups) {member : Principal} (hmember : member ∈ group.members) :
    group.name ∈ (PolicySnapshot.create grants groups evaluator).groupsForPrincipal
      (principalToString member) := by
  unfold PolicySnapshot.groupsForPrincipal PolicySnapshot.create
  simp only [getD_pushAll]
  refine List.mem_map.mpr ⟨(principalToString member, group.name), ?_, rfl⟩
  refine List.mem_filter.mpr ⟨?_, by simp⟩
  exact List.mem_flatMap.mpr ⟨group, hgroup, List.mem_map.mpr ⟨member, hmember, rfl⟩⟩

section

variable {V : Type} (parse : Json → Option V) (accessDataName : JsString)
  (listed : Except ListError (List DataItem × List SkippedRecord)) (record : JsString)

/-- The listing succeeds, and the record reads as this value and does not fail. -/
def ReadOnlyAs (v : V) : Prop :=
  ∃ items skipped, listed = .ok (items, skipped) ∧ ReadsAs parse accessDataName items record v ∧
    (∀ w, ReadsAs parse accessDataName items record w → w = v) ∧
    ¬ FailsIn parse accessDataName items skipped record

/-- Where the listing succeeds, the record is listed but fails. -/
def KeepsFailing : Prop :=
  ∀ items skipped, listed = .ok (items, skipped) →
    FailsIn parse accessDataName items skipped record ∧
      ∀ v, ¬ ReadsAs parse accessDataName items record v

end

/-- The grant records a build lists. -/
def BuildInput.grantRecords (input : BuildInput) :
    Except ListError (List DataItem × List SkippedRecord) :=
  findAllIncludingOrphaned input.grants input.orphanedGrants

/-- The group records a build lists. -/
def BuildInput.groupRecords (input : BuildInput) :
    Except ListError (List DataItem × List SkippedRecord) :=
  findAllIncludingOrphaned input.groups input.orphanedGroups

namespace PolicySnapshotLoader

section

variable {parseGrant : Json → Option Grant} {parseGroup : Json → Option Group}
  {evaluator : ConditionEvaluator} {self next : PolicySnapshotLoader} {input : BuildInput}

/-- **A build that ends well**: both listings succeed, and the next state is
assembled from what was read. -/
theorem buildSnapshot_ok
    (h : self.buildSnapshot parseGrant parseGroup evaluator input = .ok next) :
    ∃ grantItems skippedGrants groupItems skippedGroups,
      input.grantRecords = .ok (grantItems, skippedGrants) ∧
      input.groupRecords = .ok (groupItems, skippedGroups) ∧
      self.assemble evaluator
        (readItems parseGrant (js "grant-main") self.lastKnownGrants grantItems skippedGrants)
        (readItems parseGroup (js "group-main") self.lastKnownGroups groupItems skippedGroups) =
        .ok next := by
  unfold buildSnapshot at h
  split at h
  · cases h
  · cases h
  · rename_i grantItems skippedGrants groupItems skippedGroups hgrants hgroups
    exact ⟨grantItems, skippedGrants, groupItems, skippedGroups, hgrants, hgroups, h⟩

theorem assemble_ok {grants : ReadRecords Grant} {groups : ReadRecords Group}
    (h : self.assemble evaluator grants groups = .ok next) :
    next =
      { snapshot := PolicySnapshot.create
          (withoutAllowsToGroups
            (grants.read.filter (fun grant => grant.state = .active) ++ grants.failed.filterMap
              (fun failure => retainedUnreadableGrant (self.lastKnownGrants.get failure.record)))
            ((groups.failed.filterMap
              (fun failure => self.lastKnownGroups.get failure.record)).map Group.name))
          (groups.read ++ groups.failed.filterMap
            (fun failure => self.lastKnownGroups.get failure.record)) evaluator
        lastKnownGrants := carryOver self.lastKnownGrants grants.known grants.failed
        lastKnownGroups := carryOver self.lastKnownGroups groups.known groups.failed
        built := true } := by
  unfold assemble at h
  simp only at h
  split at h
  · cases h
  · exact (Except.ok.inj h).symm

/-- A deny is never among the allows to a group. -/
theorem mem_withoutAllows_of_deny {suspended : List JsString} (hdeny : grant.effect = .deny)
    (h : grant ∈ grants) : grant ∈ withoutAllowsToGroups grants suspended := by
  refine List.mem_filter.mpr ⟨h, ?_⟩
  simp [hdeny]

/-- What a build that reads a record knows of it. -/
theorem carryOver_of_read {V : Type} {parse : Json → Option V} {accessDataName : JsString}
    {lastKnown : OrderedMap JsString V} {items : List DataItem} {skipped : List SkippedRecord}
    {record : JsString} {v : V} (hreads : ReadsAs parse accessDataName items record v)
    (honly : ∀ w, ReadsAs parse accessDataName items record w → w = v)
    (hfails : ¬ FailsIn parse accessDataName items skipped record) :
    (carryOver lastKnown (readItems parse accessDataName lastKnown items skipped).known
      (readItems parse accessDataName lastKnown items skipped).failed).get record = some v := by
  rw [get_carryOver, if_neg, known_of_reads hreads honly]
  intro hex
  obtain ⟨failure, hfailure, hrecord⟩ := hex
  exact hfails (hrecord ▸ fails_of_failed hfailure)

theorem carryOver_of_fails {V : Type} {parse : Json → Option V} {accessDataName : JsString}
    {lastKnown : OrderedMap JsString V} {items : List DataItem} {skipped : List SkippedRecord}
    {record : JsString} {v : V} (hknown : lastKnown.get record = some v)
    (hfails : FailsIn parse accessDataName items skipped record) :
    (carryOver lastKnown (readItems parse accessDataName lastKnown items skipped).known
      (readItems parse accessDataName lastKnown items skipped).failed).get record = some v := by
  have hhas : lastKnown.has record = true := by
    unfold OrderedMap.has
    rw [hknown]
    rfl
  rw [get_carryOver, if_pos (failed_of_fails hhas hfails), hknown]
  rfl

/-- **The deny of a record that reads** is known and in the snapshot. -/
theorem deny_read {record : JsString}
    (h : self.buildSnapshot parseGrant parseGroup evaluator input = .ok next)
    (hread : ReadOnlyAs parseGrant (js "grant-main") input.grantRecords record grant)
    (hdeny : grant.effect = .deny) (hactive : grant.state = .active) :
    next.lastKnownGrants.get record = some grant ∧ next.snapshot.Holds grant := by
  obtain ⟨items, skipped, groupItems, skippedGroups, hgrants, -, hassemble⟩ := buildSnapshot_ok h
  obtain ⟨items', skipped', hlisted, hreads, honly, hfails⟩ := hread
  rw [hgrants] at hlisted
  cases hlisted
  rw [assemble_ok hassemble]
  refine ⟨carryOver_of_read hreads honly hfails, holds_create.mpr ?_⟩
  refine mem_withoutAllows_of_deny hdeny (List.mem_append_left _ ?_)
  exact List.mem_filter.mpr ⟨mem_read.mpr ⟨record, hreads⟩, by simpa using hactive⟩

/-- **One more build in which the record fails** keeps the deny. -/
theorem deny_kept {record : JsString} (hknown : self.lastKnownGrants.get record = some grant)
    (hholds : self.snapshot.Holds grant)
    (hfailing : KeepsFailing parseGrant (js "grant-main") input.grantRecords record)
    (hdeny : grant.effect = .deny) (hactive : grant.state = .active) :
    (self.build parseGrant parseGroup evaluator input).lastKnownGrants.get record = some grant ∧
      (self.build parseGrant parseGroup evaluator input).snapshot.Holds grant := by
  unfold build
  cases hbuild : self.buildSnapshot parseGrant parseGroup evaluator input with
  | error e => exact ⟨hknown, hholds⟩
  | ok next =>
    obtain ⟨items, skipped, groupItems, skippedGroups, hgrants, -, hassemble⟩ :=
      buildSnapshot_ok hbuild
    obtain ⟨hfails, -⟩ := hfailing items skipped hgrants
    have hhas : self.lastKnownGrants.has record = true := by
      unfold OrderedMap.has
      rw [hknown]
      rfl
    obtain ⟨failure, hfailure, hrecord⟩ := failed_of_fails hhas hfails
    simp only
    rw [assemble_ok hassemble]
    refine ⟨carryOver_of_fails hknown hfails, holds_create.mpr ?_⟩
    refine mem_withoutAllows_of_deny hdeny (List.mem_append_right _ ?_)
    refine List.mem_filterMap.mpr ⟨failure, hfailure, ?_⟩
    rw [hrecord, hknown]
    simp [retainedUnreadableGrant, hdeny, hactive]

/-- **The members of a group record that reads** are known. -/
theorem group_read {record : JsString}
    (h : self.buildSnapshot parseGrant parseGroup evaluator input = .ok next)
    (hread : ReadOnlyAs parseGroup (js "group-main") input.groupRecords record group) :
    next.lastKnownGroups.get record = some group := by
  obtain ⟨items, skipped, groupItems, skippedGroups, -, hgroups, hassemble⟩ := buildSnapshot_ok h
  obtain ⟨items', skipped', hlisted, hreads, honly, hfails⟩ := hread
  rw [hgroups] at hlisted
  cases hlisted
  rw [assemble_ok hassemble]
  exact carryOver_of_read hreads honly hfails

/-- **One more build in which the group record fails** keeps its members known. -/
theorem group_kept {record : JsString} (hknown : self.lastKnownGroups.get record = some group)
    (hfailing : KeepsFailing parseGroup (js "group-main") input.groupRecords record) :
    (self.build parseGrant parseGroup evaluator input).lastKnownGroups.get record = some group := by
  unfold build
  cases hbuild : self.buildSnapshot parseGrant parseGroup evaluator input with
  | error e => exact hknown
  | ok next =>
    obtain ⟨items, skipped, groupItems, skippedGroups, -, hgroups, hassemble⟩ :=
      buildSnapshot_ok hbuild
    obtain ⟨hfails, -⟩ := hfailing groupItems skippedGroups hgroups
    simp only
    rw [assemble_ok hassemble]
    exact carryOver_of_fails hknown hfails

end

section

variable (parseGrant : Json → Option Grant) (parseGroup : Json → Option Group)
  (evaluator : ConditionEvaluator) (self : PolicySnapshotLoader)

/-- **Last-known denies survive unreadable records.**  From whatever state
earlier builds left the loader in:

* a grant that a build reads as an active deny is in its snapshot, and in that of
  every later state while the record fails in every build that can list, whatever
  else happens to builds and records in between;
* an allow in a build's snapshot was read by that build;
* when a group record fails whose members are known, no allow to the group is in
  the snapshot, and the members still are; they are those of the last build that
  read the record;
* a build that fails leaves the snapshot and what is known as they were. -/
theorem denies_survive :
    (∀ input next record grant,
      self.buildSnapshot parseGrant parseGroup evaluator input = .ok next →
      ReadOnlyAs parseGrant (js "grant-main") input.grantRecords record grant →
      grant.effect = .deny → grant.state = .active →
      ∀ later, (∀ failing ∈ later,
        KeepsFailing parseGrant (js "grant-main") failing.grantRecords record) →
        (next.builds parseGrant parseGroup evaluator later).snapshot.Holds grant) ∧
    (∀ input next grant, self.buildSnapshot parseGrant parseGroup evaluator input = .ok next →
      next.snapshot.Holds grant → grant.effect = .allow →
      ∃ items skipped record, input.grantRecords = .ok (items, skipped) ∧
        ReadsAs parseGrant (js "grant-main") items record grant) ∧
    (∀ input next record group,
      self.buildSnapshot parseGrant parseGroup evaluator input = .ok next →
      self.lastKnownGroups.get record = some group →
      KeepsFailing parseGroup (js "group-main") input.groupRecords record →
      (∀ grant, next.snapshot.Holds grant → grant.effect = .allow →
        grant.subject ≠ ⟨.group, group.name⟩) ∧
      ∀ member ∈ group.members,
        group.name ∈ next.snapshot.groupsForPrincipal (principalToString member)) ∧
    (∀ input next record group,
      self.buildSnapshot parseGrant parseGroup evaluator input = .ok next →
      ReadOnlyAs parseGroup (js "group-main") input.groupRecords record group →
      ∀ later, (∀ failing ∈ later,
        KeepsFailing parseGroup (js "group-main") failing.groupRecords record) →
        (next.builds parseGrant parseGroup evaluator later).lastKnownGroups.get record =
          some group) ∧
    (∀ input e, self.buildSnapshot parseGrant parseGroup evaluator input = .error e →
      self.build parseGrant parseGroup evaluator input = self) := by
  refine ⟨?_, ?_, ?_, ?_, ?_⟩
  · intro input next record grant hbuild hread hdeny hactive later hfailing
    obtain ⟨hknown, hholds⟩ := deny_read hbuild hread hdeny hactive
    unfold builds
    clear hbuild hread
    induction later generalizing next with
    | nil => exact hholds
    | cons failing later ih =>
      obtain ⟨hfirst, hrest⟩ := List.forall_mem_cons.mp hfailing
      obtain ⟨hknown', hholds'⟩ := deny_kept hknown hholds hfirst hdeny hactive
      exact ih _ hrest hknown' hholds'
  · intro input next grant hbuild hholds hallow
    obtain ⟨items, skipped, groupItems, skippedGroups, hgrants, -, hassemble⟩ :=
      buildSnapshot_ok hbuild
    rw [assemble_ok hassemble, holds_create] at hholds
    refine ⟨items, skipped, ?_⟩
    rcases List.mem_append.mp (List.mem_filter.mp hholds).1 with hread | hkept
    · obtain ⟨record, hreads⟩ := mem_read.mp (List.mem_filter.mp hread).1
      exact ⟨record, hgrants, hreads⟩
    · -- A grant that was kept is a deny.
      obtain ⟨failure, -, hretained⟩ := List.mem_filterMap.mp hkept
      unfold retainedUnreadableGrant at hretained
      obtain ⟨-, hdeny⟩ := Option.filter_eq_some_iff.mp hretained
      simp [hallow] at hdeny
  · intro input next record group hbuild hknown hfailing
    obtain ⟨items, skipped, groupItems, skippedGroups, -, hgroups, hassemble⟩ :=
      buildSnapshot_ok hbuild
    obtain ⟨hfails, -⟩ := hfailing groupItems skippedGroups hgroups
    have hhas : self.lastKnownGroups.has record = true := by
      unfold OrderedMap.has
      rw [hknown]
      rfl
    obtain ⟨failure, hfailure, hrecord⟩ := failed_of_fails hhas hfails
    have hkept : group ∈ (readItems parseGroup (js "group-main") self.lastKnownGroups groupItems
        skippedGroups).failed.filterMap
          (fun failure => self.lastKnownGroups.get failure.record) :=
      List.mem_filterMap.mpr ⟨failure, hfailure, hrecord ▸ hknown⟩
    rw [assemble_ok hassemble]
    constructor
    · intro grant hholds hallow hsubject
      have hfilter := (List.mem_filter.mp (holds_create.mp hholds)).2
      simp only [decide_not, Bool.not_eq_true', decide_eq_false_iff_not] at hfilter
      refine hfilter ⟨hallow, ?_, ?_⟩
      · rw [hsubject]
      · rw [hsubject]
        exact List.mem_map.mpr ⟨group, hkept, rfl⟩
    · intro member hmember
      exact mem_groupsForPrincipal (List.mem_append_right _ hkept) hmember
  · intro input next record group hbuild hread later hfailing
    have hknown := group_read hbuild hread
    unfold builds
    clear hbuild hread
    induction later generalizing next with
    | nil => exact hknown
    | cons failing later ih =>
      obtain ⟨hfirst, hrest⟩ := List.forall_mem_cons.mp hfailing
      exact ih _ hrest (group_kept hknown hfirst)
  · intro input e hbuild
    unfold build
    rw [hbuild]

end

end PolicySnapshotLoader

end Swamp.Access
