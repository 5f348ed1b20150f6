import Swamp.PartitionSound

/-!
# Snapshots of a partition

A snapshot leaves out the txnIds of the commits a partition applied; `restore`
takes a lookup for them instead and checks everything else anew.
-/

namespace Swamp

open Js MapOverlay

/-- One data name of a snapshot; `removed` is left out when it is empty. -/
structure DataNameSnapshot where
  name : JsString
  live : List ℕ
  highWater : ℕ
  removed : Option (List RangeSet.Range)

/-- What a snapshot holds. -/
structure PartitionSnapshot where
  partition : JsString
  seq : ℕ
  highestFence : Option ℕ
  leaseFence : Option ℕ
  leaseHolder : Option JsString
  records : List (JsString × JsString)
  names : List DataNameSnapshot

/-- The snapshot of one data name. -/
def DataName.snapshot (self : DataName) (name : JsString) : DataNameSnapshot where
  name := name
  live := self.live.sort
  highWater := self.highWater
  removed := if self.removed.isEmpty then none else some self.removed.ranges

/-- `snapshot`: records and names in the order of their texts. -/
def Partition.snapshot (self : Partition) : PartitionSnapshot where
  partition := self.key.value
  seq := self.seq
  highestFence := self.highestFence.map Fence.val
  leaseFence := self.leaseFence.map Fence.val
  leaseHolder := self.leaseHolder
  records := (sortedEntries self.records).map (fun (key, sha) => (key.value, sha.value))
  names := (sortedEntries self.names).map (fun (name, entry) => entry.snapshot name)

/-- A field that may be left out. -/
def optionalField (name : String) (value : Option Json) : List (JsString × Json) :=
  match value with
  | some v => [(js name, v)]
  | none => []

/-- The fields of one data name. -/
def DataNameSnapshot.fields (self : DataNameSnapshot) : List (JsString × Json) :=
  [(js "name", .str self.name), (js "live", .arr (self.live.map Json.ofNat)),
    (js "highWater", Json.ofNat self.highWater)] ++
    optionalField "removed" (self.removed.map (fun ranges =>
      .arr (ranges.map (fun r => .arr [Json.ofNat r.1, Json.ofNat r.2]))))

/-- The JSON of one data name. -/
def DataNameSnapshot.toJson (self : DataNameSnapshot) : Json := .obj self.fields

/-- The fields of a snapshot. -/
def PartitionSnapshot.fields (self : PartitionSnapshot) : List (JsString × Json) :=
  [(js "v", Json.ofNat 1), (js "partition", .str self.partition),
    (js "seq", Json.ofNat self.seq)] ++
    optionalField "highestFence" (self.highestFence.map Json.ofNat) ++
    optionalField "leaseFence" (self.leaseFence.map Json.ofNat) ++
    optionalField "leaseHolder" (self.leaseHolder.map Json.str) ++
    [(js "records", .arr (self.records.map (fun (key, sha) => .arr [.str key, .str sha]))),
     (js "names", .arr (self.names.map DataNameSnapshot.toJson))]

/-- The JSON of a snapshot. -/
def PartitionSnapshot.toJson (self : PartitionSnapshot) : Json := .obj self.fields

/-- Why a value is no snapshot of a partition, in the order of the checks. -/
inductive SnapshotError where
  | notObject
  | unknownField (field : JsString)
  | unsupportedVersion (v : Option Json)
  | otherPartition (partition : Option Json)
  | seqNotInteger
  | fenceNotInteger (fence : Json)
  | leaseHolderNotText
  | holderWithoutFence
  | recordsNotArray
  | recordNotPair
  | recordKey (error : RecordKeyError)
  | recordTwice (key : RecordKey)
  | namesNotArray
  | nameNotObject
  | nameUnknownField (field : JsString)
  | nameMissingOrTwice
  | highWaterNotInteger (name : JsString)
  | liveNotVersions (name : JsString)
  | removedNotRanges (name : JsString)
  | removedRange (name : JsString) (range : List Json)
  | removedOutOfBounds (name : JsString)

/-- The fields of a snapshot. -/
def SNAPSHOT_FIELDS : List JsString :=
  [js "v", js "partition", js "seq", js "highestFence", js "leaseFence", js "leaseHolder",
    js "records", js "names"]

/-- The fields of one data name. -/
def NAME_FIELDS : List JsString := [js "name", js "live", js "highWater", js "removed"]

/-- The keys and values of an object.  An array is one, keyed by its indexes. -/
def objectFields : Json → Option (List (JsString × Json))
  | .obj fields => some fields
  | .arr items => some (items.zipIdx.map (fun (item, i) => (decimal i, item)))
  | _ => none

/-- A fence that may be left out. -/
def readFence : Option Json → Except SnapshotError (Option Fence)
  | none => .ok none
  | some value =>
    match h : value.safeNat with
    | some n => .ok (some ⟨n, Json.safeNat_le h⟩)
    | none => .error (.fenceNotInteger value)

/-- A lease holder that may be left out. -/
def readLeaseHolder : Option Json → Except SnapshotError (Option JsString)
  | none => .ok none
  | some (.str holder) => if holder = [] then .error .leaseHolderNotText else .ok (some holder)
  | some _ => .error .leaseHolderNotText

/-- Read one record. -/
def readRecord (records : Finmap (fun _ : RecordKey => Sha256)) (entry : Json) :
    Except SnapshotError (Finmap (fun _ : RecordKey => Sha256)) :=
  match entry with
  | .arr [.str text, .str sha] =>
    if hex : isSha256Hex sha then
      match RecordKey.create text with
      | .error e => .error (.recordKey e)
      | .ok key =>
        if (records.lookup key).isSome then .error (.recordTwice key)
        else .ok (records.insert key ⟨sha, hex⟩)
    else .error .recordNotPair
  | _ => .error .recordNotPair

/-- A high-water mark. -/
def readHighWater : Option Json → Option ℕ
  | some value =>
    match value.safeNat with
    | some n => if 1 ≤ n then some n else none
    | none => none
  | none => none

/-- Live versions: distinct, positive and up to the high-water mark. -/
def readLive (highWater : ℕ) : Option Json → Option (List ℕ)
  | some (.arr items) =>
    match items.mapM Json.safeNat with
    | some live => if (∀ v ∈ live, 1 ≤ v ∧ v ≤ highWater) ∧ live.Nodup then some live else none
    | none => none
  | _ => none

/-- The ranges of an array of arrays. -/
def rangesOf (items : List Json) : Option (List (List Json)) :=
  items.mapM (fun item =>
    match item with
    | .arr range => some range
    | _ => none)

/-- Removed versions, which may be left out. -/
def readRemoved (name : JsString) (live : List ℕ) (highWater : ℕ) :
    Option Json → Except SnapshotError VersionRanges
  | none => .ok VersionRanges.EMPTY
  | some (.arr items) =>
    match rangesOf items with
    | none => .error (.removedNotRanges name)
    | some ranges =>
      match VersionRanges.of ranges with
      | .error range => .error (.removedRange name range)
      | .ok removed =>
        if highWater < removed.max ∨ ∃ v ∈ live, removed.has v = true then
          .error (.removedOutOfBounds name)
        else .ok removed
  | some _ => .error (.removedNotRanges name)

/-- Read one data name. -/
def readName (names : Finmap (fun _ : JsString => DataName)) (entry : Json) :
    Except SnapshotError (Finmap (fun _ : JsString => DataName)) :=
  match objectFields entry with
  | none => .error .nameNotObject
  | some fields =>
    match (fields.map Prod.fst).find? (fun field => !NAME_FIELDS.contains field) with
    | some field => .error (.nameUnknownField field)
    | none =>
      match Json.field fields (js "name") with
      | some (.str name) =>
        if (names.lookup name).isSome then .error .nameMissingOrTwice
        else
          match readHighWater (Json.field fields (js "highWater")) with
          | none => .error (.highWaterNotInteger name)
          | some highWater =>
            match readLive highWater (Json.field fields (js "live")) with
            | none => .error (.liveNotVersions name)
            | some live => do
                let removed ←
                  readRemoved name live highWater (Json.field fields (js "removed"))
                return names.insert name ⟨live.toFinset, highWater, removed⟩
      | _ => .error .nameMissingOrTwice

/-- The fields of a snapshot, all of them known. -/
def readFields : Json → Except SnapshotError (List (JsString × Json))
  | .obj fields =>
    match (fields.map Prod.fst).find? (fun field => !SNAPSHOT_FIELDS.contains field) with
    | some field => .error (.unknownField field)
    | none => .ok fields
  | _ => .error .notObject

/-- The version of the format is 1. -/
def checkVersion (v : Option Json) : Except SnapshotError Unit :=
  match v with
  | some (.num n) => if n = 1 then .ok () else .error (.unsupportedVersion v)
  | _ => .error (.unsupportedVersion v)

/-- The snapshot is of this partition. -/
def checkPartition (key : PartitionKey) (partition : Option Json) : Except SnapshotError Unit :=
  match partition with
  | some (.str text) => if text = key.value then .ok () else .error (.otherPartition partition)
  | _ => .error (.otherPartition partition)

/-- The seq, a non-negative integer. -/
def readSeq : Option Json → Except SnapshotError ℕ
  | some value =>
    match value.safeNat with
    | some seq => .ok seq
    | none => .error .seqNotInteger
  | none => .error .seqNotInteger

/-- A lease op always sets the lease fence, so a holder implies one. -/
def checkHolder (leaseFence : Option Fence) (leaseHolder : Option JsString) :
    Except SnapshotError Unit :=
  if leaseHolder ≠ none ∧ leaseFence = none then .error .holderWithoutFence else .ok ()

/-- The records, none twice. -/
def readRecords : Option Json → Except SnapshotError (Finmap (fun _ : RecordKey => Sha256))
  | some (.arr entries) => entries.foldlM readRecord ∅
  | _ => .error .recordsNotArray

/-- The data names, none twice. -/
def readNames : Option Json → Except SnapshotError (Finmap (fun _ : JsString => DataName))
  | some (.arr entries) => entries.foldlM readName ∅
  | _ => .error .namesNotArray

/-- `Partition.restore`. -/
def Partition.restore (key : PartitionKey) (value : Json) (priorTxn : JsString → Bool) :
    Except SnapshotError Partition := do
  let fields ← readFields value
  checkVersion (Json.field fields (js "v"))
  checkPartition key (Json.field fields (js "partition"))
  let seq ← readSeq (Json.field fields (js "seq"))
  let highestFence ← readFence (Json.field fields (js "highestFence"))
  let leaseFence ← readFence (Json.field fields (js "leaseFence"))
  let leaseHolder ← readLeaseHolder (Json.field fields (js "leaseHolder"))
  checkHolder leaseFence leaseHolder
  let records ← readRecords (Json.field fields (js "records"))
  let names ← readNames (Json.field fields (js "names"))
  return { key, seq, highestFence, leaseFence, leaseHolder, txnIds := ∅, priorTxn, records, names }

/-- A check that passes is followed by the next. -/
private theorem ok_bind {α β E : Type} (a : α) (f : α → Except E β) :
    (Except.ok a >>= f) = f a := rfl

namespace PartitionSnapshot

variable (s : PartitionSnapshot)

theorem readFields_toJson : readFields s.toJson = .ok s.fields := by
  obtain ⟨partition, seq, highestFence, leaseFence, leaseHolder, records, names⟩ := s
  cases highestFence with
  | none | some f => cases leaseFence <;> cases leaseHolder <;> rfl

theorem field_highestFence :
    Json.field s.fields (js "highestFence") = s.highestFence.map Json.ofNat := by
  obtain ⟨partition, seq, highestFence, leaseFence, leaseHolder, records, names⟩ := s
  cases highestFence with
  | none => cases leaseFence <;> cases leaseHolder <;> rfl
  | some f => rfl

theorem field_leaseFence :
    Json.field s.fields (js "leaseFence") = s.leaseFence.map Json.ofNat := by
  obtain ⟨partition, seq, highestFence, leaseFence, leaseHolder, records, names⟩ := s
  cases highestFence <;> cases leaseFence <;> cases leaseHolder <;> rfl

theorem field_leaseHolder :
    Json.field s.fields (js "leaseHolder") = s.leaseHolder.map Json.str := by
  obtain ⟨partition, seq, highestFence, leaseFence, leaseHolder, records, names⟩ := s
  cases highestFence <;> cases leaseFence <;> cases leaseHolder <;> rfl

theorem field_records :
    Json.field s.fields (js "records") =
      some (.arr (s.records.map (fun (key, sha) => .arr [.str key, .str sha]))) := by
  obtain ⟨partition, seq, highestFence, leaseFence, leaseHolder, records, names⟩ := s
  cases highestFence <;> cases leaseFence <;> cases leaseHolder <;> rfl

theorem field_names :
    Json.field s.fields (js "names") = some (.arr (s.names.map DataNameSnapshot.toJson)) := by
  obtain ⟨partition, seq, highestFence, leaseFence, leaseHolder, records, names⟩ := s
  cases highestFence <;> cases leaseFence <;> cases leaseHolder <;> rfl

end PartitionSnapshot

theorem readFence_val (fence : Option Fence) :
    readFence ((fence.map Fence.val).map Json.ofNat) = .ok fence := by
  cases fence with
  | none => rfl
  | some f =>
    simp only [Option.map_some, readFence]
    split
    · rename_i n h
      rw [Json.safeNat_ofNat f.safe] at h
      cases h
      rfl
    · rename_i h
      rw [Json.safeNat_ofNat f.safe] at h
      cases h

theorem readRecord_entry (records : Finmap (fun _ : RecordKey => Sha256)) (key : RecordKey)
    (sha : Sha256) (hfresh : records.lookup key = none) :
    readRecord records (.arr [.str key.value, .str sha.value]) = .ok (records.insert key sha) := by
  simp only [readRecord, sha.hex, dif_pos, RecordKey.create_value, hfresh, Option.isSome_none,
    Bool.false_eq_true, if_false]

private theorem foldlM_entries {K V E : Type*} [DecidableEq K]
    (read : Finmap (fun _ : K => V) → Json → Except E (Finmap (fun _ : K => V)))
    (write : K × V → Json) (entries : List (K × V)) (m : Finmap (fun _ : K => V))
    (hread : ∀ e ∈ entries, ∀ m : Finmap (fun _ : K => V), m.lookup e.1 = none →
      read m (write e) = .ok (m.insert e.1 e.2))
    (hnodup : (entries.map Prod.fst).Nodup)
    (hfresh : ∀ e ∈ entries, m.lookup e.1 = none) :
    (entries.map write).foldlM read m = .ok (entries.foldl (fun m e => m.insert e.1 e.2) m) := by
  induction entries generalizing m with
  | nil => rfl
  | cons e entries ih =>
    have hcons := List.nodup_cons.mp hnodup
    rw [List.map_cons, List.foldlM_cons,
      hread e List.mem_cons_self m (hfresh e List.mem_cons_self), List.foldl_cons]
    refine ih _ (fun e' he' => hread e' (List.mem_cons_of_mem _ he')) hcons.2 ?_
    intro e' he'
    have hne : e'.1 ≠ e.1 := by
      intro heq
      exact hcons.1 (List.mem_map.mpr ⟨e', he', heq⟩)
    rw [Finmap.lookup_insert_of_ne _ hne]
    exact hfresh e' (List.mem_cons_of_mem _ he')

theorem readRecords_snapshot (p : Partition) :
    readRecords (some (.arr (p.snapshot.records.map (fun (key, sha) => .arr [.str key, .str sha]))))
      = .ok p.records := by
  have hentries : p.snapshot.records.map (fun (key, sha) => Json.arr [.str key, .str sha]) =
      (sortedEntries p.records).map
        (fun e => Json.arr [.str e.1.value, .str e.2.value]) := by
    simp [Partition.snapshot]
  rw [hentries, readRecords, foldlM_entries readRecord _ (sortedEntries p.records) ∅
    (fun e _ m hm => readRecord_entry m e.1 e.2 hm) (sortedEntries_nodup p.records) (by simp)]
  exact congrArg Except.ok (ofEntries_sortedEntries p.records)

namespace DataNameSnapshot

variable (s : DataNameSnapshot)

theorem no_unknown_field :
    (s.fields.map Prod.fst).find? (fun field => !NAME_FIELDS.contains field) = none := by
  obtain ⟨name, live, highWater, removed⟩ := s
  cases removed with
  | none | some ranges => rfl

theorem field_removed :
    Json.field s.fields (js "removed") =
      s.removed.map (fun ranges =>
        .arr (ranges.map (fun r => .arr [Json.ofNat r.1, Json.ofNat r.2]))) := by
  obtain ⟨name, live, highWater, removed⟩ := s
  cases removed with
  | none | some ranges => rfl

end DataNameSnapshot

theorem mapM_safeNat_ofNat {live : List ℕ} (h : ∀ v ∈ live, v ≤ maxSafeInteger) :
    (live.map Json.ofNat).mapM Json.safeNat = some live := by
  induction live with
  | nil => rfl
  | cons v live ih =>
    rw [List.map_cons, List.mapM_cons, Json.safeNat_ofNat (h v List.mem_cons_self),
      ih (fun w hw => h w (List.mem_cons_of_mem _ hw))]
    rfl

variable {d : DataName}

theorem readLive_sort (h : d.Sound) :
    readLive d.highWater (some (.arr (d.live.sort.map Json.ofNat))) = some d.live.sort := by
  have hsafe : ∀ v ∈ d.live.sort, v ≤ maxSafeInteger := by
    intro v hv
    exact le_trans (h.live_le v ((Finset.mem_sort _).mp hv)) h.safe
  have hbounds : (∀ v ∈ d.live.sort, 1 ≤ v ∧ v ≤ d.highWater) ∧ d.live.sort.Nodup := by
    refine ⟨?_, Finset.sort_nodup _ _⟩
    intro v hv
    have hmem := (Finset.mem_sort _).mp hv
    exact ⟨h.live_pos v hmem, h.live_le v hmem⟩
  rw [readLive, mapM_safeNat_ofNat hsafe]
  exact if_pos hbounds

theorem rangesOf_toJson (removed : VersionRanges) :
    rangesOf (removed.ranges.map (fun r => .arr [Json.ofNat r.1, Json.ofNat r.2])) =
      some removed.toJson := by
  unfold rangesOf VersionRanges.toJson
  induction removed.ranges with
  | nil => rfl
  | cons r ranges ih =>
    rw [List.map_cons, List.mapM_cons, ih]
    rfl

theorem readRemoved_snapshot (h : d.Sound) (name : JsString) :
    readRemoved name d.live.sort d.highWater
      ((d.snapshot name).removed.map (fun ranges =>
        .arr (ranges.map (fun r => .arr [Json.ofNat r.1, Json.ofNat r.2])))) = .ok d.removed := by
  simp only [DataName.snapshot]
  cases hempty : d.removed.isEmpty with
  | true =>
    have hnone := (VersionRanges.isEmpty_iff _).mp hempty
    have heq : d.removed = VersionRanges.EMPTY :=
      VersionRanges.ext_mem (fun n => iff_of_false (hnone n) (VersionRanges.not_mem_EMPTY n))
    rw [heq]
    rfl
  | false =>
    have hbounds : ¬ (d.highWater < d.removed.max ∨
        ∃ v ∈ d.live.sort, d.removed.has v = true) := by
      rintro (hmax | ⟨v, hlive, hremoved⟩)
      · exact absurd (VersionRanges.max_le h.removed_le) (Nat.not_le.mpr hmax)
      · exact h.disjoint v hremoved ((Finset.mem_sort _).mp hlive)
    simp only [Bool.false_eq_true, if_false, Option.map_some, readRemoved, rangesOf_toJson,
      VersionRanges.of_toJson]
    exact if_neg hbounds

theorem readName_entry (names : Finmap (fun _ : JsString => DataName)) (name : JsString)
    (hd : d.Sound) (hwritten : 1 ≤ d.highWater) (hfresh : names.lookup name = none) :
    readName names (d.snapshot name).toJson = .ok (names.insert name d) := by
  have hname : Json.field (d.snapshot name).fields (js "name") = some (.str name) := rfl
  have hmark : readHighWater (Json.field (d.snapshot name).fields (js "highWater")) =
      some d.highWater := by
    have hfield : Json.field (d.snapshot name).fields (js "highWater") =
        some (Json.ofNat d.highWater) := rfl
    simp only [hfield, readHighWater, Json.safeNat_ofNat hd.safe, hwritten, if_true]
  have hlive : Json.field (d.snapshot name).fields (js "live") =
      some (.arr (d.live.sort.map Json.ofNat)) := rfl
  have hset : (⟨d.live.sort.toFinset, d.highWater, d.removed⟩ : DataName) = d := by
    rw [Finset.sort_toFinset]
  simp only [readName, DataNameSnapshot.toJson, objectFields, DataNameSnapshot.no_unknown_field,
    hname, hfresh, Option.isSome_none, Bool.false_eq_true, if_false, hmark, hlive,
    readLive_sort hd, DataNameSnapshot.field_removed, readRemoved_snapshot hd name, ok_bind, hset]
  rfl

theorem readNames_snapshot {p : Partition} (h : p.Sound) :
    readNames (some (.arr (p.snapshot.names.map DataNameSnapshot.toJson))) = .ok p.names := by
  have hentries : p.snapshot.names.map DataNameSnapshot.toJson =
      (sortedEntries p.names).map (fun e => (e.2.snapshot e.1).toJson) := by
    simp [Partition.snapshot]
  have hread : ∀ e ∈ sortedEntries p.names, ∀ m : Finmap (fun _ : JsString => DataName),
      m.lookup e.1 = none → readName m (e.2.snapshot e.1).toJson = .ok (m.insert e.1 e.2) := by
    rintro ⟨name, d⟩ he m hm
    obtain ⟨hd, hwritten⟩ := h.names name d (mem_sortedEntries.mp he)
    exact readName_entry m name hd hwritten hm
  rw [hentries, readNames, foldlM_entries readName _ (sortedEntries p.names) ∅ hread
    (sortedEntries_nodup p.names) (by simp)]
  exact congrArg Except.ok (ofEntries_sortedEntries p.names)

/-- **A sound partition's snapshot restores it**, its txnIds replaced by the
lookup. -/
theorem restore_snapshot {p : Partition} (h : p.Sound) (priorTxn : JsString → Bool) :
    Partition.restore p.key p.snapshot.toJson priorTxn =
      .ok { p with txnIds := ∅, priorTxn := priorTxn } := by
  have hversion : checkVersion (Json.field p.snapshot.fields (js "v")) = .ok () := rfl
  have hpartition : checkPartition p.key (Json.field p.snapshot.fields (js "partition")) = .ok () :=
    if_pos rfl
  have hseq : readSeq (Json.field p.snapshot.fields (js "seq")) = .ok p.seq := by
    have hfield : Json.field p.snapshot.fields (js "seq") = some (Json.ofNat p.seq) := rfl
    simp only [hfield, readSeq, Json.safeNat_ofNat h.seq_safe]
  have hhighest : readFence (Json.field p.snapshot.fields (js "highestFence")) =
      .ok p.highestFence := by
    rw [PartitionSnapshot.field_highestFence]
    exact readFence_val p.highestFence
  have hlease : readFence (Json.field p.snapshot.fields (js "leaseFence")) = .ok p.leaseFence := by
    rw [PartitionSnapshot.field_leaseFence]
    exact readFence_val p.leaseFence
  have hholder : readLeaseHolder (Json.field p.snapshot.fields (js "leaseHolder")) =
      .ok p.leaseHolder := by
    rw [PartitionSnapshot.field_leaseHolder]
    change readLeaseHolder (p.leaseHolder.map Json.str) = .ok p.leaseHolder
    have hne := h.holder_ne
    cases hp : p.leaseHolder with
    | none => rfl
    | some holder =>
      rw [hp] at hne
      exact if_neg (fun hempty => hne (congrArg some hempty))
  have hcheck : checkHolder p.leaseFence p.leaseHolder = .ok () :=
    if_neg (fun hbad => h.holder_fence hbad.1 hbad.2)
  simp only [Partition.restore, PartitionSnapshot.readFields_toJson, hversion, hpartition, hseq,
    hhighest, hlease, hholder, hcheck, PartitionSnapshot.field_records, readRecords_snapshot,
    PartitionSnapshot.field_names, readNames_snapshot h, ok_bind]
  rfl

end Swamp
