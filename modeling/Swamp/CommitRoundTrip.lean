import Mathlib.Data.List.Sort
import Swamp.Rereading

/-!
# Commits read back

Every commit `Commit.create` built is read back from what it is written as, and
so is every commit that was read.  The factories check and normalize, so this is
no law of the encoder alone: what a factory made once, it makes again.
-/

namespace Js

namespace Json

theorem fromEntries_perm {α : Type} (entries : List (JsString × α)) :
    (fromEntries entries).Perm entries := by
  unfold fromEntries
  apply ((List.perm_insertionSort _ _).append_right _).trans
  exact List.filter_append_perm _ entries

theorem entries_of_nodup {fields : List (JsString × Json)}
    (h : (fields.map Prod.fst).Nodup) : entries fields = fields := by
  rw [entries, h.dedup, List.filterMap_map]
  conv_rhs => rw [← List.filterMap_some (l := fields)]
  apply List.filterMap_congr
  intro entry hentry
  rw [Function.comp_apply, field, OrderedMap.lookup_of_mem h hentry]
  rfl

/-- An object has each name once. -/
theorem entries_nodup (fields : List (JsString × Json)) :
    ((entries fields).map Prod.fst).Nodup := by
  have hsublist : ∀ names : List JsString,
      ((names.filterMap (fun name => (field fields name).map (fun value => (name, value)))).map
        Prod.fst).Sublist names := by
    intro names
    induction names with
    | nil => exact List.Sublist.slnil
    | cons name names ih =>
      cases hfield : field fields name with
      | none =>
        rw [List.filterMap_cons_none (by rw [hfield]; rfl)]
        exact ih.cons name
      | some value =>
        rw [List.filterMap_cons_some (by rw [hfield]; rfl)]
        exact ih.cons_cons name
  exact (List.nodup_dedup _).sublist (hsublist _)

end Json

end Js

namespace Swamp

open Js ExceptRules

/-- A tag as it is written. -/
def tagJSON (tag : JsString × JsString) : JsString × Json := (tag.1, .str tag.2)

variable {tags : List (JsString × JsString)}

theorem mapM_readStr {entries : List (JsString × Json)}
    (h : entries.mapM (fun entry => (readStr (some entry.2)).map (fun text => (entry.1, text))) =
      some tags) : entries = tags.map tagJSON := by
  induction entries generalizing tags with
  | nil =>
    cases h
    rfl
  | cons entry entries ih =>
    rw [List.mapM_cons] at h
    obtain ⟨tag, htag, h⟩ := Option.bind_eq_some_iff.mp h
    obtain ⟨rest, hrest, h⟩ := Option.bind_eq_some_iff.mp h
    cases h
    obtain ⟨text, htext, rfl⟩ := Option.map_eq_some_iff.mp htag
    obtain ⟨name, value⟩ := entry
    cases value with
    | str found =>
      cases htext
      rw [List.map_cons, ih hrest]
      rfl
    | _ => cases htext

theorem mapM_tagJSON (tags : List (JsString × JsString)) :
    (tags.map tagJSON).mapM
      (fun entry => (readStr (some entry.2)).map (fun text => (entry.1, text))) = some tags := by
  induction tags with
  | nil => rfl
  | cons tag tags ih =>
    rw [List.map_cons, List.mapM_cons, ih]
    rfl

/-- What a record of tags satisfies, in any order. -/
structure TagRecord (tags : List (JsString × JsString)) : Prop where
  nodup : (tags.map Prod.fst).Nodup
  few : tags.length ≤ MAX_DATA_TAGS
  proto : js "__proto__" ∉ tags.map Prod.fst
  type : tags.any (fun tag => tag.1 = js "type") = true

theorem TagRecord.perm {other : List (JsString × JsString)} (h : TagRecord tags)
    (hperm : other.Perm tags) : TagRecord other where
  nodup := (hperm.map Prod.fst).nodup_iff.mpr h.nodup
  few := hperm.length_eq ▸ h.few
  proto := fun hmem => h.proto ((hperm.map Prod.fst).mem_iff.mp hmem)
  type := by
    obtain ⟨tag, htag, hname⟩ := List.any_eq_true.mp h.type
    exact List.any_eq_true.mpr ⟨tag, hperm.mem_iff.mpr htag, hname⟩

theorem map_fst_tagJSON (tags : List (JsString × JsString)) :
    (tags.map tagJSON).map Prod.fst = tags.map Prod.fst := by
  rw [List.map_map]
  rfl

variable {value : Option Json}

theorem readTags_ok (h : readTags value = some tags) : TagRecord tags := by
  obtain ⟨fields, -, h⟩ := Option.bind_eq_some_iff.mp h
  simp only at h
  split at h
  · cases h
  · rename_i hfew
    obtain ⟨read, hread, h⟩ := Option.bind_eq_some_iff.mp h
    split at h
    · rename_i htype
      cases h
      have hkept := mapM_readStr hread
      have hnames : ((Json.entries fields).filter
          (fun entry => entry.1 ≠ js "__proto__")).map Prod.fst = tags.map Prod.fst := by
        rw [hkept, map_fst_tagJSON]
      refine ⟨?_, ?_, ?_, htype⟩
      · rw [← hnames]
        exact (Json.entries_nodup fields).sublist (List.filter_sublist.map Prod.fst)
      · have hlength := congrArg List.length hnames
        rw [List.length_map, List.length_map] at hlength
        have hle := List.length_filter_le (fun entry : JsString × Json => entry.1 ≠ js "__proto__")
          (Json.entries fields)
        omega
      · rw [← hnames]
        intro hmem
        obtain ⟨entry, hentry, hname⟩ := List.mem_map.mp hmem
        exact of_decide_eq_true (List.mem_filter.mp hentry).2 hname
    · cases h

theorem readTags_toJSON (h : TagRecord tags) :
    readTags (some (.obj (tags.map tagJSON))) = some tags := by
  have hentries : Json.entries (tags.map tagJSON) = tags.map tagJSON :=
    Json.entries_of_nodup (by rw [map_fst_tagJSON]; exact h.nodup)
  have hfilter : (tags.map tagJSON).filter (fun entry => entry.1 ≠ js "__proto__") =
      tags.map tagJSON := by
    apply List.filter_eq_self.mpr
    intro entry hentry
    apply decide_eq_true
    intro hname
    apply h.proto
    rw [← map_fst_tagJSON]
    exact List.mem_map.mpr ⟨entry, hentry, hname⟩
  unfold readTags recordFields
  simp only [bind, Option.bind_some, hentries, List.length_map]
  rw [if_neg (not_lt.mpr h.few), hfilter, mapM_tagJSON, Option.bind_some, if_pos h.type]

/-- Tags in key order. -/
def sortTags (tags : List (JsString × JsString)) : List (JsString × JsString) :=
  tags.insertionSort (fun a b => a.1 ≤ b.1)

theorem sortTags_perm (tags : List (JsString × JsString)) : (sortTags tags).Perm tags :=
  List.perm_insertionSort _ tags

theorem sortTags_pairwise (tags : List (JsString × JsString)) :
    (sortTags tags).Pairwise (fun a b => a.1 ≤ b.1) :=
  @List.pairwise_insertionSort _ (fun a b : JsString × JsString => a.1 ≤ b.1) _
    ⟨fun a b => le_total a.1 b.1⟩ ⟨fun _ _ _ => le_trans⟩ tags

/-- A record of tags has one order by key. -/
theorem sortTags_of_perm {other : List (JsString × JsString)} (h : TagRecord tags)
    (hperm : other.Perm tags) : sortTags other = sortTags tags := by
  refine List.Perm.eq_of_pairwise ?_ (sortTags_pairwise other) (sortTags_pairwise tags) ?_
  · intro a b ha hb hab hba
    have hmemA : a ∈ tags := hperm.mem_iff.mp ((sortTags_perm other).mem_iff.mp ha)
    have hmemB : b ∈ tags := (sortTags_perm tags).mem_iff.mp hb
    exact List.inj_on_of_nodup_map h.nodup hmemA hmemB (le_antisymm hab hba)
  · exact (sortTags_perm other).trans (hperm.trans (sortTags_perm tags).symm)

theorem readGarbageCollection_rereads :
    RereadsSome readGarbageCollection GarbageCollectionPolicy.toJSON := by
  intro value policy h
  unfold readGarbageCollection at h
  split at h
  · split at h
    · rename_i hduration
      cases h
      rw [GarbageCollectionPolicy.toJSON, readGarbageCollection, if_pos hduration]
    · cases h
  · obtain ⟨n, hn, rfl⟩ := Option.map_eq_some_iff.mp h
    rw [GarbageCollectionPolicy.toJSON]
    change (readSafeFrom 1 (some (.ofNat n))).map GarbageCollectionPolicy.count = _
    rw [readSafeFrom_rereads _ _ _ hn]
    rfl

variable {α : Type} {read : Option Json → Option α} {x : α} {name : JsString}

/-- What a reader makes of a field as the owner has it, it makes of the field written. -/
theorem ownerDefinition_field {owner : OwnerDefinition}
    (hread : read (owner.fields.lookup name).join = some x) :
    read (Json.field (Json.present owner.fields) name) = some x := by
  rw [Json.field_present (show _ = [js "definitionHash", js "ownerType", js "ownerRef",
    js "workflowId", js "workflowRunId", js "workflowName", js "jobName", js "stepName",
    js "source"] from rfl) (by decide +kernel)]
  exact hread

theorem readOwnerDefinition_rereads (host : CommitHost) :
    RereadsSome (readOwnerDefinition host) OwnerDefinition.toJSON := by
  intro value owner h
  obtain ⟨raw, -, h⟩ := Option.bind_eq_some_iff.mp h
  obtain ⟨definitionHash, hdefinitionHash, h⟩ := Option.bind_eq_some_iff.mp h
  obtain ⟨ownerType, hownerType, h⟩ := Option.bind_eq_some_iff.mp h
  obtain ⟨ownerRef, hownerRef, h⟩ := Option.bind_eq_some_iff.mp h
  obtain ⟨workflowId, hworkflowId, h⟩ := Option.bind_eq_some_iff.mp h
  obtain ⟨workflowRunId, hworkflowRunId, h⟩ := Option.bind_eq_some_iff.mp h
  obtain ⟨workflowName, hworkflowName, h⟩ := Option.bind_eq_some_iff.mp h
  obtain ⟨jobName, hjobName, h⟩ := Option.bind_eq_some_iff.mp h
  obtain ⟨stepName, hstepName, h⟩ := Option.bind_eq_some_iff.mp h
  obtain ⟨source, hsource, h⟩ := Option.bind_eq_some_iff.mp h
  cases h
  refine Option.bind_eq_some_iff.mpr ⟨definitionHash, ownerDefinition_field
    (optionalSchema_rereads (readStrIf_rereads _) hdefinitionHash), ?_⟩
  refine Option.bind_eq_some_iff.mpr ⟨ownerType, ownerDefinition_field
    (readEnum_rereads _ _ _ _ hownerType), ?_⟩
  refine Option.bind_eq_some_iff.mpr ⟨ownerRef, ownerDefinition_field
    (readStrIf_rereads _ _ _ hownerRef), ?_⟩
  refine Option.bind_eq_some_iff.mpr ⟨workflowId, ownerDefinition_field
    (optionalSchema_rereads (readStrIf_rereads _) hworkflowId), ?_⟩
  refine Option.bind_eq_some_iff.mpr ⟨workflowRunId, ownerDefinition_field
    (optionalSchema_rereads (readStrIf_rereads _) hworkflowRunId), ?_⟩
  refine Option.bind_eq_some_iff.mpr ⟨workflowName, ownerDefinition_field
    (optionalSchema_rereads readStr_rereads hworkflowName), ?_⟩
  refine Option.bind_eq_some_iff.mpr ⟨jobName, ownerDefinition_field
    (optionalSchema_rereads readStr_rereads hjobName), ?_⟩
  refine Option.bind_eq_some_iff.mpr ⟨stepName, ownerDefinition_field
    (optionalSchema_rereads readStr_rereads hstepName), ?_⟩
  exact Option.bind_eq_some_iff.mpr ⟨source, ownerDefinition_field
    (optionalSchema_rereads readStr_rereads hsource), rfl⟩

theorem dataMetadata_field {metadata : DataMetadata}
    (hread : read (metadata.fields.lookup name).join = some x) :
    read (Json.field (Json.present metadata.fields) name) = some x := by
  rw [Json.field_present (show _ = [js "name", js "id", js "version", js "contentType",
    js "lifetime", js "garbageCollection", js "streaming", js "tags", js "ownerDefinition",
    js "createdAt", js "size", js "checksum", js "lifecycle", js "renamedTo"] from rfl)
    (by decide +kernel)]
  exact hread

/-- **Metadata reads back**, its tags in the order an object lists them. -/
theorem parseMetadata_toJSON {host : CommitHost} {parsed : DataMetadata}
    (h : parseMetadata host value = some parsed) :
    TagRecord parsed.tags ∧ ∀ other, other.Perm parsed.tags →
      parseMetadata host (some (DataMetadata.toJSON { parsed with tags := other })) =
        some { parsed with tags := Json.fromEntries other } := by
  obtain ⟨raw, -, h⟩ := Option.bind_eq_some_iff.mp h
  obtain ⟨name, hname, h⟩ := Option.bind_eq_some_iff.mp h
  obtain ⟨id, hid, h⟩ := Option.bind_eq_some_iff.mp h
  obtain ⟨version, -, h⟩ := Option.bind_eq_some_iff.mp h
  obtain ⟨contentType, hcontentType, h⟩ := Option.bind_eq_some_iff.mp h
  obtain ⟨lifetime, hlifetime, h⟩ := Option.bind_eq_some_iff.mp h
  obtain ⟨garbageCollection, hgarbageCollection, h⟩ := Option.bind_eq_some_iff.mp h
  obtain ⟨streaming, -, h⟩ := Option.bind_eq_some_iff.mp h
  obtain ⟨tags, htagsRead, h⟩ := Option.bind_eq_some_iff.mp h
  obtain ⟨ownerDefinition, hownerDefinition, h⟩ := Option.bind_eq_some_iff.mp h
  obtain ⟨createdAt, hcreatedAt, h⟩ := Option.bind_eq_some_iff.mp h
  obtain ⟨size, hsize, h⟩ := Option.bind_eq_some_iff.mp h
  obtain ⟨checksum, hchecksum, h⟩ := Option.bind_eq_some_iff.mp h
  obtain ⟨lifecycle, hlifecycle, h⟩ := Option.bind_eq_some_iff.mp h
  obtain ⟨renamedTo, hrenamedTo, h⟩ := Option.bind_eq_some_iff.mp h
  cases h
  have htags : TagRecord tags := readTags_ok htagsRead
  refine ⟨htags, ?_⟩
  intro other hperm
  refine Option.bind_eq_some_iff.mpr ⟨name, dataMetadata_field
    (readStrIf_rereads _ _ _ hname), ?_⟩
  refine Option.bind_eq_some_iff.mpr ⟨id, dataMetadata_field (readStrIf_rereads _ _ _ hid), ?_⟩
  refine Option.bind_eq_some_iff.mpr ⟨version, dataMetadata_field
    (readMetadataVersion_toJSON version), ?_⟩
  refine Option.bind_eq_some_iff.mpr ⟨contentType, dataMetadata_field
    (readStrIf_rereads _ _ _ hcontentType), ?_⟩
  refine Option.bind_eq_some_iff.mpr ⟨lifetime, dataMetadata_field
    (readStrIf_rereads _ _ _ hlifetime), ?_⟩
  refine Option.bind_eq_some_iff.mpr ⟨garbageCollection, dataMetadata_field
    (readGarbageCollection_rereads _ _ hgarbageCollection), ?_⟩
  refine Option.bind_eq_some_iff.mpr ⟨streaming, dataMetadata_field rfl, ?_⟩
  refine Option.bind_eq_some_iff.mpr ⟨Json.fromEntries other, dataMetadata_field
    (readTags_toJSON (htags.perm ((Json.fromEntries_perm other).trans hperm))), ?_⟩
  refine Option.bind_eq_some_iff.mpr ⟨ownerDefinition, dataMetadata_field
    (readOwnerDefinition_rereads _ _ _ hownerDefinition), ?_⟩
  refine Option.bind_eq_some_iff.mpr ⟨createdAt, dataMetadata_field
    (readStrIf_rereads _ _ _ hcreatedAt), ?_⟩
  refine Option.bind_eq_some_iff.mpr ⟨size, dataMetadata_field
    (optionalSchema_rereads (readSafeFrom_rereads 0) hsize), ?_⟩
  refine Option.bind_eq_some_iff.mpr ⟨checksum, dataMetadata_field
    (optionalSchema_rereads readStr_rereads hchecksum), ?_⟩
  refine Option.bind_eq_some_iff.mpr ⟨lifecycle, dataMetadata_field
    (optionalSchema_rereads (readEnum_rereads _ _) hlifecycle), ?_⟩
  exact Option.bind_eq_some_iff.mpr ⟨renamedTo, dataMetadata_field
    (optionalSchema_rereads (readStrIf_rereads _) hrenamedTo), rfl⟩

namespace CommitReading

theorem readExpectDigest_toJSON (digest : Sha256) :
    readExpectDigest (some digest.toJSON) = some digest := by
  have hentries : Json.entries [(js "sha256", Json.str digest.value)] =
      [(js "sha256", Json.str digest.value)] := Json.entries_of_nodup (List.nodup_singleton _)
  have hfield : Json.field [(js "sha256", Json.str digest.value)] (js "sha256") =
      some (.str digest.value) := rfl
  unfold readExpectDigest Sha256.toJSON recordFields
  simp only [bind, Option.bind_some, hentries, List.length_singleton, if_true, hfield,
    readSha256_value]

theorem readPutExpect_rereads : Rereads readPutExpect PutExpect.toJSON := by
  intro value expect h
  cases expect with
  | absent => rfl
  | sha256 digest =>
    unfold readPutExpect PutExpect.toJSON
    rw [if_neg (by simp [readStr, Sha256.toJSON]), readExpectDigest_toJSON]

theorem readTombstoneExpect_rereads : Rereads readTombstoneExpect TombstoneExpect.toJSON := by
  intro value expect h
  cases expect with
  | present => rfl
  | sha256 digest =>
    unfold readTombstoneExpect TombstoneExpect.toJSON
    rw [if_neg (by simp [readStr, Sha256.toJSON]), readExpectDigest_toJSON]

theorem readFileAccess_rereads : Rereads readFileAccess (fun access => .str access.text) := by
  intro value access h
  cases access <;> rfl

theorem readFence_toJSON (fence : Fence) : readFence (some (.ofNat fence.val)) = some fence := by
  unfold readFence
  rw [Option.bind_some, Json.safeNat_ofNat fence.safe, Option.bind_some, dif_pos fence.safe]

variable {host : CommitHost}

/-- An intent a factory accepted is read back by it. -/
theorem opIntent_toJSON (lower : LowerCasing host.toLowerCase) {value : Json} {intent : Intent}
    (h : opIntent host value = .ok intent) : opIntent host intent.toJSON = .ok intent := by
  unfold opIntent
  rw [createIntent_rereads lower (mapError_ok h)]
  rfl

/-- What `putOp` made of its props. -/
theorem putOp_ok {props : PutProps} {op : PutOp} (h : putOp host props = .ok op) :
    (∃ value, opIntent host value = .ok op.intent) ∧
      optional readPutExpect (op.expect.map PutExpect.toJSON) = .ok op.expect ∧
      optional readFileAccess (op.access.map (fun access => .str access.text)) = .ok op.access ∧
      ((∃ blob, op.content = .blob blob ∧ props.blob = some blob) ∨
        ∃ text bytes, op.content = .inline text (host.sha256Hex bytes) ∧
          decodeInline (some (.str text)) = .ok bytes) := by
  obtain ⟨intent, hintent, h⟩ := bind_ok h
  obtain ⟨expect, hexpect, h⟩ := bind_ok h
  obtain ⟨access, haccess, h⟩ := bind_ok h
  have hexpect' := optional_rereads readPutExpect_rereads hexpect
  have haccess' := optional_rereads readFileAccess_rereads haccess
  split at h
  · rename_i blob hblob _
    cases h
    exact ⟨⟨_, hintent⟩, hexpect', haccess', Or.inl ⟨blob, rfl, hblob⟩⟩
  · rename_i text _ _
    obtain ⟨bytes, hbytes, h⟩ := bind_ok h
    cases h
    exact ⟨⟨_, hintent⟩, hexpect', haccess', Or.inr ⟨text, bytes, rfl, hbytes⟩⟩
  · cases h
  · cases h

theorem put_fromJSON_toJSON (lower : LowerCasing host.toLowerCase) {props : PutProps} {op : PutOp}
    (h : putOp host props = .ok op)
    (hblob : ∀ blob ∈ props.blob, ∃ sha256 size parts legacyKey,
      BlobRef.create sha256 size parts legacyKey = .ok blob) :
    opFromJSON host op.toJSON = .ok (.put op) := by
  obtain ⟨⟨value, hintent⟩, hexpect, haccess, hcontent⟩ := putOp_ok h
  have hnames : op.fields.map Prod.fst =
      [js "kind", js "intent", js "key", js "blob", js "inline", js "expect", js "access"] := rfl
  have hfield := Json.field_present hnames (by decide)
  have hkind : Json.field (Json.present op.fields) (js "kind") = some (.str (js "put")) :=
    (hfield _).trans rfl
  have hintentField : intentField (Json.present op.fields) = op.intent.toJSON := by
    rw [intentField, hfield]
    rfl
  have hkey : opKey (Json.present op.fields) = .ok op.key := by
    rw [opKey, hfield]
    change (RecordKey.create op.key.value).mapError OpError.key = .ok op.key
    rw [RecordKey.create_value]
    rfl
  have hexpectField : Json.field (Json.present op.fields) (js "expect") =
      op.expect.map PutExpect.toJSON := (hfield _).trans rfl
  have haccessField : Json.field (Json.present op.fields) (js "access") =
      op.access.map (fun access => .str access.text) := (hfield _).trans rfl
  have honly : CommitReading.requireOnlyFields (js "put") (Json.present op.fields)
      [js "kind", js "intent", js "key", js "blob", js "inline", js "expect", js "access"] =
        .ok () := by
    rw [CommitReading.requireOnlyFields, extraField_present hnames (fun name hname => hname)]
  unfold opFromJSON PutOp.toJSON recordFields
  simp only [hkind, readStr, if_true]
  unfold putFromJSON
  rw [honly, hkey, hintentField, hexpectField, haccessField]
  rcases hcontent with ⟨blob, hcontent, hprops⟩ | ⟨text, bytes, hcontent, hbytes⟩
  · obtain ⟨sha256, size, parts, legacyKey, hcreate⟩ := hblob blob hprops
    have hread : optional BlobRef.fromJSON (some blob.toJSON) = .ok (some blob) := by
      rw [optional, blobRef_fromJSON_toJSON hcreate]
      rfl
    have hblobField : Json.field (Json.present op.fields) (js "blob") = some blob.toJSON :=
      (hfield _).trans (by rw [PutOp.fields, hcontent]; rfl)
    have hinlineField : Json.field (Json.present op.fields) (js "inline") = none :=
      (hfield _).trans (by rw [PutOp.fields, hcontent]; rfl)
    simp only [hblobField, hinlineField, hread, bind, Except.bind, Except.mapError, putOp,
      opIntent_toJSON lower hintent, hexpect, haccess, pure, Except.pure]
    rw [← hcontent]
  · have hread : optional BlobRef.fromJSON none = .ok none := rfl
    have hblobField : Json.field (Json.present op.fields) (js "blob") = none :=
      (hfield _).trans (by rw [PutOp.fields, hcontent]; rfl)
    have hinlineField : Json.field (Json.present op.fields) (js "inline") = some (.str text) :=
      (hfield _).trans (by rw [PutOp.fields, hcontent]; rfl)
    simp only [hblobField, hinlineField, hread, bind, Except.bind, Except.mapError, putOp,
      opIntent_toJSON lower hintent, hexpect, haccess, hbytes, pure, Except.pure]
    rw [← hcontent]

variable {key : RecordKey}

theorem tombstone_fromJSON_toJSON (lower : LowerCasing host.toLowerCase) {intent : Json}
    {expect : Option Json} {op : TombstoneOp} (h : tombstoneOp host intent key expect = .ok op) :
    opFromJSON host op.toJSON = .ok (.tombstone op) := by
  obtain ⟨made, hintent, h⟩ := bind_ok h
  obtain ⟨read, hexpect, h⟩ := bind_ok h
  cases h
  have hexpect' := optional_rereads readTombstoneExpect_rereads hexpect
  obtain ⟨op, hop⟩ : ∃ op : TombstoneOp, op = ⟨made, key, read⟩ := ⟨_, rfl⟩
  have hnames : op.fields.map Prod.fst = [js "kind", js "intent", js "key", js "expect"] := rfl
  have hfield := Json.field_present hnames (by decide)
  have hkind : Json.field (Json.present op.fields) (js "kind") = some (.str (js "tombstone")) :=
    (hfield _).trans rfl
  have hintentField : intentField (Json.present op.fields) = made.toJSON := by
    rw [intentField, hfield, hop]
    rfl
  have hkey : opKey (Json.present op.fields) = .ok key := by
    rw [opKey, hfield, hop]
    change (RecordKey.create key.value).mapError OpError.key = .ok key
    rw [RecordKey.create_value]
    rfl
  have hexpectField : Json.field (Json.present op.fields) (js "expect") =
      read.map TombstoneExpect.toJSON := by
    rw [hfield, hop]
    rfl
  have honly : CommitReading.requireOnlyFields (js "tombstone") (Json.present op.fields)
      [js "kind", js "intent", js "key", js "expect"] = .ok () := by
    rw [CommitReading.requireOnlyFields, extraField_present hnames (fun name hname => hname)]
  have hput : js "tombstone" ≠ js "put" := by decide
  rw [← hop]
  unfold opFromJSON TombstoneOp.toJSON recordFields
  simp only [hkind, readStr, hput, if_false, if_true]
  unfold tombstoneFromJSON
  simp only [honly, hkey, hintentField, hexpectField, bind, Except.bind, tombstoneOp,
    opIntent_toJSON lower hintent, hexpect', pure, Except.pure]
  rw [hop]

/-- **A data-version op's metadata reads back, tags and all.** -/
theorem dataVersionOp_rereads {metadata : Option Json} {op : DataVersionOp}
    (h : dataVersionOp host key metadata = .ok op) :
    dataVersionOp host op.key (some op.metadata.toJSON) = .ok op := by
  unfold dataVersionOp at h
  split at h
  · cases h
  · rename_i parsed hparsed
    cases h
    obtain ⟨htags, hwritten⟩ := parseMetadata_toJSON hparsed
    have hsorted := sortTags_of_perm htags
      ((Json.fromEntries_perm (sortTags parsed.tags)).trans (sortTags_perm parsed.tags))
    unfold dataVersionOp
    rw [show parseMetadata host (some (DataMetadata.toJSON
        { parsed with tags := parsed.tags.insertionSort (fun a b => a.1 ≤ b.1) })) = _ from
      hwritten (sortTags parsed.tags) (sortTags_perm parsed.tags)]
    simp only
    unfold sortTags at hsorted
    rw [sortTags, hsorted]

theorem dataVersion_fromJSON_toJSON {metadata : Option Json} {op : DataVersionOp}
    (h : dataVersionOp host key metadata = .ok op) :
    opFromJSON host op.toJSON = .ok (.dataVersion op) := by
  obtain ⟨json, hjson⟩ : ∃ json, json = [(js "kind", Json.str (js "data-version")),
      (js "key", Json.str op.key.value), (js "metadata", op.metadata.toJSON)] := ⟨_, rfl⟩
  have hkind : Json.field json (js "kind") = some (.str (js "data-version")) := by
    rw [hjson]
    rfl
  have hkey : opKey json = .ok op.key := by
    rw [opKey, hjson]
    change (RecordKey.create op.key.value).mapError OpError.key = .ok op.key
    rw [RecordKey.create_value]
    rfl
  have hmetadata : Json.field json (js "metadata") = some op.metadata.toJSON := by
    rw [hjson]
    rfl
  have honly : CommitReading.requireOnlyFields (js "data-version") json
      [js "kind", js "key", js "metadata"] = .ok () := by
    rw [hjson]
    rfl
  have hput : js "data-version" ≠ js "put" := by decide
  have htombstone : js "data-version" ≠ js "tombstone" := by decide
  unfold opFromJSON DataVersionOp.toJSON recordFields
  rw [← hjson]
  simp only [hkind, readStr, hput, htombstone, if_false, if_true]
  unfold dataVersionFromJSON
  simp only [honly, hkey, hmetadata, bind, Except.bind, dataVersionOp_rereads h, pure, Except.pure]

theorem lease_fromJSON_toJSON (op : LeaseOp) : opFromJSON host op.toJSON = .ok (.lease op) := by
  obtain ⟨json, hjson⟩ : ∃ json, json = [(js "kind", Json.str (js "lease")),
      (js "holder", Json.str op.holder), (js "fence", Json.ofNat op.fence.val)] := ⟨_, rfl⟩
  have hkind : Json.field json (js "kind") = some (.str (js "lease")) := by
    rw [hjson]
    rfl
  have hholder : Json.field json (js "holder") = some (.str op.holder) := by
    rw [hjson]
    rfl
  have hfence : Json.field json (js "fence") = some (.ofNat op.fence.val) := by
    rw [hjson]
    rfl
  have honly : CommitReading.requireOnlyFields (js "lease") json
      [js "kind", js "holder", js "fence"] = .ok () := by
    rw [hjson]
    rfl
  have hput : js "lease" ≠ js "put" := by decide
  have htombstone : js "lease" ≠ js "tombstone" := by decide
  have hversion : js "lease" ≠ js "data-version" := by decide
  unfold opFromJSON LeaseOp.toJSON recordFields
  rw [← hjson]
  simp only [hkind, readStr, hput, htombstone, hversion, if_false, if_true]
  unfold leaseFromJSON
  simp only [honly, hholder, hfence, bind, Except.bind, leaseOp, op.holder_ne, op.holder_short,
    ne_eq, not_false_eq_true, and_self, dif_pos, readFence_toJSON, pure, Except.pure]

/-- **An op reads back.** -/
theorem opFromJSON_toJSON (lower : LowerCasing host.toLowerCase) {op : Op} (h : Built host op) :
    opFromJSON host op.toJSON = .ok op := by
  cases h with
  | put props h hblob => exact put_fromJSON_toJSON lower h hblob
  | tombstone intent key expect h => exact tombstone_fromJSON_toJSON lower h
  | dataVersion key metadata h => exact dataVersion_fromJSON_toJSON h
  | lease holder fence h => exact lease_fromJSON_toJSON _

/-- A blob that was read was created. -/
theorem blobRef_fromJSON_ok {ref : BlobRef} (h : BlobRef.fromJSON value = .ok ref) :
    ∃ sha256 size parts legacyKey, BlobRef.create sha256 size parts legacyKey = .ok ref := by
  unfold BlobRef.fromJSON at h
  split at h
  · cases h
  · split at h
    · cases h
    · obtain ⟨legacyKey, -, h⟩ := bind_ok h
      exact ⟨_, _, _, legacyKey, h⟩

/-- **An op that was read was built by a factory.** -/
theorem built_of_fromJSON {value : Json} {op : Op} (h : opFromJSON host value = .ok op) :
    Built host op := by
  unfold opFromJSON at h
  split at h
  · cases h
  · rename_i json hjson
    split at h
    · cases h
    · split at h
      · obtain ⟨-, -, h⟩ := bind_ok h
        obtain ⟨key, -, h⟩ := bind_ok h
        obtain ⟨blob, hblob, h⟩ := bind_ok h
        obtain ⟨made, hmade, h⟩ := bind_ok h
        cases h
        refine .put _ hmade ?_
        intro ref href
        cases hvalue : Json.field json (js "blob") with
        | none =>
          rw [hvalue] at hblob
          cases hblob
          cases href
        | some value =>
          rw [hvalue] at hblob
          obtain ⟨read, hread, hblob⟩ := bind_ok (mapError_ok hblob)
          cases hblob
          cases href
          exact blobRef_fromJSON_ok hread
      · split at h
        · obtain ⟨-, -, h⟩ := bind_ok h
          obtain ⟨key, -, h⟩ := bind_ok h
          obtain ⟨made, hmade, h⟩ := bind_ok h
          cases h
          exact .tombstone _ _ _ hmade
        · split at h
          · obtain ⟨-, -, h⟩ := bind_ok h
            obtain ⟨key, -, h⟩ := bind_ok h
            obtain ⟨made, hmade, h⟩ := bind_ok h
            cases h
            exact .dataVersion _ _ hmade
          · split at h
            · obtain ⟨-, -, h⟩ := bind_ok h
              obtain ⟨made, hmade, h⟩ := bind_ok h
              cases h
              exact .lease _ _ hmade
            · cases h

end CommitReading

namespace Commit

theorem requireText_rereads (label : JsString) : Rereads (requireText label) .str := by
  intro value text h
  unfold requireText at h
  split at h
  · split at h
    · cases h
    · rename_i hshort
      cases h
      rw [requireText, if_neg hshort]
  · cases h

theorem requireNs_rereads : Rereads requireNs .str := by
  intro value text h
  unfold requireNs at h
  split at h
  · split at h
    · cases h
    · rename_i hshort
      cases h
      rw [requireNs, if_neg hshort]
  · cases h

theorem requireInstant_rereads (platform : Platform) (label : JsString) :
    Rereads (requireInstant platform label) .str := by
  intro value text h
  unfold requireInstant at h
  split at h
  · split at h
    · rename_i hinstant
      cases h
      rw [requireInstant, if_pos hinstant]
    · cases h
  · cases h

theorem readWriter_rereads : Rereads readWriter CommitWriter.toJSON := by
  intro value writer h
  unfold readWriter at h
  split at h
  · cases h
  · split at h
    · cases h
    · obtain ⟨host, hhost, h⟩ := bind_ok h
      obtain ⟨inst, hinst, h⟩ := bind_ok h
      split at h
      · cases h
      · rename_i pid hpid
        cases h
        obtain ⟨json, hjson⟩ : ∃ json, json = [(js "host", Json.str host),
            (js "pid", Json.ofNat pid), (js "instance", Json.str inst)] := ⟨_, rfl⟩
        have hhostField : Json.field json (js "host") = some (.str host) := by
          rw [hjson]
          rfl
        have hpidField : Json.field json (js "pid") = some (.ofNat pid) := by
          rw [hjson]
          rfl
        have hinstField : Json.field json (js "instance") = some (.str inst) := by
          rw [hjson]
          rfl
        have hextra : extraField json [js "host", js "pid", js "instance"] = none := by
          rw [hjson]
          rfl
        unfold readWriter CommitWriter.toJSON recordFields
        rw [← hjson]
        simp only [hextra, hhostField, hinstField, hpidField, requireText_rereads _ _ _ hhost,
          requireText_rereads _ _ _ hinst, readSafeFrom_rereads _ _ _ hpid, bind, Except.bind]
        rfl

theorem readClockOffset_rereads : Rereads readClockOffset .num := by
  intro value offset h
  rfl

theorem readFence_rereads : Rereads Commit.readFence (fun fence => .ofNat fence.val) := by
  intro value fence h
  rw [Commit.readFence, CommitReading.readFence_toJSON]

theorem readSeq_toJSON {seq : ℕ} (h : 1 ≤ seq ∧ seq ≤ maxSafeInteger) :
    readSeq (some (.ofNat seq)) = .ok ⟨seq, h⟩ := by
  unfold readSeq
  rw [Option.bind_some, Json.safeNat_ofNat h.2]
  exact dif_pos h

variable {host : CommitHost}

variable {commit : Commit}

/-- **A commit `create` built is created again from its own fields.** -/
theorem create_toJSON {props : CommitProps} (h : create host props = .ok commit) :
    commit.partition = props.partition ∧ commit.ops = props.ops ∧
      create host ⟨some (.ofNat commit.seq), commit.partition, some (.str commit.ns),
        some (.str commit.txnId), some commit.writer.toJSON, commit.executedAt.map .str,
        commit.clockOffsetMs.map .num, commit.principal.map .str,
        commit.fence.map (fun fence => .ofNat fence.val), some (.str commit.atTime),
        commit.ops⟩ = .ok commit := by
  obtain ⟨seq, -, h⟩ := bind_ok h
  obtain ⟨ns, hns, h⟩ := bind_ok h
  obtain ⟨txnId, htxnId, h⟩ := bind_ok h
  obtain ⟨writer, hwriter, h⟩ := bind_ok h
  obtain ⟨executedAt, hexecutedAt, h⟩ := bind_ok h
  obtain ⟨clockOffsetMs, hclockOffsetMs, h⟩ := bind_ok h
  obtain ⟨principal, hprincipal, h⟩ := bind_ok h
  obtain ⟨fence, hfence, h⟩ := bind_ok h
  obtain ⟨atTime, hatTime, h⟩ := bind_ok h
  obtain ⟨⟨⟩, hcount, h⟩ := bind_ok h
  obtain ⟨⟨⟩, hops, h⟩ := bind_ok h
  cases h
  refine ⟨rfl, rfl, ?_⟩
  unfold create
  simp only [readSeq_toJSON seq.2, requireNs_rereads _ _ hns, requireText_rereads _ _ _ htxnId,
    readWriter_rereads _ _ hwriter, optional_rereads (requireInstant_rereads _ _) hexecutedAt,
    optional_rereads readClockOffset_rereads hclockOffsetMs,
    optional_rereads (requireText_rereads _) hprincipal,
    optional_rereads readFence_rereads hfence, requireInstant_rereads _ _ _ _ hatTime, hcount, hops,
    bind, Except.bind]
  rfl

theorem length_of_checkCount {ops : List Op} (h : checkCount ops = .ok ()) :
    ops.length ≤ MAX_OPS_WITH_LEASE := by
  unfold checkCount at h
  split at h
  · cases h
  · split at h
    · cases h
    · rename_i hmany
      exact not_lt.mp (fun hlt => hmany (Or.inr hlt))

theorem create_length {props : CommitProps} (h : create host props = .ok commit) :
    commit.ops.length ≤ MAX_OPS_WITH_LEASE := by
  rw [(create_toJSON h).2.1]
  obtain ⟨seq, -, h⟩ := bind_ok h
  obtain ⟨ns, -, h⟩ := bind_ok h
  obtain ⟨txnId, -, h⟩ := bind_ok h
  obtain ⟨writer, -, h⟩ := bind_ok h
  obtain ⟨executedAt, -, h⟩ := bind_ok h
  obtain ⟨clockOffsetMs, -, h⟩ := bind_ok h
  obtain ⟨principal, -, h⟩ := bind_ok h
  obtain ⟨fence, -, h⟩ := bind_ok h
  obtain ⟨atTime, -, h⟩ := bind_ok h
  obtain ⟨⟨⟩, hcount, -⟩ := bind_ok h
  exact length_of_checkCount hcount

theorem readOps_toJSON (lower : LowerCasing host.toLowerCase) {ops : List Op}
    (hbuilt : ∀ op ∈ ops, CommitReading.Built host op)
    (hlength : ops.length ≤ MAX_OPS_WITH_LEASE) :
    readOps host (some (.arr (ops.map Op.toJSON))) = .ok ops := by
  rw [readOps, if_neg (by rw [List.length_map]; exact not_lt.mpr hlength)]
  apply mapM_written
  intro op hop
  rw [CommitReading.opFromJSON_toJSON lower (hbuilt op hop)]
  rfl

/-- **A commit reads back.** -/
theorem fromJSON_toJSON (lower : LowerCasing host.toLowerCase) (h : Built host commit) :
    fromJSON host commit.toJSON = .ok commit := by
  obtain ⟨props, hpartition, hops, hcreate⟩ := h
  obtain ⟨hsame, hsameOps, hagain⟩ := create_toJSON hcreate
  have hlength := create_length hcreate
  rw [← hsame] at hpartition
  rw [← hsameOps] at hops
  have hnames : commit.fields.map Prod.fst = fieldNames := rfl
  have hfield := Json.field_present hnames (by decide +kernel)
  have hv : Json.field (Json.present commit.fields) (js "v") = some (.num 3) :=
    (hfield _).trans rfl
  have hpartitionField : Json.field (Json.present commit.fields) (js "partition") =
      some (.str commit.partition.value) := (hfield _).trans rfl
  have hopsField : Json.field (Json.present commit.fields) (js "ops") =
      some (.arr (commit.ops.map Op.toJSON)) := (hfield _).trans rfl
  have hseq : Json.field (Json.present commit.fields) (js "seq") = some (.ofNat commit.seq) :=
    (hfield _).trans rfl
  have hns : Json.field (Json.present commit.fields) (js "namespace") = some (.str commit.ns) :=
    (hfield _).trans rfl
  have htxnId : Json.field (Json.present commit.fields) (js "txnId") = some (.str commit.txnId) :=
    (hfield _).trans rfl
  have hwriter : Json.field (Json.present commit.fields) (js "writer") =
      some commit.writer.toJSON := (hfield _).trans rfl
  have hexecutedAt : Json.field (Json.present commit.fields) (js "executedAt") =
      commit.executedAt.map .str := (hfield _).trans rfl
  have hclockOffsetMs : Json.field (Json.present commit.fields) (js "clockOffsetMs") =
      commit.clockOffsetMs.map .num := (hfield _).trans rfl
  have hprincipal : Json.field (Json.present commit.fields) (js "principal") =
      commit.principal.map .str := (hfield _).trans rfl
  have hfence : Json.field (Json.present commit.fields) (js "fence") =
      commit.fence.map (fun fence => .ofNat fence.val) := (hfield _).trans rfl
  have hat : Json.field (Json.present commit.fields) (js "at") = some (.str commit.atTime) :=
    (hfield _).trans rfl
  unfold fromJSON Commit.toJSON recordFields
  simp only
  rw [extraField_present hnames (fun name hname => hname)]
  simp only [hv, hpartitionField, readStr, ne_eq, not_true_eq_false, if_false, hopsField,
    readOps_toJSON lower hops hlength, PartitionKey.parse_value lower hpartition, Except.mapError,
    hseq, hns, htxnId, hwriter, hexecutedAt, hclockOffsetMs, hprincipal, hfence, hat, hagain, bind,
    Except.bind]

/-- A commit that was read was built. -/
theorem built_of_fromJSON {value : Json} (h : fromJSON host value = .ok commit) :
    Built host commit := by
  unfold fromJSON at h
  split at h
  · cases h
  · split at h
    · cases h
    · split at h
      · cases h
      · split at h
        · cases h
        · obtain ⟨ops, hops, h⟩ := bind_ok h
          obtain ⟨partition, hpartition, h⟩ := bind_ok h
          refine ⟨_, Or.inr ⟨_, mapError_ok hpartition⟩, ?_, h⟩
          intro op hop
          unfold readOps at hops
          split at hops
          · split at hops
            · cases hops
            · obtain ⟨item, -, hitem⟩ := mem_mapM hops hop
              exact CommitReading.built_of_fromJSON (mapError_ok hitem)
          · cases hops

end Commit

/-- **Commits round-trip through JSON.**  Every commit `Commit.create` built of a
built partition key and built ops is read back from what it is written as, the
same commit: its inline digests recomputed, its blob parts, intents, expects,
accesses and sorted tags.  Every JSON value that `Commit.fromJSON` accepts gives
such a commit. -/
theorem commit_round_trip (host : CommitHost) (lower : LowerCasing host.toLowerCase) :
    (∀ commit : Commit, commit.Built host →
        Commit.fromJSON host commit.toJSON = .ok commit) ∧
      ∀ value commit, Commit.fromJSON host value = .ok commit →
        Commit.fromJSON host commit.toJSON = .ok commit :=
  ⟨fun _ h => Commit.fromJSON_toJSON lower h,
    fun _ _ h => Commit.fromJSON_toJSON lower (Commit.built_of_fromJSON h)⟩

/-- The lowercase text of hex digits. -/
def hexText (digits : List (Fin 16)) : JsString :=
  digits.map (fun d => Fin.ofNat 65536 (if d.val < 10 then 48 + d.val else 87 + d.val))

theorem hexText_isSha256Hex {digits : List (Fin 16)} (h : digits.length = 64) :
    isSha256Hex (hexText digits) := by
  refine ⟨by rw [hexText, List.length_map, h], ?_⟩
  intro u hu
  obtain ⟨d, -, rfl⟩ := List.mem_map.mp hu
  clear hu
  revert d
  decide

/-- The digest of no bytes. -/
def emptyDigest : Sha256 where
  value := hexText
    [14, 3, 11, 0, 12, 4, 4, 2, 9, 8, 15, 12, 1, 12, 1, 4,
     9, 10, 15, 11, 15, 4, 12, 8, 9, 9, 6, 15, 11, 9, 2, 4,
     2, 7, 10, 14, 4, 1, 14, 4, 6, 4, 9, 11, 9, 3, 4, 12,
     10, 4, 9, 5, 9, 9, 1, 11, 7, 8, 5, 2, 11, 8, 5, 5]
  hex := hexText_isSha256Hex rfl

/-- A host that knows the digest of no bytes, the epoch and Latin letters. -/
def epochHost : CommitHost where
  sha256Hex := fun _ => emptyDigest
  dateParse := fun text => if text = js "1970-01-01T00:00:00Z" then some 0 else none
  toISOString := fun ms => if ms = 0 then some (js "1970-01-01T00:00:00.000Z") else none
  isDatetime := Commit.isIsoInstant
  stringOf := fun _ => []
  toLowerCase := latinLower
  isUuidFormat := isUuid

/-- A commit that writes an empty lockfile. -/
def lockfileCommit : Json :=
  .obj
    [(js "v", .num 3), (js "seq", .num 1),
     (js "partition", .str (js "config--lockfile--upstream_extensions")),
     (js "namespace", .str []), (js "txnId", .str (js "t")),
     (js "writer", .obj [(js "host", .str (js "h")), (js "pid", .num 7),
       (js "instance", .str (js "i"))]),
     (js "at", .str (js "1970-01-01T00:00:00Z")),
     (js "ops", .arr
       [.obj [(js "kind", .str (js "put")), (js "intent", .obj [(js "kind", .str (js "lockfile.write"))]),
         (js "key", .str (js "upstream_extensions.json")), (js "inline", .str []),
         (js "expect", .str (js "absent")), (js "access", .str (js "private"))],
        .obj [(js "kind", .str (js "lease")), (js "holder", .str (js "h")), (js "fence", .num 0)]])]

/-- The lockfile commit is read, and reads back. -/
theorem lockfile_commit_reads_back :
    ∃ commit, Commit.fromJSON epochHost lockfileCommit = .ok commit ∧
      Commit.fromJSON epochHost commit.toJSON = .ok commit := by
  have hread : (Commit.fromJSON epochHost lockfileCommit).toOption.isSome = true := by
    decide +kernel
  cases hcommit : Commit.fromJSON epochHost lockfileCommit with
  | error e =>
    rw [hcommit] at hread
    cases hread
  | ok commit =>
    exact ⟨commit, rfl, (commit_round_trip epochHost latinLower_lowerCasing).2 _ _ hcommit⟩

end Swamp
