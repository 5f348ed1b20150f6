import Swamp.CommitReading
import Swamp.OrderedMap

/-!
# Readers that read their own writing

`Rereads read write`: what `read` made of some value, it makes again of what
`write` writes.  This is what a round trip asks of a reader that checks and
normalizes: it says nothing of values no reader made.  The rules below carry it
through an optional field, a list and an object; the readers of a commit's leaves
satisfy it.
-/

namespace Js

namespace Json

theorem field_present {fields : List (JsString × Option Json)} {names : List JsString}
    (hnames : fields.map Prod.fst = names) (hnodup : names.Nodup) (name : JsString) :
    field (present fields) name = (fields.lookup name).join := by
  subst hnames
  induction fields with
  | nil => rfl
  | cons entry fields ih =>
    obtain ⟨key, value⟩ := entry
    obtain ⟨hnot, hnodup⟩ := List.nodup_cons.mp hnodup
    have hrest := ih hnodup
    by_cases hname : name = key
    · subst hname
      cases value with
      | none =>
        have hnone : fields.lookup name = none := by
          rw [List.lookup_eq_none_iff]
          intro entry hentry
          rw [bne_iff_ne]
          exact fun heq => hnot (List.mem_map.mpr ⟨entry, hentry, heq.symm⟩)
        rw [hnone] at hrest
        simpa [present, List.lookup_cons] using hrest
      | some value => simp [present, field]
    · have hbeq : (name == key) = false := beq_eq_false_iff_ne.mpr hname
      cases value with
      | none => simpa [present, List.lookup_cons, hbeq] using hrest
      | some value =>
        unfold field present at hrest ⊢
        simpa [List.lookup_cons, hbeq] using hrest

theorem mem_present_names {fields : List (JsString × Option Json)} {entry : JsString × Json}
    (h : entry ∈ present fields) : entry.1 ∈ fields.map Prod.fst := by
  obtain ⟨written, hwritten, hvalue⟩ := List.mem_filterMap.mp h
  obtain ⟨value, -, rfl⟩ := Option.map_eq_some_iff.mp hvalue
  exact List.mem_map.mpr ⟨written, hwritten, rfl⟩

end Json

end Js

namespace Swamp

open Js ExceptRules

variable {value : Option Json}

section

variable {ε α : Type}

/-- A reader reads what is written of what it read. -/
def Rereads (read : Option Json → Except ε α) (write : α → Json) : Prop :=
  ∀ value x, read value = .ok x → read (some (write x)) = .ok x

theorem optional_rereads {read : Option Json → Except ε α} {write : α → Json}
    (h : Rereads read write) {x : Option α} (hx : optional read value = .ok x) :
    optional read (x.map write) = .ok x := by
  cases value with
  | none =>
    cases hx
    rfl
  | some value =>
    obtain ⟨made, hmade, hx⟩ := bind_ok hx
    cases hx
    rw [Option.map_some, optional, h _ _ hmade]
    rfl

/-- The same of a reader that gives no reason. -/
def RereadsSome (read : Option Json → Option α) (write : α → Json) : Prop :=
  ∀ value x, read value = some x → read (some (write x)) = some x

theorem optionalSchema_rereads {read : Option Json → Option α} {write : α → Json}
    (h : RereadsSome read write) {x : Option α} (hx : optionalSchema read value = some x) :
    optionalSchema read (x.map write) = some x := by
  cases value with
  | none =>
    cases hx
    rfl
  | some value =>
    obtain ⟨made, hmade, rfl⟩ := Option.map_eq_some_iff.mp hx
    rw [Option.map_some, optionalSchema, h _ _ hmade]
    rfl

theorem mapM_written {β : Type} {read : β → Except ε α} {write : α → β} {xs : List α}
    (h : ∀ x ∈ xs, read (write x) = .ok x) : (xs.map write).mapM read = .ok xs := by
  induction xs with
  | nil => rfl
  | cons x xs ih =>
    rw [List.map_cons, List.mapM_cons, h x List.mem_cons_self,
      ih (fun other hother => h other (List.mem_cons_of_mem _ hother))]
    rfl

theorem extraField_present {fields : List (JsString × Option Json)} {names allowed : List JsString}
    (hnames : fields.map Prod.fst = names) (hallowed : ∀ name ∈ names, name ∈ allowed) :
    extraField (Json.present fields) allowed = none := by
  rw [extraField, Option.map_eq_none_iff, List.find?_eq_none]
  intro entry hentry
  have hmem := hallowed _ (hnames ▸ Json.mem_present_names hentry)
  simp [hmem]

end

theorem readStr_rereads : RereadsSome readStr .str := by
  intro value x h
  rfl

theorem readStrIf_rereads (check : JsString → Bool) : RereadsSome (readStrIf check) .str := by
  intro value x h
  obtain ⟨-, hcheck⟩ := Option.filter_eq_some_iff.mp h
  exact Option.filter_eq_some_iff.mpr ⟨rfl, hcheck⟩

theorem readSafeFrom_le {least n : ℕ} (h : readSafeFrom least value = some n) :
    least ≤ n ∧ n ≤ maxSafeInteger := by
  obtain ⟨hread, hleast⟩ := Option.filter_eq_some_iff.mp h
  obtain ⟨json, -, hsafe⟩ := Option.bind_eq_some_iff.mp hread
  exact ⟨of_decide_eq_true hleast, Json.safeNat_le hsafe⟩

theorem readSafeFrom_ofNat {least n : ℕ} (hleast : least ≤ n) (hsafe : n ≤ maxSafeInteger) :
    readSafeFrom least (some (.ofNat n)) = some n := by
  refine Option.filter_eq_some_iff.mpr ⟨?_, decide_eq_true hleast⟩
  rw [Option.bind_some, Json.safeNat_ofNat hsafe]

theorem readSafeFrom_rereads (least : ℕ) : RereadsSome (readSafeFrom least) .ofNat := by
  intro value n h
  obtain ⟨hleast, hsafe⟩ := readSafeFrom_le h
  exact readSafeFrom_ofNat hleast hsafe

theorem readSha256_value (digest : Sha256) : readSha256 (some (.str digest.value)) = some digest := by
  rw [readSha256, dif_pos digest.hex]

theorem readMetadataVersion_toJSON (version : Version) :
    readMetadataVersion (some version.toJSON) = some version := by
  unfold readMetadataVersion Version.toJSON
  rw [Option.bind_some, Json.safeNat_ofNat version.safe, Option.bind_some,
    dif_pos ⟨version.pos, version.safe⟩]

theorem readEnum_rereads {α : Type} (members : List α) (text : α → JsString) :
    RereadsSome (readEnum members text) (fun m => .str (text m)) := by
  intro value m h
  obtain ⟨found, -, hfind⟩ := Option.bind_eq_some_iff.mp h
  have htext : text m = found := by simpa using List.find?_some hfind
  change members.find? (fun other => decide (text other = text m)) = some m
  rw [htext]
  exact hfind

theorem readPart_ok {index : ℕ} {value : Json} {part : BlobPart}
    (h : readPart index value = .ok part) : 1 ≤ part.size ∧ part.size ≤ maxSafeInteger := by
  unfold readPart at h
  split at h
  · cases h
  · split at h
    · cases h
    · split at h
      · cases h
      · split at h
        · cases h
        · rename_i hsize
          cases h
          exact readSafeFrom_le hsize

theorem readPart_toJSON {part : BlobPart} (hpos : 1 ≤ part.size)
    (hsafe : part.size ≤ maxSafeInteger) (index : ℕ) :
    readPart index part.toJSON = .ok part := by
  have hextra : extraField [(js "sha256", Json.str part.sha256.value),
      (js "size", Json.ofNat part.size)] [js "sha256", js "size"] = none := rfl
  have hsha256 : Json.field [(js "sha256", Json.str part.sha256.value),
      (js "size", Json.ofNat part.size)] (js "sha256") = some (.str part.sha256.value) := rfl
  have hsize : Json.field [(js "sha256", Json.str part.sha256.value),
      (js "size", Json.ofNat part.size)] (js "size") = some (.ofNat part.size) := rfl
  unfold readPart BlobPart.toJSON recordFields
  simp only [hextra, hsha256, hsize, readSha256_value, readSafeFrom_ofNat hpos hsafe]

theorem readParts_rereads (size : ℕ) :
    Rereads (readParts size) (fun parts => .arr (parts.map BlobPart.toJSON)) := by
  intro value parts h
  unfold readParts at h
  split at h
  · rename_i items
    split at h
    · cases h
    · rename_i hmany
      obtain ⟨read, hread, h⟩ := bind_ok h
      simp only at h
      split at h
      · cases h
      · rename_i htotal
        cases h
        have hall := mapM_ok hread
        have hlength : items.length = parts.length := by
          have := hall.length_eq
          rwa [List.length_zipIdx] at this
        have hbounds : ∀ part ∈ parts, 1 ≤ part.size ∧ part.size ≤ maxSafeInteger := by
          intro part hpart
          obtain ⟨item, -, hitem⟩ := mem_mapM hread hpart
          exact readPart_ok hitem
        have hwritten : ∀ (parts : List BlobPart) (start : ℕ),
            (∀ part ∈ parts, 1 ≤ part.size ∧ part.size ≤ maxSafeInteger) →
              ((parts.map BlobPart.toJSON).zipIdx start).mapM
                (fun item => readPart item.2 item.1) = .ok parts := by
          intro parts
          induction parts with
          | nil => exact fun _ _ => rfl
          | cons part parts ih =>
            intro start hparts
            obtain ⟨hpos, hsafe⟩ := hparts part List.mem_cons_self
            rw [List.map_cons, List.zipIdx_cons, List.mapM_cons, readPart_toJSON hpos hsafe,
              ih (start + 1) (fun other hother => hparts other (List.mem_cons_of_mem _ hother))]
            rfl
        unfold readParts
        simp only
        rw [if_neg (by rwa [List.length_map, ← hlength]), hwritten parts 0 hbounds]
        exact if_neg htotal
  · cases h

theorem blobRef_create_ok {sha256 size parts : Option Json} {legacyKey : Option RecordKey}
    {ref : BlobRef} (h : BlobRef.create sha256 size parts legacyKey = .ok ref) :
    ref.size ≤ maxSafeInteger ∧ ref.legacyKey = legacyKey ∧
      optional (readParts ref.size) (ref.parts.map (fun parts =>
        .arr (parts.map BlobPart.toJSON))) = .ok ref.parts := by
  unfold BlobRef.create at h
  split at h
  · cases h
  · split at h
    · cases h
    · rename_i hsize
      obtain ⟨made, hmade, h⟩ := bind_ok h
      cases h
      exact ⟨(readSafeFrom_le hsize).2, rfl, optional_rereads (readParts_rereads _) hmade⟩

/-- **A blob reference reads back.** -/
theorem blobRef_fromJSON_toJSON {sha256 size parts : Option Json} {legacyKey : Option RecordKey}
    {ref : BlobRef} (h : BlobRef.create sha256 size parts legacyKey = .ok ref) :
    BlobRef.fromJSON (some ref.toJSON) = .ok ref := by
  obtain ⟨hsize, -, hparts⟩ := blobRef_create_ok h
  have hnames : ref.fields.map Prod.fst = [js "sha256", js "size", js "parts", js "legacyKey"] := rfl
  have hfield := Json.field_present hnames (by decide)
  have hsha256 : Json.field (Json.present ref.fields) (js "sha256") =
      some (.str ref.sha256.value) := (hfield _).trans rfl
  have hsizeField : Json.field (Json.present ref.fields) (js "size") = some (.ofNat ref.size) :=
    (hfield _).trans rfl
  have hpartsField : Json.field (Json.present ref.fields) (js "parts") =
      ref.parts.map (fun parts => .arr (parts.map BlobPart.toJSON)) := (hfield _).trans rfl
  have hkeyField : Json.field (Json.present ref.fields) (js "legacyKey") =
      ref.legacyKey.map (fun key => .str key.value) := (hfield _).trans rfl
  have hkey : optional (RecordKey.fromJSON BlobError.legacyKeyText .legacyKey)
      (ref.legacyKey.map (fun key => Json.str key.value)) = .ok ref.legacyKey := by
    cases ref.legacyKey with
    | none => rfl
    | some key =>
      rw [Option.map_some, optional, RecordKey.fromJSON, RecordKey.create_value]
      rfl
  unfold BlobRef.fromJSON BlobRef.toJSON recordFields
  simp only
  rw [extraField_present hnames (fun name hname => hname)]
  simp only
  rw [hkeyField, hkey, hsha256, hsizeField, hpartsField]
  simp only [bind, Except.bind, BlobRef.create, readSha256_value,
    readSafeFrom_ofNat (Nat.zero_le _) hsize, hparts]
  rfl

section

variable {toLowerCase : JsString → JsString}

open createIntent

theorem INTENT_KINDS_nodup : (INTENT_KINDS.map Prod.fst).Nodup := by decide +kernel

theorem mem_INTENT_KINDS (kind : IntentKind) : kind ∈ INTENT_KINDS.map Prod.snd := by
  cases kind with
  | model kind | run kind | definition kind => cases kind <;> decide
  | _ => decide

/-- The text of a kind names it. -/
theorem intentKind_lookup (kind : IntentKind) : INTENT_KINDS.lookup kind.text = some kind := by
  obtain ⟨entry, hentry, hkind⟩ := List.mem_map.mp (mem_INTENT_KINDS kind)
  obtain ⟨found, hfound⟩ := Option.isSome_iff_exists.mp
    (List.find?_isSome.mpr ⟨entry, hentry, decide_eq_true hkind⟩ :
      (INTENT_KINDS.find? (fun entry => entry.2 = kind)).isSome)
  have hsame : found.2 = kind := by simpa using List.find?_some hfound
  have htext : kind.text = found.1 := by
    rw [IntentKind.text, hfound]
    rfl
  rw [htext, ← hsame]
  exact OrderedMap.lookup_of_mem INTENT_KINDS_nodup (List.mem_of_find?_eq_some hfound)

theorem readString_ok {label : JsString} {text : JsString} (h : readString label value = .ok text) :
    text ≠ [] ∧ text.length ≤ MAX_FIELD_LENGTH := by
  unfold readString at h
  split at h
  · split at h
    · cases h
    · rename_i hne
      split at h
      · cases h
      · rename_i hshort
        cases h
        exact ⟨hne, not_lt.mp hshort⟩
  · cases h

theorem readString_str {label text : JsString} (hne : text ≠ [])
    (hshort : text.length ≤ MAX_FIELD_LENGTH) : readString label (some (.str text)) = .ok text := by
  rw [readString, if_neg hne, if_neg (not_lt.mpr hshort)]

theorem readString_rereads (label : JsString) : Rereads (readString label) .str := by
  intro value text h
  obtain ⟨hne, hshort⟩ := readString_ok h
  exact readString_str hne hshort

theorem readDataName_rereads : Rereads createIntent.readDataName .str := by
  intro value name h
  obtain ⟨text, htext, h⟩ := bind_ok h
  split at h
  · rename_i hname
    cases h
    unfold createIntent.readDataName
    rw [readString_rereads _ _ _ htext]
    exact if_pos hname
  · cases h

theorem readVersion_toJSON (version : Version) :
    createIntent.readVersion (some version.toJSON) = .ok version := by
  unfold createIntent.readVersion Version.toJSON
  rw [Option.bind_some, Json.safeNat_ofNat version.safe]
  exact dif_pos ⟨version.pos, version.safe⟩

theorem readOptVersion_toJSON (version : Option Version) :
    readOptVersion (version.map Version.toJSON) = .ok version := by
  cases version with
  | none => rfl
  | some version =>
    rw [Option.map_some, readOptVersion, readVersion_toJSON]
    rfl

/-- An id that is lowercased already, short and not empty. -/
structure IdReads (toLowerCase : JsString → JsString) (id : JsString) : Prop where
  lower : toLowerCase id = id
  ne : id ≠ []
  short : id.length ≤ MAX_FIELD_LENGTH

theorem IdReads.readId {id : JsString} (h : IdReads toLowerCase id) (label : JsString) :
    readId toLowerCase label (some (.str id)) = .ok id := by
  unfold createIntent.readId
  rw [readString_str h.ne h.short]
  exact congrArg Except.ok h.lower

/-- The ids of a subject. -/
def IntentSubject.ids : IntentSubject → List JsString
  | .model ref => [ref.id]
  | .run ref => [ref.workflowId, ref.runId]
  | .definition _ => []
  | .autoDefinition id => [id]
  | .none => []

variable {kind : IntentKind}

theorem readModel_toJSON {ref : ModelRef} (h : readModel toLowerCase kind value = .ok ref)
    (hid : IdReads toLowerCase ref.id) :
    readModel toLowerCase kind (some ref.toJSON) = .ok ref := by
  obtain ⟨fields, -, h⟩ := bind_ok h
  obtain ⟨-, -, h⟩ := bind_ok h
  obtain ⟨type, htype, h⟩ := bind_ok h
  have hobject : asObject (js "model") (some ref.toJSON) =
      .ok [(js "type", .str ref.type), (js "id", .str ref.id)] := rfl
  have hextra : createIntent.requireOnlyFields [(js "type", Json.str ref.type),
      (js "id", Json.str ref.id)] [js "type", js "id"] kind = .ok () := rfl
  have htypeField : Json.field [(js "type", Json.str ref.type), (js "id", Json.str ref.id)]
      (js "type") = some (.str ref.type) := rfl
  have hidField : Json.field [(js "type", Json.str ref.type), (js "id", Json.str ref.id)]
      (js "id") = some (.str ref.id) := rfl
  unfold readModel
  rw [hobject]
  simp only [bind, Except.bind, hextra, htypeField, hidField]
  split at h
  · cases h
  · rename_i created hcreated
    split at h
    · cases h
    · rename_i hnormalized
      split at h
      · rename_i required hrequired
        split at h
        · cases h
        · rename_i hname
          obtain ⟨id, -, h⟩ := bind_ok h
          cases h
          simp only [readString_rereads _ _ _ htype, hcreated, hnormalized, hname, if_false,
            hid.readId]
          rfl
      · rename_i hrequired
        obtain ⟨id, -, h⟩ := bind_ok h
        cases h
        simp only [readString_rereads _ _ _ htype, hcreated, hnormalized, if_false, hid.readId]
        rfl

theorem readRun_toJSON {ref : RunRef} (hworkflow : IdReads toLowerCase ref.workflowId)
    (hrun : IdReads toLowerCase ref.runId) :
    readRun toLowerCase kind (some ref.toJSON) = .ok ref := by
  have hobject : asObject (js "run") (some ref.toJSON) =
      .ok [(js "workflowId", .str ref.workflowId), (js "runId", .str ref.runId)] := rfl
  have hextra : createIntent.requireOnlyFields [(js "workflowId", Json.str ref.workflowId),
      (js "runId", Json.str ref.runId)] [js "workflowId", js "runId"] kind = .ok () := rfl
  have hworkflowField : Json.field [(js "workflowId", Json.str ref.workflowId),
      (js "runId", Json.str ref.runId)] (js "workflowId") = some (.str ref.workflowId) := rfl
  have hrunField : Json.field [(js "workflowId", Json.str ref.workflowId),
      (js "runId", Json.str ref.runId)] (js "runId") = some (.str ref.runId) := rfl
  unfold readRun
  rw [hobject]
  simp only [bind, Except.bind, hextra, hworkflowField, hrunField, hworkflow.readId, hrun.readId]
  rfl

theorem readAutoDefinition_toJSON {id : JsString} (hid : IdReads toLowerCase id) :
    readAutoDefinition toLowerCase kind (some (.obj [(js "id", .str id)])) = .ok id := by
  have hextra : createIntent.requireOnlyFields [(js "id", Json.str id)] [js "id"] kind = .ok () :=
    rfl
  have hidField : Json.field [(js "id", Json.str id)] (js "id") = some (.str id) := rfl
  unfold readAutoDefinition
  simp only [bind, Except.bind, asObject, hextra, hidField, hid.readId]

theorem definitionKindOf_text (kind : DefinitionKind) :
    definitionKindOf (some (.str kind.text)) = some kind := by
  cases kind <;> decide

theorem readDefinition_rereads (kind : IntentKind) :
    Rereads (readDefinition kind) DefinitionRef.toJSON := by
  intro value ref h
  obtain ⟨fields, -, h⟩ := bind_ok h
  obtain ⟨-, -, h⟩ := bind_ok h
  split at h
  · cases h
  · rename_i definitionKind hdefinition
    split at h
    · cases h
    · rename_i hworkflow
      obtain ⟨name, hname, h⟩ := bind_ok h
      cases h
      have hextra : createIntent.requireOnlyFields [(js "kind", Json.str definitionKind.text),
          (js "name", Json.str name)] [js "kind", js "name"] kind = .ok () := rfl
      have hkindField : Json.field [(js "kind", Json.str definitionKind.text),
          (js "name", Json.str name)] (js "kind") = some (.str definitionKind.text) := rfl
      have hnameField : Json.field [(js "kind", Json.str definitionKind.text),
          (js "name", Json.str name)] (js "name") = some (.str name) := rfl
      unfold readDefinition DefinitionRef.toJSON
      simp only [bind, Except.bind, asObject, hextra, hkindField, hnameField,
        definitionKindOf_text, hworkflow, if_false, readString_rereads _ _ _ hname]
      rfl

/-- The fields an intent is read by. -/
theorem intent_field (intent : Intent) (name : JsString) :
    Json.field (Json.present intent.fields) name = (intent.fields.lookup name).join := by
  cases intent with
  | dataSave | dataAppend | dataDelete | dataGc =>
    exact Json.field_present
      (show _ = [js "kind", js "model", js "name", js "version"] from rfl) (by decide) name
  | dataRename =>
    exact Json.field_present
      (show _ = [js "kind", js "model", js "name", js "to"] from rfl) (by decide) name
  | outputSave | outputDelete =>
    exact Json.field_present
      (show _ = [js "kind", js "model", js "outputId"] from rfl) (by decide) name
  | model => exact Json.field_present (show _ = [js "kind", js "model"] from rfl) (by decide) name
  | run => exact Json.field_present (show _ = [js "kind", js "run"] from rfl) (by decide) name
  | definition =>
    exact Json.field_present (show _ = [js "kind", js "definition"] from rfl) (by decide) name
  | definitionRenameTo =>
    exact Json.field_present
      (show _ = [js "kind", js "definition", js "from"] from rfl) (by decide) name
  | definitionRenameFrom =>
    exact Json.field_present
      (show _ = [js "kind", js "definition", js "to"] from rfl) (by decide) name
  | autoDefinitionSave | autoDefinitionDelete =>
    exact Json.field_present (show _ = [js "kind", js "autoDefinition"] from rfl) (by decide) name
  | lockfileWrite => exact Json.field_present (show _ = [js "kind"] from rfl) (by decide) name

theorem intent_fieldNames (intent : Intent) :
    (Json.present intent.fields).map Prod.fst = intent.fieldNames := by
  cases intent with
  | dataDelete ref name version | dataGc ref name version => cases version <;> rfl
  | _ => rfl

variable {intent : Intent}

/-- What a reader makes of a field as the intent has it, it makes of the field written. -/
theorem field_rereads {ε α : Type} {read : Option Json → Except ε α} {x : α} {name : JsString}
    {written : Option Json} (hname : (intent.fields.lookup name).join = written)
    (hread : read written = .ok x) :
    read (Json.field (Json.present intent.fields) name) = .ok x := by
  rw [intent_field, hname]
  exact hread

/-- **Every reader of an intent reads its own writing.** -/
theorem build_rereads {json : List (JsString × Json)} (h : build toLowerCase kind json = .ok intent)
    (hids : ∀ id ∈ intent.subject.ids, IdReads toLowerCase id) :
    intent.kind = kind ∧ build toLowerCase kind (Json.present intent.fields) = .ok intent := by
  cases kind with
  | dataSave | dataAppend =>
    obtain ⟨model, hmodel, h⟩ := bind_ok h
    obtain ⟨name, hname, h⟩ := bind_ok h
    obtain ⟨version, -, h⟩ := bind_ok h
    cases h
    refine ⟨rfl, bind_of_ok (a := model) ?_ (bind_of_ok (a := name) ?_
      (bind_of_ok (a := version) ?_ rfl))⟩
    · exact field_rereads rfl (readModel_toJSON hmodel (hids _ List.mem_cons_self))
    · exact field_rereads rfl (readDataName_rereads _ _ hname)
    · exact field_rereads rfl (readVersion_toJSON version)
  | dataDelete | dataGc =>
    obtain ⟨model, hmodel, h⟩ := bind_ok h
    obtain ⟨name, hname, h⟩ := bind_ok h
    obtain ⟨version, -, h⟩ := bind_ok h
    cases h
    refine ⟨rfl, bind_of_ok (a := model) ?_ (bind_of_ok (a := name) ?_
      (bind_of_ok (a := version) ?_ rfl))⟩
    · exact field_rereads rfl (readModel_toJSON hmodel (hids _ List.mem_cons_self))
    · exact field_rereads rfl (readDataName_rereads _ _ hname)
    · exact field_rereads rfl (readOptVersion_toJSON version)
  | dataRename =>
    obtain ⟨model, hmodel, h⟩ := bind_ok h
    obtain ⟨name, hname, h⟩ := bind_ok h
    obtain ⟨target, htarget, h⟩ := bind_ok h
    cases h
    refine ⟨rfl, bind_of_ok (a := model) ?_ (bind_of_ok (a := name) ?_
      (bind_of_ok (a := target) ?_ rfl))⟩
    · exact field_rereads rfl (readModel_toJSON hmodel (hids _ List.mem_cons_self))
    · exact field_rereads rfl (readDataName_rereads _ _ hname)
    · exact field_rereads rfl (readDataName_rereads _ _ htarget)
  | outputSave | outputDelete =>
    obtain ⟨model, hmodel, h⟩ := bind_ok h
    obtain ⟨outputId, houtput, h⟩ := bind_ok h
    cases h
    refine ⟨rfl, bind_of_ok (a := model) ?_ (bind_of_ok (a := outputId) ?_ rfl)⟩
    · exact field_rereads rfl (readModel_toJSON hmodel (hids _ List.mem_cons_self))
    · exact field_rereads rfl (readString_rereads _ _ _ houtput)
  | model =>
    obtain ⟨model, hmodel, h⟩ := bind_ok h
    cases h
    refine ⟨rfl, bind_of_ok (a := model) ?_ rfl⟩
    exact field_rereads rfl (readModel_toJSON hmodel (hids _ List.mem_cons_self))
  | run =>
    obtain ⟨run, -, h⟩ := bind_ok h
    cases h
    refine ⟨rfl, bind_of_ok (a := run) ?_ rfl⟩
    exact field_rereads rfl (readRun_toJSON (hids _ List.mem_cons_self)
      (hids _ (List.mem_cons_of_mem _ List.mem_cons_self)))
  | definition =>
    obtain ⟨definition, hdefinition, h⟩ := bind_ok h
    cases h
    refine ⟨rfl, bind_of_ok (a := definition) ?_ rfl⟩
    exact field_rereads rfl (readDefinition_rereads _ _ _ hdefinition)
  | definitionRenameTo | definitionRenameFrom =>
    obtain ⟨definition, hdefinition, h⟩ := bind_ok h
    obtain ⟨other, hother, h⟩ := bind_ok h
    cases h
    refine ⟨rfl, bind_of_ok (a := definition) ?_ (bind_of_ok (a := other) ?_ rfl)⟩
    · exact field_rereads rfl (readDefinition_rereads _ _ _ hdefinition)
    · exact field_rereads rfl (readString_rereads _ _ _ hother)
  | autoDefinitionSave | autoDefinitionDelete =>
    obtain ⟨id, -, h⟩ := bind_ok h
    cases h
    refine ⟨rfl, bind_of_ok (a := id) ?_ rfl⟩
    exact field_rereads rfl (readAutoDefinition_toJSON (hids _ List.mem_cons_self))
  | lockfileWrite =>
    cases h
    exact ⟨rfl, rfl⟩

theorem ids_of_partition {subject : IntentSubject} {key : PartitionKey}
    (h : subject.partition toLowerCase = .ok key) :
    ∀ id ∈ subject.ids, isUuid (toLowerCase id) = true := by
  cases subject with
  | model ref =>
    simp only [IntentSubject.partition] at h
    split at h
    · cases h
    · obtain ⟨made, hmade, -⟩ := bind_ok (mapError_ok h)
      obtain ⟨canonical, hcanonical, -⟩ := bind_ok hmade
      obtain ⟨rfl, huuid⟩ := canonicalUuid_ok hcanonical
      intro id hid
      rw [List.mem_singleton.mp hid]
      exact huuid
  | run ref =>
    obtain ⟨made, hmade, -⟩ := bind_ok (mapError_ok h)
    obtain ⟨workflow, hworkflow, hmade⟩ := bind_ok hmade
    obtain ⟨run, hrun, -⟩ := bind_ok hmade
    obtain ⟨rfl, hworkflowUuid⟩ := canonicalUuid_ok hworkflow
    obtain ⟨rfl, hrunUuid⟩ := canonicalUuid_ok hrun
    intro id hid
    rcases List.mem_cons.mp hid with rfl | hid
    · exact hworkflowUuid
    · rw [List.mem_singleton.mp hid]
      exact hrunUuid
  | definition ref | none => exact fun id hid => absurd hid List.not_mem_nil
  | autoDefinition id =>
    obtain ⟨made, hmade, -⟩ := bind_ok (mapError_ok h)
    obtain ⟨canonical, hcanonical, -⟩ := bind_ok hmade
    obtain ⟨rfl, huuid⟩ := canonicalUuid_ok hcanonical
    intro other hother
    rw [List.mem_singleton.mp hother]
    exact huuid

theorem ids_lower (lower : LowerCasing toLowerCase) (hformed : intent.WellFormed toLowerCase) :
    ∀ id ∈ intent.subject.ids, toLowerCase id = id := by
  intro id hid
  cases hsubject : intent.subject with
  | model ref =>
    rw [hsubject] at hid
    obtain ⟨raw, hraw⟩ := hformed.model ref hsubject
    rw [List.mem_singleton.mp hid, hraw, lower.idem]
  | run ref =>
    rw [hsubject] at hid
    obtain ⟨workflowId, runId, rfl⟩ := hformed.run ref hsubject
    rcases List.mem_cons.mp hid with rfl | hid
    · exact lower.idem _
    · rw [List.mem_singleton.mp hid, lower.idem]
  | definition ref | none =>
    rw [hsubject] at hid
    exact absurd hid List.not_mem_nil
  | autoDefinition auto =>
    rw [hsubject] at hid
    obtain ⟨raw, hraw⟩ := hformed.autoDefinition auto hsubject
    rw [List.mem_singleton.mp hid, hraw, lower.idem]

/-- **An intent reads back.** -/
theorem createIntent_rereads (lower : LowerCasing toLowerCase) {value : Json}
    (h : createIntent toLowerCase value = .ok intent) :
    createIntent toLowerCase intent.toJSON = .ok intent := by
  obtain ⟨hformed, -⟩ := createIntent_ok h
  obtain ⟨json, -, h⟩ := bind_ok h
  split at h
  · split at h
    · cases h
    · rename_i kind hkind
      obtain ⟨built, hbuilt, h⟩ := bind_ok h
      obtain ⟨-, -, h⟩ := bind_ok h
      obtain ⟨key, hkey, h⟩ := bind_ok h
      cases h
      have hids : ∀ id ∈ intent.subject.ids, IdReads toLowerCase id := by
        intro id hid
        have hlower := ids_lower lower hformed id hid
        have huuid := ids_of_partition hkey id hid
        rw [hlower] at huuid
        obtain ⟨hlength, -⟩ := isUuid_spec huuid
        refine ⟨hlower, List.ne_nil_of_length_pos (by rw [hlength]; decide), ?_⟩
        rw [hlength]
        decide
      obtain ⟨hsame, hrebuilt⟩ := build_rereads hbuilt hids
      have hkindField : Json.field (Json.present intent.fields) (js "kind") =
          some (.str intent.kind.text) := (intent_field intent _).trans rfl
      have honly : createIntent.requireOnlyFields (Json.present intent.fields) intent.fieldNames
          kind = .ok () := by
        unfold createIntent.requireOnlyFields
        rw [List.find?_eq_none.mpr]
        intro entry hentry
        have hmem : entry.1 ∈ intent.fieldNames :=
          intent_fieldNames intent ▸ List.mem_map.mpr ⟨entry, hentry, rfl⟩
        simp [hmem]
      unfold createIntent Intent.toJSON
      simp only [bind, Except.bind, asObject, hkindField, intentKind_lookup, hsame, hrebuilt, honly,
        hkey]
      rfl
  · cases h

end

end Swamp
