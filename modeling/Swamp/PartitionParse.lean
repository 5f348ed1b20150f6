import Swamp.Intents
import Swamp.NormalizedTypes
import Swamp.SegmentCoding

/-!
# Partition keys read back from their text

Ids are UUIDs, which never hold `--`, so a key parses back without ambiguity.
-/

namespace Js

/-- `s.lastIndexOf(sub)`, for a text that is not empty. -/
def lastIndexOf (sub : JsString) : JsString → Option ℕ
  | [] => none
  | u :: rest =>
    match lastIndexOf sub rest with
    | some i => some (i + 1)
    | none => if startsWith (u :: rest) sub then some 0 else none

end Js

namespace Swamp

open Js

/-- Why a text is no partition key. -/
inductive PartitionParseError where
  | malformedModel
  | malformedRun
  | malformedConfig
  | notValidlyEncoded
  | notCanonicallyEncoded
  | notNormalized
  | unknownKind
  | notCanonical
  | identity (error : PartitionError)

/-- The length of a UUID. -/
def UUID_LENGTH : ℕ := 36

/-- `requireUuid`. -/
def requireUuid (id label : JsString) : Except PartitionParseError Unit :=
  if isUuid id then .ok () else .error (.identity (.uuid label id))

/-- `decodeSegment`. -/
def decodeSegment (segment : JsString) : Except PartitionParseError JsString :=
  match decodeURIComponent segment with
  | none => .error .notValidlyEncoded
  | some decoded =>
    if encodeSegment decoded = some segment then .ok decoded else .error .notCanonicallyEncoded

section

variable (toLowerCase : JsString → JsString)

/-- The identity of a `model--` key, from what stands after that. -/
def parseModel (rest : JsString) : Except PartitionParseError PartitionIdentity :=
  match lastIndexOf (js "--") rest with
  | none => .error .malformedModel
  | some 0 => .error .malformedModel
  | some (i + 1) => do
      let type ← decodeSegment (rest.take (i + 1))
      let id := rest.drop (i + 3)
      requireUuid id (js "model id")
      match ModelType.create toLowerCase type with
      | .error _ => .error .malformedModel
      | .ok created =>
        if created.normalized ≠ type then .error .notNormalized else return .model type id

/-- The identity of a `run--` key. -/
def parseRun (rest : JsString) : Except PartitionParseError PartitionIdentity := do
  if rest.length ≠ UUID_LENGTH * 2 + 2 ∨ (rest.drop UUID_LENGTH).take 2 ≠ js "--" then
    .error .malformedRun
  else
    let workflowId := rest.take UUID_LENGTH
    let runId := rest.drop (UUID_LENGTH + 2)
    requireUuid workflowId (js "workflow id")
    requireUuid runId (js "run id")
    return .run workflowId runId

/-- The identity of a `config--` key: the first kind whose text it starts with. -/
def parseConfig (rest : JsString) : Except PartitionParseError PartitionIdentity :=
  match [DefinitionKind.model, .workflow, .vault].find?
      (fun kind => startsWith rest (kind.text ++ js "--")) with
  | none => .error .malformedConfig
  | some kind => do
      let name ← decodeSegment (rest.drop (kind.text ++ js "--").length)
      if name = [] then .error (.identity .name) else return .config kind name

/-- `parseIdentity`. -/
def parseIdentity (value : JsString) : Except PartitionParseError PartitionIdentity :=
  if startsWith value (js "model--") then parseModel toLowerCase (value.drop (js "model--").length)
  else if startsWith value (js "run--") then parseRun (value.drop (js "run--").length)
  else if value = js "config--lockfile--" ++ LOCKFILE_NAME then .ok .lockfile
  else if startsWith value (js "config--") then parseConfig (value.drop (js "config--").length)
  else if startsWith value (js "definition--") then do
    let id := value.drop (js "definition--").length
    requireUuid id (js "auto-definition id")
    return .definition id
  else .error .unknownKind

/-- `PartitionKey.parse`. -/
def PartitionKey.parse (value : JsString) : Except PartitionParseError PartitionKey := do
  let identity ← parseIdentity toLowerCase value
  let key ← (PartitionKey.fromIdentity identity).mapError .identity
  if key.value ≠ value then .error .notCanonical else return key

/-- The types of an aggregate come from `ModelType.create`. -/
def AggregateIdentity.Typed : AggregateIdentity → Prop
  | .model type _ => ∃ raw, ModelType.create toLowerCase raw = .ok type
  | _ => True

/-- An aggregate once its type is normalized and its ids are lowercased. -/
def AggregateIdentity.lowered : AggregateIdentity → PartitionIdentity
  | .model type id => .model type.normalized (toLowerCase id)
  | .run workflowId runId => .run (toLowerCase workflowId) (toLowerCase runId)
  | .config definitionKind name => .config definitionKind name
  | .lockfile => .lockfile
  | .definition id => .definition (toLowerCase id)

/-- A key built by one of the two functions that build keys. -/
def PartitionKey.Built (key : PartitionKey) : Prop :=
  (∃ identity : AggregateIdentity, identity.Typed toLowerCase ∧
      partitionOf toLowerCase identity = .ok key) ∨
    ∃ value, PartitionKey.parse toLowerCase value = .ok key

end

variable {s : JsString}

theorem not_startsWith_of_noPair (h : NoPair (unit '-') s) : startsWith s (js "--") = false := by
  match s with
  | [] => rfl
  | [u] =>
    simp [startsWith, js, utf16, List.isPrefixOf]
  | u :: v :: rest =>
    rw [startsWith, Bool.eq_false_iff]
    intro hlead
    obtain ⟨tail, htail⟩ := List.isPrefixOf_iff_prefix.mp hlead
    have hdashes : js "--" = [unit '-', unit '-'] := by decide
    rw [hdashes] at htail
    obtain ⟨hu, htail⟩ := List.cons.inj htail
    exact (List.isChain_cons.mp h).1 v rfl ⟨hu.symm, (List.cons.inj htail).1.symm⟩

theorem lastIndexOf_of_noPair (h : NoPair (unit '-') s) : lastIndexOf (js "--") s = none := by
  induction s with
  | nil => rfl
  | cons u rest ih =>
    rw [lastIndexOf, ih h.tail]
    simp only
    rw [not_startsWith_of_noPair h]
    rfl

theorem lastIndexOf_append {a b : JsString} (h : NoPair (unit '-') (unit '-' :: b)) :
    lastIndexOf (js "--") (a ++ js "--" ++ b) = some a.length := by
  have hdashes : js "--" = [unit '-', unit '-'] := by decide
  induction a with
  | nil =>
    have hlast := lastIndexOf_of_noPair h
    rw [hdashes] at hlast ⊢
    change lastIndexOf _ (unit '-' :: unit '-' :: b) = some 0
    rw [lastIndexOf, hlast]
    simp [startsWith]
  | cons u a ih =>
    rw [List.cons_append, List.cons_append, lastIndexOf, ih]
    rfl

theorem isHexUnit_ne_dash {u : CodeUnit} (h : isHexUnit u = true) : u ≠ unit '-' := by
  intro heq
  rw [heq] at h
  exact absurd h (by decide)

/-- Groups of hex digits, none of them empty, leave no two dashes side by side. -/
theorem noPair_intercalate {groups : List JsString}
    (h : ∀ group ∈ groups, group ≠ [] ∧ ∀ u ∈ group, u ≠ unit '-') :
    NoPair (unit '-') (unit '-' :: [unit '-'].intercalate groups) := by
  have hgroup : ∀ (group rest : JsString), (∀ u ∈ group, u ≠ unit '-') →
      NoPair (unit '-') rest → NoPair (unit '-') (group ++ rest) := by
    intro group rest hunits hrest
    induction group with
    | nil => exact hrest
    | cons u group ih =>
      refine List.isChain_cons.mpr ⟨?_, ih (fun v hv => hunits v (List.mem_cons_of_mem _ hv))⟩
      intro next _ hboth
      exact hunits u List.mem_cons_self hboth.1
  have hdash : ∀ (group rest : JsString), group ≠ [] → (∀ u ∈ group, u ≠ unit '-') →
      NoPair (unit '-') (group ++ rest) → NoPair (unit '-') (unit '-' :: (group ++ rest)) := by
    intro group rest hne hunits hrest
    refine List.isChain_cons.mpr ⟨?_, hrest⟩
    intro next hnext hboth
    cases group with
    | nil => exact hne rfl
    | cons u group =>
      have hu : u = next := Option.some.inj hnext
      exact hunits u List.mem_cons_self (hu.trans hboth.2)
  induction groups with
  | nil => exact List.isChain_singleton _
  | cons group groups ih =>
    obtain ⟨hne, hunits⟩ := h group List.mem_cons_self
    have hrest := ih (fun g hg => h g (List.mem_cons_of_mem _ hg))
    cases groups with
    | nil =>
      have hone : [unit '-'].intercalate [group] = group ++ [] := by simp
      rw [hone]
      exact hdash group [] hne hunits (hgroup group [] hunits List.isChain_nil)
    | cons next groups =>
      rw [List.intercalate_cons_cons, List.append_assoc]
      exact hdash group _ hne hunits (hgroup group _ hunits hrest)

variable {id : JsString}

/-- What a UUID is. -/
theorem isUuid_spec (h : isUuid id = true) :
    id.length = UUID_LENGTH ∧ NoPair (unit '-') (unit '-' :: id) := by
  unfold isUuid at h
  split at h
  · rename_i a b c d e hsplit
    simp only [Bool.and_eq_true, beq_iff_eq, List.all_cons, List.all_nil, List.all_eq_true,
      and_true, List.map_cons, List.map_nil, List.cons.injEq] at h
    obtain ⟨⟨ha, hb, hc, hd, he⟩, hahex, hbhex, hchex, hdhex, hehex⟩ := h
    have hjoin : id = [unit '-'].intercalate [a, b, c, d, e] := by
      rw [← hsplit]
      exact (List.intercalate_splitOn (unit '-')).symm
    have hgroups : ∀ group ∈ [a, b, c, d, e], group ≠ [] ∧ ∀ u ∈ group, u ≠ unit '-' := by
      intro group hgroup
      simp only [List.mem_cons, List.not_mem_nil, or_false] at hgroup
      rcases hgroup with rfl | rfl | rfl | rfl | rfl
      · exact ⟨List.ne_nil_of_length_pos (by omega), fun u hu => isHexUnit_ne_dash (hahex u hu)⟩
      · exact ⟨List.ne_nil_of_length_pos (by omega), fun u hu => isHexUnit_ne_dash (hbhex u hu)⟩
      · exact ⟨List.ne_nil_of_length_pos (by omega), fun u hu => isHexUnit_ne_dash (hchex u hu)⟩
      · exact ⟨List.ne_nil_of_length_pos (by omega), fun u hu => isHexUnit_ne_dash (hdhex u hu)⟩
      · exact ⟨List.ne_nil_of_length_pos (by omega), fun u hu => isHexUnit_ne_dash (hehex u hu)⟩
    rw [hjoin]
    refine ⟨?_, noPair_intercalate hgroups⟩
    simp only [List.intercalate_cons_cons, List.intercalate_singleton, List.length_append,
      List.length_cons, List.length_nil, UUID_LENGTH]
    omega
  · cases h

section

variable {toLowerCase : JsString → JsString}

variable {segment : JsString}

theorem decodeSegment_encodeSegment (h : encodeSegment s = some segment) :
    decodeSegment segment = .ok s := by
  unfold decodeSegment
  rw [decodeURIComponent_encodeSegment h]
  simp only
  rw [if_pos h]

theorem requireUuid_of_isUuid {label : JsString} (h : isUuid id = true) :
    requireUuid id label = .ok () := by
  rw [requireUuid, if_pos h]

/-- What `partitionIdentity` makes of an aggregate. -/
def PartitionIdentity.Canonical (toLowerCase : JsString → JsString) : PartitionIdentity → Prop
  | .model type id =>
    (∃ created, ModelType.create toLowerCase type = .ok created ∧ created.normalized = type) ∧
      isUuid id = true
  | .run workflowId runId => isUuid workflowId = true ∧ isUuid runId = true
  | .config _ name => name ≠ []
  | .lockfile => True
  | .definition id => isUuid id = true

theorem canonicalUuid_ok {label canonical : JsString}
    (h : canonicalUuid toLowerCase id label = .ok canonical) :
    canonical = toLowerCase id ∧ isUuid canonical = true := by
  unfold canonicalUuid at h
  simp only at h
  split at h
  · rename_i huuid
    cases h
    exact ⟨rfl, huuid⟩
  · cases h

variable {identity : AggregateIdentity}

theorem partitionIdentity_canonical (lower : LowerCasing toLowerCase) {made : PartitionIdentity}
    (htyped : identity.Typed toLowerCase) (h : partitionIdentity toLowerCase identity = .ok made) :
    made.Canonical toLowerCase := by
  cases identity with
  | model type id =>
    obtain ⟨raw, hraw⟩ := htyped
    obtain ⟨canonical, hcanonical, h⟩ := ExceptRules.bind_ok h
    cases h
    exact ⟨⟨_, ModelType.create_normalized lower hraw, rfl⟩, (canonicalUuid_ok hcanonical).2⟩
  | run workflowId runId =>
    obtain ⟨workflow, hworkflow, h⟩ := ExceptRules.bind_ok h
    obtain ⟨run, hrun, h⟩ := ExceptRules.bind_ok h
    cases h
    exact ⟨(canonicalUuid_ok hworkflow).2, (canonicalUuid_ok hrun).2⟩
  | config definitionKind name =>
    rw [partitionIdentity] at h
    split at h
    · cases h
    · rename_i hne
      cases h
      exact hne
  | lockfile =>
    cases h
    trivial
  | definition id =>
    obtain ⟨canonical, hcanonical, h⟩ := ExceptRules.bind_ok h
    cases h
    exact (canonicalUuid_ok hcanonical).2

theorem startsWith_append (lead rest : JsString) : startsWith (lead ++ rest) lead = true :=
  List.isPrefixOf_iff_prefix.mpr (List.prefix_append lead rest)

/-- Two leads that begin with different units. -/
def LeadsApart (own lead : JsString) : Prop :=
  own.head?.isSome ∧ lead.head?.isSome ∧ own.head? ≠ lead.head?

instance (own lead : JsString) : Decidable (LeadsApart own lead) :=
  inferInstanceAs (Decidable (_ ∧ _ ∧ _))

theorem LeadsApart.ne {own lead : JsString} (h : LeadsApart own lead) (rest tail : JsString) :
    own ++ rest ≠ lead ++ tail := by
  obtain ⟨hown, hlead, hne⟩ := h
  cases own with
  | nil => cases hown
  | cons u own =>
    cases lead with
    | nil => cases hlead
    | cons v lead => exact fun heq => hne (congrArg some (List.cons.inj heq).1)

theorem LeadsApart.not_startsWith {own lead : JsString} (h : LeadsApart own lead)
    (rest : JsString) : ¬ startsWith (own ++ rest) lead = true := by
  intro hlead
  obtain ⟨tail, htail⟩ := List.isPrefixOf_iff_prefix.mp hlead
  exact h.ne rest tail htail.symm

theorem encodeSegment_nil_iff (h : encodeSegment s = some segment) : segment = [] ↔ s = [] := by
  have hdecoded := decodeURIComponent_encodeSegment h
  constructor
  · intro hnil
    rw [hnil] at hdecoded
    exact (Option.some.inj hdecoded).symm
  · intro hnil
    rw [hnil] at h
    exact (Option.some.inj h).symm

theorem parseModel_format {type : JsString} (hsegment : encodeSegment type = some segment)
    (hcanonical : (PartitionIdentity.model type id).Canonical toLowerCase) (hne : type ≠ []) :
    parseModel toLowerCase (segment ++ js "--" ++ id) = .ok (.model type id) := by
  obtain ⟨⟨created, hcreated, hnormalized⟩, huuid⟩ := hcanonical
  obtain ⟨-, hpair⟩ := isUuid_spec huuid
  have hsegmentNe : segment ≠ [] := fun hnil => hne ((encodeSegment_nil_iff hsegment).mp hnil)
  obtain ⟨i, hi⟩ : ∃ i, segment.length = i + 1 :=
    ⟨segment.length - 1, by have := List.length_pos_of_ne_nil hsegmentNe; omega⟩
  unfold parseModel
  rw [lastIndexOf_append hpair, hi]
  simp only
  have htake : (segment ++ js "--" ++ id).take (i + 1) = segment := by
    rw [List.append_assoc, ← hi, List.take_left]
  have hdrop : (segment ++ js "--" ++ id).drop (i + 3) = id := by
    have hlength : (segment ++ js "--").length = i + 3 := by
      rw [List.length_append, hi]
      rfl
    rw [← hlength, List.drop_left]
  rw [htake, hdrop, decodeSegment_encodeSegment hsegment, requireUuid_of_isUuid huuid]
  simp only [bind, Except.bind, hcreated, hnormalized, ne_eq, not_true_eq_false, if_false]
  rfl

theorem parseRun_format {workflowId runId : JsString} (hworkflow : isUuid workflowId = true)
    (hrun : isUuid runId = true) :
    parseRun (workflowId ++ js "--" ++ runId) = .ok (.run workflowId runId) := by
  obtain ⟨hworkflowLength, -⟩ := isUuid_spec hworkflow
  obtain ⟨hrunLength, -⟩ := isUuid_spec hrun
  have hdashes : (js "--").length = 2 := rfl
  have hdropWorkflow : (workflowId ++ js "--" ++ runId).drop UUID_LENGTH = js "--" ++ runId := by
    rw [List.append_assoc, ← hworkflowLength, List.drop_left]
  have htakeWorkflow : (workflowId ++ js "--" ++ runId).take UUID_LENGTH = workflowId := by
    rw [List.append_assoc, ← hworkflowLength, List.take_left]
  have hdropRun : (workflowId ++ js "--" ++ runId).drop (UUID_LENGTH + 2) = runId := by
    have hlength : (workflowId ++ js "--").length = UUID_LENGTH + 2 := by
      rw [List.length_append, hworkflowLength, hdashes]
    rw [← hlength, List.drop_left]
  have htakeDashes : (js "--" ++ runId).take 2 = js "--" := by
    rw [← hdashes, List.take_left]
  unfold parseRun
  rw [if_neg, htakeWorkflow, hdropRun]
  · simp only
    rw [requireUuid_of_isUuid hworkflow, requireUuid_of_isUuid hrun]
    rfl
  · rw [hdropWorkflow, htakeDashes, List.length_append, List.length_append, hworkflowLength,
      hrunLength, hdashes]
    simp [UUID_LENGTH]

theorem parseConfig_format {kind : DefinitionKind} {name : JsString}
    (hsegment : encodeSegment name = some segment) (hne : name ≠ []) :
    parseConfig (kind.text ++ js "--" ++ segment) = .ok (.config kind name) := by
  have hfind : [DefinitionKind.model, .workflow, .vault].find?
      (fun other => startsWith (kind.text ++ js "--" ++ segment) (other.text ++ js "--")) =
        some kind := by
    have hown := startsWith_append (kind.text ++ js "--") segment
    have hother : ∀ other : DefinitionKind, other ≠ kind →
        ¬ startsWith (kind.text ++ js "--" ++ segment) (other.text ++ js "--") = true := by
      intro other hne
      rw [List.append_assoc]
      refine LeadsApart.not_startsWith ?_ _
      revert hne
      cases kind <;> cases other <;> decide
    cases kind with
    | model => rw [List.find?_cons_of_pos (by exact hown)]
    | workflow =>
      rw [List.find?_cons_of_neg (by exact hother _ (by decide)),
        List.find?_cons_of_pos (by exact hown)]
    | vault =>
      rw [List.find?_cons_of_neg (by exact hother _ (by decide)),
        List.find?_cons_of_neg (by exact hother _ (by decide)),
        List.find?_cons_of_pos (by exact hown)]
  unfold parseConfig
  rw [hfind]
  simp only
  rw [List.drop_left, decodeSegment_encodeSegment hsegment]
  simp only [bind, Except.bind, hne, if_false]
  rfl

/-- **An identity reads back from its text.** -/
theorem parseIdentity_format {identity : PartitionIdentity} {value : JsString}
    (hcanonical : identity.Canonical toLowerCase) (h : identity.format = some value) :
    parseIdentity toLowerCase value = .ok identity := by
  cases identity with
  | model type id =>
    obtain ⟨segment, hsegment, rfl⟩ := Option.map_eq_some_iff.mp h
    have hne : type ≠ [] := by
      obtain ⟨⟨created, hcreated, -⟩, -⟩ := hcanonical
      intro hnil
      rw [hnil] at hcreated
      cases hcreated
    have hvalue : js "model--" ++ segment ++ js "--" ++ id =
        js "model--" ++ (segment ++ js "--" ++ id) := by simp
    rw [hvalue, parseIdentity, if_pos (startsWith_append _ _), List.drop_left]
    exact parseModel_format hsegment hcanonical hne
  | run workflowId runId =>
    cases h
    have hvalue : js "run--" ++ workflowId ++ js "--" ++ runId =
        js "run--" ++ (workflowId ++ js "--" ++ runId) := by simp
    rw [hvalue, parseIdentity, if_neg, if_pos (startsWith_append _ _), List.drop_left]
    · exact parseRun_format hcanonical.1 hcanonical.2
    · exact LeadsApart.not_startsWith (by decide) _
  | config definitionKind name =>
    obtain ⟨segment, hsegment, rfl⟩ := Option.map_eq_some_iff.mp h
    have hvalue : js "config--" ++ definitionKind.text ++ js "--" ++ segment =
        js "config--" ++ (definitionKind.text ++ js "--" ++ segment) := by simp
    have hlockfile : js "config--" ++ (definitionKind.text ++ js "--" ++ segment) ≠
        js "config--lockfile--" ++ LOCKFILE_NAME := by
      intro heq
      have hsplit : js "config--lockfile--" = js "config--" ++ js "lockfile--" := by decide
      rw [hsplit, List.append_assoc (js "config--")] at heq
      have htail := List.append_cancel_left heq
      rw [List.append_assoc] at htail
      refine LeadsApart.ne ?_ _ _ htail
      cases definitionKind <;> decide
    rw [hvalue, parseIdentity, if_neg, if_neg, if_neg hlockfile, if_pos (startsWith_append _ _),
      List.drop_left]
    · exact parseConfig_format hsegment hcanonical
    · exact LeadsApart.not_startsWith (by decide) _
    · exact LeadsApart.not_startsWith (by decide) _
  | lockfile =>
    cases h
    rw [parseIdentity, if_neg, if_neg, if_pos rfl]
    · exact LeadsApart.not_startsWith (by decide) _
    · exact LeadsApart.not_startsWith (by decide) _
  | definition id =>
    cases h
    rw [parseIdentity, if_neg, if_neg, if_neg, if_neg, if_pos (startsWith_append _ _)]
    · simp only
      rw [List.drop_left, requireUuid_of_isUuid hcanonical]
      rfl
    · exact LeadsApart.not_startsWith (by decide) _
    · exact LeadsApart.ne (by decide) _ _
    · exact LeadsApart.not_startsWith (by decide) _
    · exact LeadsApart.not_startsWith (by decide) _

/-- A key is built of its own identity. -/
theorem fromIdentity_self (key : PartitionKey) :
    PartitionKey.fromIdentity key.identity = .ok key := by
  obtain ⟨value, identity, formatted, short⟩ := key
  unfold PartitionKey.fromIdentity
  split
  · rename_i hnone
    rw [formatted] at hnone
    cases hnone
  · rename_i other hother
    have hvalue : value = other := Option.some.inj (formatted.symm.trans hother)
    subst hvalue
    rw [dif_pos short]

variable {key : PartitionKey}

/-- **A key reads back from its text.** -/
theorem PartitionKey.parse_value (lower : LowerCasing toLowerCase) (h : key.Built toLowerCase) :
    PartitionKey.parse toLowerCase key.value = .ok key := by
  rcases h with ⟨identity, htyped, h⟩ | ⟨value, h⟩
  · obtain ⟨made, hmade, h⟩ := ExceptRules.bind_ok h
    have hidentity := fromIdentity_identity h
    have hcanonical := partitionIdentity_canonical lower htyped hmade
    rw [← hidentity] at hcanonical
    unfold PartitionKey.parse
    rw [parseIdentity_format hcanonical key.formatted]
    simp only [bind, Except.bind, fromIdentity_self, Except.mapError, ne_eq, not_true_eq_false,
      if_false]
    rfl
  · have hsame : key.value = value := by
      obtain ⟨identity, -, h⟩ := ExceptRules.bind_ok h
      obtain ⟨made, -, h⟩ := ExceptRules.bind_ok h
      split at h
      · cases h
      · rename_i hvalue
        cases h
        exact not_not.mp hvalue
    rw [hsame]
    exact h

/-- A text that parses is the text of its identity. -/
theorem PartitionKey.parse_format {value : JsString}
    (h : PartitionKey.parse toLowerCase value = .ok key) : key.identity.format = some value := by
  obtain ⟨identity, -, h⟩ := ExceptRules.bind_ok h
  obtain ⟨made, -, h⟩ := ExceptRules.bind_ok h
  split at h
  · cases h
  · rename_i hvalue
    cases h
    rw [key.formatted, not_not.mp hvalue]

theorem partitionIdentity_lowered {made : PartitionIdentity}
    (h : partitionIdentity toLowerCase identity = .ok made) :
    made = identity.lowered toLowerCase := by
  cases identity with
  | model type id | definition id =>
    obtain ⟨canonical, hcanonical, h⟩ := ExceptRules.bind_ok h
    cases h
    rw [(canonicalUuid_ok hcanonical).1]
    rfl
  | run workflowId runId =>
    obtain ⟨workflow, hworkflow, h⟩ := ExceptRules.bind_ok h
    obtain ⟨run, hrun, h⟩ := ExceptRules.bind_ok h
    cases h
    rw [(canonicalUuid_ok hworkflow).1, (canonicalUuid_ok hrun).1]
    rfl
  | config definitionKind name =>
    rw [partitionIdentity] at h
    split at h
    · cases h
    · cases h
      rfl
  | lockfile =>
    cases h
    rfl

theorem partitionOf_lowered (h : partitionOf toLowerCase identity = .ok key) :
    key.identity = identity.lowered toLowerCase := by
  obtain ⟨made, hmade, h⟩ := ExceptRules.bind_ok h
  rw [fromIdentity_identity h, partitionIdentity_lowered hmade]

/-- **A key's text says which aggregate it is of.**  Every key `partitionOf` makes
is what `parse` reads from its text, two keys have one text exactly when their
aggregates agree once types are normalized and ids lowercased, and a text that
parses is the text of the identity it parses to. -/
theorem partition_keys_one_to_one (lower : LowerCasing toLowerCase) :
    (∀ (identity : AggregateIdentity) (key : PartitionKey), identity.Typed toLowerCase →
      partitionOf toLowerCase identity = .ok key →
        PartitionKey.parse toLowerCase key.value = .ok key ∧
          key.identity = identity.lowered toLowerCase) ∧
    (∀ (a b : AggregateIdentity) (keyA keyB : PartitionKey), a.Typed toLowerCase →
      b.Typed toLowerCase → partitionOf toLowerCase a = .ok keyA →
        partitionOf toLowerCase b = .ok keyB →
          (keyA.value = keyB.value ↔ a.lowered toLowerCase = b.lowered toLowerCase)) ∧
    ∀ (value : JsString) (key : PartitionKey), PartitionKey.parse toLowerCase value = .ok key →
      key.value = value ∧ key.identity.format = some value := by
  refine ⟨?_, ?_, ?_⟩
  · intro identity key htyped h
    exact ⟨PartitionKey.parse_value lower (.inl ⟨identity, htyped, h⟩), partitionOf_lowered h⟩
  · intro a b keyA keyB htypedA htypedB ha hb
    constructor
    · intro hvalue
      have hparsedA := PartitionKey.parse_value lower (.inl ⟨a, htypedA, ha⟩)
      have hparsedB := PartitionKey.parse_value lower (.inl ⟨b, htypedB, hb⟩)
      rw [hvalue, hparsedB] at hparsedA
      have hkey : keyB = keyA := Except.ok.inj hparsedA
      rw [← partitionOf_lowered ha, ← partitionOf_lowered hb, hkey]
    · intro hlowered
      have hidentity : keyA.identity = keyB.identity := by
        rw [partitionOf_lowered ha, partitionOf_lowered hb, hlowered]
      have hformatted := keyA.formatted
      rw [hidentity, keyB.formatted] at hformatted
      exact (Option.some.inj hformatted).symm
  · intro value key h
    have hformat := PartitionKey.parse_format h
    have hvalue : key.value = value := Option.some.inj (key.formatted.symm.trans hformat)
    exact ⟨hvalue, hformat⟩

end

/-- A type whose name ends in the separator's unit. -/
theorem partition_keys_one_to_one_dashes :
    ∃ key, partitionOf latinLower
        (.model ⟨js "A--b-", js "a--b-"⟩ (js "0A000000-0000-0000-0000-000000000000")) = .ok key ∧
      PartitionKey.parse latinLower key.value = .ok key := by
  have haccepted : (partitionOf latinLower
      (.model ⟨js "A--b-", js "a--b-"⟩ (js "0A000000-0000-0000-0000-000000000000"))).toOption.isSome := by
    decide +kernel
  cases hkey : partitionOf latinLower
      (.model ⟨js "A--b-", js "a--b-"⟩ (js "0A000000-0000-0000-0000-000000000000")) with
  | error e =>
    rw [hkey] at haccepted
    cases haccepted
  | ok key =>
    exact ⟨key, rfl, ((partition_keys_one_to_one latinLower_lowerCasing).1 _ key
      (by exact ⟨js "A--b-", by decide +kernel⟩) hkey).1⟩

end Swamp
