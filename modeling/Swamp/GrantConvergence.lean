import Swamp.GrantFates

/-!
# Where a reconciliation converges

The active grants of a file end as one for each of its entries.  What a kept copy says
is what its entry says where keys tell grants apart; a key joins free texts with bars,
and two texts that hold bars themselves may come to one key.
-/

namespace Swamp

open Js

namespace Access

/-- A grant says what an entry says, its methods apart: its actions in any order, its
condition trimmed. -/
structure SameTerms (grant : SourcedGrant) (entry : GrantFileEntry) : Prop where
  subject : grant.subject = entry.subject
  effect : grant.effect = entry.effect
  actions : grant.actions.Perm entry.actions
  resource : grant.resource = entry.resource
  condition : conditionText grant.condition = conditionText entry.condition

/-- A stored grant stands for an entry of a file. -/
structure StandsFor (record : GrantRecord) (filename : JsString) (entry : GrantFileEntry) :
    Prop where
  source : record.grant.source = FILE_SOURCE ++ filename
  active : record.grant.state = .active
  terms : SameTerms record.grant entry
  methods : Option.Rel List.Perm record.grant.methods entry.methods

/-- The active grants of a file are one for each of its entries. -/
def OneToOne (store : GrantStore) (filename : JsString) (entries : List GrantFileEntry) : Prop :=
  ∃ slot : ℕ → JsString,
    (∀ i entry, entries[i]? = some entry →
      ∃ record, store.get (slot i) = some record ∧ StandsFor record filename entry) ∧
    (∀ i j, i < entries.length → j < entries.length → slot i = slot j → i = j) ∧
    ∀ modelId record, store.get modelId = some record →
      record.grant.source = FILE_SOURCE ++ filename → record.grant.state = .active →
        ∃ i < entries.length, slot i = modelId

/-- What a reconciliation comes to. -/
structure Converged (fileEntries : OrderedMap JsString (List GrantFileEntry))
    (isSourceUnavailable : JsString → Bool) (before after : GrantStore) : Prop where
  processed : ∀ filename entries, fileEntries.get filename = some entries →
    OneToOne after filename entries
  gone : ∀ filename, fileEntries.get filename = none → isSourceUnavailable filename = false →
    ∀ modelId record, after.get modelId = some record →
      record.grant.source = FILE_SOURCE ++ filename → record.grant.state = .revoked
  unavailable : ∀ filename, fileEntries.get filename = none →
    isSourceUnavailable filename = true → ∀ modelId record,
      record.grant.source = FILE_SOURCE ++ filename →
        (after.get modelId = some record ↔ before.get modelId = some record)
  others : ∀ modelId record, isFileSource record.grant.source = false →
    (after.get modelId = some record ↔ before.get modelId = some record)
  settled : ∀ draws,
    (reconcileAllFileGrants fileEntries after isSourceUnavailable draws).writes = []

/-- Each copy that is kept for an entry says what the entry says. -/
def KeepersMatch (fileEntries : OrderedMap JsString (List GrantFileEntry)) (store : GrantStore) :
    Prop :=
  ∀ filename entries, fileEntries.get filename = some entries → ∀ entry ∈ entries, ∀ keeper,
    selectKeeper (copiesOf (queryFileGrants store) filename (entryIdentityKey entry)) =
      some keeper → SameTerms keeper.grant entry

theorem sortTexts_of_perm {texts texts' : List JsString} (h : texts.Perm texts') :
    sortTexts texts = sortTexts texts' := by
  have hperm : (sortTexts texts).Perm (sortTexts texts') :=
    (List.perm_insertionSort _ texts).trans (h.trans (List.perm_insertionSort _ texts').symm)
  exact hperm.eq_of_pairwise' (List.pairwise_insertionSort _ texts)
    (List.pairwise_insertionSort _ texts')

variable {grant : SourcedGrant} {entry : GrantFileEntry}

/-- Equal terms have equal keys. -/
theorem SameTerms.key (h : SameTerms grant entry) :
    grantIdentityKey grant = entryIdentityKey entry := by
  unfold grantIdentityKey entryIdentityKey identityKey
  rw [h.subject, h.effect, h.resource, h.condition, sortTexts_of_perm (h.actions.map Action.text)]

/-- A kept copy says what it said. -/
theorem sameTerms_keep_iff {other : GrantFileEntry} :
    SameTerms (grant.keep entry) other ↔ SameTerms grant other := by
  unfold SourcedGrant.keep
  split
  · split
    · rfl
    · exact ⟨fun h => ⟨h.1, h.2, h.3, h.4, h.5⟩, fun h => ⟨h.1, h.2, h.3, h.4, h.5⟩⟩
  · exact ⟨fun h => ⟨h.1, h.2, h.3, h.4, h.5⟩, fun h => ⟨h.1, h.2, h.3, h.4, h.5⟩⟩

theorem rel_of_methodsEqual {a b : Option (List JsString)} (h : methodsEqual a b = true) :
    Option.Rel List.Perm a b := by
  cases a with
  | none =>
    cases b with
    | none => exact Option.Rel.none
    | some b => cases h
  | some a =>
    cases b with
    | none => cases h
    | some b =>
      have hsorted : sortTexts a = sortTexts b := by
        rw [methodsEqual, Bool.and_eq_true] at h
        simpa using h.2
      exact Option.Rel.some (perm_of_sortTexts (congrArg textArray hsorted))

variable {filename : JsString} {entries : List GrantFileEntry}

section

variable {fileEntries : OrderedMap JsString (List GrantFileEntry)}
  {isSourceUnavailable : JsString → Bool} {store : GrantStore}
  {draws : JsString → ℕ → DrawnIds} {applied : List GrantWrite}

theorem grantOfEntry_terms {i : ℕ}
    (h : ∀ keeper, selectKeeper (copiesOf (queryFileGrants store) filename
      (entryIdentityKey entry)) = some keeper → SameTerms keeper.grant entry) :
    SameTerms (grantOfEntry store draws filename i entry).grant entry := by
  unfold grantOfEntry
  split
  · rename_i keeper hkeeper
    exact sameTerms_keep_iff.mpr (h keeper hkeeper)
  · exact ⟨rfl, rfl, List.Perm.refl _, rfl, rfl⟩

section

variable (hkeys : DistinctKeys fileEntries) (hfresh : FreshIds draws store)
  (happlied : applied.Perm
    (reconcileAllFileGrants fileEntries store isSourceUnavailable draws).writes)

include hkeys hfresh happlied

theorem oneToOne_applied (hmatch : KeepersMatch fileEntries store)
    (hget : fileEntries.get filename = some entries) :
    OneToOne (store.setAll applied) filename entries := by
  have hmem : ∀ {i : ℕ} {entry : GrantFileEntry}, entries[i]? = some entry →
      grantOfEntry store draws filename i entry ∈ queryFileGrants (store.setAll applied) :=
    fun hat => grantOfEntry_mem hkeys hfresh happlied ⟨entries, hget, hat⟩
  refine ⟨fun i => ((entries[i]?).map
    (fun entry => (grantOfEntry store draws filename i entry).modelId)).getD [], ?_, ?_, ?_⟩
  · intro i entry hat
    simp only [hat, Option.map_some, Option.getD_some]
    refine ⟨_, (mem_queryFileGrants.mp (hmem hat)).1, ?_⟩
    exact
      { source :=
          parseFileSourceFilename_eq_some.mp (grantOfEntry_file store draws filename i entry)
        active := grantOfEntry_active store draws filename i entry
        terms := grantOfEntry_terms
          (hmatch filename entries hget entry (List.mem_of_getElem? hat))
        methods := rel_of_methodsEqual (grantOfEntry_methods store draws filename i entry) }
  · intro i j hi hj hslot
    have hati := List.getElem?_eq_getElem hi
    have hatj := List.getElem?_eq_getElem hj
    simp only [hati, hatj, Option.map_some, Option.getD_some] at hslot
    have hsame := eq_of_modelId (hmem hati) (hmem hatj) hslot
    have hkey := congrArg (fun stored => grantIdentityKey stored.grant) hsame
    simp only [grantOfEntry_key] at hkey
    exact (entry_of_key hkeys ⟨entries, hget, hati⟩ ⟨entries, hget, hatj⟩ hkey).1
  · intro modelId record hrecord hsource hactive
    have hfile := parseFileSourceFilename_eq_some.mpr hsource
    have hstored : (⟨record.grant, modelId, record.instanceName⟩ : StoredFileGrant) ∈
        queryFileGrants (store.setAll applied) :=
      mem_queryFileGrants.mpr ⟨hrecord, isFileSource_of_filename hfile⟩
    rcases active_applied hkeys hfresh happlied hstored hfile hactive with
      ⟨hnone, -⟩ | ⟨i, entry, ⟨entries', hget', hat⟩, hsame⟩
    · rw [hget] at hnone
      cases hnone
    · obtain rfl := Option.some.inj (hget.symm.trans hget')
      refine ⟨i, (List.getElem?_eq_some_iff.mp hat).1, ?_⟩
      simp only [hat, Option.map_some, Option.getD_some, ← hsame]

theorem get_applied_unavailable (hget : fileEntries.get filename = none)
    (hout : isSourceUnavailable filename = true) {modelId : JsString} {record : GrantRecord}
    (hsource : record.grant.source = FILE_SOURCE ++ filename) :
    (store.setAll applied).get modelId = some record ↔ store.get modelId = some record := by
  have hfile := parseFileSourceFilename_eq_some.mpr hsource
  have hkept : ∀ stored : StoredFileGrant,
      parseFileSourceFilename stored.grant.source = some filename →
      fate fileEntries isSourceUnavailable (queryFileGrants store) stored = stored.grant := by
    intro stored hstored
    apply fate_of_kept
    intro other hother
    obtain rfl := Option.some.inj (hstored.symm.trans hother)
    exact ⟨hget, hout⟩
  constructor
  · intro h
    rcases get_applied_cases hkeys hfresh happlied h with ⟨-, hother⟩ |
      ⟨stored, hstored, rfl, rfl⟩ | ⟨file, i, entry, ⟨⟨entries, hentries, -⟩, -⟩, -, rfl⟩
    · rw [isFileSource_of_filename hfile] at hother
      cases hother
    · rw [fate_source] at hfile
      rw [hkept stored hfile]
      exact (mem_queryFileGrants.mp hstored).1
    · obtain rfl := Option.some.inj ((createdGrant_file draws file i entry).symm.trans hfile)
      rw [hget] at hentries
      cases hentries
  · intro h
    have hstored : (⟨record.grant, modelId, record.instanceName⟩ : StoredFileGrant) ∈
        queryFileGrants store := mem_queryFileGrants.mpr ⟨h, isFileSource_of_filename hfile⟩
    have hafter := get_applied_stored hkeys hfresh happlied hstored
    rwa [hkept _ hfile] at hafter

theorem keepersMatch_of_oneToOne
    (h : ∀ filename entries, fileEntries.get filename = some entries →
      OneToOne (store.setAll applied) filename entries) : KeepersMatch fileEntries store := by
  intro filename entries hget entry hentry keeper hkeeper
  obtain ⟨i, hat⟩ := List.mem_iff_getElem?.mp hentry
  obtain ⟨slot, hstands, -, hcovers⟩ := h filename entries hget
  have hmine : grantOfEntry store draws filename i entry =
      keeper.met (keeper.grant.keep entry) := by
    rw [grantOfEntry, hkeeper]
  have hstored := (mem_queryFileGrants.mp
    (grantOfEntry_mem hkeys hfresh happlied ⟨entries, hget, hat⟩)).1
  obtain ⟨j, hj, hslot⟩ := hcovers _ _ hstored
    (parseFileSourceFilename_eq_some.mp (grantOfEntry_file store draws filename i entry))
    (grantOfEntry_active store draws filename i entry)
  obtain ⟨record, hrecord, hstand⟩ := hstands j _ (List.getElem?_eq_getElem hj)
  rw [hslot, hstored] at hrecord
  have hgrant := congrArg GrantRecord.grant (Option.some.inj hrecord)
  have hterms := hstand.terms
  rw [← hgrant] at hterms
  have hkey := hterms.key
  rw [grantOfEntry_key] at hkey
  obtain ⟨rfl, hsame⟩ := entry_of_key hkeys ⟨entries, hget, hat⟩
    ⟨entries, hget, List.getElem?_eq_getElem hj⟩ hkey
  rw [← hsame, hmine] at hterms
  exact sameTerms_keep_iff.mp hterms

end

end

/-- **Where a reconciliation converges.**  With its writes applied in any order, it
converges exactly where each copy kept for an entry says what the entry says; only the
active grants of the files that were read depend on that. -/
theorem converged_iff {fileEntries : OrderedMap JsString (List GrantFileEntry)}
    {isSourceUnavailable : JsString → Bool} {store : GrantStore}
    {draws : JsString → ℕ → DrawnIds} {applied : List GrantWrite}
    (hkeys : DistinctKeys fileEntries) (hfresh : FreshIds draws store)
    (happlied : applied.Perm
      (reconcileAllFileGrants fileEntries store isSourceUnavailable draws).writes) :
    Converged fileEntries isSourceUnavailable store (store.setAll applied) ↔
      KeepersMatch fileEntries store := by
  constructor
  · intro h
    exact keepersMatch_of_oneToOne hkeys hfresh happlied h.processed
  · intro hmatch
    exact
      { processed := fun filename entries hget =>
          oneToOne_applied hkeys hfresh happlied hmatch hget
        gone := by
          intro filename hget havailable modelId record hrecord hsource
          cases hstate : record.grant.state with
          | revoked => rfl
          | active =>
            have hfile := parseFileSourceFilename_eq_some.mpr hsource
            have hstored : (⟨record.grant, modelId, record.instanceName⟩ : StoredFileGrant) ∈
                queryFileGrants (store.setAll applied) :=
              mem_queryFileGrants.mpr ⟨hrecord, isFileSource_of_filename hfile⟩
            rcases active_applied hkeys hfresh happlied hstored hfile hstate with
              ⟨-, hout⟩ | ⟨i, entry, ⟨entries, hentries, -⟩, -⟩
            · rw [havailable] at hout
              cases hout
            · rw [hget] at hentries
              cases hentries
        unavailable := fun filename hget hout modelId record hsource =>
          get_applied_unavailable hkeys hfresh happlied hget hout hsource
        others := fun modelId record hsource =>
          get_applied_other hkeys hfresh happlied hsource
        settled := rerun_writes_nothing hkeys hfresh happlied }

theorem append_first_inj {u : CodeUnit} {a b x y : JsString} (ha : u ∉ a) (hb : u ∉ b)
    (h : a ++ u :: x = b ++ u :: y) : a = b ∧ x = y := by
  induction a generalizing b with
  | nil =>
    cases b with
    | nil => exact ⟨rfl, (List.cons.inj h).2⟩
    | cons v b =>
      obtain rfl := (List.cons.inj h).1
      exact absurd List.mem_cons_self hb
  | cons v a ih =>
    cases b with
    | nil =>
      obtain rfl := (List.cons.inj h).1
      exact absurd List.mem_cons_self ha
    | cons w b =>
      obtain ⟨rfl, hrest⟩ := List.cons.inj h
      rw [List.mem_cons, not_or] at ha hb
      obtain ⟨rfl, rfl⟩ := ih ha.2 hb.2 hrest
      exact ⟨rfl, rfl⟩

/-- No bar in the free texts of a key but the last. -/
def BarFree (subject : Subject) (resource : ResourceSelector) : Prop :=
  unit '|' ∉ subject.name ∧ unit '|' ∉ resource.pattern

theorem subjectKindText_injective : Function.Injective SubjectKind.text := by
  intro a b h
  cases a <;> cases b <;> first | rfl | exact absurd h (by decide)

theorem subject_of_text {subject other : Subject}
    (h : subject.kind.text ++ js ":" ++ subject.name = other.kind.text ++ js ":" ++ other.name) :
    subject = other := by
  have hkind : ∀ kind : SubjectKind, unit ':' ∉ kind.text := by
    intro kind
    cases kind <;> decide
  rw [List.append_assoc, List.append_assoc] at h
  obtain ⟨htext, hname⟩ := append_first_inj (hkind _) (hkind _) h
  obtain ⟨kind, name⟩ := subject
  obtain ⟨kind', name'⟩ := other
  obtain rfl : kind = kind' := subjectKindText_injective htext
  obtain rfl : name = name' := hname
  rfl

theorem resource_of_text {resource other : ResourceSelector}
    (h : resource.kind.text ++ js ":" ++ resource.pattern =
      other.kind.text ++ js ":" ++ other.pattern) : resource = other := by
  have hkind : ∀ kind : ResourceKind, unit ':' ∉ kind.text := by
    intro kind
    cases kind <;> decide
  rw [List.append_assoc, List.append_assoc] at h
  obtain ⟨htext, hpattern⟩ := append_first_inj (hkind _) (hkind _) h
  obtain ⟨kind, pattern⟩ := resource
  obtain ⟨kind', pattern'⟩ := other
  obtain rfl : kind = kind' := kindText_injective htext
  obtain rfl : pattern = pattern' := hpattern
  rfl

/-- A key, from its first bar on. -/
theorem identityKey_eq (subject : Subject) (effect : Effect) (actions : List Action)
    (resource : ResourceSelector) (condition : Option JsString) :
    identityKey subject effect actions resource condition =
      (subject.kind.text ++ js ":" ++ subject.name) ++ unit '|' :: (effect.text ++ unit '|' ::
        ((js ",").intercalate (sortTexts (actions.map Action.text)) ++ unit '|' ::
          ((resource.kind.text ++ js ":" ++ resource.pattern) ++ unit '|' ::
            conditionText condition))) := by
  have hbar : js "|" = [unit '|'] := rfl
  simp only [identityKey, hbar, List.append_assoc, List.cons_append, List.nil_append]

theorem intercalate_injective {texts texts' : List JsString}
    (h : ∀ text ∈ texts, unit ',' ∉ text ∧ text ≠ [])
    (h' : ∀ text ∈ texts', unit ',' ∉ text ∧ text ≠ [])
    (heq : (js ",").intercalate texts = (js ",").intercalate texts') : texts = texts' := by
  have hne : ∀ {texts : List JsString}, (∀ text ∈ texts, unit ',' ∉ text ∧ text ≠ []) →
      (js ",").intercalate texts = [] → texts = [] := by
    intro texts h hnil
    cases texts with
    | nil => rfl
    | cons text rest =>
      cases rest with
      | nil =>
        rw [List.intercalate_singleton] at hnil
        exact absurd hnil (h text List.mem_cons_self).2
      | cons next rest =>
        rw [List.intercalate_cons_cons, List.append_eq_nil_iff, List.append_eq_nil_iff] at hnil
        exact absurd hnil.1.1 (h text List.mem_cons_self).2
  by_cases hnil : (js ",").intercalate texts = []
  · rw [hne h hnil, hne h' (heq ▸ hnil)]
  · have hsplit : ∀ {texts : List JsString}, (∀ text ∈ texts, unit ',' ∉ text ∧ text ≠ []) →
        (js ",").intercalate texts ≠ [] →
        ((js ",").intercalate texts).splitOn (unit ',') = texts := by
      intro texts h hne
      refine List.splitOn_intercalate (unit ',') (fun text hmem => (h text hmem).1) ?_
      intro hnil
      exact hne (by rw [hnil]; rfl)
    rw [← hsplit h hnil, heq, hsplit h' (heq ▸ hnil)]

theorem sortedActions_text {actions : List Action} {text : JsString}
    (h : text ∈ sortTexts (actions.map Action.text)) :
    unit ',' ∉ text ∧ unit '|' ∉ text ∧ text ≠ [] := by
  rw [sortTexts, List.mem_insertionSort, List.mem_map] at h
  obtain ⟨action, -, rfl⟩ := h
  cases action <;> decide

theorem bar_not_mem_actions (actions : List Action) :
    unit '|' ∉ (js ",").intercalate (sortTexts (actions.map Action.text)) := by
  intro h
  have hall : ∀ texts : List JsString, (∀ text ∈ texts, unit '|' ∉ text) →
      unit '|' ∉ (js ",").intercalate texts := by
    intro texts htexts
    induction texts with
    | nil => simp [List.intercalate]
    | cons text rest ih =>
      cases rest with
      | nil =>
        rw [List.intercalate_singleton]
        exact htexts text List.mem_cons_self
      | cons next rest =>
        rw [List.intercalate_cons_cons, List.mem_append, List.mem_append, not_or, not_or]
        exact ⟨⟨htexts text List.mem_cons_self, by decide⟩,
          ih (fun other hother => htexts other (List.mem_cons_of_mem _ hother))⟩
  exact hall _ (fun text htext => (sortedActions_text htext).2.1) h

/-- **Keys tell apart what holds no bars.** -/
theorem sameTerms_of_key (hgrant : BarFree grant.subject grant.resource)
    (hentry : BarFree entry.subject entry.resource)
    (h : grantIdentityKey grant = entryIdentityKey entry) : SameTerms grant entry := by
  have hsubject : ∀ subject : Subject, unit '|' ∉ subject.name →
      unit '|' ∉ subject.kind.text ++ js ":" ++ subject.name := by
    intro subject hname
    rw [List.mem_append, not_or]
    exact ⟨by cases subject.kind <;> decide, hname⟩
  have hresource : ∀ resource : ResourceSelector, unit '|' ∉ resource.pattern →
      unit '|' ∉ resource.kind.text ++ js ":" ++ resource.pattern := by
    intro resource hpattern
    rw [List.mem_append, not_or]
    exact ⟨by cases resource.kind <;> decide, hpattern⟩
  have heffect : ∀ effect : Effect, unit '|' ∉ effect.text := by
    intro effect
    cases effect <;> decide
  rw [grantIdentityKey, entryIdentityKey, identityKey_eq, identityKey_eq] at h
  obtain ⟨hsubjects, h⟩ := append_first_inj (hsubject _ hgrant.1) (hsubject _ hentry.1) h
  obtain ⟨heffects, h⟩ := append_first_inj (heffect _) (heffect _) h
  obtain ⟨hactions, h⟩ := append_first_inj (bar_not_mem_actions _) (bar_not_mem_actions _) h
  obtain ⟨hresources, hcondition⟩ :=
    append_first_inj (hresource _ hgrant.2) (hresource _ hentry.2) h
  have hsorted := intercalate_injective
    (fun text htext => ⟨(sortedActions_text htext).1, (sortedActions_text htext).2.2⟩)
    (fun text htext => ⟨(sortedActions_text htext).1, (sortedActions_text htext).2.2⟩) hactions
  exact
    { subject := subject_of_text hsubjects
      effect := effectText_injective heffects
      actions := (List.map_perm_map_iff actionText_injective).mp
        (perm_of_sortTexts (congrArg textArray hsorted))
      resource := resource_of_text hresources
      condition := hcondition }

/-- Where no name and no pattern holds a bar, each kept copy says what its entry says. -/
theorem keepersMatch_of_barFree {fileEntries : OrderedMap JsString (List GrantFileEntry)}
    {store : GrantStore}
    (hstored : ∀ stored ∈ queryFileGrants store,
      BarFree stored.grant.subject stored.grant.resource)
    (hentries : ∀ filename entries, fileEntries.get filename = some entries →
      ∀ entry ∈ entries, BarFree entry.subject entry.resource) :
    KeepersMatch fileEntries store := by
  intro filename entries hget entry hentry keeper hkeeper
  obtain ⟨hmem, -, hkey⟩ := mem_copiesOf.mp (mem_of_selectKeeper hkeeper)
  exact sameTerms_of_key (hstored keeper hmem) (hentries filename entries hget entry hentry) hkey

def sampleSubject : Subject := ⟨.user, js "u"⟩

/-- A grant of the file `f`. -/
def sampleGrant (pattern condition : JsString) (state : GrantState) : SourcedGrant where
  id := []
  subject := sampleSubject
  effect := .allow
  actions := [.run]
  resource := ⟨.model, pattern⟩
  condition := some condition
  methods := none
  state := state
  source := FILE_SOURCE ++ js "f"

def sampleEntry (pattern condition : JsString) (methods : Option (List JsString)) :
    GrantFileEntry where
  subject := sampleSubject
  effect := .allow
  actions := [.run]
  resource := ⟨.model, pattern⟩
  condition := some condition
  methods := methods

/-- Draws that are told apart by the file and the place. -/
def sampleDraws (filename : JsString) (i : ℕ) : DrawnIds where
  id := []
  instanceName := []
  modelId := List.replicate i (unit 'n') ++ unit ':' :: filename

def sampleStore (records : List (JsString × SourcedGrant)) : GrantStore :=
  OrderedMap.ofList (records.map (fun record => (record.1, ⟨record.2, []⟩)))

def sampleFiles (entries : List GrantFileEntry) : OrderedMap JsString (List GrantFileEntry) :=
  OrderedMap.empty.set (js "f") entries

theorem sampleDraws_injective {filename' : JsString} {i i' : ℕ}
    (h : (sampleDraws filename i).modelId = (sampleDraws filename' i').modelId) :
    filename = filename' ∧ i = i' := by
  have hfree : ∀ i, unit ':' ∉ List.replicate i (unit 'n') := by
    intro i hmem
    exact absurd (List.eq_of_mem_replicate hmem) (by decide)
  obtain ⟨hcount, hfile⟩ := append_first_inj (hfree i) (hfree i') h
  exact ⟨hfile, by simpa using congrArg List.length hcount⟩

theorem sampleFiles_get {entries' : List GrantFileEntry}
    (h : (sampleFiles entries).get filename = some entries') :
    filename = js "f" ∧ entries' = entries := by
  rw [sampleFiles, OrderedMap.get_set] at h
  split at h
  · exact ⟨by assumption, (Option.some.inj h).symm⟩
  · cases h

theorem sampleFiles_distinct (h : (entries.map entryIdentityKey).Nodup) :
    DistinctKeys (sampleFiles entries) := by
  intro filename entries' hget
  obtain ⟨-, rfl⟩ := sampleFiles_get hget
  exact h

theorem sampleStore_fresh {records : List (JsString × SourcedGrant)}
    (h : ∀ record ∈ records, unit ':' ∉ record.1) : FreshIds sampleDraws (sampleStore records) where
  injective := fun filename i filename' i' hid => sampleDraws_injective hid
  unused := by
    intro filename i
    refine (OrderedMap.empty.get_setAll_of_not_mem ?_).trans (OrderedMap.get_empty _)
    intro hmem
    rw [List.map_map, List.mem_map] at hmem
    obtain ⟨record, hrecord, hid⟩ := hmem
    apply h record hrecord
    rw [show record.1 = (sampleDraws filename i).modelId from hid, sampleDraws]
    simp

/-- Two active copies and a revoked one of one key, another active grant, and an entry
that is new. -/
def sampleCopies : List (JsString × SourcedGrant) :=
  [(js "c", sampleGrant (js "a") (js "x") .active),
    (js "b", sampleGrant (js "a") (js " x") .active),
    (js "a", sampleGrant (js "a") (js "x") .revoked),
    (js "d", sampleGrant (js "z") (js "x") .active)]

def sampleEntries : List GrantFileEntry :=
  [sampleEntry (js "a") (js "x") (some [js "m"]), sampleEntry (js "b") (js "x") none]

theorem converged_copies :
    Converged (sampleFiles sampleEntries) (fun _ => false) (sampleStore sampleCopies)
      ((sampleStore sampleCopies).setAll
        (reconcileAllFileGrants (sampleFiles sampleEntries) (sampleStore sampleCopies)
          (fun _ => false) sampleDraws).writes) := by
  refine (converged_iff (sampleFiles_distinct (by decide)) (sampleStore_fresh (by decide))
    (List.Perm.refl _)).mpr (keepersMatch_of_barFree ?_ ?_)
  · have hfree : ∀ stored ∈ queryFileGrants (sampleStore sampleCopies),
        unit '|' ∉ stored.grant.subject.name ∧ unit '|' ∉ stored.grant.resource.pattern := by
      decide
    exact hfree
  · intro filename entries hget
    obtain ⟨-, rfl⟩ := sampleFiles_get hget
    have hfree : ∀ entry ∈ sampleEntries,
        unit '|' ∉ entry.subject.name ∧ unit '|' ∉ entry.resource.pattern := by
      decide
    exact hfree

/-- A stored grant on `a|x|` under `y`, and an entry on `a` under `x||y`: one key.  The
entry counts as unchanged; no active grant of the file has its resource, and the one the
file does not name stays active. -/
theorem grant_not_reconciled :
    DistinctKeys (sampleFiles [sampleEntry (js "a") (js "x||y") none]) ∧
    (reconcileAllFileGrants (sampleFiles [sampleEntry (js "a") (js "x||y") none])
      (sampleStore [(js "k", sampleGrant (js "a|x|") (js "y") .active)]) (fun _ => false)
      sampleDraws).writes = [] ∧
    (∀ record ∈ (sampleStore [(js "k", sampleGrant (js "a|x|") (js "y") .active)]).values,
      record.grant.resource ≠ ⟨.model, js "a"⟩) ∧
    ¬ Converged (sampleFiles [sampleEntry (js "a") (js "x||y") none]) (fun _ => false)
      (sampleStore [(js "k", sampleGrant (js "a|x|") (js "y") .active)])
      ((sampleStore [(js "k", sampleGrant (js "a|x|") (js "y") .active)]).setAll []) := by
  refine ⟨sampleFiles_distinct (by decide), by decide, by decide, ?_⟩
  intro h
  obtain ⟨slot, hstands, -⟩ := h.processed (js "f") [sampleEntry (js "a") (js "x||y") none]
    (OrderedMap.get_set_self _ _ _)
  obtain ⟨record, hrecord, hstand⟩ := hstands 0 _ rfl
  have hone : (sampleStore [(js "k", sampleGrant (js "a|x|") (js "y") .active)]).get (slot 0) =
      some record := hrecord
  have hmem := OrderedMap.mem_values.mpr ⟨slot 0, hone⟩
  have hne : ∀ record ∈ (sampleStore [(js "k", sampleGrant (js "a|x|") (js "y")
      .active)]).values, record.grant.resource ≠ ⟨.model, js "a"⟩ := by decide
  exact hne record hmem hstand.terms.resource

end Access

end Swamp
