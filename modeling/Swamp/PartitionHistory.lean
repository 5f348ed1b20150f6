import Swamp.PartitionSnapshot

/-!
# A version number never names two contents

`Runs key p q` says that `q` is reached from `p` by any of the calls that change
a partition.  Along a run names stay sound and only grow, so a version once
recorded, removed or retained is known from there on, and the writer's own log
accepts it again only for a `data.append` put of the same commit.
-/

namespace Swamp

open Js MapOverlay

namespace Partition

/-- `q` is reached from `p` by calls on a partition of `key`.  A state whose
versions are retained is itself reached from the empty partition. -/
inductive Runs (key : PartitionKey) : Partition → Partition → Prop
  | refl (p : Partition) : Runs key p p
  | append {p q : Partition} (h : Runs key p q) (commit : Commit) (replay : Bool) :
      Runs key p (q.append commit replay).2
  | appendObserved {p q : Partition} (h : Runs key p q) (commit : Commit) (replay : Bool) :
      Runs key p (q.appendObserved commit replay).2
  | retainDroppedVersions {p q : Partition} (h : Runs key p q) (name : JsString)
      (versions : List Version) : Runs key p (q.retainDroppedVersions name versions).2
  | retainVersionsOf {p q later : Partition} (h : Runs key p q)
      (hlater : Runs key (empty key) later) : Runs key p (q.retainVersionsOf later).2
  | restore {p q r : Partition} (h : Runs key p q) (priorTxn : JsString → Bool)
      (hrestore : Partition.restore key q.snapshot.toJson priorTxn = .ok r) : Runs key p r

theorem apply_retains (p : Partition) (commit : Commit) (replay observed : Bool) :
    p.Retains ((apply commit replay observed).run p).2 := by
  rcases apply_outcome p commit replay observed with ⟨e, he⟩ | ⟨hdup, -⟩ | ⟨next, happ, hland⟩
  · rw [he]
    exact Retains.refl p
  · rw [hdup]
    exact Retains.refl p
  · rw [happ]
    exact ⟨hland.key, hland.sound, hland.grows⟩

variable {key : PartitionKey} {p : Partition}

theorem Runs.retains {q : Partition} (h : Runs key p q) :
    p.Sound → p.key = key → q.Sound ∧ q.key = key ∧ p.Grows q := by
  induction h with
  | refl p => exact fun hsound hkey => ⟨hsound, hkey, Grows.refl p⟩
  | @append p q h commit replay ih =>
    intro hsound hkey
    obtain ⟨hq, hqkey, hgrows⟩ := ih hsound hkey
    have hcall := apply_retains q commit replay false
    exact ⟨hcall.sound hq, hcall.key.trans hqkey, hgrows.trans hcall.grows⟩
  | @appendObserved p q h commit replay ih =>
    intro hsound hkey
    obtain ⟨hq, hqkey, hgrows⟩ := ih hsound hkey
    have hcall := apply_retains q commit replay true
    exact ⟨hcall.sound hq, hcall.key.trans hqkey, hgrows.trans hcall.grows⟩
  | @retainDroppedVersions p q h name versions ih =>
    intro hsound hkey
    obtain ⟨hq, hqkey, hgrows⟩ := ih hsound hkey
    have hcall := retainDroppedVersions_retains q name versions
    exact ⟨hcall.sound hq, hcall.key.trans hqkey, hgrows.trans hcall.grows⟩
  | @retainVersionsOf p q later h hlater ih ihlater =>
    intro hsound hkey
    obtain ⟨hq, hqkey, hgrows⟩ := ih hsound hkey
    have hcall := retainVersionsOf_retains q (ihlater (empty_sound key) rfl).1
    exact ⟨hcall.sound hq, hcall.key.trans hqkey, hgrows.trans hcall.grows⟩
  | restore h priorTxn hrestore ih =>
    intro hsound hkey
    obtain ⟨hq, hqkey, hgrows⟩ := ih hsound hkey
    rw [← hqkey, restore_snapshot hq] at hrestore
    cases hrestore
    exact ⟨⟨hq.seq_safe, hq.holder_ne, hq.holder_fence, hq.names⟩, hqkey, hgrows⟩

theorem Runs.sound (h : Runs key (empty key) p) : p.Sound :=
  (h.retains (empty_sound key) rfl).1

theorem Runs.key_eq (h : Runs key (empty key) p) : p.key = key :=
  (h.retains (empty_sound key) rfl).2.1

variable {name : JsString}

/-- Name and version can be read off their text. -/
theorem nameVersion_inj {name' : JsString} {version version' : ℕ} :
    nameVersion name version = nameVersion name' version' ↔ name = name' ∧ version = version' := by
  have hcolon : ∀ n : ℕ, unit ':' ∉ decimal n := by
    intro n h
    have hdigit := digit_of_mem_decimal h
    have hval : (unit ':').val = 58 := by decide
    omega
  constructor
  · intro h
    simp only [nameVersion, List.append_assoc, List.singleton_append] at h
    obtain ⟨hversion, hname⟩ := append_separator_inj (hcolon version) (hcolon version') h
    exact ⟨hname, decimal_injective hversion⟩
  · rintro ⟨rfl, rfl⟩
    rfl

/-- Whether an op records this version of this name. -/
def Records (name : JsString) (v : ℕ) : Op → Prop
  | .dataVersion op => op.metadata.name = name ∧ op.metadata.version.val = v
  | _ => False

/-- The ops hold a `data.append` put of the version that no later one of them
consumed. -/
def Permitted (ops : List Op) (name : JsString) (v : ℕ) : Prop :=
  ∃ before put rest version, ops = before ++ .put put :: rest ∧
    put.appends = some (name, version) ∧ version.val = v ∧ ∀ op ∈ rest, ¬ Records name v op

variable {v : ℕ}

theorem Permitted.snoc {ops : List Op} (h : Permitted ops name v) {op : Op}
    (hop : ¬ Records name v op) : Permitted (ops ++ [op]) name v := by
  obtain ⟨before, put, rest, version, rfl, hput, hv, hrest⟩ := h
  refine ⟨before, put, rest ++ [op], version, by simp, hput, hv, ?_⟩
  intro other hother
  rcases List.mem_append.mp hother with hmem | hmem
  · exact hrest other hmem
  · rwa [List.mem_singleton.mp hmem]

variable {self : Partition} {staged : Staged}

theorem stageOps_append {replay observed : Bool} {first second : List Op} {last : Staged} :
    self.stageOps replay observed (first ++ second) staged = .ok last ↔
      ∃ mid, self.stageOps replay observed first staged = .ok mid ∧
        self.stageOps replay observed second mid = .ok last := by
  induction first generalizing staged with
  | nil => simp
  | cons op first ih =>
    rw [List.cons_append, stageOps_cons, ih]
    constructor
    · rintro ⟨hadmits, mid, hmid, hlast⟩
      exact ⟨mid, stageOps_cons.mpr ⟨hadmits, hmid⟩, hlast⟩
    · rintro ⟨mid, hmid, hlast⟩
      obtain ⟨hadmits, hmid⟩ := stageOps_cons.mp hmid
      exact ⟨hadmits, mid, hmid, hlast⟩

/-- What is recorded stays so while ops are staged. -/
theorem recorded_of_stageOps {replay observed : Bool} {ops : List Op}
    (h : self.stageOps replay observed ops self.stage = .ok staged)
    (hrecorded : (self.nameEntry name).Recorded v) : (self.dataName staged name).Recorded v := by
  rw [dataName_eq, (stageOps_folds h).2.1 name, entry_stage]
  exact (foldl_onName_grows (self.names.lookup name) name ops).2 v hrecorded

theorem asks_of_recorded {op : DataVersionOp}
    (h : (self.dataName staged op.metadata.name).Recorded op.metadata.version.val) :
    self.asksLive false staged op = true ∨ self.asksReused false false staged op = true := by
  by_cases hlive : op.metadata.version.val ∈ (self.dataName staged op.metadata.name).live
  · exact Or.inl (by simp [asksLive, hlive])
  · have hremoved : op.metadata.version.val ∈ (self.dataName staged op.metadata.name).removed :=
      h.resolve_left hlive
    exact Or.inr (by simp [asksReused, hlive, hremoved])

/-- **A permission stands for a put not yet consumed.**  The induction is on the
ops from the right: a put of the pair grants, a data version of it consumes,
since a recorded version always asks. -/
theorem permitted_of_mem_appended (hrecorded : (self.nameEntry name).Recorded v) (ops : List Op) :
    ∀ {staged : Staged}, self.stageOps false false ops self.stage = .ok staged →
      nameVersion name v ∈ staged.appended → Permitted ops name v := by
  induction ops using List.reverseRecOn with
  | nil =>
    intro staged h hmem
    rw [stageOps_nil] at h
    subst h
    simp [stage] at hmem
  | append_singleton ops op ih =>
    intro staged h hmem
    obtain ⟨mid, hmid, hlast⟩ := stageOps_append.mp h
    obtain ⟨-, hnext⟩ := stageOps_cons.mp hlast
    rw [stageOps_nil] at hnext
    subst hnext
    cases op with
    | tombstone op | lease op => exact (ih hmid hmem).snoc (fun h => h)
    | put op =>
      cases happends : op.appends with
      | none =>
        have hmem' : nameVersion name v ∈ mid.appended := by
          simpa [after, afterPut, permissionsAfterPut, happends] using hmem
        exact (ih hmid hmem').snoc (fun h => h)
      | some pair =>
        obtain ⟨target, version⟩ := pair
        have hinsert : nameVersion name v ∈
            insert (nameVersion target version.val) mid.appended := by
          simpa [after, afterPut, permissionsAfterPut, happends] using hmem
        rcases Finset.mem_insert.mp hinsert with heq | hmem'
        · obtain ⟨rfl, rfl⟩ := nameVersion_inj.mp heq
          exact ⟨ops, op, [], version, rfl, happends, rfl, by simp⟩
        · exact (ih hmid hmem').snoc (fun h => h)
    | dataVersion op =>
      by_cases hpair : op.metadata.name = name ∧ op.metadata.version.val = v
      · obtain ⟨rfl, rfl⟩ := hpair
        have hasks := asks_of_recorded (recorded_of_stageOps hmid hrecorded)
        have herased : nameVersion op.metadata.name op.metadata.version.val ∈
            mid.appended.erase (nameVersion op.metadata.name op.metadata.version.val) := by
          simpa only [after, afterDataVersion, Bool.or_eq_true, hasks, if_true] using hmem
        exact absurd rfl (Finset.ne_of_mem_erase herased)
      · have hmem' : nameVersion name v ∈ mid.appended := by
          simp only [after, afterDataVersion] at hmem
          split at hmem
          · exact Finset.mem_of_mem_erase hmem
          · exact hmem
        exact (ih hmid hmem').snoc hpair

/-- **A version number never names two contents.**  Along every run the live
versions of a name lie between 1 and its mark, the removed ones stay apart from
them and below the mark, the mark never falls and no version is forgotten; so
from any state on, a version known there is accepted again only for a
`data.append` put of it, earlier in the commit and not yet consumed. -/
theorem version_never_names_two_contents {key : PartitionKey} {p q : Partition}
    (hp : Runs key (empty key) p) (hq : Runs key p q) (name : JsString) :
    (∀ v ∈ q.live name, 1 ≤ v ∧ v ≤ q.highWater name) ∧
      (∀ v ∈ q.removed name, v ∉ q.live name ∧ v ≤ q.highWater name) ∧
      p.highWater name ≤ q.highWater name ∧
      (∀ v, v ∈ p.live name ∨ v ∈ p.removed name → v ∈ q.live name ∨ v ∈ q.removed name) ∧
      ∀ v, v ∈ p.live name ∨ v ∈ p.removed name →
        ∀ (commit : Commit) (next : Partition) (seq : ℕ) (before rest : List Op)
          (op : DataVersionOp),
          q.append commit false = (.ok (.appended seq), next) →
          commit.ops = before ++ .dataVersion op :: rest →
          op.metadata.name = name → op.metadata.version.val = v → Permitted before name v := by
  obtain ⟨hsound, -, hgrows⟩ := hq.retains hp.sound hp.key_eq
  have hentry := hsound.nameEntry name
  refine ⟨?_, ?_, (hgrows name).1, (hgrows name).2, ?_⟩
  · exact fun v hv => ⟨hentry.live_pos v hv, hentry.live_le v hv⟩
  · exact fun v hv => ⟨hentry.disjoint v hv, hentry.removed_le v hv⟩
  · rintro v hv commit next seq before rest op happ hops rfl rfl
    have hrecorded := (hgrows op.metadata.name).2 _ hv
    rcases apply_outcome q commit false false with ⟨e, he⟩ | ⟨hdup, -⟩ | ⟨next', -, hland⟩
    · rw [append, he] at happ
      cases happ
    · rw [append, hdup] at happ
      cases happ
    · obtain ⟨staged, hstaged, -⟩ := hland.staged
      rw [hops] at hstaged
      obtain ⟨mid, hmid, hlast⟩ := stageOps_append.mp hstaged
      have hadmits := (stageOps_cons.mp hlast).1
      have hperm := hadmits (asks_of_recorded (recorded_of_stageOps hmid hrecorded))
      exact permitted_of_mem_appended hrecorded before hmid hperm

/-- The partition of a model. -/
def sampleKey : PartitionKey where
  value := js "model--swamp%2Fecho--m1"
  identity := .model (js "swamp/echo") (js "m1")
  formatted := by decide
  short := by decide

/-- The first version. -/
def version1 : Version := .first

def version2 : Version := ⟨2, by decide, by decide⟩

def version3 : Version := ⟨3, by decide, by decide⟩

/-- The metadata of a version of the name `log`. -/
def sampleMetadata (version : Version) : DataMetadata where
  name := js "log"
  id := js "0b1e7a34-6f0e-4f9e-8d0e-2f1f5a3d9c11"
  version := version
  contentType := js "text/plain"
  lifetime := js "infinite"
  garbageCollection := .count 10
  streaming := false
  tags := [(js "type", js "file")]
  ownerDefinition :=
    { definitionHash := none, ownerType := .manual, ownerRef := js "cli", workflowId := none,
      workflowRunId := none, workflowName := none, jobName := none, stepName := none,
      source := none }
  createdAt := js "2026-01-01T00:00:00Z"
  size := none
  checksum := none
  lifecycle := none
  renamedTo := none

/-- The record of the first version of `log`. -/
def sampleVersionOp : DataVersionOp where
  key := ⟨js "data/swamp/echo/m1/log/1/metadata.yaml", by decide⟩
  metadata := sampleMetadata version1

def sampleSecondKey : RecordKey := ⟨js "data/swamp/echo/m1/log/2/metadata.yaml", by decide⟩

/-- A commit to the sample partition. -/
def sampleCommit (seq : ℕ) (hpos : 1 ≤ seq) (hsafe : seq ≤ maxSafeInteger) (txnId : JsString)
    (ops : List Op) : Commit where
  seq := seq
  partition := sampleKey
  ns := []
  txnId := txnId
  writer := ⟨js "host", 1, js "i1"⟩
  executedAt := none
  clockOffsetMs := none
  principal := none
  fence := none
  atTime := js "2026-01-01T00:00:00Z"
  ops := ops
  seq_pos := hpos
  seq_safe := hsafe

/-- The sample partition once the first version is recorded. -/
def sampleRecorded : Partition :=
  ((empty sampleKey).append
    (sampleCommit 1 version1.pos version1.safe (js "t1") [.dataVersion sampleVersionOp]) false).2

/-- The recorded version is live, and the log refuses to record it again. -/
theorem recorded_version_refused :
    1 ∈ sampleRecorded.live (js "log") ∧
      ∀ (seq : ℕ) (next : Partition),
        sampleRecorded.append
          (sampleCommit 2 (by decide) (by decide) (js "t2") [.dataVersion sampleVersionOp]) false ≠
          (.ok (.appended seq), next) := by
  have hlive : 1 ∈ sampleRecorded.live (js "log") := by decide
  refine ⟨hlive, ?_⟩
  intro seq next happ
  have hrun : Runs sampleKey (empty sampleKey) sampleRecorded := Runs.append (Runs.refl _) _ false
  have hpermitted :=
    (version_never_names_two_contents hrun (Runs.refl _) (js "log")).2.2.2.2 1 (Or.inl hlive) _
      next seq [] [] sampleVersionOp happ rfl rfl rfl
  obtain ⟨before, put, rest, version, hops, -⟩ := hpermitted
  exact absurd hops (by simp)

end Partition

end Swamp
