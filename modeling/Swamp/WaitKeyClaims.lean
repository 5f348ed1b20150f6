import Swamp.SignalWaitStore

/-!
# Wait key claims

A step that waits under a key claims the key first: it reads the key's highest
record, asks whether that claim's wait is settled, and creates the next generation
where nobody else has.  A collector supersedes the claims of the runs it selected
by a release, then removes their records and outcomes.

A claimant that was slow may create a generation that was claimed, superseded and
removed in between.  In every run in which no create lands below the highest
generation of its key, `wait_keys_exclude` holds; `removed_generation_reused` is a
run in which one does.
-/

namespace Swamp.SignalWaits

open Js Interleaving

def WAIT_KEY_CLAIM_ATTEMPTS : ℕ := 8

def WAIT_KEY_UNREGISTERED_GRACE_MS : ℤ := 5 * 60 * 1000

/-- `WaitKeyRequest`. -/
structure WaitKeyRequest where
  under : WaitKey
  waitId : JsString
  runId : JsString
  jobName : JsString
  stepName : JsString
  deadline : Instant
  acceptEarly : Option ℤ

/-- `WaitKeyAcquisition`. -/
inductive WaitKeyAcquisition where
  | acquired (claim : WaitKeyClaim)
  | own (claim : WaitKeyClaim)
  | held (claim : WaitKeyClaim)
  | unreadable (generation : ℕ)
  | contended

/-- An outcome of a claim's wait, of this kind. -/
def outcomeOf (kind : OutcomeKind) (claim : WaitKeyClaim) (now : Instant) : WaitOutcome :=
  ⟨kind, claim.waitId, claim.under.workflowId, claim.runId, claim.deadline, now⟩

/-- `timedOutOutcome`, of a claim. -/
def timedOutOutcome (claim : WaitKeyClaim) (now : Instant) : WaitOutcome :=
  outcomeOf .timedOut claim now

/-- `cancelledOutcome`, of a claim. -/
def cancelledOutcome (claim : WaitKeyClaim) (now : Instant) : WaitOutcome :=
  outcomeOf .cancelled claim now

/-- An outcome that names another run is not that wait's. -/
def ownOutcome (claim : WaitKeyClaim) : Stored WaitOutcome → Stored WaitOutcome
  | .found outcome => if outcome.runId ≠ claim.runId then .unreadable else .found outcome
  | stored => stored

/-- The wait of a claim that takes early signals, by its registration. -/
def earlyRefOf (claim : WaitKeyClaim) (early : WaitEarly) (registration : WaitRegistration) :
    EarlyWaitRef where
  waitId := claim.waitId
  workflowName := some registration.workflowName
  runId := claim.runId
  deadline := claim.deadline
  under := claim.under
  early := early
  schema := registration.schema

section

variable (codec : Codec)

/-- The pending signal is given to a registered wait that takes early ones. -/
def takeForClaim (claim : WaitKeyClaim) : Async (Stored WaitOutcome) :=
  match claim.early with
  | none => pure .absent
  | some early => do
      match ← findRegistration claim.waitId with
      | .found registration =>
        if registration.workflowId = claim.under.workflowId ∧
            registration.key = some claim.under.key then
          return ownOutcome claim (← takePendingSignal codec (earlyRefOf claim early registration))
        else return .absent
      | _ => return .absent

/-- A wait past its deadline is settled as timed out. -/
def expire (claim : WaitKeyClaim) (now : Instant) : Async (Stored WaitOutcome) :=
  if now ≤ claim.deadline then pure .absent
  else do return ownOutcome claim (← settle (timedOutOutcome claim now))

/-- `outcomeOfClaim`. -/
def outcomeOfClaim (claim : WaitKeyClaim) (now : Instant) : Async (Stored WaitOutcome) := do
  match ownOutcome claim (← findOutcome claim.waitId) with
  | .absent =>
    match ← takeForClaim codec claim with
    | .absent => expire claim now
    | taken => return taken
  | stored => return stored

/-- `settleAbandoned`. -/
def settleAbandoned (claim : WaitKeyClaim) (now : Instant) : Async Bool :=
  if ¬ WAIT_KEY_UNREGISTERED_GRACE_MS < now - claim.recordedAt then pure false
  else do
    match ← findRegistration claim.waitId with
    | .absent =>
      match ← settle (cancelledOutcome claim now) with
      | .absent => return false
      | _ => return true
    | _ => return false

/-- `decideKeyHolder`: the claim that holds the key. -/
def decideKeyHolder (highest : Option WaitKeyRecord) (outcome : Stored WaitOutcome) :
    Option WaitKeyClaim :=
  match highest, outcome with
  | some (.claim claim), .absent => some claim
  | _, _ => none

/-- Who holds the key whose highest record this is. -/
def holderOf (highest : Option WaitKeyRecord) (now : Instant) : Async (Option WaitKeyClaim) :=
  match highest with
  | some (.claim claim) => do return decideKeyHolder highest (← outcomeOfClaim codec claim now)
  | _ => pure (decideKeyHolder highest .absent)

/-- The generation after a record, the first when there is none. -/
def nextGeneration (highest : Option WaitKeyRecord) : ℕ :=
  ((highest.map WaitKeyRecord.generation).getD 0) + 1

/-- Whether a record is a release. -/
def isRelease : Option WaitKeyRecord → Bool
  | some (.release _) => true
  | _ => false

/-- `earliestReceipt`. -/
def earliestReceipt (claimedAt : Instant) (acceptEarly : ℤ) : Instant := claimedAt - acceptEarly

/-- The claim a request makes over the highest record. -/
def claimOf (request : WaitKeyRequest) (highest : Option WaitKeyRecord) (now : Instant) :
    WaitKeyClaim where
  under := request.under
  generation := nextGeneration highest
  recordedAt := now
  waitId := request.waitId
  runId := request.runId
  jobName := request.jobName
  stepName := request.stepName
  deadline := request.deadline
  early := request.acceptEarly.map (fun acceptEarly =>
    ⟨nextGeneration highest, isRelease highest, earliestReceipt now acceptEarly⟩)

/-- Whether a claim is of the step that asks. -/
def isMine (request : WaitKeyRequest) (claim : WaitKeyClaim) : Bool :=
  claim.runId = request.runId && claim.jobName = request.jobName &&
    claim.stepName = request.stepName

/-- What a claimant does that finds its key held; `again` is its next attempt. -/
def refuseHeld (request : WaitKeyRequest) (now : Instant) (again : Async WaitKeyAcquisition)
    (claim : WaitKeyClaim) : Async WaitKeyAcquisition := do
  match ← highestKeyRecord request.under with
  | .found still =>
    if still.generation ≠ claim.generation then again
    else if isMine request claim then return .own claim
    else if ← settleAbandoned claim now then again
    else return .held claim
  | _ => again

/-- What a claimant does that finds its key free. -/
def createClaim (request : WaitKeyRequest) (now : Instant) (again : Async WaitKeyAcquisition)
    (highest : Option WaitKeyRecord) : Async WaitKeyAcquisition := do
  match ← createKeyRecord (.claim (claimOf request highest now)) with
  | .found (.claim stored) =>
    if stored.waitId = request.waitId then return .acquired stored else again
  | _ => again

/-- One attempt, over the highest record. -/
def claimOver (request : WaitKeyRequest) (now : Instant) (again : Async WaitKeyAcquisition)
    (highest : Option WaitKeyRecord) : Async WaitKeyAcquisition := do
  match ← holderOf codec highest now with
  | some claim => refuseHeld request now again claim
  | none => createClaim request now again highest

/-- The attempts of `claimWaitKey` that are left. -/
def claimAttempts (request : WaitKeyRequest) (now : Instant) : ℕ → Async WaitKeyAcquisition
  | 0 => pure .contended
  | attempts + 1 => do
      match ← highestKeyRecord request.under with
      | .unreadable generation => return .unreadable generation
      | .none => claimOver codec request now (claimAttempts request now attempts) none
      | .found record =>
        claimOver codec request now (claimAttempts request now attempts) (some record)

/-- `claimWaitKey`. -/
def claimWaitKey (request : WaitKeyRequest) (now : Instant) : Async WaitKeyAcquisition :=
  claimAttempts codec request now WAIT_KEY_CLAIM_ATTEMPTS

end

/-- `KeyClaimRemoval`. -/
structure KeyClaimRemoval where
  removed : ℕ
  released : ℕ

/-- The records by their key, in the order the keys are met. -/
def byKey (records : List WaitKeyRecord) : List (WaitKey × List WaitKeyRecord) :=
  (records.map WaitKeyRecord.under).eraseDups.map
    (fun under => (under, records.filter (fun record => record.under = under)))

/-- Whether a record is a release, or a claim of a run to remove. -/
def isSelected (runIds : List JsString) : WaitKeyRecord → Bool
  | .release _ => true
  | .claim claim => runIds.contains claim.runId

/-- The slots a removed record leaves without a reader. -/
def orphanedBy : WaitKeyRecord → List PendingSlot
  | .release _ => []
  | .claim claim =>
    ⟨claim.under, claim.generation⟩ ::
      if claim.early.any (·.overRelease) then [⟨claim.under, claim.generation - 1⟩] else []

/-- The generation below which the selected records of a key go, and whether a
release was made for it; none when the key is left alone. -/
def supersede (selected : List WaitKeyRecord) (now : Instant) (highest : WaitKeyRecord) :
    Async (Option (ℕ × ℕ)) :=
  match highest with
  | .release release => pure (some (release.generation, 0))
  | .claim claim =>
    if selected.any (fun record => record.generation = claim.generation) then do
      match ← createKeyRecord (.release ⟨claim.under, claim.generation + 1, now⟩) with
      | .absent => return none
      | .found (.release stored) =>
        return some (claim.generation + 1, if stored.recordedAt = now then 1 else 0)
      | _ => return some (claim.generation + 1, 0)
    else pure (some (claim.generation, 0))

/-- The selected records below the floor are removed. -/
def removeBelow (floor : ℕ) : List WaitKeyRecord → Async (ℕ × List PendingSlot)
  | [] => pure (0, [])
  | record :: rest =>
    if floor ≤ record.generation then removeBelow floor rest
    else do
      let _ ← removeKeyRecord record.under record.generation
      let (removed, orphaned) ← removeBelow floor rest
      return (removed + 1, orphanedBy record ++ orphaned)

/-- The selected records of one key. -/
def collectSelected (now : Instant) (under : WaitKey) (selected : List WaitKeyRecord) :
    Async (KeyClaimRemoval × List PendingSlot) := do
  match ← highestKeyRecord under with
  | .found highest =>
    match ← supersede selected now highest with
    | none => return (⟨0, 0⟩, [])
    | some (floor, released) =>
      let (removed, orphaned) ← removeBelow floor selected
      return (⟨removed, released⟩, orphaned)
  | _ => return (⟨0, 0⟩, [])

/-- One key after another. -/
def collectKeys (runIds : List JsString) (now : Instant) :
    List (WaitKey × List WaitKeyRecord) → Async (KeyClaimRemoval × List PendingSlot)
  | [] => pure (⟨0, 0⟩, [])
  | (under, records) :: rest =>
    if records.filter (isSelected runIds) = [] then collectKeys runIds now rest
    else do
      let (first, orphaned) ← collectSelected now under (records.filter (isSelected runIds))
      let (later, others) ← collectKeys runIds now rest
      return (⟨first.removed + later.removed, first.released + later.released⟩,
        orphaned ++ others)

/-- The pending signals of the orphaned slots are removed. -/
def removeOrphans (orphaned : List PendingSlot) : List (PendingSlot × ℕ) → Async Unit
  | [] => pure ()
  | (at_, number) :: rest =>
    if at_ ∈ orphaned then do
      let _ ← removePendingRecord at_ number
      removeOrphans orphaned rest
    else removeOrphans orphaned rest

def removeOrphaned (orphaned : List PendingSlot) : Async Unit :=
  if orphaned = [] then pure ()
  else do removeOrphans orphaned (← listPendingAddresses)

/-- `releaseKeyClaims`, for the claims of these runs. -/
def releaseKeyClaims (runIds : List JsString) (now : Instant) : Async KeyClaimRemoval := do
  let records ← listKeyRecords
  let (result, orphaned) ← collectKeys runIds now (byKey records)
  let _ ← removeOrphaned orphaned
  return result

/-- `removeWaitRecords`. -/
def removeWaitRecords : List JsString → Async Unit
  | [] => pure ()
  | waitId :: rest => do
      let _ ← removeRegistration waitId
      let _ ← removeOutcome waitId
      removeWaitRecords rest

/-- The waits of these runs, by their records. -/
def waitIdsOf (runIds : List JsString) (registrations : List WaitRegistration)
    (outcomes : List WaitOutcome) : List JsString :=
  ((registrations.filter (fun r => runIds.contains r.runId)).map (·.waitId) ++
    (outcomes.filter (fun o => runIds.contains o.runId)).map (·.waitId)).eraseDups

/-- `removeWaitRecordsOfRuns`. -/
def removeWaitRecordsOfRuns (runIds : List JsString) (now : Instant) : Async ℕ :=
  if runIds = [] then pure 0
  else do
    let _ ← releaseKeyClaims runIds now
    let registrations ← listRegistrations
    let outcomes ← listOutcomes
    let _ ← removeWaitRecords (waitIdsOf runIds registrations outcomes)
    return (waitIdsOf runIds registrations outcomes).length

end Swamp.SignalWaits
