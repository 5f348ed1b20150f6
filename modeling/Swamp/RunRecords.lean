import Swamp.CanonicalJson

/-!
# Forwarded run records, judged

A member who drives a run forwards its record, and serve judges each record
against the one it holds.  `judgeRunRecord` goes through its checks in order and
stops at the first that refuses; `recordRefusal` is those checks, and the rest of
a judgement says what an accepted record added.

Values the judge only compares are JSON.  The run of a held child and the
workflow that tells which steps are nested are the context's ports.
-/

namespace Swamp

open Js

/-- The status of a step. -/
inductive RunStatus where
  | pending
  | running
  | waitingApproval
  | waiting
  | waitingSignal
  | succeeded
  | failed
  | skipped
  | unknown
deriving DecidableEq

/-- A decision on an approval gate. -/
structure ApprovalDecisionData where
  approved : Bool
  reason : Option JsString
  decidedBy : Option JsString
  client : Option JsString
  decidedAt : JsString
deriving DecidableEq

/-- A step of a run's record, in the fields the judge reads. -/
structure StepRunData where
  stepName : JsString
  status : RunStatus
  startedAt : Option JsString
  output : Option Json
  dataArtifacts : Option (List Json)
  approvalDecision : Option ApprovalDecisionData
  approvalPrompt : Option JsString
  approvalTimeout : Option ℚ
  nestedRun : Option Json
  wait : Option Json

/-- A job of a run's record. -/
structure JobRunData where
  jobName : JsString
  steps : List StepRunData

/-- The owner a resume keeps. -/
structure OwnerBeforeResume where
  pid : Option ℕ
  instanceId : Option JsString
deriving DecidableEq

/-- The plan a run is held to. -/
structure RunPlan where
  fingerprint : JsString
  evaluatedWorkflowId : Option JsString
  definitionFingerprint : Option JsString
deriving DecidableEq

/-- A run's record, in the fields the judge reads. -/
structure WorkflowRunData where
  id : JsString
  workflowId : JsString
  jobs : List JobRunData
  workflowDataArtifacts : Option (List Json)
  logFile : Option JsString
  inputs : Option Json
  inheritedExpressions : Option (List JsString)
  deferredExpressions : Option (List Json)
  inputsProvenance : Option Json
  persistedInputsProvenance : Option Json
  initiatedBy : Option JsString
  client : Option JsString
  instanceId : Option JsString
  ownerBeforeResume : Option OwnerBeforeResume
  writtenReferences : Option (List Json)
  runPlan : Option RunPlan
  parentRun : Option Json
  triggeringPrincipal : Option Json
  allowedVaults : Option (List JsString)

/-- The steps of a record, each with the name of its job. -/
def WorkflowRunData.steps (run : WorkflowRunData) : List (JsString × StepRunData) :=
  run.jobs.flatMap (fun job => job.steps.map (fun step => (job.jobName, step)))

/-- `stepKey`: one text for each pair of names. -/
def stepKey (entry : JsString × StepRunData) : JsString × JsString := (entry.1, entry.2.stepName)

/-- `isServeDrivenRun`. -/
def isServeDrivenRun (run : WorkflowRunData) : Bool :=
  run.triggeringPrincipal.isSome || run.instanceId.isSome

/-- The decisions serve holds of a child run. -/
structure HeldChildRun where
  decisions : List ApprovalDecisionData

/-- What a record is judged in. -/
structure RunRecordContext where
  workflowId : JsString
  runId : JsString
  before : Option WorkflowRunData
  after : WorkflowRunData
  workflowVaults : Option (List JsString)
  heldChild : Option (JsString → StepRunData → Option HeldChildRun)
  storedStepIsNested : Option (JsString → StepRunData → Bool)

/-- The output of a step an accepted record added. -/
structure AddedStepOutput where
  jobName : JsString
  stepName : JsString
  output : Option Json
  dataArtifacts : List Json

/-- A judgement: a refusal, or what the record added. -/
structure RunRecordJudgement where
  refusal : Option JsString := none
  inputsChanged : Bool := false
  addedDeferred : List Json := []
  addedInherited : List JsString := []
  addedReferences : List Json := []
  addedOutputs : List AddedStepOutput := []

/-- The first refusal of a list of checks. -/
def firstRefusal : List (Bool × JsString) → Option JsString
  | [] => none
  | (refused, message) :: checks => if refused then some message else firstRefusal checks

/-- A decision without the client it came through. -/
def ApprovalDecisionData.withoutClient (decision : ApprovalDecisionData) : ApprovalDecisionData :=
  { decision with client := none }

/-- `sameDecision`: an older CLI strips a client it does not know when it
rewrites a record, so a missing client still matches. -/
def sameDecision (held forwarded : Option ApprovalDecisionData) : Bool :=
  if held = forwarded then true
  else
    match held with
    | none => false
    | some decision => forwarded = some decision.withoutClient

/-- The decisions serve holds for a step that the stored workflow says is
nested. -/
def heldDecisions (context : RunRecordContext) (jobName : JsString) (step : StepRunData) :
    List ApprovalDecisionData :=
  if (context.storedStepIsNested.map (fun nested => nested jobName step)) = some true then
    ((context.heldChild.bind (fun held => held jobName step)).map HeldChildRun.decisions).getD []
  else []

/-- `decisionRefusal`. -/
def decisionRefusal (context : RunRecordContext) (jobName : JsString)
    (prior : Option StepRunData) (step : StepRunData) : Option JsString :=
  if sameDecision (prior.bind StepRunData.approvalDecision) step.approvalDecision then none
  else if step.approvalDecision = none then
    if step.status = .pending then none
    else some (js "it clears an approval decision without re-opening the gate")
  else if (prior.bind StepRunData.approvalDecision).isSome then
    some (js "it changes an approval decision")
  else if (heldDecisions context jobName step).any
      (fun decision => sameDecision (some decision) step.approvalDecision) then none
  else some (js "it records an approval decision serve does not hold")

/-- Whether an output is that of a signal's wait. -/
def isSignalOutput (output : Option Json) : Bool :=
  match output with
  | some (.obj fields) => Json.field fields (js "type") = some (.str (js "wait_for_signal"))
  | _ => false

/-- `signalRefusal`. -/
def signalRefusal (prior : Option StepRunData) (step : StepRunData) : Option JsString :=
  firstRefusal
    [(step.wait.isSome && !Json.same (prior.bind StepRunData.wait) step.wait,
      js "a run a member drives cannot wait for a signal: run it with --server"),
     (isSignalOutput step.output && !Json.same (prior.bind StepRunData.output) step.output,
      js "it sets a signal's outcome serve does not hold")]

/-- What a waiting gate shows: none of it changes while the gate waits. -/
def gateRefusal (prior step : StepRunData) : Option JsString :=
  firstRefusal
    [(decide (prior.approvalPrompt ≠ step.approvalPrompt),
      js "it changes a waiting approval gate's prompt"),
     (decide (prior.approvalTimeout ≠ step.approvalTimeout),
      js "it changes a waiting approval gate's timeout"),
     (decide (prior.startedAt ≠ step.startedAt),
      js "it changes a waiting approval gate's start"),
     (!Json.same prior.nestedRun step.nestedRun,
      js "it changes a waiting approval gate's nested run")]

/-- What a waiting step may not change: a retry clears what it held and never
gives it a new child, and an approver decides on what a gate shows. -/
def waitingRefusal (prior : Option StepRunData) (step : StepRunData) : Option JsString :=
  match prior with
  | none => none
  | some prior =>
    if prior.status ≠ .waitingApproval then none
    else if step.status = .pending then
      if step.nestedRun.isSome && !Json.same prior.nestedRun step.nestedRun then
        some (js "it changes a waiting step's child run")
      else none
    else gateRefusal prior step

/-- `judgeStep`. -/
def judgeStep (context : RunRecordContext) (jobName : JsString) (prior : Option StepRunData)
    (step : StepRunData) : Option JsString :=
  ((waitingRefusal prior step).or (decisionRefusal context jobName prior step)).or
    (signalRefusal prior step)

/-- `canonicalRunLogFile`. -/
def canonicalRunLogFile (workflowId runId : JsString) : JsString :=
  js ".swamp/workflow-runs/" ++ workflowId ++ js "/workflow-run-" ++ runId ++ js ".log"

/-- `isCanonicalRunLogFile`. -/
def isCanonicalRunLogFile (logFile workflowId runId : JsString) : Bool :=
  logFile.map (fun u => if u = unit '\\' then unit '/' else u) =
    canonicalRunLogFile workflowId runId

/-- `runIdentityRefusal` of a run's record. -/
def runIdentityRefusal (toLowerCase : JsString → JsString) (workflowId runId : JsString)
    (declaredWorkflowId : JsString) (declaredRunId : Option JsString) : Option JsString :=
  firstRefusal
    [(decide (toLowerCase declaredWorkflowId ≠ workflowId),
      js "its declared workflow is not the workflow its intent names"),
     (declaredRunId.any (fun declared => decide (toLowerCase declared ≠ runId)),
      js "its declared run is not the run its intent names")]

/-- The owner a record may not name. -/
def ownerRefusal (before : Option WorkflowRunData) (after : WorkflowRunData) : Option JsString :=
  firstRefusal
    [(after.instanceId.isSome &&
        decide (after.instanceId ≠ before.bind WorkflowRunData.instanceId),
      js "it names a serve instance as the run's owner"),
     ((after.ownerBeforeResume.bind OwnerBeforeResume.instanceId).isSome &&
        decide (after.ownerBeforeResume ≠ before.bind WorkflowRunData.ownerBeforeResume),
      js "it names a serve instance as the run's owner")]

/-- What the first record of a run may not hold. -/
def firstRecordRefusal (workflowVaults : Option (List JsString)) (after : WorkflowRunData) :
    Option JsString :=
  firstRefusal
    [(after.triggeringPrincipal.isSome,
      js "it records a triggering principal, which only serve records"),
     (after.client.isSome, js "it records a client, which only serve records"),
     (after.allowedVaults.any
        (fun vaults => !vaults.all (fun vault => workflowVaults.any (·.contains vault))),
      js "its allowed vaults widen the workflow's vaults list")]

/-- What no later record may change. -/
def frozenRefusal (before after : WorkflowRunData) : Option JsString :=
  firstRefusal
    [(!Json.same before.triggeringPrincipal after.triggeringPrincipal,
      js "it changes the run's triggering principal"),
     (!Json.same before.parentRun after.parentRun, js "it changes the run's parent run"),
     (decide (before.allowedVaults ≠ after.allowedVaults),
      js "it changes the run's allowed vaults"),
     (decide (before.initiatedBy ≠ after.initiatedBy), js "it changes the run's initiator"),
     (decide (before.client ≠ after.client), js "it changes the run's client"),
     (decide (before.runPlan ≠ after.runPlan), js "it changes the run's plan"),
     (decide (before.inheritedExpressions ≠ after.inheritedExpressions),
      js "it changes the run's inherited expressions")]

/-- Whether two steps of a record have one name. -/
def hasDuplicateStep (after : WorkflowRunData) : Bool :=
  !decide ((after.steps.map stepKey).Nodup)

/-- `beforeSteps`: the step of a name in the stored record, the last where
several have it. -/
def beforeStep (before : Option WorkflowRunData) (key : JsString × JsString) :
    Option StepRunData :=
  (((before.map WorkflowRunData.steps).getD []).reverse.find? (fun entry => stepKey entry = key)).map
    Prod.snd

/-- Whether a decided step of the stored record is missing. -/
def dropsDecision (before : Option WorkflowRunData) (after : WorkflowRunData) : Bool :=
  ((before.map WorkflowRunData.steps).getD []).any (fun entry =>
    !(after.steps.map stepKey).contains (stepKey entry) &&
      ((beforeStep before (stepKey entry)).bind StepRunData.approvalDecision).isSome)

/-- The first refusal among the steps of a record. -/
def stepsRefusal (context : RunRecordContext) : Option JsString :=
  context.after.steps.findSome? (fun entry =>
    judgeStep context entry.1 (beforeStep context.before (stepKey entry)) entry.2)

/-- The checks of `judgeRunRecord`, in order. -/
def recordRefusal (toLowerCase : JsString → JsString) (context : RunRecordContext) :
    Option JsString :=
  (((((((runIdentityRefusal toLowerCase context.workflowId context.runId
        context.after.workflowId (some context.after.id)).or
    (firstRefusal
      [(context.after.logFile.any (fun logFile =>
          !isCanonicalRunLogFile logFile context.workflowId context.runId),
        js "its log file is not the run's own log"),
       (context.before.any isServeDrivenRun,
        js "serve drives this run, so it takes no forwarded record: resume it with --server")])).or
    (ownerRefusal context.before context.after)).or
    (match context.before with
      | none => firstRecordRefusal context.workflowVaults context.after
      | some before => frozenRefusal before context.after)).or
    (firstRefusal [(hasDuplicateStep context.after, js "it holds a duplicate step")])).or
    (firstRefusal
      [(dropsDecision context.before context.after,
        js "it drops a step that holds an approval decision")])).or
    (stepsRefusal context))

/-- A list that may be absent, as one value. -/
def arrOf (items : Option (List Json)) : Option Json := items.map .arr

/-- `added`: the entries the stored list does not hold. -/
def added (before after : Option (List Json)) : List Json :=
  (after.getD []).filter (fun entry =>
    !((before.getD []).map Json.canonical).contains (Json.canonical entry))

/-- The outputs a record added, step by step. -/
def addedStepOutputs (context : RunRecordContext) : List AddedStepOutput :=
  context.after.steps.filterMap (fun entry =>
    let prior := beforeStep context.before (stepKey entry)
    let step := entry.2
    if (!Json.same (prior.bind StepRunData.output) step.output ||
          !Json.same (arrOf (prior.bind StepRunData.dataArtifacts)) (arrOf step.dataArtifacts)) &&
        (step.output.isSome || decide (0 < (step.dataArtifacts.getD []).length)) then
      some ⟨entry.1, step.stepName, step.output, step.dataArtifacts.getD []⟩
    else none)

/-- `judgeRunRecord`. -/
def judgeRunRecord (toLowerCase : JsString → JsString) (context : RunRecordContext) :
    RunRecordJudgement :=
  match recordRefusal toLowerCase context with
  | some refusal => { refusal := some refusal }
  | none =>
    let before := context.before
    let after := context.after
    { inputsChanged :=
        !Json.same (before.bind WorkflowRunData.inputs) after.inputs ||
          !Json.same (before.bind WorkflowRunData.inputsProvenance) after.inputsProvenance ||
          !Json.same (before.bind WorkflowRunData.persistedInputsProvenance)
            after.persistedInputsProvenance
      addedDeferred :=
        added (before.bind WorkflowRunData.deferredExpressions) after.deferredExpressions
      addedInherited :=
        if before.isNone then after.inheritedExpressions.getD [] else []
      addedReferences :=
        added (before.bind WorkflowRunData.writtenReferences) after.writtenReferences
      addedOutputs :=
        addedStepOutputs context ++
          (if Json.same (arrOf (before.bind WorkflowRunData.workflowDataArtifacts))
              (arrOf after.workflowDataArtifacts) then []
            else [⟨[], [], none, after.workflowDataArtifacts.getD []⟩]) }

end Swamp
