import Swamp.JobPairing

/-!
# Runs as a resume and a recovery read them

A step's record with all it carries: what it was given, what came out of it and
what was decided on it.  A job's record is found by its name, and a step's by its
name within the job; the first of a name stands for it.
-/

namespace Swamp.Workflows

open Js OrderedWalks

inductive StepFailureKind where
  | workflowChanged

/-- `StepRun`, all of it; what no modelled function looks into is JSON. -/
structure StepRecord extends StepRun where
  startedAt : Option Instant
  output : Option Json
  dataArtifacts : List Json
  approvalDecision : Option ApprovalDecisionData
  approvalPrompt : Option JsString
  approvalTimeout : Option ℚ
  assertResult : Option Json
  failureKind : Option StepFailureKind
  storedWait : Option Json

namespace StepRecord

/-- `StepRun.pending`. -/
def pending (stepName : JsString) : StepRecord where
  stepName := stepName
  status := .pending
  completedAt := none
  error := none
  errorCode := none
  allowedFailure := false
  forEachTemplate := none
  skipReason := none
  resetByResume := false
  settledByAbort := false
  stoppedByAbort := false
  nestedRun := none
  detachedNestedRun := false
  startedAt := none
  output := none
  dataArtifacts := []
  approvalDecision := none
  approvalPrompt := none
  approvalTimeout := none
  assertResult := none
  failureKind := none
  storedWait := none

variable (now : Instant) (step : StepRecord)

/-- Everything but the name and the template it was expanded from. -/
def resetToPending : StepRecord :=
  { pending step.stepName with forEachTemplate := step.forEachTemplate }

def clearResetMarker : StepRecord := { step with resetByResume := false }

def markResetByResume : StepRecord := { step with resetByResume := true }

def markUnknown (error : JsString) : StepRecord :=
  { step with
    status := .unknown
    completedAt := some now
    resetByResume := false
    error := some error
    errorCode := none }

@[simp] theorem markUnknown_name (error : JsString) :
    (step.markUnknown now error).stepName = step.stepName := rfl

@[simp] theorem markUnknown_status (error : JsString) :
    (step.markUnknown now error).status = .unknown := rfl

end StepRecord

/-- `JobRun`. -/
structure JobRecord where
  jobName : JsString
  status : RunStatus
  startedAt : Option Instant
  completedAt : Option Instant
  steps : List StepRecord

namespace JobRecord

variable (now : Instant) (job : JobRecord)

def getStep (name : JsString) : Option StepRecord :=
  findNamed (fun step : StepRecord => step.stepName) name job.steps

def addExpandedStep (stepName : JsString) : JobRecord :=
  match job.getStep stepName with
  | some _ => job
  | none => { job with steps := job.steps ++ [.pending stepName] }

/-- The first step of a name is changed. -/
def modifyStep (name : JsString) (f : StepRecord → StepRecord) : JobRecord :=
  { job with steps := modifyFirst (fun step : StepRecord => step.stepName) name f job.steps }

def markUnknown : JobRecord := { job with status := .unknown, completedAt := some now }

/-- Everything but the name and the template it was expanded from. -/
def resetToPending : JobRecord :=
  { job with status := .pending, startedAt := none, completedAt := none }

@[simp] theorem markUnknown_steps : (job.markUnknown now).steps = job.steps := rfl

@[simp] theorem markUnknown_name : (job.markUnknown now).jobName = job.jobName := rfl

@[simp] theorem resetToPending_steps : job.resetToPending.steps = job.steps := rfl

@[simp] theorem resetToPending_name : job.resetToPending.jobName = job.jobName := rfl

end JobRecord

/-- `WorkflowRun`, with what a resume and a recovery read and write. -/
structure RunRecord (V : Type*) where
  id : JsString
  status : WorkflowRunStatus
  completedAt : Option Instant
  jobs : List JobRecord
  inputs : V
  tags : JsString → Option JsString
  pid : Option ℕ
  instanceId : Option JsString
  ownerBeforeResume : Option OwnerBeforeResume

namespace RunRecord

variable {V : Type*} (run : RunRecord V)

def getJob (name : JsString) : Option JobRecord :=
  findNamed (fun job : JobRecord => job.jobName) name run.jobs

/-- The first job of a name is changed. -/
def modifyJob (name : JsString) (f : JobRecord → JobRecord) : RunRecord V :=
  { run with jobs := modifyFirst (fun job : JobRecord => job.jobName) name f run.jobs }

def releaseOwnership : RunRecord V :=
  match run.ownerBeforeResume with
  | none => run
  | some owner =>
    { run with pid := owner.pid, instanceId := owner.instanceId, ownerBeforeResume := none }

@[simp] theorem releaseOwnership_jobs : run.releaseOwnership.jobs = run.jobs := by
  unfold releaseOwnership
  split
  · rfl
  · rfl

end RunRecord

end Swamp.Workflows
