import Swamp.OrderedWalks
import Swamp.RunRecords
import Swamp.TopologicalSort

/-!
# Workflow runs and their definitions

A run records its jobs and their steps, each with a status; a definition says what a
job and a step depend on, and under which condition.  Records are kept in lists and
found by name, so that the first of a name stands for it: nothing checks that names
are distinct, or that a record and a definition agree.  The steps a `forEach` step was
expanded to name it as their template.
-/

namespace Swamp.Workflows

open Js OrderedWalks

/-- `TriggerConditionData`. -/
inductive TriggerCondition where
  | always
  | succeeded
  | failed
  | completed
  | skipped
  | and (conditions : List TriggerCondition)
  | or (conditions : List TriggerCondition)
  | not (condition : TriggerCondition)

/-- What a step or a job depends on. -/
structure Dependency where
  on : JsString
  condition : TriggerCondition

/-- `Step`, with what settlement reads of it. -/
structure Step where
  name : JsString
  weight : ℚ
  dependsOn : List Dependency
  guard : Option JsString

/-- `Job`. -/
structure Job where
  name : JsString
  weight : ℚ
  dependsOn : List Dependency
  steps : List Step

/-- `Workflow`. -/
structure Workflow where
  jobs : List Job

def Step.getDependencyNames (step : Step) : List JsString := step.dependsOn.map Dependency.on

def Job.getDependencyNames (job : Job) : List JsString := job.dependsOn.map Dependency.on

def Job.getStep (job : Job) (name : JsString) : Option Step := findNamed Step.name name job.steps

def Workflow.getJob (workflow : Workflow) (name : JsString) : Option Job :=
  findNamed Job.name name workflow.jobs

/-- An instant, in milliseconds. -/
abbrev Instant := ℤ

/-- `NestedRunRef`. -/
structure NestedRunRef where
  workflowId : JsString
  workflowName : JsString
  runId : JsString

/-- `RunLink`, of a nested run. -/
inductive RunLink where
  | valid (ref : NestedRunRef)
  | broken (raw : Json)

/-- `StepSkipReasonData`. -/
inductive StepSkipReason where
  | guarded (expression : Option JsString)
  | dependency
  | jobSkipped

/-- `StepRun`, with what settlement reads and writes. -/
structure StepRun where
  stepName : JsString
  status : RunStatus
  completedAt : Option Instant
  error : Option JsString
  errorCode : Option JsString
  allowedFailure : Bool
  forEachTemplate : Option JsString
  skipReason : Option StepSkipReason
  resetByResume : Bool
  settledByAbort : Bool
  stoppedByAbort : Bool
  nestedRun : Option RunLink
  detachedNestedRun : Bool

/-- `JobRun`.  The expansions are known to a job in memory only. -/
structure JobRun where
  jobName : JsString
  status : RunStatus
  completedAt : Option Instant
  steps : List StepRun
  forEachMappings : JsString → Option (List JsString)

/-- The status of a run. -/
inductive WorkflowRunStatus where
  | pending
  | running
  | suspended
  | succeeded
  | failed
  | cancelled
  | interrupted
deriving DecidableEq

/-- Who owned a run before a resume. -/
structure OwnerBeforeResume where
  pid : Option ℕ
  instanceId : Option JsString

/-- `WorkflowRun`, with what a cancel reads and writes. -/
structure WorkflowRun where
  status : WorkflowRunStatus
  completedAt : Option Instant
  jobs : List JobRun
  tags : JsString → Option JsString
  pid : Option ℕ
  instanceId : Option JsString
  ownerBeforeResume : Option OwnerBeforeResume

def WorkflowRun.getJob (run : WorkflowRun) (name : JsString) : Option JobRun :=
  findNamed JobRun.jobName name run.jobs

end Swamp.Workflows
