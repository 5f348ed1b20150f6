import Swamp.ReachClosure
import Swamp.RunState

/-!
# What a resume from a step resets

A resume from a step runs the step again and all that comes after it.
`templatesToReset` closes the step under the edges of the workflow, and
`computeStepsToReset` finds the records those templates were stored as: by name, by
the template a record was expanded from, and, for runs that kept no template, by the
leading part of the name.

That last match is made for records that keep their template too, so a record can be
reset for a template that is not its own.
-/

namespace Swamp.Workflows

open Js OrderedWalks JobPairing ReachClosure

namespace ResumeReset

/-- `Workflow`, with what a resume reads of it; `forEach` tells which steps have one,
by the names of the job and the step. -/
structure ResumableWorkflow extends Workflow where
  name : JsString
  forEach : JsString → JsString → Bool

/-- `StepRunRef`. -/
structure StepRunRef where
  jobName : JsString
  stepName : JsString
deriving DecidableEq

structure ResumeFrom where
  step : JsString
  job : Option JsString

end ResumeReset

open ResumeReset

def JobRecord.toJobRun (job : JobRecord) : JobRun where
  jobName := job.jobName
  status := job.status
  completedAt := job.completedAt
  steps := job.steps.map StepRecord.toStepRun
  forEachMappings := fun _ => none

/-- The run as the pairing of jobs reads it. -/
def RunRecord.paired {V : Type*} (run : RunRecord V) : RunWithInputs V where
  status := run.status
  completedAt := run.completedAt
  jobs := run.jobs.map JobRecord.toJobRun
  tags := run.tags
  pid := run.pid
  instanceId := run.instanceId
  ownerBeforeResume := run.ownerBeforeResume
  inputs := run.inputs

/-- One job of a reset. -/
def JobRecord.resetForResumeFrom (keys : List StepRunRef) (job : JobRecord) : JobRecord :=
  let reset : StepRecord → Bool := fun step => (⟨job.jobName, step.stepName⟩ : StepRunRef) ∈ keys
  let cleared := { job with
    steps := job.steps.map (fun step =>
      if reset step then step.clearResetMarker.resetToPending else step.clearResetMarker) }
  if job.steps.any reset then cleared.resetToPending else cleared

def RunRecord.resetForResumeFrom {V : Type*} (run : RunRecord V)
    (stepsToReset tracked : List StepRunRef) : RunRecord V :=
  let reset : RunRecord V := { run with
    jobs := run.jobs.map (JobRecord.resetForResumeFrom stepsToReset) }
  tracked.foldl
    (fun run ref => run.modifyJob ref.jobName
      (fun job => job.modifyStep ref.stepName StepRecord.markResetByResume)) reset

namespace ResumeReset

def LISTED_JOBS : ℕ := 3

def quoted (name : JsString) : JsString := js "\"" ++ name ++ js "\""

def jobList (names : List JsString) : JsString :=
  let listed := (js ", ").intercalate ((names.take LISTED_JOBS).map quoted)
  if LISTED_JOBS < names.length then
    listed ++ js " and " ++ decimal (names.length - LISTED_JOBS) ++ js " more"
  else listed

def jobsNoun (names : List JsString) : JsString :=
  if names.length = 1 then js "job" else js "jobs"

section

variable (workflow : ResumableWorkflow)

def stepNotFound (step : JsString) : JsString :=
  let allStepNames := (workflow.jobs.flatMap (fun job => job.steps.map Step.name)).eraseDups
  js "Step \"" ++ step ++ js "\" not found in workflow \"" ++ workflow.name ++ js "\". " ++
    js "Available steps: " ++ (js ", ").intercalate allStepNames

/-- The step a resume starts from, or why there is none. -/
def resolveFrom (from_ : ResumeFrom) : Except JsString StepRunRef :=
  let jobsWithStep :=
    (workflow.jobs.filter (fun job => (job.getStep from_.step).isSome)).map Job.name
  match from_.job with
  | some name =>
    match workflow.getJob name with
    | none =>
      .error (js "Job \"" ++ name ++ js "\" not found in workflow \"" ++ workflow.name ++
        js "\". " ++ js "Available jobs: " ++ jobList (workflow.jobs.map Job.name) ++ js ".")
    | some job =>
      if (job.getStep from_.step).isNone then
        if jobsWithStep = [] then .error (stepNotFound workflow from_.step)
        else
          .error (js "Step \"" ++ from_.step ++ js "\" is not in job \"" ++ name ++ js "\". " ++
            js "It is in " ++ jobsNoun jobsWithStep ++ js " " ++ jobList jobsWithStep ++ js ".")
      else .ok ⟨job.name, from_.step⟩
  | none =>
    match jobsWithStep with
    | [] => .error (stepNotFound workflow from_.step)
    | [jobName] => .ok ⟨jobName, from_.step⟩
    | _ =>
      .error (js "Step \"" ++ from_.step ++ js "\" is in more than one job: " ++
        jobList jobsWithStep ++ js ". " ++ js "Add --job <job> to choose one.")

/-- The edges of a workflow: from a step to each that depends on it, and from every
step of a job to every step of a job that depends on it. -/
def edges : List (StepRunRef × StepRunRef) :=
  workflow.jobs.flatMap (fun job =>
    job.steps.flatMap (fun step =>
      step.getDependencyNames.map (fun dep => (⟨job.name, dep⟩, ⟨job.name, step.name⟩))) ++
    job.getDependencyNames.flatMap (fun depJobName =>
      match workflow.getJob depJobName with
      | none => []
      | some depJob =>
        depJob.steps.flatMap (fun depStep =>
          job.steps.map (fun step => (⟨depJob.name, depStep.name⟩, ⟨job.name, step.name⟩)))))

/-- One edge: the later step is put after the earlier one, once. -/
def addEdge (downstreamOf : OrderedMap StepRunRef (List StepRunRef))
    (edge : StepRunRef × StepRunRef) : OrderedMap StepRunRef (List StepRunRef) :=
  let downstream := (downstreamOf.get edge.1).getD []
  downstreamOf.set edge.1
    (if edge.2 ∈ downstream then downstream else downstream ++ [edge.2])

def downstreamOf : OrderedMap StepRunRef (List StepRunRef) :=
  (edges workflow).foldl addEdge .empty

/-- What comes right after a step. -/
def downstream (ref : StepRunRef) : List StepRunRef := ((downstreamOf workflow).get ref).getD []

/-- The templates reached from the entries; `templatesToReset_ends` is that the
closure ends. -/
def templatesToReset (entries : List StepRunRef) : List StepRunRef :=
  (closure (downstream workflow) (downstreamOf workflow).keys entries).getD []

/-- How a record was matched; `leading` is the source's `"prefix"`. -/
inductive ResetBranch where
  | name
  | template
  | leading

structure SelectedRecord where
  jobName : JsString
  stepName : JsString
  forEachTemplate : Option JsString
  branch : ResetBranch

/-- The template a record keeps; an empty text is none. -/
def keptTemplate (step : StepRecord) : Option JsString :=
  match step.forEachTemplate with
  | some (unit :: rest) => some (unit :: rest)
  | _ => none

def matchRecord (keys : List StepRunRef) (job : Job) (step : StepRecord) : Option ResetBranch :=
  let resets : JsString → Bool := fun stepName => (⟨job.name, stepName⟩ : StepRunRef) ∈ keys
  if resets step.stepName then some .name
  else if (keptTemplate step).any resets then some .template
  else if (job.getStep step.stepName).isSome then none
  else if job.steps.any (fun template =>
      workflow.forEach job.name template.name && resets template.name &&
        startsWith step.stepName (template.name ++ js "-")) then some .leading
  else none

/-- The records of one job of the run. -/
def selectFromJob (pairs : Option (OrderedMap JsString JsString)) (keys : List StepRunRef)
    (jobRun : JobRecord) : List SelectedRecord :=
  match workflowJobOf workflow.toWorkflow jobRun.toJobRun pairs with
  | none => []
  | some job =>
    jobRun.steps.filterMap (fun step =>
      (matchRecord workflow keys job step).map (fun branch =>
        ⟨jobRun.jobName, step.stepName, step.forEachTemplate, branch⟩))

variable {V : Type*}

def selectResetRecords (run : RunRecord V) (pairs : Option (OrderedMap JsString JsString))
    (keys : List StepRunRef) : List SelectedRecord :=
  run.jobs.flatMap (selectFromJob workflow pairs keys)

/-- Why an expression-named job that would be reset cannot be. -/
def unpairedExpressionJob (pairs : Option (OrderedMap JsString JsString))
    (keys : List StepRunRef) : Option JsString :=
  match pairs with
  | some _ => none
  | none =>
    (workflow.jobs.find? (fun job => evaluatedName job.name &&
      job.steps.any (fun step => (⟨job.name, step.name⟩ : StepRunRef) ∈ keys))).map (fun job =>
        js "Job \"" ++ job.name ++ js "\" cannot be matched to a job of the run: " ++
          js "the workflow's jobs changed since the run.")

def zeroStepsError (fromStep : JsString) : JsString :=
  js "--from \"" ++ fromStep ++ js "\" matched zero persisted steps in the run. " ++
    js "The step may not have been reached during execution."

def computeStepsToReset (values : Values V) (parsesAsCel : JsString → Bool) (run : RunRecord V)
    (from_ : ResumeFrom) : Except JsString (List StepRunRef) :=
  let pairs := pairExpressionJobs values parsesAsCel workflow.toWorkflow run.paired
  match resolveFrom workflow from_ with
  | .error message => .error message
  | .ok entry =>
    let keys := templatesToReset workflow [entry]
    match unpairedExpressionJob workflow pairs keys with
    | some unpaired => .error (unpaired ++ js " Start a new run.")
    | none =>
      let stepsToReset := (selectResetRecords workflow run pairs keys).map
        (fun selected => (⟨selected.jobName, selected.stepName⟩ : StepRunRef))
      if stepsToReset = [] then .error (zeroStepsError from_.step) else .ok stepsToReset

/-- What a step is right before: a step that depends on it, and every step of a job
that depends on its own. -/
inductive Downstream : StepRunRef → StepRunRef → Prop
  | dependsOn {job : Job} {step : Step} {dep : JsString} (hjob : job ∈ workflow.jobs)
      (hstep : step ∈ job.steps) (hdep : dep ∈ step.getDependencyNames) :
      Downstream ⟨job.name, dep⟩ ⟨job.name, step.name⟩
  | ofJob {job depJob : Job} {step depStep : Step} {depJobName : JsString}
      (hjob : job ∈ workflow.jobs) (hdep : depJobName ∈ job.getDependencyNames)
      (hdepJob : workflow.getJob depJobName = some depJob) (hdepStep : depStep ∈ depJob.steps)
      (hstep : step ∈ job.steps) :
      Downstream ⟨depJob.name, depStep.name⟩ ⟨job.name, step.name⟩

/-- A template is reached from a step by no, one or more edges. -/
def Reached (entry ref : StepRunRef) : Prop :=
  Relation.ReflTransGen (Downstream workflow) entry ref

/-- The template of a record: the one it keeps, or else the step of its name. -/
def templateOf (step : StepRecord) : JsString := (keptTemplate step).getD step.stepName

/-- What catches a record in a job of the workflow: its name, its template, or a
leading part of its name. -/
def Caught (entry : StepRunRef) (job : Job) (step : StepRecord) : Prop :=
  Reached workflow entry ⟨job.name, step.stepName⟩ ∨
  Reached workflow entry ⟨job.name, templateOf step⟩ ∨
  (job.getStep step.stepName = none ∧ ∃ template ∈ job.steps,
    workflow.forEach job.name template.name = true ∧
    Reached workflow entry ⟨job.name, template.name⟩ ∧
    startsWith step.stepName (template.name ++ js "-") = true)

/-- A record is caught for another's sake: by its name, or by a leading part of its
name, where its own template is not reached. -/
def CaughtAstray (entry : StepRunRef) (job : Job) (step : StepRecord) : Prop :=
  ¬ Reached workflow entry ⟨job.name, templateOf step⟩ ∧
  (Reached workflow entry ⟨job.name, step.stepName⟩ ∨
    (job.getStep step.stepName = none ∧ ∃ template ∈ job.steps,
      workflow.forEach job.name template.name = true ∧
      Reached workflow entry ⟨job.name, template.name⟩ ∧
      startsWith step.stepName (template.name ++ js "-") = true))

end

section

variable {workflow : ResumableWorkflow}

variable {a b : StepRunRef}

theorem mem_edges : (a, b) ∈ edges workflow ↔ Downstream workflow a b := by
  unfold edges
  rw [List.mem_flatMap]
  constructor
  · intro h
    obtain ⟨job, hjob, hedge⟩ := h
    rcases List.mem_append.mp hedge with hown | hdep
    · obtain ⟨step, hstep, hedge⟩ := List.mem_flatMap.mp hown
      obtain ⟨dep, hdep, heq⟩ := List.mem_map.mp hedge
      obtain ⟨rfl, rfl⟩ := Prod.mk.inj heq
      exact Downstream.dependsOn hjob hstep hdep
    · obtain ⟨depJobName, hname, hedge⟩ := List.mem_flatMap.mp hdep
      cases hdepJob : workflow.getJob depJobName with
      | none =>
        rw [hdepJob] at hedge
        cases hedge
      | some depJob =>
        rw [hdepJob] at hedge
        obtain ⟨depStep, hdepStep, hedge⟩ := List.mem_flatMap.mp hedge
        obtain ⟨step, hstep, heq⟩ := List.mem_map.mp hedge
        obtain ⟨rfl, rfl⟩ := Prod.mk.inj heq
        exact Downstream.ofJob hjob hname hdepJob hdepStep hstep
  · intro h
    cases h with
    | dependsOn hjob hstep hdep =>
      exact ⟨_, hjob, List.mem_append_left _ (List.mem_flatMap.mpr
        ⟨_, hstep, List.mem_map.mpr ⟨_, hdep, rfl⟩⟩)⟩
    | ofJob hjob hdep hdepJob hdepStep hstep =>
      refine ⟨_, hjob, List.mem_append_right _ (List.mem_flatMap.mpr ⟨_, hdep, ?_⟩)⟩
      rw [hdepJob]
      exact List.mem_flatMap.mpr ⟨_, hdepStep, List.mem_map.mpr ⟨_, hstep, rfl⟩⟩

theorem mem_addEdge {m : OrderedMap StepRunRef (List StepRunRef)} {edge : StepRunRef × StepRunRef} :
    b ∈ ((addEdge m edge).get a).getD [] ↔ b ∈ (m.get a).getD [] ∨ (a, b) = edge := by
  obtain ⟨source, target⟩ := edge
  unfold addEdge
  dsimp only
  rw [OrderedMap.get_set]
  by_cases ha : a = source
  · subst ha
    rw [if_pos rfl, Option.getD_some]
    by_cases hin : target ∈ (m.get a).getD []
    · rw [if_pos hin]
      constructor
      · exact Or.inl
      · intro h
        rcases h with hold | heq
        · exact hold
        · rw [(Prod.mk.inj heq).2]
          exact hin
    · rw [if_neg hin, List.mem_append, List.mem_singleton]
      simp
  · rw [if_neg ha]
    simp [ha]

theorem mem_addEdges {list : List (StepRunRef × StepRunRef)}
    {m : OrderedMap StepRunRef (List StepRunRef)} :
    b ∈ ((list.foldl addEdge m).get a).getD [] ↔ b ∈ (m.get a).getD [] ∨ (a, b) ∈ list := by
  induction list generalizing m with
  | nil => simp
  | cons edge rest ih =>
    rw [List.foldl_cons, ih, mem_addEdge, List.mem_cons, or_assoc]

theorem mem_downstream : b ∈ downstream workflow a ↔ Downstream workflow a b := by
  unfold downstream downstreamOf
  rw [mem_addEdges, ← mem_edges]
  simp

/-- **The closure ends**, on cyclic definitions too. -/
theorem templatesToReset_ends (workflow : ResumableWorkflow) (entries : List StepRunRef) :
    ∃ keys, closure (downstream workflow) (downstreamOf workflow).keys entries = some keys := by
  refine closure_ends (downstreamOf workflow).nodup ?_ entries
  intro ref href
  have hnone : (downstreamOf workflow).get ref = none := by
    rw [← Option.not_isSome_iff_eq_none, ← OrderedMap.mem_keys]
    exact href
  unfold downstream
  rw [hnone]
  rfl

variable {entry : StepRunRef}

/-- **The closure holds what can be reached.** -/
theorem mem_templatesToReset {ref : StepRunRef} :
    ref ∈ templatesToReset workflow [entry] ↔ Reached workflow entry ref := by
  obtain ⟨keys, hkeys⟩ := templatesToReset_ends workflow [entry]
  have hrelation : (fun a b => b ∈ downstream workflow a) = Downstream workflow := by
    funext a b
    exact propext mem_downstream
  unfold templatesToReset
  rw [hkeys, Option.getD_some, mem_closure hkeys]
  unfold Reaches Reached
  rw [hrelation]
  simp

variable {step : StepRecord}

theorem matchRecord_isSome {job : Job} :
    (matchRecord workflow (templatesToReset workflow [entry]) job step).isSome = true ↔
      Caught workflow entry job step := by
  have hkeys : ∀ stepName : JsString,
      decide ((⟨job.name, stepName⟩ : StepRunRef) ∈ templatesToReset workflow [entry]) = true ↔
        Reached workflow entry ⟨job.name, stepName⟩ := by
    intro stepName
    rw [decide_eq_true_eq, mem_templatesToReset]
  have htemplate : ∀ resets : JsString → Bool, resets step.stepName = false →
      ((keptTemplate step).any resets = true ↔ resets (templateOf step) = true) := by
    intro resets hname
    unfold templateOf
    cases keptTemplate step with
    | none => simp [hname]
    | some template => simp
  unfold matchRecord Caught
  dsimp only
  by_cases hname : Reached workflow entry ⟨job.name, step.stepName⟩
  · rw [if_pos ((hkeys _).mpr hname)]
    exact ⟨fun _ => Or.inl hname, fun _ => rfl⟩
  · have hnot := (not_congr (hkeys step.stepName)).mpr hname
    rw [if_neg hnot]
    have hkept := htemplate (fun stepName =>
      decide ((⟨job.name, stepName⟩ : StepRunRef) ∈ templatesToReset workflow [entry]))
      (Bool.eq_false_iff.mpr hnot)
    by_cases hreset : Reached workflow entry ⟨job.name, templateOf step⟩
    · rw [if_pos (hkept.mpr ((hkeys _).mpr hreset))]
      exact ⟨fun _ => Or.inr (Or.inl hreset), fun _ => rfl⟩
    · rw [if_neg (fun h => hreset ((hkeys _).mp (hkept.mp h)))]
      cases hstep : job.getStep step.stepName with
      | some found => simp [hname, hreset]
      | none =>
        have hleading : (job.steps.any (fun template =>
            workflow.forEach job.name template.name &&
              decide ((⟨job.name, template.name⟩ : StepRunRef) ∈
                templatesToReset workflow [entry]) &&
              startsWith step.stepName (template.name ++ js "-")) = true) ↔
            ∃ template ∈ job.steps, workflow.forEach job.name template.name = true ∧
              Reached workflow entry ⟨job.name, template.name⟩ ∧
              startsWith step.stepName (template.name ++ js "-") = true := by
          simp only [List.any_eq_true, Bool.and_eq_true, hkeys, and_assoc]
        simp only [Option.isSome_none, Bool.false_eq_true, if_false, hname, hreset, false_or,
          true_and]
        rw [← hleading]
        split_ifs with hany
        · simp [hany]
        · simp [hany]

variable {V : Type*} {values : Values V} {parsesAsCel : JsString → Bool} {run : RunRecord V}

/-- The job of the workflow a job of the run is led back to. -/
def ledTo (values : Values V) (parsesAsCel : JsString → Bool) (workflow : ResumableWorkflow)
    (run : RunRecord V) (jobRun : JobRecord) : Option Job :=
  workflowJobOf workflow.toWorkflow jobRun.toJobRun
    (pairExpressionJobs values parsesAsCel workflow.toWorkflow run.paired)

theorem mem_selectResetRecords {pairs : Option (OrderedMap JsString JsString)}
    {keys : List StepRunRef} {ref : StepRunRef} :
    ref ∈ (selectResetRecords workflow run pairs keys).map
        (fun selected => (⟨selected.jobName, selected.stepName⟩ : StepRunRef)) ↔
      ∃ jobRun ∈ run.jobs, ∃ job,
        workflowJobOf workflow.toWorkflow jobRun.toJobRun pairs = some job ∧
          ∃ step ∈ jobRun.steps, (matchRecord workflow keys job step).isSome = true ∧
            ref = ⟨jobRun.jobName, step.stepName⟩ := by
  unfold selectResetRecords selectFromJob
  rw [List.mem_map]
  constructor
  · intro h
    obtain ⟨selected, hselected, rfl⟩ := h
    obtain ⟨jobRun, hjobRun, hselected⟩ := List.mem_flatMap.mp hselected
    cases hjob : workflowJobOf workflow.toWorkflow jobRun.toJobRun pairs with
    | none =>
      rw [hjob] at hselected
      cases hselected
    | some job =>
      rw [hjob] at hselected
      obtain ⟨step, hstep, hmatch⟩ := List.mem_filterMap.mp hselected
      obtain ⟨branch, hbranch, rfl⟩ := Option.map_eq_some_iff.mp hmatch
      exact ⟨jobRun, hjobRun, job, hjob, step, hstep, by rw [hbranch]; rfl, rfl⟩
  · intro h
    obtain ⟨jobRun, hjobRun, job, hjob, step, hstep, hmatch, rfl⟩ := h
    obtain ⟨branch, hbranch⟩ := Option.isSome_iff_exists.mp hmatch
    refine ⟨⟨jobRun.jobName, step.stepName, step.forEachTemplate, branch⟩, ?_, rfl⟩
    refine List.mem_flatMap.mpr ⟨jobRun, hjobRun, ?_⟩
    rw [hjob]
    exact List.mem_filterMap.mpr ⟨step, hstep, by rw [hbranch]; rfl⟩

/-- What a computed reset is computed from. -/
theorem computeStepsToReset_ok {from_ : ResumeFrom} {refs : List StepRunRef}
    (h : computeStepsToReset workflow values parsesAsCel run from_ = .ok refs) :
    ∃ entry, resolveFrom workflow from_ = .ok entry ∧
      refs = (selectResetRecords workflow run
        (pairExpressionJobs values parsesAsCel workflow.toWorkflow run.paired)
        (templatesToReset workflow [entry])).map
          (fun selected => (⟨selected.jobName, selected.stepName⟩ : StepRunRef)) := by
  unfold computeStepsToReset at h
  dsimp only at h
  cases hentry : resolveFrom workflow from_ with
  | error message =>
    rw [hentry] at h
    cases h
  | ok entry =>
    rw [hentry] at h
    dsimp only at h
    split at h
    · cases h
    · split_ifs at h
      cases h
      exact ⟨entry, rfl, rfl⟩

/-- **Which records are reset**: those caught in the job theirs is led back to. -/
theorem mem_computeStepsToReset {from_ : ResumeFrom} {refs : List StepRunRef}
    (hjobs : (run.jobs.map JobRecord.jobName).Nodup)
    (hsteps : ∀ job ∈ run.jobs, (job.steps.map (fun step => step.stepName)).Nodup)
    (hentry : resolveFrom workflow from_ = .ok entry)
    (hrefs : computeStepsToReset workflow values parsesAsCel run from_ = .ok refs)
    {jobRun : JobRecord} (hjobRun : jobRun ∈ run.jobs) (hstep : step ∈ jobRun.steps) :
    (⟨jobRun.jobName, step.stepName⟩ : StepRunRef) ∈ refs ↔
      ∃ job, ledTo values parsesAsCel workflow run jobRun = some job ∧
        Caught workflow entry job step := by
  obtain ⟨entry', hentry', rfl⟩ := computeStepsToReset_ok hrefs
  rw [hentry] at hentry'
  cases hentry'
  rw [mem_selectResetRecords]
  constructor
  · intro h
    obtain ⟨other, hother, job, hjob, record, hrecord, hmatch, heq⟩ := h
    obtain ⟨hname, hstepName⟩ := StepRunRef.mk.inj heq
    have hsame : jobRun = other := List.inj_on_of_nodup_map hjobs hjobRun hother hname
    subst hsame
    have hrecordSame : step = record :=
      List.inj_on_of_nodup_map (hsteps jobRun hjobRun) hstep hrecord hstepName
    subst hrecordSame
    exact ⟨job, hjob, matchRecord_isSome.mp hmatch⟩
  · intro h
    obtain ⟨job, hjob, hcaught⟩ := h
    exact ⟨jobRun, hjobRun, job, hjob, step, hstep, matchRecord_isSome.mpr hcaught, rfl⟩

/-- A step after a reset: pending with nothing kept, or as it was but for its
marker. -/
def StepAfter (refs : List StepRunRef) (jobName : JsString) (before after : StepRecord) : Prop :=
  ((⟨jobName, before.stepName⟩ : StepRunRef) ∈ refs →
    after = before.clearResetMarker.resetToPending) ∧
  ((⟨jobName, before.stepName⟩ : StepRunRef) ∉ refs → after = before.clearResetMarker)

/-- A job after a reset: reset when it holds a reset step, and only then. -/
def JobAfter (refs : List StepRunRef) (before after : JobRecord) : Prop :=
  List.Forall₂ (StepAfter refs before.jobName) before.steps after.steps ∧
  ((∃ step ∈ before.steps, (⟨before.jobName, step.stepName⟩ : StepRunRef) ∈ refs) →
    after = { before.resetToPending with steps := after.steps }) ∧
  ((∀ step ∈ before.steps, (⟨before.jobName, step.stepName⟩ : StepRunRef) ∉ refs) →
    after = { before with steps := after.steps })

theorem resetForResumeFrom_jobAfter (refs : List StepRunRef) (job : JobRecord) :
    JobAfter refs job (job.resetForResumeFrom refs) := by
  have hsteps : (job.resetForResumeFrom refs).steps = job.steps.map (fun step =>
      if (⟨job.jobName, step.stepName⟩ : StepRunRef) ∈ refs then
        step.clearResetMarker.resetToPending else step.clearResetMarker) := by
    unfold JobRecord.resetForResumeFrom
    dsimp only
    split_ifs <;> simp [JobRecord.resetToPending]
  refine ⟨?_, ?_, ?_⟩
  · rw [hsteps, List.forall₂_map_right_iff, List.forall₂_same]
    intro step _
    exact ⟨fun h => if_pos h, fun h => if_neg h⟩
  · intro h
    obtain ⟨step, hstep, href⟩ := h
    have hany : job.steps.any
        (fun step => decide ((⟨job.jobName, step.stepName⟩ : StepRunRef) ∈ refs)) = true :=
      List.any_eq_true.mpr ⟨step, hstep, decide_eq_true href⟩
    unfold JobRecord.resetForResumeFrom
    dsimp only
    rw [if_pos hany]
    rfl
  · intro h
    have hany : ¬ job.steps.any
        (fun step => decide ((⟨job.jobName, step.stepName⟩ : StepRunRef) ∈ refs)) = true := by
      intro hany
      obtain ⟨step, hstep, href⟩ := List.any_eq_true.mp hany
      exact h step hstep (of_decide_eq_true href)
    unfold JobRecord.resetForResumeFrom
    dsimp only
    rw [if_neg hany]

/-- The template of a record, a step of the job its own is led back to. -/
def recordTemplate (values : Values V) (parsesAsCel : JsString → Bool)
    (workflow : ResumableWorkflow) (run : RunRecord V) (jobRun : JobRecord) (step : StepRecord) :
    Option StepRunRef :=
  (ledTo values parsesAsCel workflow run jobRun).map (fun job => ⟨job.name, templateOf step⟩)

/-- A job whose name holds no expression is led back to the job of its name. -/
theorem recordTemplate_literal {jobRun : JobRecord} {own : Job} (hown : own ∈ workflow.jobs)
    (hliteral : evaluatedName own.name = false) (hname : own.name = jobRun.jobName) :
    recordTemplate values parsesAsCel workflow run jobRun step =
      some ⟨jobRun.jobName, templateOf step⟩ := by
  unfold recordTemplate ledTo workflowJobOf
  split
  · rename_i literal hfound
    have hfits := List.find?_some hfound
    rw [Bool.and_eq_true, decide_eq_true_eq] at hfits
    have hsame : literal.name = jobRun.jobName := hfits.2
    rw [Option.map_some, hsame]
  · rename_i hnone
    have hout := List.find?_eq_none.mp hnone own hown
    refine absurd ?_ hout
    rw [hliteral]
    exact decide_eq_true hname

/-- The reset is the downstream closure: the closure ends, a record is reset exactly
when its template is reached, and what is not reset is kept. -/
structure ExactReset (values : Values V) (parsesAsCel : JsString → Bool)
    (workflow : ResumableWorkflow) (run : RunRecord V) (entry : StepRunRef)
    (refs : List StepRunRef) : Prop where
  ends : ∃ keys, closure (downstream workflow) (downstreamOf workflow).keys [entry] = some keys
  reset : ∀ job ∈ run.jobs, ∀ step ∈ job.steps,
    (⟨job.jobName, step.stepName⟩ : StepRunRef) ∈ refs ↔
      ∃ template ∈ recordTemplate values parsesAsCel workflow run job step,
        Reached workflow entry template
  after : List.Forall₂ (JobAfter refs) run.jobs (run.resetForResumeFrom refs []).jobs

/-- No record is caught for another's sake in the job its own is led back to. -/
def ClearlyCaught (values : Values V) (parsesAsCel : JsString → Bool) (workflow : ResumableWorkflow)
    (run : RunRecord V) (entry : StepRunRef) (jobRun : JobRecord) (step : StepRecord) : Prop :=
  ∀ job ∈ ledTo values parsesAsCel workflow run jobRun, ¬ CaughtAstray workflow entry job step

theorem caught_iff_of_clear {jobRun : JobRecord} :
    ((∃ job, ledTo values parsesAsCel workflow run jobRun = some job ∧
        Caught workflow entry job step) ↔
      ∃ template ∈ recordTemplate values parsesAsCel workflow run jobRun step,
        Reached workflow entry template) ↔
      ClearlyCaught values parsesAsCel workflow run entry jobRun step := by
  unfold ClearlyCaught recordTemplate
  cases ledTo values parsesAsCel workflow run jobRun with
  | none => simp
  | some job =>
    -- caught and not reached is caught astray
    simp only [Option.some.injEq, exists_eq_left', Option.map_some, Option.mem_def,
      forall_eq']
    unfold Caught CaughtAstray
    by_cases hown : Reached workflow entry ⟨job.name, templateOf step⟩
    · simp [hown]
    · simp only [hown, false_or, iff_false, not_false_eq_true, true_and]

/-- **The reset is the downstream closure exactly when no record is caught for
another's sake.**  The template of a record is a step of the job it is recorded
under, where the name of that job holds no expression. -/
theorem resume_reset_exact (values : Values V) (parsesAsCel : JsString → Bool)
    (workflow : ResumableWorkflow) (run : RunRecord V) (from_ : ResumeFrom) (entry : StepRunRef)
    (refs : List StepRunRef) (hjobs : (run.jobs.map JobRecord.jobName).Nodup)
    (hsteps : ∀ job ∈ run.jobs, (job.steps.map (fun step => step.stepName)).Nodup)
    (hentry : resolveFrom workflow from_ = .ok entry)
    (hrefs : computeStepsToReset workflow values parsesAsCel run from_ = .ok refs) :
    (ExactReset values parsesAsCel workflow run entry refs ↔
      ∀ job ∈ run.jobs, ∀ step ∈ job.steps,
        ClearlyCaught values parsesAsCel workflow run entry job step) ∧
    ∀ job ∈ run.jobs, ∀ own ∈ workflow.jobs, evaluatedName own.name = false →
      own.name = job.jobName → ∀ step ∈ job.steps,
        recordTemplate values parsesAsCel workflow run job step =
          some ⟨job.jobName, templateOf step⟩ := by
  refine ⟨⟨?_, ?_⟩, fun job _ own hown hliteral hname step _ =>
    recordTemplate_literal hown hliteral hname⟩
  · intro h job hjob step hstep
    rw [← caught_iff_of_clear,
      ← mem_computeStepsToReset hjobs hsteps hentry hrefs hjob hstep]
    exact h.reset job hjob step hstep
  · intro h
    refine ⟨templatesToReset_ends workflow [entry], ?_, ?_⟩
    · intro job hjob step hstep
      rw [mem_computeStepsToReset hjobs hsteps hentry hrefs hjob hstep]
      exact caught_iff_of_clear.mpr (h job hjob step hstep)
    · unfold RunRecord.resetForResumeFrom
      rw [List.foldl_nil, List.forall₂_map_right_iff, List.forall₂_same]
      intro job _
      exact resetForResumeFrom_jobAfter refs job

end

def sampleStep (name : JsString) : Step := ⟨name, 1, [], none⟩

/-- One job of two steps that are expanded, independent of each other, the name of
one leading the name of the other. -/
def plates : ResumableWorkflow where
  jobs := [⟨js "scan", 1, [], [sampleStep (js "read"), sampleStep (js "read-plate")]⟩]
  name := js "plates"
  forEach _ _ := true

/-- An iteration that finished, with the template it was expanded from. -/
def sampleIteration (name template : JsString) : StepRecord :=
  { StepRecord.pending name with status := .succeeded, forEachTemplate := some template }

def platesRun : RunRecord (Option Json) where
  id := js "run"
  status := .failed
  completedAt := none
  jobs := [⟨js "scan", .failed, none, none,
    [sampleIteration (js "read-1") (js "read"),
      sampleIteration (js "read-plate-1") (js "read-plate")]⟩]
  inputs := none
  tags := fun _ => none
  pid := none
  instanceId := none
  ownerBeforeResume := none

theorem platesRun_reset :
    computeStepsToReset plates sampleValues (fun _ => true) platesRun ⟨js "read", none⟩ =
      .ok [⟨js "scan", js "read-1"⟩, ⟨js "scan", js "read-plate-1"⟩] := by
  rfl

theorem plates_unreached :
    ¬ Reached plates ⟨js "scan", js "read"⟩ ⟨js "scan", js "read-plate"⟩ := by
  rw [← mem_templatesToReset]
  decide +kernel

/-- What the reset of that run comes down to. -/
theorem resume_reset_platesRun :
    ExactReset sampleValues (fun _ => true) plates platesRun ⟨js "scan", js "read"⟩
        [⟨js "scan", js "read-1"⟩, ⟨js "scan", js "read-plate-1"⟩] ↔
      ∀ job ∈ platesRun.jobs, ∀ step ∈ job.steps,
        ClearlyCaught sampleValues (fun _ => true) plates platesRun ⟨js "scan", js "read"⟩ job
          step :=
  (resume_reset_exact sampleValues (fun _ => true) plates platesRun ⟨js "read", none⟩ _ _
    (by decide +kernel) (by decide +kernel) rfl platesRun_reset).1

/-- **A resume from one step resets the iteration of another**, which is not reached
from it. -/
theorem reset_of_unreached_iteration :
    ∃ refs, resolveFrom plates ⟨js "read", none⟩ = .ok ⟨js "scan", js "read"⟩ ∧
      computeStepsToReset plates sampleValues (fun _ => true) platesRun ⟨js "read", none⟩ =
        .ok refs ∧
      (⟨js "scan", js "read-plate-1"⟩ : StepRunRef) ∈ refs ∧
      ¬ Reached plates ⟨js "scan", js "read"⟩ ⟨js "scan", js "read-plate"⟩ ∧
      ¬ ExactReset sampleValues (fun _ => true) plates platesRun ⟨js "scan", js "read"⟩ refs := by
  have hmem : (⟨js "scan", js "read-plate-1"⟩ : StepRunRef) ∈
      ([⟨js "scan", js "read-1"⟩, ⟨js "scan", js "read-plate-1"⟩] : List StepRunRef) := by
    decide +kernel
  refine ⟨_, rfl, platesRun_reset, hmem, plates_unreached, ?_⟩
  intro h
  obtain ⟨template, htemplate, hreached⟩ := (h.reset _ List.mem_cons_self
    (sampleIteration (js "read-plate-1") (js "read-plate")) (by simp)).mp hmem
  cases htemplate
  exact plates_unreached hreached

end ResumeReset

end Swamp.Workflows
