import Swamp.RunState

/-!
# Interrupting a run whose process is gone

The process that drove a run died.  What its record shows running is unknown, and
so is what an abort stopped; a start the journal holds and the record does not is
unknown too; and in a running job that shows no running step, any pending step may
have started.

`interruptOrphaned` marks all these, in passes over the record.
`unknownStepsIfOrphaned` tells their names beforehand.
-/

namespace Swamp.Workflows

open Js OrderedWalks

/-- A start in the journal. -/
structure StepStart where
  workflowId : JsString
  runId : JsString
  jobName : JsString
  stepName : JsString
  startedAt : ℕ

namespace StepRecord

/-- What an interrupt marks. -/
def interrupt (now : Instant) (reason : JsString) (step : StepRecord) : StepRecord :=
  if step.status = .running then step.markUnknown now (js "interrupted: " ++ reason)
  else if step.status = .failed && step.stoppedByAbort then
    step.markUnknown now (js "interrupted: " ++ reason)
  else step

/-- A pending step of a job whose start may be missing. -/
def markUnrecorded (now : Instant) (reason : JsString) (step : StepRecord) : StepRecord :=
  if step.status = .pending then
    step.markUnknown now (js "interrupted: " ++ reason ++ js " (start not recorded)")
  else step

end StepRecord

namespace JobRecord

variable (now : Instant) (reason : JsString) (job : JobRecord)

/-- What an interrupt marks. -/
def interrupt : JobRecord :=
  let stopped := job.steps.any (fun step => step.status = .failed && step.stoppedByAbort)
  let interrupted := { job with steps := job.steps.map (StepRecord.interrupt now reason) }
  if job.status = .running ||
      (stopped && (job.status = .failed || job.status = .succeeded)) then
    interrupted.markUnknown now
  else interrupted

/-- Whether a step of the job may have started without a record. -/
def startNotRecorded : Bool :=
  job.status = .running && !job.steps.any (fun step => step.status = .running)

/-- A pending step of a job whose start may be missing. -/
def markUnrecorded : JobRecord :=
  if job.startNotRecorded then
    { job with steps := job.steps.map (StepRecord.markUnrecorded now reason) }
  else job

/-- A journalled start of the job. -/
def startJournalled (stepName : JsString) : JobRecord :=
  let job := job.addExpandedStep stepName
  match job.getStep stepName with
  | none => job
  | some step =>
    if step.status = .running then job
    else
      let job := job.modifyStep stepName (fun step =>
        step.markUnknown now (js "interrupted: " ++ reason ++ js " (start recorded)"))
      if job.status ≠ .running then job.markUnknown now else job

end JobRecord

namespace RunRecord

variable {V : Type*} (now : Instant) (reason : JsString) (run : RunRecord V)

/-- Whether a run has ended. -/
def ended : Bool :=
  run.status = .succeeded || run.status = .failed || run.status = .interrupted

/-- What an interrupt marks. -/
def interrupt : RunRecord V :=
  if run.ended then run
  else
    { run with
      jobs := run.jobs.map (JobRecord.interrupt now reason)
      status := .interrupted
      completedAt := some now
      tags := fun tag => if tag = js "interrupt_reason" then some reason else run.tags tag
      : RunRecord V }.releaseOwnership

/-- `steps.get(jobName)?.get(stepName)`: of one name the last is kept. -/
def indexedStep (jobName stepName : JsString) : Option StepRecord :=
  (findNamed (fun job : JobRecord => job.jobName) jobName run.jobs.reverse).bind (fun job =>
    findNamed (fun step : StepRecord => step.stepName) stepName job.steps.reverse)

/-- Whether the record shows a start: a later one, of a step that is not pending. -/
def recordsStart (start : StepStart) : Bool :=
  match run.indexedStep start.jobName start.stepName with
  | none => false
  | some step =>
    step.status ≠ .pending &&
      match step.startedAt with
      | none => false
      | some startedAt => decide ((start.startedAt : ℤ) ≤ startedAt)

/-- One start of the journal: kept when it is of this run, of a job of it, not shown
and not kept before. -/
def journalStart (found : List (JsString × JsString)) (start : StepStart) :
    List (JsString × JsString) :=
  if start.runId ≠ run.id then found
  else if (run.getJob start.jobName).isNone then found
  else if run.recordsStart start || (start.jobName, start.stepName) ∈ found then found
  else found ++ [(start.jobName, start.stepName)]

/-- `#journalledStarts`: the job and the step of each start the record does not
show. -/
def journalledStarts (starts : List StepStart) : List (JsString × JsString) :=
  starts.foldl run.journalStart []

/-- The starts of the journal are marked. -/
def markJournalled (found : List (JsString × JsString)) : RunRecord V :=
  found.foldl
    (fun run entry => run.modifyJob entry.1 (fun job => job.startJournalled now reason entry.2)) run

def interruptOrphaned (starts : List StepStart) : RunRecord V :=
  if run.status = .running then
    let marked := run.markJournalled now reason (run.journalledStarts starts)
    { marked with jobs := marked.jobs.map (JobRecord.markUnrecorded now reason)
      : RunRecord V }.interrupt now reason
  else run.interrupt now reason

def unknownSteps : List JsString :=
  run.jobs.flatMap (fun job =>
    (job.steps.filter (fun step => step.status = .unknown)).map (fun step => step.stepName))

def unknownStepsIfOrphaned (starts : List StepStart) : List JsString :=
  let journalled :=
    if run.status = .running then (run.journalledStarts starts).map Prod.snd else []
  let held := run.jobs.flatMap (fun job =>
    (job.steps.filter (fun step =>
      step.status = .unknown ||
      (run.status = .running && job.startNotRecorded && step.status = .pending) ||
      (!run.ended && step.status = .running) ||
      (!run.ended && step.status = .failed && step.stoppedByAbort))).map
        (fun step => step.stepName))
  (journalled ++ held).eraseDups

end RunRecord

/-- The records around the one that is changed. -/
theorem modifyFirst_split {α κ : Type} [DecidableEq κ] {key : α → κ} {name : κ} (f : α → α)
    {records : List α} {record : α} (h : findNamed key name records = some record) :
    ∃ before after, records = before ++ record :: after ∧
      modifyFirst key name f records = before ++ f record :: after := by
  induction records with
  | nil => cases h
  | cons head rest ih =>
    unfold findNamed at h ih
    by_cases hname : key head = name
    · rw [List.find?_cons_of_pos (by simp [hname])] at h
      cases h
      exact ⟨[], rest, rfl, by simp [modifyFirst, hname]⟩
    · rw [List.find?_cons_of_neg (by simp [hname])] at h
      obtain ⟨before, after, hsplit, hmodify⟩ := ih h
      exact ⟨head :: before, after, by rw [hsplit]; rfl, by simp [modifyFirst, hname, hmodify]⟩

/-- What an orphaned run leaves unknown of a step, in a job whose starts may be
unrecorded or not. -/
def StepRecord.doubted (startNotRecorded : Bool) (step : StepRecord) : Bool :=
  step.status = .unknown || (startNotRecorded && step.status = .pending) ||
    step.status = .running || (step.status = .failed && step.stoppedByAbort)

/-- The names an orphaned run leaves unknown of a job. -/
def JobRecord.doubtedNames (job : JobRecord) : List JsString :=
  (job.steps.filter (StepRecord.doubted job.startNotRecorded)).map (fun step => step.stepName)

theorem StepRecord.interrupt_markUnrecorded (now : Instant) (reason : JsString)
    (startNotRecorded : Bool) (step : StepRecord) :
    decide (((if startNotRecorded = true then step.markUnrecorded now reason else step).interrupt
        now reason).status = .unknown) = step.doubted startNotRecorded := by
  unfold StepRecord.markUnrecorded StepRecord.interrupt StepRecord.doubted
  cases startNotRecorded <;> cases hstatus : step.status <;>
    cases hstopped : step.stoppedByAbort <;> simp [hstatus, hstopped]

@[simp] theorem StepRecord.interrupt_name (now : Instant) (reason : JsString) (step : StepRecord) :
    (step.interrupt now reason).stepName = step.stepName := by
  unfold StepRecord.interrupt
  split_ifs <;> rfl

@[simp] theorem StepRecord.markUnrecorded_name (now : Instant) (reason : JsString)
    (step : StepRecord) : (step.markUnrecorded now reason).stepName = step.stepName := by
  unfold StepRecord.markUnrecorded
  split_ifs <;> rfl

theorem JobRecord.interrupt_steps (now : Instant) (reason : JsString) (job : JobRecord) :
    (job.interrupt now reason).steps = job.steps.map (StepRecord.interrupt now reason) := by
  unfold JobRecord.interrupt
  dsimp only
  split_ifs <;> rfl

/-- **The last two passes leave unknown what a job is doubted for.** -/
theorem JobRecord.unknown_after (now : Instant) (reason : JsString) (job : JobRecord) :
    (((job.markUnrecorded now reason).interrupt now reason).steps.filter
        (fun step => step.status = .unknown)).map (fun step => step.stepName) =
      job.doubtedNames := by
  have hsteps : (job.markUnrecorded now reason).steps = job.steps.map (fun step =>
      if job.startNotRecorded = true then step.markUnrecorded now reason else step) := by
    unfold JobRecord.markUnrecorded
    split_ifs
    · rfl
    · exact (List.map_id' _).symm
  rw [JobRecord.interrupt_steps, hsteps, List.map_map, List.filter_map, List.map_map]
  unfold JobRecord.doubtedNames
  have hfilter : ((fun step : StepRecord => decide (step.status = .unknown)) ∘
      StepRecord.interrupt now reason ∘ fun step =>
        if job.startNotRecorded = true then step.markUnrecorded now reason else step) =
      StepRecord.doubted job.startNotRecorded := by
    funext step
    exact StepRecord.interrupt_markUnrecorded now reason job.startNotRecorded step
  rw [hfilter]
  apply List.map_congr_left
  intro step _
  simp only [Function.comp_apply, StepRecord.interrupt_name]
  split_ifs
  · exact StepRecord.markUnrecorded_name now reason step
  · rfl

namespace JobRecord

variable {now : Instant} {reason : JsString} {job : JobRecord} {stepName name : JsString}

@[simp] theorem addExpandedStep_name : (job.addExpandedStep stepName).jobName = job.jobName := by
  unfold addExpandedStep
  split <;> rfl

@[simp] theorem startJournalled_name :
    (job.startJournalled now reason stepName).jobName = job.jobName := by
  unfold startJournalled
  dsimp only
  split
  · exact addExpandedStep_name
  · split_ifs
    · exact addExpandedStep_name
    · exact addExpandedStep_name
    · exact addExpandedStep_name

theorem addExpandedStep_spec :
    (∃ step, (job.addExpandedStep stepName).getStep stepName = some step) ∧
      (job.addExpandedStep stepName).startNotRecorded = job.startNotRecorded ∧
      (name ∈ (job.addExpandedStep stepName).doubtedNames →
        name ∈ job.doubtedNames ∨ name = stepName) ∧
      (name ∈ job.doubtedNames → name ∈ (job.addExpandedStep stepName).doubtedNames) := by
  unfold addExpandedStep
  cases hfind : job.getStep stepName with
  | some step => exact ⟨⟨step, hfind⟩, rfl, Or.inl, id⟩
  | none =>
    have hrecorded : startNotRecorded { job with steps := job.steps ++ [.pending stepName] } =
        job.startNotRecorded := by
      simp [startNotRecorded, StepRecord.pending]
    have hfound : ∃ step,
        getStep { job with steps := job.steps ++ [.pending stepName] } stepName = some step :=
      findNamed_isSome (List.mem_append_right _ (List.mem_singleton_self _)) rfl
    refine ⟨hfound, hrecorded, ?_, ?_⟩
    · intro h
      unfold doubtedNames at h ⊢
      rw [hrecorded, List.filter_append, List.map_append, List.mem_append] at h
      rcases h with hold | hnew
      · exact Or.inl hold
      · obtain ⟨step, hstep, rfl⟩ := List.mem_map.mp hnew
        rw [List.mem_singleton.mp (List.mem_of_mem_filter hstep)]
        exact Or.inr rfl
    · intro h
      unfold doubtedNames at h ⊢
      rw [hrecorded, List.filter_append, List.map_append, List.mem_append]
      exact Or.inl h

/-- A running step leaves its name in doubt. -/
theorem mem_doubtedNames_of_running {step : StepRecord} (h : job.getStep stepName = some step)
    (hrunning : step.status = .running) : stepName ∈ job.doubtedNames := by
  refine List.mem_map.mpr ⟨step, List.mem_filter.mpr ⟨findNamed_mem h, ?_⟩, ?_⟩
  · simp [StepRecord.doubted, hrunning]
  · exact @findNamed_key _ _ _ (fun step : StepRecord => step.stepName) _ _ _ h

/-- A step that was not running is marked: its name is in doubt, and no other name
is touched. -/
theorem markStarted_spec {step : StepRecord} (h : job.getStep stepName = some step)
    (hrunning : step.status ≠ .running) (error : JsString) :
    (job.modifyStep stepName (fun step => step.markUnknown now error)).startNotRecorded =
        job.startNotRecorded ∧
      (name ∈ (job.modifyStep stepName (fun step => step.markUnknown now error)).doubtedNames ↔
        name ∈ job.doubtedNames ∨ name = stepName) := by
  obtain ⟨before, after, hsteps, hmodify⟩ :=
    modifyFirst_split (fun step : StepRecord => step.markUnknown now error) h
  have hname : step.stepName = stepName := 
    @findNamed_key _ _ _ (fun step : StepRecord => step.stepName) _ _ _ h
  have hrecorded : (job.modifyStep stepName
      (fun step => step.markUnknown now error)).startNotRecorded = job.startNotRecorded := by
    unfold startNotRecorded modifyStep
    dsimp only
    rw [hmodify, hsteps]
    simp [hrunning]
  refine ⟨hrecorded, ?_⟩
  have hmarked : (step.markUnknown now error).doubted job.startNotRecorded = true := by
    simp [StepRecord.doubted]
  unfold doubtedNames
  rw [hrecorded]
  unfold modifyStep
  dsimp only
  rw [hmodify, hsteps]
  simp only [List.filter_append, List.filter_cons, hmarked, if_true, List.map_append,
    List.map_cons, List.mem_append, List.mem_cons, StepRecord.markUnknown_name, hname]
  split_ifs
  · simp only [List.map_cons, List.mem_cons, hname]
    tauto
  · tauto

theorem startNotRecorded_of_not_running (h : job.status ≠ .running) :
    job.startNotRecorded = false := by
  simp [startNotRecorded, h]

/-- **A journalled start adds its own name to what a job will leave unknown**, and
no other. -/
theorem mem_doubtedNames_startJournalled :
    name ∈ (job.startJournalled now reason stepName).doubtedNames ↔
      name ∈ job.doubtedNames ∨ name = stepName := by
  obtain ⟨⟨step, hfind⟩, hrecorded, hadded, hkept⟩ := @addExpandedStep_spec job stepName name
  unfold startJournalled
  dsimp only
  rw [hfind]
  dsimp only
  by_cases hrunning : step.status = .running
  · rw [if_pos hrunning]
    have hown := mem_doubtedNames_of_running hfind hrunning
    constructor
    · exact hadded
    · intro h
      rcases h with hold | rfl
      · exact hkept hold
      · exact hown
  · rw [if_neg hrunning]
    obtain ⟨hsame, hmarked⟩ := @markStarted_spec now (job.addExpandedStep stepName) stepName name
      step hfind hrunning (js "interrupted: " ++ reason ++ js " (start recorded)")
    have hresult : name ∈ ((job.addExpandedStep stepName).modifyStep stepName (fun step =>
        step.markUnknown now
          (js "interrupted: " ++ reason ++ js " (start recorded)"))).doubtedNames ↔
        name ∈ job.doubtedNames ∨ name = stepName := by
      rw [hmarked]
      constructor
      · intro h
        rcases h with hold | rfl
        · exact hadded hold
        · exact Or.inr rfl
      · intro h
        rcases h with hold | rfl
        · exact Or.inl (hkept hold)
        · exact Or.inr rfl
    split_ifs with hstatus
    · -- A job that was not running becomes unknown, and had no start unrecorded before.
      have hbefore := startNotRecorded_of_not_running hstatus
      have hafter : (((job.addExpandedStep stepName).modifyStep stepName (fun step =>
          step.markUnknown now
            (js "interrupted: " ++ reason ++ js " (start recorded)"))).markUnknown
              now).startNotRecorded = false :=
        startNotRecorded_of_not_running (by simp [markUnknown])
      unfold doubtedNames at hresult ⊢
      rw [hbefore] at hresult
      rw [hafter]
      exact hresult
    · exact hresult

end JobRecord

namespace RunRecord

variable {V : Type*} {now : Instant} {reason : JsString} {run : RunRecord V}

/-- The names an orphaned run that was running leaves unknown. -/
def doubtedNames (run : RunRecord V) : List JsString := run.jobs.flatMap JobRecord.doubtedNames

variable {starts : List StepStart}

theorem journalledStarts_job :
    ∀ entry ∈ run.journalledStarts starts, ∃ job, run.getJob entry.1 = some job := by
  have hfold : ∀ found : List (JsString × JsString),
      (∀ entry ∈ found, ∃ job, run.getJob entry.1 = some job) →
      ∀ entry ∈ starts.foldl run.journalStart found, ∃ job, run.getJob entry.1 = some job := by
    induction starts with
    | nil => exact fun _ hfound => hfound
    | cons start rest ih =>
      intro found hfound
      rw [List.foldl_cons]
      apply ih _
      unfold journalStart
      split_ifs with hrun hjob hkept
      · exact hfound
      · exact hfound
      · exact hfound
      · intro entry hentry
        rcases List.mem_append.mp hentry with hold | hnew
        · exact hfound entry hold
        · rw [List.mem_singleton.mp hnew]
          exact Option.ne_none_iff_exists'.mp (by simpa using hjob)
  exact hfold [] (fun _ hmem => by cases hmem)

theorem mem_doubtedNames_modifyJob {jobName stepName name : JsString}
    (hjob : ∃ job, run.getJob jobName = some job) :
    name ∈ (run.modifyJob jobName
        (fun job => job.startJournalled now reason stepName)).doubtedNames ↔
      name ∈ run.doubtedNames ∨ name = stepName := by
  obtain ⟨job, hfind⟩ := hjob
  obtain ⟨before, after, hjobs, hmodify⟩ :=
    modifyFirst_split (fun job : JobRecord => job.startJournalled now reason stepName) hfind
  unfold doubtedNames modifyJob
  dsimp only
  rw [hmodify, hjobs]
  simp only [List.flatMap_append, List.flatMap_cons, List.mem_append,
    JobRecord.mem_doubtedNames_startJournalled]
  tauto

theorem mem_doubtedNames_markJournalled {found : List (JsString × JsString)} {name : JsString}
    (hjobs : ∀ entry ∈ found, ∃ job, run.getJob entry.1 = some job) :
    name ∈ (run.markJournalled now reason found).doubtedNames ↔
      name ∈ run.doubtedNames ∨ name ∈ found.map Prod.snd := by
  induction found generalizing run with
  | nil => simp [markJournalled]
  | cons entry rest ih =>
    have hkeep : ∀ other ∈ rest, ∃ job, (run.modifyJob entry.1
        (fun job => job.startJournalled now reason entry.2)).getJob other.1 = some job := by
      intro other hother
      obtain ⟨job, hjob⟩ := hjobs other (List.mem_cons_of_mem _ hother)
      unfold getJob modifyJob
      dsimp only
      by_cases hname : other.1 = entry.1
      · rw [hname, find_modifyFirst_self (fun job => JobRecord.startJournalled_name), ← hname]
        exact ⟨_, by rw [show findNamed _ other.1 run.jobs = some job from hjob]; rfl⟩
      · rw [find_modifyFirst_ne (fun job => JobRecord.startJournalled_name) hname]
        exact ⟨job, hjob⟩
    have hrest := ih hkeep
    have hstep := @mem_doubtedNames_modifyJob V now reason run entry.1 entry.2 name
      (hjobs entry List.mem_cons_self)
    unfold markJournalled at hrest ⊢
    rw [List.foldl_cons, hrest, hstep, List.map_cons, List.mem_cons]
    tauto

theorem markJournalled_status (found : List (JsString × JsString)) :
    (run.markJournalled now reason found).status = run.status := by
  induction found generalizing run with
  | nil => rfl
  | cons entry rest ih =>
    have hrest := @ih (run.modifyJob entry.1
      (fun job => job.startJournalled now reason entry.2))
    unfold markJournalled at hrest ⊢
    rw [List.foldl_cons, hrest]
    rfl

theorem interrupt_unknownSteps (hended : run.ended = false) :
    (run.interrupt now reason).unknownSteps = run.jobs.flatMap (fun job =>
      (((job.interrupt now reason).steps.filter (fun step => step.status = .unknown)).map
        (fun step => step.stepName))) := by
  unfold interrupt unknownSteps
  rw [hended]
  simp only [Bool.false_eq_true, if_false, releaseOwnership_jobs, List.flatMap_map]

/-- What is told of a running run. -/
theorem mem_unknownStepsIfOrphaned_running (hrunning : run.status = .running) {name : JsString} :
    name ∈ run.unknownStepsIfOrphaned starts ↔
      name ∈ run.doubtedNames ∨ name ∈ (run.journalledStarts starts).map Prod.snd := by
  have hended : run.ended = false := by simp [ended, hrunning]
  unfold unknownStepsIfOrphaned doubtedNames JobRecord.doubtedNames
  rw [List.mem_eraseDups, List.mem_append, if_pos hrunning, hended]
  simp only [hrunning, decide_true, Bool.true_and, Bool.not_false]
  exact Or.comm

theorem mem_unknownStepsIfOrphaned_stopped (hrunning : run.status ≠ .running) {name : JsString} :
    name ∈ run.unknownStepsIfOrphaned starts ↔
      name ∈ run.jobs.flatMap (fun job => (job.steps.filter (fun step =>
        step.status = .unknown || (!run.ended && (step.status = .running ||
          (step.status = .failed && step.stoppedByAbort))))).map (fun step => step.stepName)) := by
  unfold unknownStepsIfOrphaned
  rw [List.mem_eraseDups, List.mem_append, if_neg hrunning]
  simp only [hrunning, decide_false, Bool.false_and, Bool.or_false, List.not_mem_nil, false_or]
  have hsame : ∀ step : StepRecord,
      (decide (step.status = .unknown) || !run.ended && decide (step.status = .running) ||
        !run.ended && decide (step.status = .failed) && step.stoppedByAbort) =
      (decide (step.status = .unknown) || !run.ended && (decide (step.status = .running) ||
        decide (step.status = .failed) && step.stoppedByAbort)) := by
    intro step
    cases run.ended <;> simp [Bool.or_assoc]
  simp only [hsame]

end RunRecord

/-- **What an orphaned run would be asked about is told beforehand.**  The names
told from the record as it stands are those of the steps that are unknown once the
run was interrupted as an orphan. -/
theorem unknown_predicted {V : Type*} (run : RunRecord V) (now : Instant) (reason : JsString)
    (starts : List StepStart) (name : JsString) :
    name ∈ run.unknownStepsIfOrphaned starts ↔
      name ∈ (run.interruptOrphaned now reason starts).unknownSteps := by
  unfold RunRecord.interruptOrphaned
  by_cases hrunning : run.status = .running
  · -- The marks of the journal come first; the last two passes leave what is doubted.
    have hstatus := @RunRecord.markJournalled_status V now reason run (run.journalledStarts starts)
    rw [RunRecord.mem_unknownStepsIfOrphaned_running hrunning, if_pos hrunning,
      ← @RunRecord.mem_doubtedNames_markJournalled V now reason run _ name
        RunRecord.journalledStarts_job]
    dsimp only
    rw [RunRecord.interrupt_unknownSteps (by simp [RunRecord.ended, hstatus, hrunning]),
      List.flatMap_map]
    unfold RunRecord.doubtedNames
    simp only [JobRecord.unknown_after]
  · rw [RunRecord.mem_unknownStepsIfOrphaned_stopped hrunning, if_neg hrunning]
    cases hended : run.ended with
    | true =>
      unfold RunRecord.interrupt RunRecord.unknownSteps
      rw [hended]
      simp
    | false =>
      rw [RunRecord.interrupt_unknownSteps hended]
      have hjob : ∀ job : JobRecord,
          ((job.interrupt now reason).steps.filter (fun step => step.status = .unknown)).map
              (fun step => step.stepName) =
            (job.steps.filter (StepRecord.doubted false)).map (fun step => step.stepName) := by
        intro job
        rw [JobRecord.interrupt_steps, List.filter_map, List.map_map]
        have hfilter : ((fun step : StepRecord => decide (step.status = .unknown)) ∘
            StepRecord.interrupt now reason) = StepRecord.doubted false := by
          funext step
          exact StepRecord.interrupt_markUnrecorded now reason false step
        rw [hfilter]
        apply List.map_congr_left
        intro step _
        exact StepRecord.interrupt_name now reason step
      simp only [hjob]
      have hdoubted : StepRecord.doubted false = fun step =>
          (decide (step.status = .unknown) || !false && (decide (step.status = .running) ||
            decide (step.status = .failed) && step.stoppedByAbort)) := by
        funext step
        simp [StepRecord.doubted, Bool.or_assoc]
      rw [hdoubted]

end Swamp.Workflows
