import Swamp.RunRecords
import Swamp.ModelType

/-!
# No sequence of forwarded records forges an approval

The judge compares a record with the one before it only.  `RecordAccepted` is what
it asks of two adjacent records, said once; what holds over a whole history of
accepted records follows from it by induction, so that nothing is gained by
spreading a change over several records.
-/

namespace Swamp

open Js

/-- A decision again, or without its client. -/
def ApprovalDecisionData.UpToClient (held forwarded : ApprovalDecisionData) : Prop :=
  forwarded = held ∨ forwarded = held.withoutClient

theorem ApprovalDecisionData.UpToClient.trans {a b c : ApprovalDecisionData}
    (hab : a.UpToClient b) (hbc : b.UpToClient c) : a.UpToClient c := by
  rcases hab with rfl | rfl
  · exact hbc
  · rcases hbc with rfl | rfl
    · exact Or.inr rfl
    · exact Or.inr rfl

/-- What the records of one run have in common. -/
structure FrozenSame (before after : WorkflowRunData) : Prop where
  triggeringPrincipal :
    before.triggeringPrincipal.map Json.canonical = after.triggeringPrincipal.map Json.canonical
  parentRun : before.parentRun.map Json.canonical = after.parentRun.map Json.canonical
  allowedVaults : before.allowedVaults = after.allowedVaults
  initiatedBy : before.initiatedBy = after.initiatedBy
  client : before.client = after.client
  runPlan : before.runPlan = after.runPlan
  inheritedExpressions : before.inheritedExpressions = after.inheritedExpressions

theorem FrozenSame.trans {a b c : WorkflowRunData} (hab : FrozenSame a b) (hbc : FrozenSame b c) :
    FrozenSame a c where
  triggeringPrincipal := hab.triggeringPrincipal.trans hbc.triggeringPrincipal
  parentRun := hab.parentRun.trans hbc.parentRun
  allowedVaults := hab.allowedVaults.trans hbc.allowedVaults
  initiatedBy := hab.initiatedBy.trans hbc.initiatedBy
  client := hab.client.trans hbc.client
  runPlan := hab.runPlan.trans hbc.runPlan
  inheritedExpressions := hab.inheritedExpressions.trans hbc.inheritedExpressions

theorem firstRefusal_none {checks : List (Bool × JsString)} (h : firstRefusal checks = none) :
    ∀ check ∈ checks, check.1 = false := by
  induction checks with
  | nil => exact fun check hcheck => absurd hcheck List.not_mem_nil
  | cons check checks ih =>
    unfold firstRefusal at h
    split at h
    · cases h
    · rename_i hpass
      intro other hother
      rcases List.mem_cons.mp hother with rfl | hother
      · exact Bool.eq_false_iff.mpr hpass
      · exact ih h other hother

theorem frozenSame_of_refusal {before after : WorkflowRunData}
    (h : frozenRefusal before after = none) : FrozenSame before after := by
  have hpass := firstRefusal_none h
  simp only [List.mem_cons, List.not_mem_nil, or_false, forall_eq_or_imp, forall_eq,
    Bool.not_eq_false', Json.same_iff, decide_eq_false_iff_not, not_not] at hpass
  obtain ⟨hprincipal, hparent, hvaults, hinitiator, hclient, hplan, hinherited⟩ := hpass
  exact ⟨hprincipal, hparent, hvaults, hinitiator, hclient, hplan, hinherited⟩

theorem sameDecision_some {held : ApprovalDecisionData} {forwarded : Option ApprovalDecisionData}
    (h : sameDecision (some held) forwarded = true) :
    ∃ decision, forwarded = some decision ∧ held.UpToClient decision := by
  unfold sameDecision at h
  split at h
  · rename_i heq
    exact ⟨held, heq.symm, Or.inl rfl⟩
  · exact ⟨held.withoutClient, of_decide_eq_true h, Or.inr rfl⟩

theorem sameDecision_none {forwarded : Option ApprovalDecisionData}
    (h : sameDecision none forwarded = true) : forwarded = none := by
  unfold sameDecision at h
  split at h
  · rename_i heq
    exact heq.symm
  · cases h

/-- What an accepted step says of its decision, given the stored step of its
name. -/
structure StepAccepted (context : RunRecordContext) (jobName : JsString)
    (prior : Option StepRunData) (step : StepRunData) : Prop where
  kept : ∀ held, prior.bind StepRunData.approvalDecision = some held →
    (∃ decision, step.approvalDecision = some decision ∧ held.UpToClient decision) ∨
      (step.approvalDecision = none ∧ step.status = .pending)
  fresh : prior.bind StepRunData.approvalDecision = none →
    ∀ decision, step.approvalDecision = some decision →
      ∃ held ∈ heldDecisions context jobName step, held.UpToClient decision

variable {jobName : JsString} {step : StepRunData}

theorem stepAccepted_of_refusal {context : RunRecordContext} {prior : Option StepRunData}
    (h : decisionRefusal context jobName prior step = none) :
    StepAccepted context jobName prior step := by
  unfold decisionRefusal at h
  split at h
  · rename_i hsame
    refine ⟨?_, ?_⟩
    · intro held hheld
      rw [hheld] at hsame
      exact Or.inl (sameDecision_some hsame)
    · intro hnone decision hdecision
      rw [hnone] at hsame
      rw [sameDecision_none hsame] at hdecision
      cases hdecision
  · split at h
    · rename_i hcleared
      split at h
      · rename_i hpending
        refine ⟨fun held hheld => Or.inr ⟨hcleared, hpending⟩, ?_⟩
        intro hnone decision hdecision
        rw [hcleared] at hdecision
        cases hdecision
      · cases h
    · split at h
      · cases h
      · rename_i hprior
        have hnone : prior.bind StepRunData.approvalDecision = none := by
          rw [Option.not_isSome_iff_eq_none] at hprior
          exact hprior
        split at h
        · rename_i hheld
          refine ⟨?_, ?_⟩
          · intro held hsome
            rw [hnone] at hsome
            cases hsome
          · intro _ decision hdecision
            obtain ⟨held, hmem, hsame⟩ := List.any_eq_true.mp hheld
            obtain ⟨forwarded, hforwarded, hclient⟩ := sameDecision_some hsame
            rw [hforwarded] at hdecision
            cases hdecision
            exact ⟨held, hmem, hclient⟩
        · cases h

/-- **One accepted record**, against the stored one. -/
structure RecordAccepted (context : RunRecordContext) : Prop where
  frozen : ∀ before, context.before = some before → FrozenSame before context.after
  distinct : (context.after.steps.map stepKey).Nodup
  kept : ∀ before, context.before = some before → ∀ entry ∈ before.steps,
    ((beforeStep context.before (stepKey entry)).bind StepRunData.approvalDecision).isSome →
      stepKey entry ∈ context.after.steps.map stepKey
  steps : ∀ entry ∈ context.after.steps,
    StepAccepted context entry.1 (beforeStep context.before (stepKey entry)) entry.2

theorem recordAccepted_of_judge {toLowerCase : JsString → JsString} {context : RunRecordContext}
    (h : (judgeRunRecord toLowerCase context).refusal = none) : RecordAccepted context := by
  have hrefusal : recordRefusal toLowerCase context = none := by
    unfold judgeRunRecord at h
    split at h
    · cases h
    · rename_i hnone
      exact hnone
  unfold recordRefusal at hrefusal
  simp only [Option.or_eq_none_iff] at hrefusal
  obtain ⟨⟨⟨⟨-, hfrozen⟩, hduplicate⟩, hdrops⟩, hsteps⟩ := hrefusal
  refine ⟨?_, ?_, ?_, ?_⟩
  · intro before hbefore
    rw [hbefore] at hfrozen
    exact frozenSame_of_refusal hfrozen
  · have hpass := firstRefusal_none hduplicate _ List.mem_cons_self
    simpa [hasDuplicateStep] using hpass
  · intro before hbefore entry hentry hdecided
    have hpass := firstRefusal_none hdrops _ List.mem_cons_self
    rw [dropsDecision, hbefore, List.any_eq_false] at hpass
    have hkeeps := hpass entry hentry
    rw [hbefore] at hdecided
    rw [hdecided, Bool.and_true, Bool.not_eq_true', Bool.not_eq_false] at hkeeps
    simpa using hkeeps
  · intro entry hentry
    have hjudge := List.findSome?_eq_none_iff.mp hsteps entry hentry
    rw [judgeStep, Option.or_eq_none_iff, Option.or_eq_none_iff] at hjudge
    exact stepAccepted_of_refusal hjudge.1.2

/-- The stored step of a name, where names are distinct. -/
theorem beforeStep_of_mem {before : WorkflowRunData} (h : (before.steps.map stepKey).Nodup)
    {entry : JsString × StepRunData} (hentry : entry ∈ before.steps) :
    beforeStep (some before) (stepKey entry) = some entry.2 := by
  unfold beforeStep
  rw [Option.map_some, Option.getD_some]
  cases hfind : before.steps.reverse.find? (fun other => stepKey other = stepKey entry) with
  | none =>
    have hnot := List.find?_eq_none.mp hfind entry (List.mem_reverse.mpr hentry)
    simp at hnot
  | some other =>
    have hkey : stepKey other = stepKey entry := by simpa using List.find?_some hfind
    have hmem := List.mem_reverse.mp (List.mem_of_find?_eq_some hfind)
    rw [Option.map_some, List.inj_on_of_nodup_map h hmem hentry hkey]

variable {before : Option WorkflowRunData}

theorem mem_of_beforeStep {key : JsString × JsString} (h : beforeStep before key = some step) :
    ∃ record, before = some record ∧ (key.1, step) ∈ record.steps ∧ step.stepName = key.2 := by
  unfold beforeStep at h
  obtain ⟨entry, hfind, rfl⟩ := Option.map_eq_some_iff.mp h
  have hkey : stepKey entry = key := by simpa using List.find?_some hfind
  have hmem := List.mem_reverse.mp (List.mem_of_find?_eq_some hfind)
  cases before with
  | none => cases hmem
  | some record =>
    subst hkey
    exact ⟨record, rfl, hmem, rfl⟩

/-- A record a member forwards, with what serve judges it by at that moment. -/
structure Forwarding where
  record : WorkflowRunData
  workflowVaults : Option (List JsString)
  heldChild : Option (JsString → StepRunData → Option HeldChildRun)
  storedStepIsNested : Option (JsString → StepRunData → Bool)

/-- The context a forwarded record is judged in. -/
def Forwarding.context (self : Forwarding) (workflowId runId : JsString)
    (before : Option WorkflowRunData) : RunRecordContext where
  workflowId := workflowId
  runId := runId
  before := before
  after := self.record
  workflowVaults := self.workflowVaults
  heldChild := self.heldChild
  storedStepIsNested := self.storedStepIsNested

/-- Whether serve held a decision for a step of a forwarded record, which the
stored workflow said was nested. -/
def Forwarding.Holds (self : Forwarding) (jobName : JsString) (step : StepRunData)
    (decision : ApprovalDecisionData) : Prop :=
  ∃ nested heldChild child held, self.storedStepIsNested = some nested ∧
    nested jobName step = true ∧ self.heldChild = some heldChild ∧
    heldChild jobName step = some child ∧ held ∈ child.decisions ∧ held.UpToClient decision

/-- Every record of a history is accepted against the one stored before it. -/
def AcceptsAll (toLowerCase : JsString → JsString) (workflowId runId : JsString) :
    Option WorkflowRunData → List Forwarding → Prop
  | _, [] => True
  | before, forwarding :: rest =>
    (judgeRunRecord toLowerCase (forwarding.context workflowId runId before)).refusal = none ∧
      AcceptsAll toLowerCase workflowId runId (some forwarding.record) rest

/-- The record stored once a history is accepted. -/
def storedAfter (before : Option WorkflowRunData) (history : List Forwarding) :
    Option WorkflowRunData :=
  (history.getLast?.map Forwarding.record).or before

theorem storedAfter_snoc (before : Option WorkflowRunData) (history : List Forwarding)
    (last : Forwarding) : storedAfter before (history ++ [last]) = some last.record := by
  simp [storedAfter]

variable {forwarding : Forwarding} {decision : ApprovalDecisionData}

theorem Forwarding.holds_of_mem {workflowId runId : JsString} {held : ApprovalDecisionData}
    (hmem : held ∈ heldDecisions (forwarding.context workflowId runId before) jobName step)
    (hclient : held.UpToClient decision) : forwarding.Holds jobName step decision := by
  unfold heldDecisions at hmem
  split at hmem
  · rename_i hnested
    obtain ⟨nested, hport, htrue⟩ := Option.map_eq_some_iff.mp hnested
    cases hchild : (forwarding.context workflowId runId before).heldChild.bind
        (fun held => held jobName step) with
    | none =>
      rw [hchild] at hmem
      cases hmem
    | some child =>
      rw [hchild] at hmem
      obtain ⟨heldChild, hheld, hcall⟩ := Option.bind_eq_some_iff.mp hchild
      exact ⟨nested, heldChild, child, held, hport, htrue, hheld, hcall, hmem, hclient⟩
  · cases hmem

section

variable {toLowerCase : JsString → JsString} {workflowId runId : JsString}

variable {pre rest : List Forwarding}

/-- **Every record of a history was accepted against the one before it.** -/
theorem AcceptsAll.at
    (h : AcceptsAll toLowerCase workflowId runId before (pre ++ forwarding :: rest)) :
    RecordAccepted (forwarding.context workflowId runId (storedAfter before pre)) := by
  induction pre generalizing before with
  | nil => exact recordAccepted_of_judge h.1
  | cons first pre ih =>
    have hstored : storedAfter before (first :: pre) = storedAfter (some first.record) pre := by
      unfold storedAfter
      rw [List.getLast?_cons]
      cases pre.getLast? with
      | none | some last => rfl
    rw [hstored]
    exact ih h.2

theorem AcceptsAll.frozen {record : WorkflowRunData} {history : List Forwarding}
    (h : AcceptsAll toLowerCase workflowId runId (some record) history) :
    ∀ forwarding ∈ history, FrozenSame record forwarding.record := by
  induction history generalizing record with
  | nil => exact fun forwarding hmem => absurd hmem List.not_mem_nil
  | cons first rest ih =>
    have hfirst : FrozenSame record first.record :=
      (recordAccepted_of_judge h.1).frozen record rfl
    intro forwarding hmem
    rcases List.mem_cons.mp hmem with rfl | hmem
    · exact hfirst
    · exact hfirst.trans (ih h.2 forwarding hmem)

theorem AcceptsAll.fresh
    (h : AcceptsAll toLowerCase workflowId runId none (pre ++ forwarding :: rest))
    (hstep : (jobName, step) ∈ forwarding.record.steps)
    (hdecision : step.approvalDecision = some decision)
    (hnone : (beforeStep (storedAfter none pre) (jobName, step.stepName)).bind
      StepRunData.approvalDecision = none) : forwarding.Holds jobName step decision := by
  obtain ⟨held, hmem, hclient⟩ := (h.at.steps _ hstep).fresh hnone decision hdecision
  exact Forwarding.holds_of_mem hmem hclient

/-- **Every decision of a history was serve's**, at some record of it. -/
theorem AcceptsAll.traced
    (h : AcceptsAll toLowerCase workflowId runId none (pre ++ forwarding :: rest))
    (hstep : (jobName, step) ∈ forwarding.record.steps)
    (hdecision : step.approvalDecision = some decision) :
    ∃ source ∈ pre ++ [forwarding], ∃ origin, (jobName, origin) ∈ source.record.steps ∧
      origin.stepName = step.stepName ∧ source.Holds jobName origin decision := by
  induction pre using List.reverseRecOn generalizing forwarding rest step decision with
  | nil =>
    exact ⟨forwarding, List.mem_cons_self, step, hstep, rfl, h.fresh hstep hdecision rfl⟩
  | append_singleton pre last ih =>
    cases hprior : (beforeStep (storedAfter none (pre ++ [last])) (jobName, step.stepName)).bind
        StepRunData.approvalDecision with
    | none =>
      exact ⟨forwarding, List.mem_append_right _ List.mem_cons_self, step, hstep, rfl,
        h.fresh hstep hdecision hprior⟩
    | some held =>
      -- The stored step holds it already: it came with an earlier record.
      have hkept := (h.at.steps _ hstep).kept held hprior
      obtain ⟨forwarded, hforwarded, hclient⟩ : ∃ forwarded,
          step.approvalDecision = some forwarded ∧ held.UpToClient forwarded := by
        rcases hkept with hkept | ⟨hcleared, -⟩
        · exact hkept
        · rw [hdecision] at hcleared
          cases hcleared
      rw [hdecision] at hforwarded
      cases hforwarded
      obtain ⟨prior, hbefore, hheld⟩ := Option.bind_eq_some_iff.mp hprior
      obtain ⟨record, hrecord, hmem, hname⟩ := mem_of_beforeStep hbefore
      rw [storedAfter_snoc] at hrecord
      cases hrecord
      rw [List.append_assoc] at h
      obtain ⟨source, hsource, origin, horigin, hsame, hholds⟩ := ih h hmem hheld
      obtain ⟨nested, heldChild, child, first, hport, htrue, hchild, hcall, hfirst, hup⟩ :=
        hholds
      refine ⟨source, List.mem_append_left _ hsource, origin, horigin, hsame.trans hname,
        nested, heldChild, child, first, hport, htrue, hchild, hcall, hfirst, hup.trans hclient⟩

/-- **No sequence of forwarded records forges an approval.**  Over every history
of accepted records of a run: what the first record says of the run's principal,
parent, vaults, initiator, client, plan and inherited expressions stays; a decided
step is in the next record with its decision, up to the client, unless it is
re-opened to pending; a decision on a step that held none is one serve held for a
nested step; and so every decision of the history was serve's. -/
theorem forwarded_records_forge_no_approval (toLowerCase : JsString → JsString)
    (workflowId runId : JsString) (history : List Forwarding)
    (h : AcceptsAll toLowerCase workflowId runId none history) :
    (∀ first rest, history = first :: rest → ∀ forwarding ∈ rest,
        FrozenSame first.record forwarding.record) ∧
      (∀ pre stored next rest, history = pre ++ stored :: next :: rest →
        ∀ jobName step decision, (jobName, step) ∈ stored.record.steps →
          step.approvalDecision = some decision →
          ∃ kept, (jobName, kept) ∈ next.record.steps ∧ kept.stepName = step.stepName ∧
            ((∃ forwarded, kept.approvalDecision = some forwarded ∧
                decision.UpToClient forwarded) ∨
              (kept.approvalDecision = none ∧ kept.status = .pending))) ∧
      (∀ pre forwarding rest, history = pre ++ forwarding :: rest →
        ∀ jobName step decision, (jobName, step) ∈ forwarding.record.steps →
          step.approvalDecision = some decision →
          (∀ stored, pre.getLast? = some stored → ∀ prior, (jobName, prior) ∈ stored.record.steps →
            prior.stepName = step.stepName → prior.approvalDecision = none) →
          forwarding.Holds jobName step decision) ∧
      ∀ pre forwarding rest, history = pre ++ forwarding :: rest →
        ∀ jobName step decision, (jobName, step) ∈ forwarding.record.steps →
          step.approvalDecision = some decision →
          ∃ source ∈ pre ++ [forwarding], ∃ origin, (jobName, origin) ∈ source.record.steps ∧
            origin.stepName = step.stepName ∧ source.Holds jobName origin decision := by
  refine ⟨?_, ?_, ?_, ?_⟩
  · intro first rest hhistory
    rw [hhistory] at h
    exact AcceptsAll.frozen h.2
  · intro pre stored next rest hhistory jobName step decision hstep hdecision
    subst hhistory
    have hdistinct := h.at.distinct
    have hsplit : pre ++ stored :: next :: rest = (pre ++ [stored]) ++ next :: rest := by simp
    rw [hsplit] at h
    have hnext := h.at
    rw [storedAfter_snoc] at hnext
    have hprior : beforeStep (some stored.record) (jobName, step.stepName) = some step :=
      beforeStep_of_mem hdistinct hstep
    have hkey : stepKey (jobName, step) ∈ next.record.steps.map stepKey := by
      apply hnext.kept stored.record rfl _ hstep
      change ((beforeStep (some stored.record) (jobName, step.stepName)).bind
        StepRunData.approvalDecision).isSome
      rw [hprior, Option.bind_some, hdecision]
      rfl
    obtain ⟨⟨keptJob, kept⟩, hkept, hname⟩ := List.mem_map.mp hkey
    obtain ⟨rfl, hstepName⟩ := Prod.mk.inj hname
    refine ⟨kept, hkept, hstepName, (hnext.steps _ hkept).kept decision ?_⟩
    change (beforeStep (some stored.record) (keptJob, kept.stepName)).bind
      StepRunData.approvalDecision = some decision
    rw [hstepName, hprior, Option.bind_some, hdecision]
  · intro pre forwarding rest hhistory jobName step decision hstep hdecision hnone
    subst hhistory
    apply h.fresh hstep hdecision
    cases hprior : beforeStep (storedAfter none pre) (jobName, step.stepName) with
    | none => rfl
    | some prior =>
      obtain ⟨record, hrecord, hmem, hname⟩ := mem_of_beforeStep hprior
      cases hlast : pre.getLast? with
      | none =>
        rw [storedAfter, hlast] at hrecord
        cases hrecord
      | some stored =>
        rw [storedAfter, hlast] at hrecord
        cases hrecord
        exact hnone stored hlast prior hmem hname
  · intro pre forwarding rest hhistory jobName step decision hstep hdecision
    subst hhistory
    exact h.traced hstep hdecision

end

/-- A decision made on a child run, through a client. -/
def childDecision : ApprovalDecisionData where
  approved := true
  reason := none
  decidedBy := some (js "ops")
  client := some (js "cli")
  decidedAt := js "t1"

/-- A record of one nested step. -/
def nestedRecord (status : RunStatus) (decision : Option ApprovalDecisionData) :
    WorkflowRunData where
  id := js "r"
  workflowId := js "w"
  jobs := [⟨js "j", [⟨js "s", status, none, none, none, decision, none, none, none, none⟩]⟩]
  workflowDataArtifacts := none
  logFile := none
  inputs := none
  inheritedExpressions := none
  deferredExpressions := none
  inputsProvenance := none
  persistedInputsProvenance := none
  initiatedBy := none
  client := none
  instanceId := none
  ownerBeforeResume := none
  writtenReferences := none
  runPlan := none
  parentRun := none
  triggeringPrincipal := none
  allowedVaults := none

/-- A record forwarded where serve holds the child's decision. -/
def nestedForwarding (status : RunStatus) (decision : Option ApprovalDecisionData) :
    Forwarding where
  record := nestedRecord status decision
  workflowVaults := none
  heldChild := some (fun _ _ => some ⟨[childDecision]⟩)
  storedStepIsNested := some (fun _ _ => true)

/-- A gate that waits, then carries the child's decision, then loses its client:
the decision of the last record is the one serve held at the second. -/
theorem nested_decision_traced :
    ∃ source ∈ [nestedForwarding .waitingApproval none,
        nestedForwarding .running (some childDecision),
        nestedForwarding .succeeded (some childDecision.withoutClient)],
      ∃ origin, (js "j", origin) ∈ source.record.steps ∧ origin.stepName = js "s" ∧
        source.Holds (js "j") origin childDecision.withoutClient := by
  have haccepts : AcceptsAll latinLower (js "w") (js "r") none
      [nestedForwarding .waitingApproval none,
        nestedForwarding .running (some childDecision),
        nestedForwarding .succeeded (some childDecision.withoutClient)] := by
    refine ⟨?_, ?_, ?_, trivial⟩ <;> decide +kernel
  obtain ⟨-, -, -, htraced⟩ :=
    forwarded_records_forge_no_approval latinLower (js "w") (js "r") _ haccepts
  exact htraced [_, _] _ [] rfl (js "j") _ childDecision.withoutClient List.mem_cons_self rfl

end Swamp
