import Swamp.DecideAll

/-!
# Explaining access decisions

`explain` lists, in one pass over the matching grants, what `decide` answers in
two passes that stop early.
-/

namespace Swamp.Access

open Js

/-- The decisions an explanation has gathered. -/
structure Explained where
  denyDecisions : List AccessDecision
  allowDecisions : List AccessDecision
  pendingAllows : List AccessDecision
  pendingDenies : List AccessDecision
  denyUndecided : Bool

def Explained.empty : Explained := ⟨[], [], [], [], false⟩

/-- One grant of an explanation, with the outcome of its condition. -/
def examine (pending : Option (List JsString)) (explained : Explained) (matched : MatchedGrant)
    (outcome : ConditionOutcome) : Explained :=
  let explained :=
    if outcome = .undecided ∧ matched.grant.effect = .deny then
      { explained with denyUndecided := true }
    else explained
  let explained :=
    if outcome = .pending then
      if matched.grant.effect = .deny then
        { explained with
          pendingDenies := explained.pendingDenies ++ [toDecision matched pending] }
      else
        { explained with
          pendingAllows := explained.pendingAllows ++ [toDecision matched pending] }
    else explained
  if outcome = .match ∨
      ((outcome = .missingField ∨ outcome = .error) ∧ matched.grant.effect = .deny) then
    if matched.grant.effect = .deny then
      { explained with denyDecisions := explained.denyDecisions ++ [toDecision matched none] }
    else { explained with allowDecisions := explained.allowDecisions ++ [toDecision matched none] }
  else explained

/-- The loop of `explain`, which ends where a condition is one too many. -/
def explainGrants (outcome : Grant → ConditionOutcome) (pending : Option (List JsString)) :
    List MatchedGrant → ℕ → Explained → Explained
  | [], _, explained => explained
  | matched :: rest, evaluated, explained =>
    if overBudget matched.grant evaluated then { explained with denyUndecided := true }
    else
      explainGrants outcome pending rest (countCondition matched.grant evaluated)
        (examine pending explained matched (outcome matched.grant))

/-- `explain`. -/
def AccessDecisionService.explain (self : AccessDecisionService)
    (toLowerCase : JsString → JsString) (principal : AccessPrincipal) (action : Action)
    (resource : Resource) : List AccessDecision :=
  let explained := explainGrants (self.outcome principal resource) resource.pending
    (self.matching toLowerCase principal action resource) 0 .empty
  let listed := explained.denyDecisions ++ explained.allowDecisions ++ explained.pendingAllows ++
    explained.pendingDenies
  if explained.denyDecisions = [] ∧ explained.allowDecisions = [] ∧ explained.pendingAllows = [] ∧
      explained.pendingDenies = [] ∧ explained.denyUndecided = false then
    match serviceTriggerDefault principal (decidedAction action resource) resource with
    | some builtin => [builtin]
    | none => listed
  else listed

section

variable (outcome : Grant → ConditionOutcome)

/-- A deny that refuses. -/
def refusing (m : MatchedGrant) : Bool := m.grant.effect = .deny && refuses (outcome m.grant)

/-- An allow that allows. -/
def allowing (m : MatchedGrant) : Bool := m.grant.effect ≠ .deny && outcome m.grant = .match

/-- An allow that waits for a field. -/
def waiting (m : MatchedGrant) : Bool := m.grant.effect ≠ .deny && outcome m.grant = .pending

/-- A deny that waits for a field. -/
def waitingDeny (m : MatchedGrant) : Bool := m.grant.effect = .deny && outcome m.grant = .pending

/-- A deny that says nothing of a kind. -/
def undecidedDeny (m : MatchedGrant) : Bool :=
  m.grant.effect = .deny && outcome m.grant = .undecided

variable {outcome}

/-- **One grant** is listed by its outcome. -/
theorem examine_spec (pending : Option (List JsString)) (explained : Explained)
    (m : MatchedGrant) :
    examine pending explained m (outcome m.grant) =
      { denyDecisions := explained.denyDecisions ++
          if refusing outcome m then [toDecision m none] else []
        allowDecisions := explained.allowDecisions ++
          if allowing outcome m then [toDecision m none] else []
        pendingAllows := explained.pendingAllows ++
          if waiting outcome m then [toDecision m pending] else []
        pendingDenies := explained.pendingDenies ++
          if waitingDeny outcome m then [toDecision m pending] else []
        denyUndecided := explained.denyUndecided || undecidedDeny outcome m } := by
  unfold examine refusing allowing waiting waitingDeny undecidedDeny refuses
  cases heffect : m.grant.effect with
  | allow | deny => cases outcome m.grant <;> simp

/-- **The whole pass**, within the budget. -/
theorem explainGrants_spec (pending : Option (List JsString)) (matched : List MatchedGrant)
    (evaluated : ℕ) (explained : Explained) (hbudget : withinBudget matched evaluated) :
    explainGrants outcome pending matched evaluated explained =
      { denyDecisions := explained.denyDecisions ++
          (matched.filter (refusing outcome)).map (toDecision · none)
        allowDecisions := explained.allowDecisions ++
          (matched.filter (allowing outcome)).map (toDecision · none)
        pendingAllows := explained.pendingAllows ++
          (matched.filter (waiting outcome)).map (toDecision · pending)
        pendingDenies := explained.pendingDenies ++
          (matched.filter (waitingDeny outcome)).map (toDecision · pending)
        denyUndecided := explained.denyUndecided || matched.any (undecidedDeny outcome) } := by
  induction matched generalizing evaluated explained with
  | nil => simp [explainGrants]
  | cons m rest ih =>
    obtain ⟨hover, hrest⟩ := (withinBudget_cons m rest evaluated).mp hbudget
    rw [explainGrants, hover, if_neg Bool.false_ne_true, ih _ _ hrest, examine_spec]
    simp only [List.filter_cons, List.any_cons, List.append_assoc, Bool.or_assoc]
    congr 2
    all_goals split <;> simp

/-- The first pass, within the budget. -/
theorem decideDenies_first {exceeded : AccessDecision} (denies : List MatchedGrant)
    (evaluated : ℕ) (undecided : Bool) (hbudget : withinBudget denies evaluated) :
    decideDenies exceeded outcome denies evaluated undecided =
      match denies.find? (fun m => refuses (outcome m.grant)) with
      | some m => .error (toDecision m none)
      | none => .ok (evaluated + conditions denies,
          undecided || denies.any (fun m => outcome m.grant = .undecided)) := by
  induction denies generalizing evaluated undecided with
  | nil => simp [decideDenies, conditions]
  | cons m rest ih =>
    obtain ⟨hover, hrest⟩ := (withinBudget_cons m rest evaluated).mp hbudget
    have hcount : countCondition m.grant evaluated + conditions rest =
        evaluated + conditions (m :: rest) := by
      rw [countCondition_eq, conditions_cons]
      omega
    rw [decideDenies, hover, if_neg Bool.false_ne_true]
    cases houtcome : outcome m.grant with
    | «match» | missingField | error => simp [houtcome, refuses]
    | noMatch | pending | undecided => simp [ih _ _ hrest, houtcome, refuses, hcount]

/-- The second pass, within the budget. -/
theorem decideAllows_first {exceeded : AccessDecision} (pending : Option (List JsString))
    (allows : List MatchedGrant) (evaluated : ℕ) (pendingAllow : Option AccessDecision)
    (hbudget : withinBudget allows evaluated) :
    decideAllows exceeded outcome pending allows evaluated pendingAllow =
      match allows.find? (fun m => outcome m.grant = .match) with
      | some m => .error (toDecision m none)
      | none => .ok (pendingAllow.or
          ((allows.find? (fun m => outcome m.grant = .pending)).map (toDecision · pending))) := by
  induction allows generalizing evaluated pendingAllow with
  | nil => simp [decideAllows]
  | cons m rest ih =>
    obtain ⟨hover, hrest⟩ := (withinBudget_cons m rest evaluated).mp hbudget
    rw [decideAllows, hover, if_neg Bool.false_ne_true]
    cases houtcome : outcome m.grant with
    | «match» => simp [houtcome]
    | missingField | error | noMatch | undecided => simp [ih _ _ hrest, houtcome]
    | pending =>
      cases pendingAllow <;> simp [ih _ _ hrest, houtcome]

end

section

variable {toLowerCase : JsString → JsString} {self : AccessDecisionService}
  {principal : AccessPrincipal} {action : Action} {resource : Resource}

/-- A deny that waits for a field of the resource. -/
def isPendingDeny (decision : AccessDecision) : Bool :=
  decision.effect = .deny && decision.dependsOn.isSome

/-- **What the two passes answer**, within the budget. -/
theorem decide_first
    (hbudget : conditions (self.matching toLowerCase principal action resource) ≤
      MAX_AGGREGATE_CONDITIONS) :
    self.decide toLowerCase principal action resource =
      (((self.matching toLowerCase principal action resource).find?
          (refusing (self.outcome principal resource))).map (toDecision · none)).or
        ((((self.matching toLowerCase principal action resource).find?
          (allowing (self.outcome principal resource))).map (toDecision · none)).or
        ((((self.matching toLowerCase principal action resource).find?
          (waiting (self.outcome principal resource))).map (toDecision · resource.pending)).or
        (if (self.matching toLowerCase principal action resource).any
            (undecidedDeny (self.outcome principal resource)) then none
          else serviceTriggerDefault principal (AccessDecisionService.decidedAction action resource)
            resource))) := by
  rw [← conditions_split] at hbudget
  have hdenies : withinBudget (self.denies toLowerCase principal action resource) 0 :=
    Or.inr (by omega)
  have hallows : withinBudget (self.allows toLowerCase principal action resource)
      (0 + conditions (self.denies toLowerCase principal action resource)) :=
    Or.inr (by omega)
  have hrefusing : (self.denies toLowerCase principal action resource).find?
      (fun m => refuses (self.outcome principal resource m.grant)) =
        (self.matching toLowerCase principal action resource).find?
          (refusing (self.outcome principal resource)) := by
    unfold AccessDecisionService.denies
    rw [List.find?_filter]
    simp only [decide_eq_true_eq, Bool.decide_and, Bool.decide_eq_true]
    rfl
  have hallowing : (self.allows toLowerCase principal action resource).find?
      (fun m => self.outcome principal resource m.grant = .match) =
        (self.matching toLowerCase principal action resource).find?
          (allowing (self.outcome principal resource)) := by
    unfold AccessDecisionService.allows
    rw [List.find?_filter]
    simp only [decide_eq_true_eq, Bool.decide_and]
    rfl
  have hwaiting : (self.allows toLowerCase principal action resource).find?
      (fun m => self.outcome principal resource m.grant = .pending) =
        (self.matching toLowerCase principal action resource).find?
          (waiting (self.outcome principal resource)) := by
    unfold AccessDecisionService.allows
    rw [List.find?_filter]
    simp only [decide_eq_true_eq, Bool.decide_and]
    rfl
  have hundecided : (self.denies toLowerCase principal action resource).any
      (fun m => self.outcome principal resource m.grant = .undecided) =
        (self.matching toLowerCase principal action resource).any
          (undecidedDeny (self.outcome principal resource)) := by
    unfold AccessDecisionService.denies
    rw [List.any_filter]
    rfl
  rw [decide_eq]
  unfold answer
  rw [decideDenies_first _ _ _ hdenies, hrefusing]
  cases hdeny : (self.matching toLowerCase principal action resource).find?
      (refusing (self.outcome principal resource)) with
  | some m => rfl
  | none =>
    dsimp only
    rw [decideAllows_first _ _ _ _ hallows, hallowing, hwaiting, hundecided]
    cases (self.matching toLowerCase principal action resource).find?
        (allowing (self.outcome principal resource)) with
    | some m => rfl
    | none =>
      cases (self.matching toLowerCase principal action resource).find?
          (waiting (self.outcome principal resource)) with
      | some m => rfl
      | none => simp

/-- **The explanation**, within the budget. -/
theorem explain_listed
    (hbudget : conditions (self.matching toLowerCase principal action resource) ≤
      MAX_AGGREGATE_CONDITIONS) :
    self.explain toLowerCase principal action resource =
      let matched := self.matching toLowerCase principal action resource
      let outcome := self.outcome principal resource
      let listed := (matched.filter (refusing outcome)).map (toDecision · none) ++
        (matched.filter (allowing outcome)).map (toDecision · none) ++
        (matched.filter (waiting outcome)).map (toDecision · resource.pending) ++
        (matched.filter (waitingDeny outcome)).map (toDecision · resource.pending)
      if listed = [] ∧ matched.any (undecidedDeny outcome) = false then
        (serviceTriggerDefault principal (AccessDecisionService.decidedAction action resource)
          resource).toList
      else listed := by
  unfold AccessDecisionService.explain
  rw [explainGrants_spec _ _ _ _ (Or.inr (by omega))]
  dsimp only [Explained.empty]
  simp only [List.nil_append, Bool.false_or, List.append_eq_nil_iff, and_assoc]
  split
  case isTrue hnone =>
    cases serviceTriggerDefault principal (AccessDecisionService.decidedAction action resource)
        resource with
    | some builtin => rfl
    | none =>
      obtain ⟨hdenies, hallows, hwaiting, hpending, -⟩ := hnone
      simp [hdenies, hallows, hwaiting, hpending]
  case isFalse => rfl

/-- The list without its pending denies. -/
theorem listed_decided {matched : List MatchedGrant} {outcome : Grant → ConditionOutcome}
    {pending : Option (List JsString)}
    (hpending : ∀ m ∈ matched, outcome m.grant = .pending → pending.isSome = true) :
    ((matched.filter (refusing outcome)).map (toDecision · none) ++
        (matched.filter (allowing outcome)).map (toDecision · none) ++
        (matched.filter (waiting outcome)).map (toDecision · pending) ++
        (matched.filter (waitingDeny outcome)).map (toDecision · pending)).filter
          (fun decision => !isPendingDeny decision) =
      (matched.filter (refusing outcome)).map (toDecision · none) ++
        (matched.filter (allowing outcome)).map (toDecision · none) ++
        (matched.filter (waiting outcome)).map (toDecision · pending) := by
  have hdecided : ∀ m : MatchedGrant, isPendingDeny (toDecision m none) = false := by
    intro m
    exact Bool.and_false _
  have hallow : ∀ m ∈ matched.filter (waiting outcome), isPendingDeny (toDecision m pending) =
      false := by
    intro m hm
    have heffect := (Bool.and_eq_true_iff.mp (List.mem_filter.mp hm).2).1
    simp only [isPendingDeny, toDecision, of_decide_eq_true heffect, decide_false, Bool.false_and]
  have hdeny : ∀ m ∈ matched.filter (waitingDeny outcome), isPendingDeny (toDecision m pending) =
      true := by
    intro m hm
    obtain ⟨hmem, hwaits⟩ := List.mem_filter.mp hm
    obtain ⟨heffect, houtcome⟩ := Bool.and_eq_true_iff.mp hwaits
    have hsome := hpending m hmem (of_decide_eq_true houtcome)
    simp only [isPendingDeny, toDecision, of_decide_eq_true heffect, decide_true, hsome,
      Bool.and_self]
  have hkept : ∀ f : MatchedGrant → Bool,
      ((matched.filter f).map (toDecision · none)).filter (fun decision => !isPendingDeny decision) =
        (matched.filter f).map (toDecision · none) := by
    intro f
    apply List.filter_eq_self.mpr
    intro decision hdecision
    obtain ⟨m, -, hm⟩ := List.mem_map.mp hdecision
    rw [← hm, hdecided, Bool.not_false]
  have hwaiting : ((matched.filter (waiting outcome)).map (toDecision · pending)).filter
      (fun decision => !isPendingDeny decision) =
        (matched.filter (waiting outcome)).map (toDecision · pending) := by
    apply List.filter_eq_self.mpr
    intro decision hdecision
    obtain ⟨m, hmem, hm⟩ := List.mem_map.mp hdecision
    rw [← hm, hallow m hmem, Bool.not_false]
  have hgone : ((matched.filter (waitingDeny outcome)).map (toDecision · pending)).filter
      (fun decision => !isPendingDeny decision) = [] := by
    apply List.filter_eq_nil_iff.mpr
    intro decision hdecision
    obtain ⟨m, hmem, hm⟩ := List.mem_map.mp hdecision
    rw [← hm, hdeny m hmem]
    exact Bool.false_ne_true
  rw [List.filter_append, List.filter_append, List.filter_append, hkept, hkept, hwaiting, hgone,
    List.append_nil]

/-- **`explain` agrees with `decide`.** Within the budget `decide` answers the
first decision of the explanation that is no pending deny; with none, it answers
nothing where a deny is undecided or nothing is explained, and what the service
trigger allows elsewhere. -/
theorem explain_agrees (toLowerCase : JsString → JsString) (self : AccessDecisionService)
    (principal : AccessPrincipal) (action : Action) (resource : Resource)
    (hbudget : conditions (self.matching toLowerCase principal action resource) ≤
      MAX_AGGREGATE_CONDITIONS) :
    let decided := (self.explain toLowerCase principal action resource).filter
      (fun decision => !isPendingDeny decision)
    self.decide toLowerCase principal action resource =
      decided.head?.or
        (if self.explain toLowerCase principal action resource = [] ∨
            (self.matching toLowerCase principal action resource).any
              (undecidedDeny (self.outcome principal resource)) = true then none
          else serviceTriggerDefault principal
            (AccessDecisionService.decidedAction action resource) resource) ∧
    ((∃ decision, decided.head? = some decision ∧ decision.effect = .deny) ↔
      ∃ decision, self.decide toLowerCase principal action resource = some decision ∧
        decision.effect = .deny) := by
  intro decided
  have hpending : ∀ m ∈ self.matching toLowerCase principal action resource,
      self.outcome principal resource m.grant = .pending → resource.pending.isSome = true := by
    intro m _ houtcome
    obtain ⟨fields, hfields⟩ := pending_of_outcome houtcome
    rw [hfields]
    rfl
  have hanswer : self.decide toLowerCase principal action resource =
      decided.head?.or
        (if self.explain toLowerCase principal action resource = [] ∨
            (self.matching toLowerCase principal action resource).any
              (undecidedDeny (self.outcome principal resource)) = true then none
          else serviceTriggerDefault principal
            (AccessDecisionService.decidedAction action resource) resource) := by
    dsimp only [decided]
    rw [decide_first hbudget, explain_listed hbudget]
    dsimp only
    generalize self.matching toLowerCase principal action resource = matched at hpending ⊢
    generalize self.outcome principal resource = outcome at hpending ⊢
    by_cases hnone : (matched.filter (refusing outcome)).map (toDecision · none) ++
        (matched.filter (allowing outcome)).map (toDecision · none) ++
        (matched.filter (waiting outcome)).map (toDecision · resource.pending) ++
        (matched.filter (waitingDeny outcome)).map (toDecision · resource.pending) = [] ∧
          matched.any (undecidedDeny outcome) = false
    · -- nothing is listed: both give the default
      rw [if_pos hnone]
      obtain ⟨hlisted, hundecided⟩ := hnone
      simp only [List.append_eq_nil_iff, List.map_eq_nil_iff] at hlisted
      obtain ⟨⟨⟨hdenies, hallows⟩, hwaiting⟩, -⟩ := hlisted
      rw [← List.head?_filter, ← List.head?_filter, ← List.head?_filter, hdenies, hallows,
        hwaiting, hundecided]
      cases hdefault : serviceTriggerDefault principal
          (AccessDecisionService.decidedAction action resource) resource with
      | none => rfl
      | some builtin =>
        have hallow : isPendingDeny builtin = false := by
          unfold isPendingDeny
          rw [serviceTriggerDefault_allow hdefault]
          rfl
        simp [hallow]
    · rw [if_neg hnone, listed_decided hpending, List.head?_append, List.head?_append, List.head?_map,
        List.head?_map, List.head?_map, List.head?_filter, List.head?_filter, List.head?_filter,
        Option.or_assoc, Option.or_assoc]
      have hrest : ∀ default : Option AccessDecision,
          (if (matched.any (undecidedDeny outcome)) = true then none else default) =
            if (matched.filter (refusing outcome)).map (toDecision · none) ++
              (matched.filter (allowing outcome)).map (toDecision · none) ++
              (matched.filter (waiting outcome)).map (toDecision · resource.pending) ++
              (matched.filter (waitingDeny outcome)).map (toDecision · resource.pending) = [] ∨
                matched.any (undecidedDeny outcome) = true then none else default := by
        intro default
        grind
      rw [hrest]
  refine ⟨hanswer, ?_⟩
  rw [hanswer]
  constructor
  · intro hfirst
    obtain ⟨decision, hhead, hdeny⟩ := hfirst
    exact ⟨decision, by rw [hhead, Option.some_or], hdeny⟩
  · intro hdecides
    obtain ⟨decision, hdecision, hdeny⟩ := hdecides
    cases hhead : decided.head? with
    | some first =>
      rw [hhead, Option.some_or] at hdecision
      exact ⟨decision, hdecision, hdeny⟩
    | none =>
      rw [hhead, Option.none_or] at hdecision
      split at hdecision
      case isTrue => cases hdecision
      case isFalse =>
        rw [serviceTriggerDefault_allow hdecision] at hdeny
        cases hdeny

end

/-- A deny on running a workflow, with a condition on a field of the run. -/
def runDeny : Grant :=
  ⟨js "g1", ⟨.service, js "cron"⟩, .deny, [.run], ⟨.workflow, js "*"⟩, some (js "run.late"), none,
    .active⟩

/-- A service that knows no run. -/
def runlessService : AccessDecisionService :=
  .of [runDeny] [] (fun _ _ _ _ => .error (.missingFields [js "run"])) ⟨true, true, true⟩

/-- The service principal, and the workflow it runs before the run is known. -/
def cron : AccessPrincipal := ⟨⟨.service, js "cron"⟩, [], [], none⟩

def pendingWorkflow : Resource :=
  ⟨.workflow, js "nightly", .empty, false, false, some [js "run"]⟩

theorem explain_agrees_runless :
    runlessService.decide id cron .run pendingWorkflow =
      serviceTriggerDefault cron .run pendingWorkflow := by
  have hbudget : conditions (runlessService.matching id cron .run pendingWorkflow) ≤
      MAX_AGGREGATE_CONDITIONS := by decide +kernel
  have hdecide := (explain_agrees id runlessService cron .run pendingWorkflow hbudget).1
  have hexplain : (runlessService.explain id cron .run pendingWorkflow).filter
      (fun decision => !isPendingDeny decision) = [] := by decide +kernel
  have hlisted : ¬ (runlessService.explain id cron .run pendingWorkflow = [] ∨
      (runlessService.matching id cron .run pendingWorkflow).any
        (undecidedDeny (runlessService.outcome cron pendingWorkflow)) = true) := by
    decide +kernel
  rw [hdecide, hexplain, if_neg hlisted]
  rfl

/-- What is explained is a pending deny alone; what is decided is the service
trigger's allow. -/
theorem service_default_unexplained :
    ¬ ∀ (toLowerCase : JsString → JsString) (self : AccessDecisionService)
        (principal : AccessPrincipal) (action : Action) (resource : Resource),
      conditions (self.matching toLowerCase principal action resource) ≤
          MAX_AGGREGATE_CONDITIONS →
        self.decide toLowerCase principal action resource =
          ((self.explain toLowerCase principal action resource).filter
            (fun decision => !isPendingDeny decision)).head? := by
  intro h
  have hsame := h id runlessService cron .run pendingWorkflow (by decide +kernel)
  have hdecide : (runlessService.decide id cron .run pendingWorkflow).isSome = true := by
    decide +kernel
  have hexplain : (runlessService.explain id cron .run pendingWorkflow).filter
      (fun decision => !isPendingDeny decision) = [] := by decide +kernel
  rw [hsame, hexplain] at hdecide
  cases hdecide

end Swamp.Access
