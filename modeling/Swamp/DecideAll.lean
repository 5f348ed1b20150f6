import Swamp.ConditionEvaluators
import Swamp.FailClosed

/-!
# Deciding for every resource of a kind

`decideAll` passes over a deny whose condition, with no resource field to read,
does not match.  A condition that reads a field of the resource then misses it and
refuses; one that reads a field of the request is evaluated with the field's
default, and may match a request that gives it another value.
-/

namespace Swamp.Access

open Js

/-- The allows a decision evaluates: up to the first that matches. -/
def upToMatch (outcome : Grant → ConditionOutcome) : List MatchedGrant → List MatchedGrant
  | [] => []
  | m :: rest => if outcome m.grant = .match then [m] else m :: upToMatch outcome rest

theorem upToMatch_sublist (outcome : Grant → ConditionOutcome) (allows : List MatchedGrant) :
    (upToMatch outcome allows).Sublist allows := by
  induction allows with
  | nil => exact List.Sublist.refl _
  | cons m rest ih =>
    rw [upToMatch]
    split
    · exact List.Sublist.cons_cons m (List.nil_sublist rest)
    · exact List.Sublist.cons_cons m ih

section

variable {exceeded : AccessDecision} {outcome : Grant → ConditionOutcome}

/-- **The allows refuse** exactly when a condition among those evaluated is one
too many. -/
theorem decideAllows_passes_iff (pending : Option (List JsString)) {allows : List MatchedGrant}
    (hexceeded : exceeded.effect = .deny) (hallows : ∀ m ∈ allows, m.grant.effect = .allow)
    (evaluated : ℕ) (pendingAllow : Option AccessDecision) :
    (∀ decision, decideAllows exceeded outcome pending allows evaluated pendingAllow =
        .error decision → decision.effect ≠ .deny) ↔
      withinBudget (upToMatch outcome allows) evaluated := by
  induction allows generalizing evaluated pendingAllow with
  | nil =>
    have hwithin : withinBudget (upToMatch outcome []) evaluated := Or.inl rfl
    refine iff_of_true ?_ hwithin
    intro decision h
    cases h
  | cons m rest ih =>
    obtain ⟨hm, hrest⟩ := List.forall_mem_cons.mp hallows
    have hlater := ih hrest
    rw [decideAllows, upToMatch]
    cases hover : overBudget m.grant evaluated with
    | true =>
      have hout : ∀ later, ¬ withinBudget (m :: later) evaluated := by
        intro later hwithin
        rw [withinBudget_cons, hover] at hwithin
        cases hwithin.1
      simp only [if_true]
      apply iff_of_false
      · intro h
        exact h exceeded rfl hexceeded
      · split
        · exact hout []
        · exact hout _
    | false =>
      simp only [Bool.false_eq_true, if_false]
      cases houtcome : outcome m.grant with
      | «match» =>
        simp only [if_true]
        apply iff_of_true
        · intro decision h
          obtain rfl := Except.error.inj h
          rw [show (toDecision m none).effect = m.grant.effect from rfl, hm]
          exact Effect.noConfusion
        · rw [withinBudget_cons]
          exact ⟨hover, Or.inl rfl⟩
      | pending | noMatch | missingField | undecided
      | error => simp [withinBudget_cons, hover, hlater]

/-- A pending answer is one of an allow. -/
theorem decideAllows_pending {pending : Option (List JsString)} {allows : List MatchedGrant}
    (hallows : ∀ m ∈ allows, m.grant.effect = .allow) {evaluated : ℕ}
    {pendingAllow : Option AccessDecision} (hpending : ∀ p ∈ pendingAllow, p.effect = .allow)
    {found : AccessDecision}
    (h : decideAllows exceeded outcome pending allows evaluated pendingAllow = .ok (some found)) :
    found.effect = .allow := by
  induction allows generalizing evaluated pendingAllow with
  | nil => exact hpending found (Except.ok.inj h)
  | cons m rest ih =>
    obtain ⟨hm, hrest⟩ := List.forall_mem_cons.mp hallows
    rw [decideAllows] at h
    split at h
    · cases h
    · split at h
      · cases h
      · refine ih hrest ?_ h
        intro p hp
        cases pendingAllow with
        | none =>
          obtain rfl := Option.some.inj hp
          exact hm
        | some earlier => exact hpending p hp
      · exact ih hrest hpending h

end

section

variable (toLowerCase : JsString → JsString) (self : AccessDecisionService)
  (principal : AccessPrincipal) (action : Action) (resource : Resource)

/-- The conditions a decision evaluates while no deny refuses are within the
budget: those of the denies, and of the allows up to the first that matches. -/
def AccessDecisionService.WithinBudget : Prop :=
  withinBudget (self.denies toLowerCase principal action resource) 0 ∧
    withinBudget (upToMatch (self.outcome principal resource)
      (self.allows toLowerCase principal action resource))
      (conditions (self.denies toLowerCase principal action resource))

variable {toLowerCase self principal action resource}

theorem serviceTriggerDefault_allow {decision : AccessDecision}
    (h : serviceTriggerDefault principal action resource = some decision) :
    decision.effect = .allow := by
  unfold serviceTriggerDefault at h
  split at h
  · obtain rfl := Option.some.inj h
    rfl
  · cases h

/-- **A decision is no deny** exactly when no deny refuses, within the budget. -/
theorem decide_passes_iff :
    (∀ decision, self.decide toLowerCase principal action resource = some decision →
        decision.effect ≠ .deny) ↔
      (∀ m ∈ self.denies toLowerCase principal action resource,
        refuses (self.outcome principal resource m.grant) = false) ∧
      self.WithinBudget toLowerCase principal action resource := by
  have hdenies : ∀ m ∈ self.denies toLowerCase principal action resource,
      m.grant.effect = .deny := fun m hm => (mem_denies.mp hm).2
  have hallows : ∀ m ∈ self.allows toLowerCase principal action resource,
      m.grant.effect = .allow := fun m hm => (mem_allows.mp hm).2
  have hexceeded : (budgetExceeded principal).effect = .deny := rfl
  unfold AccessDecisionService.WithinBudget
  rw [decide_eq]
  unfold answer
  cases hloop : decideDenies (budgetExceeded principal) (self.outcome principal resource)
      (self.denies toLowerCase principal action resource) 0 false with
  | error refusal =>
    apply iff_of_false
    · intro h
      exact h refusal rfl (decideDenies_error hexceeded hdenies hloop).1
    · intro h
      have hok := (@decideDenies_ok_iff (budgetExceeded principal) _ _ 0 false _).mpr
        ⟨h.1, h.2.1, rfl⟩
      rw [hloop] at hok
      cases hok
  | ok result =>
    obtain ⟨hnone, hwithin, rfl⟩ := (decideDenies_ok_iff _ _ _ _).mp hloop
    simp only [Nat.zero_add, Bool.false_or]
    rw [← decideAllows_passes_iff resource.pending hexceeded hallows _ none]
    cases hallow : decideAllows (budgetExceeded principal) (self.outcome principal resource)
        resource.pending (self.allows toLowerCase principal action resource)
        (conditions (self.denies toLowerCase principal action resource)) none with
    | error decision =>
      simp only [Option.some.injEq, Except.error.injEq]
      exact ⟨fun h => ⟨hnone, hwithin, h⟩, fun h => h.2.2⟩
    | ok found =>
      refine iff_of_true ?_ ⟨hnone, hwithin, fun decision h => by cases h⟩
      intro decision h
      have hallowed : decision.effect = .allow := by
        cases found with
        | some p =>
          obtain rfl := Option.some.inj h
          exact decideAllows_pending hallows (fun p hp => by cases hp) hallow
        | none =>
          simp only at h
          split at h
          · cases h
          · exact serviceTriggerDefault_allow h
      rw [hallowed]
      exact Effect.noConfusion

end

/-- The field of the request that is no client's, in the kinds that have one. -/
def ownRequestField : ResourceKind → Option JsString
  | .model => some (js "methodName")
  | .vault => some (js "key")
  | _ => none

/-- What is asked of a resource of the kind, by a request that gives its own field
a value. -/
def asked (kind : ResourceKind) (name field : JsString) (value : Json) : Resource where
  kind := kind
  name := name
  fields := OrderedMap.ofList [(field, value)]
  kindScope := false
  anyMethod := false
  pending := none

theorem role_cases (kind : ResourceKind) : ∀ field ∈ CONDITION_FIELDS kind,
    ((∀ g ∈ CONDITION_FIELDS kind, g.name = field.name → g.role = .resource) ∧
      field.name ≠ js "client") ∨
    field.name = js "client" ∨ ownRequestField kind = some field.name := by
  cases kind with
  | workflow | model | data | access | vault => decide +kernel

variable {field : JsString}

theorem ownRequestField_ne {kind : ResourceKind} (h : ownRequestField kind = some field) :
    field ≠ js "client" ∧ field ≠ js "name" := by
  cases kind with
  | model | vault =>
    obtain rfl := Option.some.inj h
    decide +kernel
  | workflow | data | access => cases h

section

variable {resource : Resource} {client : Option JsString}

theorem conditionFields_client :
    (conditionFields resource client).get (js "client") =
      some (.str (clientConditionValue client)) := by
  unfold conditionFields
  rw [OrderedMap.get_set, if_pos rfl]

theorem conditionFields_own (hclient : field ≠ js "client") (hname : field ≠ js "name") :
    (conditionFields resource client).get field = resource.fields.get field := by
  unfold conditionFields
  rw [OrderedMap.get_set_ne _ _ hclient, OrderedMap.get_setAll _ resource.fields.nodup]
  have hnone : (OrderedMap.ofList [(js "name", Json.str resource.name)]).get field = none := by
    unfold OrderedMap.ofList
    rw [OrderedMap.get_setAll_of_not_mem _ (by simpa using hname)]
    rfl
  rw [hnone, Option.or_none]
  rfl

end

section

variable {snapshot : PolicySnapshot} {condition : JsString} {kind : ResourceKind}
  {fields : Fields} {context : PrincipalContext} {pending : Option (List JsString)}

theorem outcome_noMatch_iff :
    snapshot.evaluateConditionOutcome condition kind fields context pending = .noMatch ↔
      snapshot.evaluateCondition condition kind fields context = .ok false := by
  unfold PolicySnapshot.evaluateConditionOutcome
  split
  · simp [*]
  · simp [*]
  · split
    · split
      · simp [*]
      · simp [*]
    · simp [*]
  · simp [*]

theorem evaluateGrant_noMatch_iff {grant : Grant} {resource : Resource}
    {client : Option JsString} :
    evaluateGrant grant snapshot resource context client = .noMatch ↔
      ∃ condition, grant.conditionText = some condition ∧
        snapshot.evaluateCondition condition resource.kind (conditionFields resource client)
          context = .ok false := by
  unfold evaluateGrant
  cases grant.conditionText with
  | none => simp
  | some condition =>
    simp only [Option.some.injEq, exists_eq_left']
    rw [← outcome_noMatch_iff]
    split
    · rename_i hundecided
      rw [hundecided.1]
      simp
    · exact Iff.rfl

end

section

variable {cel : Cel} {condition : JsString} {kind : ResourceKind} {context : PrincipalContext}

theorem referenced_of_client {client : JsString} {result : Bool}
    (h : createConditionEvaluator cel condition kind
      (OrderedMap.ofList [(js "client", Json.str client)]) context = .ok result) {ast : Ast}
    (hparse : cel.parse kind condition = some ast) {name : JsString}
    (hname : name ∈ referencedConditionFields ast kind) :
    name = js "client" ∨ ownRequestField kind = some name := by
  obtain ⟨field, hfield, rfl⟩ := referenced_declared hname
  rcases role_cases kind field hfield with hresource | hrequest
  · have hsupplied := evaluator_supplied h hparse hfield hresource.1 hname
    have habsent : (OrderedMap.ofList [(js "client", Json.str client)]).get field.name = none := by
      unfold OrderedMap.ofList
      rw [OrderedMap.get_setAll_of_not_mem _ (by simpa using hresource.2)]
      rfl
    rw [habsent] at hsupplied
    cases hsupplied
  · exact hrequest

/-- **Such a condition says the same** wherever the client and the request's own
field are the same. -/
theorem evaluator_of_client (hcel : cel.ReadsReferenced) {client : JsString} {result : Bool}
    (h : createConditionEvaluator cel condition kind
      (OrderedMap.ofList [(js "client", Json.str client)]) context = .ok result)
    {fields fields' : Fields} (hclient : fields.get (js "client") = fields'.get (js "client"))
    (hown : ∀ field, ownRequestField kind = some field → fields.get field = fields'.get field) :
    createConditionEvaluator cel condition kind fields context =
      createConditionEvaluator cel condition kind fields' context := by
  apply evaluator_reads hcel
  intro ast hparse name hname
  rcases referenced_of_client h hparse hname with rfl | hfield
  · exact hclient
  · exact hown name hfield

end

section

variable {toLowerCase : JsString → JsString} {self : AccessDecisionService}
  {principal : AccessPrincipal} {action : Action} {kind : ResourceKind}

theorem refusingDeny_deny {grants : List Grant} {matched : MatchedGrant}
    (h : self.refusingDeny principal action kind grants = some matched) :
    matched.grant.effect = .deny := by
  induction grants with
  | nil => cases h
  | cons grant rest ih =>
    rw [AccessDecisionService.refusingDeny] at h
    split at h
    · exact ih h
    · rename_i hdeny
      split at h
      · exact ih h
      · split at h
        · exact ih h
        · obtain rfl := Option.some.inj h
          exact not_not.mp (not_or.mp hdeny).1

theorem refusingDeny_none {grants : List Grant}
    (h : self.refusingDeny principal action kind grants = none) {grant : Grant}
    (hgrant : grant ∈ grants) (hdeny : grant.effect = .deny) (hkind : grant.resource.kind = kind)
    (haction : (grantMatchesAction grant action self.implications).isSome) :
    self.passedOver principal kind grant = true := by
  induction grants with
  | nil => cases hgrant
  | cons first rest ih =>
    rw [AccessDecisionService.refusingDeny] at h
    rcases List.mem_cons.mp hgrant with rfl | hrest
    · rw [if_neg (by simp [hdeny, hkind])] at h
      split at h
      · rename_i hnone
        rw [hnone] at haction
        cases haction
      · split at h
        · assumption
        · cases h
    · refine ih ?_ hrest
      split at h
      · exact h
      · split at h
        · exact h
        · split at h
          · exact h
          · cases h

theorem passedOver_of_decideAll {allowed : AccessDecision}
    (h : self.decideAll toLowerCase principal action kind = some allowed)
    (hallow : allowed.effect = .allow) {grant : Grant} (hgrant : grant ∈ self.candidates principal)
    (hdeny : grant.effect = .deny) (hkind : grant.resource.kind = kind)
    (haction : (grantMatchesAction grant action self.implications).isSome) :
    self.passedOver principal kind grant = true := by
  unfold AccessDecisionService.decideAll at h
  cases hrefusing : self.refusingDeny principal action kind (self.candidates principal) with
  | none => exact refusingDeny_none hrefusing hgrant hdeny hkind haction
  | some matched =>
    rw [hrefusing] at h
    obtain rfl := Option.some.inj h
    rw [show (toDecision matched none).effect = matched.grant.effect from rfl,
      refusingDeny_deny hrefusing] at hallow
    cases hallow

end

section

variable {cel : Cel} {grants : List Grant} {groups : List Group} {implications : Implications}
  {principal : AccessPrincipal} {kind : ResourceKind} {grant : Grant}

theorem outcome_absent (hcel : cel.ReadsReferenced)
    (hpassed : (AccessDecisionService.of grants groups (createConditionEvaluator cel)
      implications).passedOver principal kind grant = true) {resource : Resource}
    (hkind : resource.kind = kind)
    (habsent : ∀ field, ownRequestField kind = some field → resource.fields.get field = none) :
    (AccessDecisionService.of grants groups (createConditionEvaluator cel) implications).outcome
      principal resource grant = .noMatch := by
  subst hkind
  unfold AccessDecisionService.passedOver at hpassed
  unfold AccessDecisionService.outcome
  cases hcondition : grant.conditionText with
  | none =>
    rw [hcondition] at hpassed
    cases hpassed
  | some condition =>
    rw [hcondition] at hpassed
    have hfalse := outcome_noMatch_iff.mp (of_decide_eq_true hpassed)
    refine evaluateGrant_noMatch_iff.mpr ⟨condition, hcondition, ?_⟩
    refine Eq.trans ?_ hfalse
    apply evaluator_of_client hcel hfalse
    · rw [conditionFields_client]
      rfl
    · intro field hfield
      obtain ⟨hclient, hname⟩ := ownRequestField_ne hfield
      rw [conditionFields_own hclient hname, habsent field hfield]
      unfold OrderedMap.ofList
      rw [OrderedMap.get_setAll_of_not_mem _ (by simpa using hclient)]
      rfl

theorem outcome_asked (hcel : cel.ReadsReferenced)
    (hpassed : (AccessDecisionService.of grants groups (createConditionEvaluator cel)
      implications).passedOver principal kind grant = true) {resource resource' : Resource}
    (hkind : resource.kind = kind) (hkind' : resource'.kind = kind)
    (hsame : ∀ field, ownRequestField kind = some field →
      resource.fields.get field = resource'.fields.get field)
    (h : (AccessDecisionService.of grants groups (createConditionEvaluator cel)
      implications).outcome principal resource grant = .noMatch) :
    (AccessDecisionService.of grants groups (createConditionEvaluator cel) implications).outcome
      principal resource' grant = .noMatch := by
  subst hkind
  unfold AccessDecisionService.passedOver at hpassed
  unfold AccessDecisionService.outcome at h ⊢
  obtain ⟨condition, hcondition, hevaluated⟩ := evaluateGrant_noMatch_iff.mp h
  rw [hcondition] at hpassed
  have hfalse := outcome_noMatch_iff.mp (of_decide_eq_true hpassed)
  refine evaluateGrant_noMatch_iff.mpr ⟨condition, hcondition, ?_⟩
  rw [hkind']
  refine Eq.trans ?_ hevaluated
  apply evaluator_of_client hcel hfalse
  · rw [conditionFields_client, conditionFields_client]
  · intro field hfield
    obtain ⟨hclient, hname⟩ := ownRequestField_ne hfield
    rw [conditionFields_own hclient hname, conditionFields_own hclient hname, hsame field hfield]

end

section

variable {toLowerCase : JsString → JsString} {grants : List Grant} {groups : List Group}
  {evaluator : ConditionEvaluator} {implications : Implications} {principal : AccessPrincipal}
  {action : Action} {resource : Resource}

theorem length_flatMap_filter (key : Grant → JsString) {subjects : List JsString}
    (hnodup : subjects.Nodup) (grants : List Grant) :
    (subjects.flatMap (fun subject => grants.filter (fun grant => key grant = subject))).length ≤
      grants.length := by
  induction subjects generalizing grants with
  | nil => exact Nat.zero_le _
  | cons subject rest ih =>
    obtain ⟨hnotin, hrest⟩ := List.nodup_cons.mp hnodup
    -- The later subjects find the same among the grants this one leaves.
    have hlater : rest.flatMap (fun s => grants.filter (fun grant => key grant = s)) =
        rest.flatMap (fun s => (grants.filter (fun grant => key grant ≠ subject)).filter
          (fun grant => key grant = s)) := by
      apply List.flatMap_congr
      intro s hs
      rw [List.filter_filter]
      apply List.filter_congr
      intro grant _
      by_cases hkey : key grant = s
      · have hne : s ≠ subject := fun heq => hnotin (heq ▸ hs)
        simp [hkey, hne]
      · simp [hkey]
    rw [List.flatMap_cons, List.length_append, hlater]
    have hih := ih hrest (grants.filter (fun grant => key grant ≠ subject))
    have hsplit := List.length_eq_length_filter_add (l := grants)
      (fun grant => decide (key grant = subject))
    simp only [decide_not] at hih ⊢
    omega

/-- **Distinct subjects stay within the budget** when the grants do. -/
theorem withinBudget_of_nodup (hfew : grants.length ≤ MAX_AGGREGATE_CONDITIONS)
    (hnodup : (resolveSubjects principal ((AccessDecisionService.of grants groups evaluator
      implications).localGroups principal)).Nodup) :
    (AccessDecisionService.of grants groups evaluator implications).WithinBudget toLowerCase
      principal action resource := by
  have hcandidates : ((AccessDecisionService.of grants groups evaluator implications).candidates
      principal).length ≤ grants.length := by
    rw [candidates_of]
    exact length_flatMap_filter _ hnodup grants
  have hmatching : conditions ((AccessDecisionService.of grants groups evaluator
      implications).matching toLowerCase principal action resource) ≤ grants.length :=
    calc conditions ((AccessDecisionService.of grants groups evaluator implications).matching
          toLowerCase principal action resource)
        ≤ ((AccessDecisionService.of grants groups evaluator implications).matching toLowerCase
            principal action resource).length := List.countP_le_length
      _ ≤ ((AccessDecisionService.of grants groups evaluator implications).candidates
            principal).length := List.length_filterMap_le _ _
      _ ≤ grants.length := hcandidates
  have hsplit := @conditions_split toLowerCase (AccessDecisionService.of grants groups evaluator
    implications) principal action resource
  have hsub := conditions_sublist (upToMatch_sublist ((AccessDecisionService.of grants groups
    evaluator implications).outcome principal resource) ((AccessDecisionService.of grants groups
    evaluator implications).allows toLowerCase principal action resource))
  constructor
  · exact Or.inr (by omega)
  · exact Or.inr (by omega)

end

section

variable (toLowerCase : JsString → JsString) (self : AccessDecisionService)
  (principal : AccessPrincipal) (action : Action) (kind : ResourceKind)

/-- No resource of the kind is denied, control-plane records aside. -/
def AccessDecisionService.Reaches : Prop :=
  ∀ resource, resource.kind = kind → isControlPlaneRecordResource resource = false →
    ∀ decision, self.decide toLowerCase principal action resource = some decision →
      decision.effect ≠ .deny

/-- No deny of the principal for the kind and action has a condition that a value
of the request's own field, one the deny's methods cover, makes anything but a
definite no. -/
def AccessDecisionService.DeniesIgnoreRequest : Prop :=
  ∀ grant ∈ self.candidates principal, grant.effect = .deny → grant.resource.kind = kind →
    (grantMatchesAction grant action self.implications).isSome →
    ∀ field, ownRequestField kind = some field → ∀ value,
      grantMatchesMethods grant (asked kind (js "*") field value) = true →
      self.outcome principal (asked kind (js "*") field value) grant = .noMatch

end

section

variable {toLowerCase : JsString → JsString} {cel : Cel} {grants : List Grant}
  {groups : List Group} {implications : Implications} {principal : AccessPrincipal}
  {action : Action} {kind : ResourceKind}

theorem selectorMatches_withoutStar (pattern : JsString) :
    resourceSelectorMatches pattern (withoutStar pattern) = true := by
  unfold resourceSelectorMatches withoutStar
  split
  · rfl
  · split
    · exact List.isPrefixOf_iff_prefix.mpr (List.prefix_refl _)
    · exact decide_eq_true rfl

theorem matchGrant_of {self : AccessDecisionService} {grant : Grant} {resource : Resource}
    (hrecord : isControlPlaneRecordResource resource = false)
    (hresource : grantMatchesResource toLowerCase grant resource = true)
    (haction : (grantMatchesAction grant action self.implications).isSome)
    (hmethods : grantMatchesMethods grant resource = true) :
    ∃ m, self.matchGrant toLowerCase action resource grant = some m := by
  obtain ⟨actionMatch, hactionMatch⟩ := Option.isSome_iff_exists.mp haction
  refine ⟨⟨grant, actionMatch⟩, ?_⟩
  unfold AccessDecisionService.matchGrant AccessDecisionService.decidedAction
  rw [if_pos hresource, hrecord]
  simp only [Bool.false_eq_true, if_false]
  rw [hactionMatch]
  simp only
  rw [if_pos hmethods]

theorem matchGrant_some {self : AccessDecisionService} {grant : Grant} {resource : Resource}
    {m : MatchedGrant} (hrecord : isControlPlaneRecordResource resource = false)
    (h : self.matchGrant toLowerCase action resource grant = some m) :
    grantMatchesResource toLowerCase grant resource = true ∧
      (grantMatchesAction grant action self.implications).isSome ∧
      grantMatchesMethods grant resource = true := by
  unfold AccessDecisionService.matchGrant AccessDecisionService.decidedAction at h
  rw [hrecord] at h
  simp only [Bool.false_eq_true, if_false] at h
  split at h
  · rename_i hresource
    split at h
    · cases h
    · rename_i hactionMatch
      split at h
      · rename_i hmethods
        rw [hactionMatch]
        exact ⟨hresource, rfl, hmethods⟩
      · cases h
  · cases h

theorem grantMatchesResource_kind {grant : Grant} {resource : Resource}
    (h : grantMatchesResource toLowerCase grant resource = true) :
    grant.resource.kind = resource.kind := by
  unfold grantMatchesResource at h
  split at h
  · cases h
  · rename_i hkind
    exact not_not.mp hkind

theorem asked_get (name field : JsString) (value : Json) :
    (asked kind name field value).fields.get field = some value := by
  unfold asked OrderedMap.ofList
  simp [OrderedMap.setAll]

theorem grantMatchesMethods_asked {grant : Grant} {resource : Resource} {value : Json}
    (hvalue : resource.fields.get field = some value) (hdeny : grant.effect = .deny)
    (h : grantMatchesMethods grant resource = true) :
    grantMatchesMethods grant (asked resource.kind (js "*") field value) = true := by
  by_cases hmethod : field = js "methodName"
  · have hsame : (asked resource.kind (js "*") field value).textField (js "methodName") =
        resource.textField (js "methodName") := by
      unfold Resource.textField
      rw [← hmethod, hvalue, asked_get]
    unfold grantMatchesMethods at h ⊢
    rw [hsame]
    split at h
    · rfl
    · split at h
      · rename_i hnil
        rw [if_pos hnil]
      · rename_i hnil
        rw [if_neg hnil]
        split at h
        · rw [hdeny]
          rfl
        · exact h
  · have hnone : (asked resource.kind (js "*") field value).textField (js "methodName") = none := by
      have habsent : (asked resource.kind (js "*") field value).fields.get (js "methodName") =
          none := by
        unfold asked OrderedMap.ofList
        rw [OrderedMap.get_setAll_of_not_mem _ (by simpa using fun heq => hmethod heq.symm)]
        rfl
      unfold Resource.textField
      rw [habsent]
    unfold grantMatchesMethods
    rw [hnone, hdeny]
    split
    · rfl
    · split
      · rfl
      · rfl

theorem outcome_of_passes {self : AccessDecisionService} {grant : Grant} {name : JsString}
    {value : Json}
    (h : refuses (self.outcome principal (asked kind name field value) grant) = false) :
    self.outcome principal (asked kind name field value) grant = .noMatch := by
  unfold AccessDecisionService.outcome evaluateGrant at h ⊢
  cases hcondition : grant.conditionText with
  | none =>
    rw [hcondition] at h
    cases h
  | some condition =>
    rw [hcondition] at h
    unfold asked PolicySnapshot.evaluateConditionOutcome at h ⊢
    simp only [Bool.false_eq_true, and_false, if_false] at h ⊢
    split
    · simp_all [refuses]
    · rfl
    · simp_all [refuses]
    · simp_all [refuses]

/-- **When an allow for every resource holds for each.**  Where `decideAll`
allows, no resource of the kind is denied exactly when no deny of the principal
reads the request's own field to more than a definite no, and, where the
principal's subjects repeat so that a grant may count twice, no resource takes the
decision over its budget. -/
theorem decideAll_reaches_iff (hcel : cel.ReadsReferenced)
    (hfew : grants.length ≤ MAX_AGGREGATE_CONDITIONS) {allowed : AccessDecision}
    (hall : (AccessDecisionService.of grants groups (createConditionEvaluator cel)
      implications).decideAll toLowerCase principal action kind = some allowed)
    (hallow : allowed.effect = .allow) :
    (AccessDecisionService.of grants groups (createConditionEvaluator cel) implications).Reaches
        toLowerCase principal action kind ↔
      (AccessDecisionService.of grants groups (createConditionEvaluator cel)
        implications).DeniesIgnoreRequest principal action kind ∧
      ((resolveSubjects principal ((AccessDecisionService.of grants groups
          (createConditionEvaluator cel) implications).localGroups principal)).Nodup ∨
        ∀ resource, resource.kind = kind → isControlPlaneRecordResource resource = false →
          (AccessDecisionService.of grants groups (createConditionEvaluator cel)
            implications).WithinBudget toLowerCase principal action resource) := by
  have hpassed := fun {grant} => @passedOver_of_decideAll toLowerCase _ principal action kind
    allowed hall hallow grant
  constructor
  · intro hreaches
    refine ⟨?_, Or.inr ?_⟩
    · intro grant hgrant hdeny hkind haction field hfield value hmethods
      -- The same request for a resource the deny's pattern names.
      have hrecord : isControlPlaneRecordResource
          (asked kind (withoutStar grant.resource.pattern) field value) = false := by
        unfold isControlPlaneRecordResource asked
        cases kind with
        | access => cases hfield
        | workflow | model | data | vault => rfl
      have hresource : grantMatchesResource toLowerCase grant
          (asked kind (withoutStar grant.resource.pattern) field value) = true := by
        unfold grantMatchesResource asked
        rw [if_neg (not_not.mpr hkind), if_pos (selectorMatches_withoutStar _)]
      obtain ⟨m, hm⟩ := matchGrant_of hrecord hresource haction
        (show grantMatchesMethods grant
          (asked kind (withoutStar grant.resource.pattern) field value) = true from hmethods)
      have hnot := (decide_passes_iff.mp (hreaches _ rfl hrecord)).1 m
        (mem_denies.mpr ⟨List.mem_filterMap.mpr ⟨grant, hgrant, hm⟩,
          by rw [matchGrant_grant hm]; exact hdeny⟩)
      rw [matchGrant_grant hm] at hnot
      refine outcome_asked hcel (hpassed hgrant hdeny hkind haction)
        (show (asked kind (withoutStar grant.resource.pattern) field value).kind = kind from rfl)
        rfl (fun _ _ => rfl) (outcome_of_passes hnot)
    · intro resource hkind hrecord
      exact (decide_passes_iff.mp (hreaches resource hkind hrecord)).2
  · intro h resource hkind hrecord
    obtain ⟨hignore, hbudget⟩ := h
    refine decide_passes_iff.mpr ⟨?_, ?_⟩
    · intro m hm
      obtain ⟨hmatching, hdeny⟩ := mem_denies.mp hm
      obtain ⟨grant, hgrant, hmatch⟩ := List.mem_filterMap.mp hmatching
      rw [matchGrant_grant hmatch] at hdeny ⊢
      obtain ⟨hresource, haction, hmethods⟩ := matchGrant_some hrecord hmatch
      have hgrantKind : grant.resource.kind = kind :=
        (grantMatchesResource_kind hresource).trans hkind
      have hover := hpassed hgrant hdeny hgrantKind haction
      have hno : (AccessDecisionService.of grants groups (createConditionEvaluator cel)
          implications).outcome principal resource grant = .noMatch := by
        by_cases hgiven : ∃ field value, ownRequestField kind = some field ∧
            resource.fields.get field = some value
        · obtain ⟨field, value, hfield, hvalue⟩ := hgiven
          subst hkind
          refine outcome_asked hcel hover (show (asked resource.kind (js "*") field value).kind =
            resource.kind from rfl) rfl ?_ (hignore grant hgrant hdeny hgrantKind haction field
              hfield value (grantMatchesMethods_asked hvalue hdeny hmethods))
          intro other hother
          rw [hfield] at hother
          obtain rfl := Option.some.inj hother
          rw [hvalue, asked_get]
        · apply outcome_absent hcel hover hkind
          intro field hfield
          cases hvalue : resource.fields.get field with
          | none => rfl
          | some value => exact absurd ⟨field, value, hfield, hvalue⟩ hgiven
      rw [hno]
      rfl
    · rcases hbudget with hnodup | hwithin
      · exact withinBudget_of_nodup hfew hnodup
      · exact hwithin resource hkind hrecord

end

/-- A condition on the request's method. -/
def deleteCondition : JsString := js "methodName == \"delete\""

/-- What CEL reads of that condition, and what it says of a context. -/
def deleteCel : Cel where
  parse kind condition :=
    if kind = .model ∧ condition = deleteCondition then
      some (.node (js "==") (.list
        [.node (js "id") (.text (js "methodName")), .node (js "value") (.text (js "delete"))]))
    else none
  evaluate kind condition context _ :=
    if kind = .model ∧ condition = deleteCondition then
      match context.get (js "methodName") with
      | some (.str methodName) => some (methodName = js "delete")
      | _ => none
    else none

theorem deleteCel_reads : deleteCel.ReadsReferenced := by
  intro kind condition ast hparse context context' hagree principal
  unfold deleteCel at hparse ⊢
  simp only at hparse ⊢
  split at hparse
  · rename_i hcondition
    obtain rfl := Option.some.inj hparse
    rw [hagree (js "methodName") (by rw [hcondition.1]; decide +kernel)]
  · cases hparse

/-- One who may run every model, but not delete. -/
def deleteGrants : List Grant :=
  [⟨js "g1", ⟨.user, js "adam"⟩, .deny, [.run], ⟨.model, js "*"⟩, some deleteCondition, none,
      .active⟩,
    ⟨js "g2", ⟨.user, js "adam"⟩, .allow, [.run], ⟨.model, js "*"⟩, none, none, .active⟩]

def adam : AccessPrincipal := ⟨⟨.user, js "adam"⟩, [], [], none⟩

/-- With the deny on deleting, running is allowed for every model, and denied for
a model whose `delete` is asked for. -/
theorem deny_on_method_passed_over :
    ¬ ∀ (toLowerCase : JsString → JsString) (cel : Cel) (grants : List Grant)
        (groups : List Group) (implications : Implications) (principal : AccessPrincipal)
        (action : Action) (kind : ResourceKind) (allowed : AccessDecision),
      cel.ReadsReferenced → grants.length ≤ MAX_AGGREGATE_CONDITIONS →
      (AccessDecisionService.of grants groups (createConditionEvaluator cel)
        implications).decideAll toLowerCase principal action kind = some allowed →
      allowed.effect = .allow →
      (AccessDecisionService.of grants groups (createConditionEvaluator cel) implications).Reaches
        toLowerCase principal action kind := by
  intro h
  have hreaches := h id deleteCel deleteGrants [] ⟨false, false, false⟩ adam .run .model
    ⟨.allow, js "g2", ⟨.user, js "adam"⟩, none, none, none⟩ deleteCel_reads (by decide)
    (by decide +kernel) rfl
  have hdenied := hreaches (asked .model (js "@acme/deploy") (js "methodName")
    (.str (js "delete"))) rfl (by decide +kernel)
    ⟨.deny, js "g1", ⟨.user, js "adam"⟩, some deleteCondition, none, none⟩ (by decide +kernel)
  exact hdenied rfl

/-- A condition on who asks. -/
def eveCondition : JsString := js "principal.sub == \"eve\""

/-- What CEL reads of that condition, and what it says of a principal. -/
def eveCel : Cel where
  parse _ condition :=
    if condition = eveCondition then
      some (.node (js "==") (.list
        [.node (js ".") (.list [.node (js "id") (.text (js "principal")), .text (js "sub")]),
          .node (js "value") (.text (js "eve"))]))
    else none
  evaluate _ condition _ principal :=
    if condition = eveCondition then some (principal.sub = js "eve") else none

/-- One who may run every model, unless it is eve. -/
def eveGrants : List Grant :=
  [⟨js "g1", ⟨.user, js "adam"⟩, .deny, [.run], ⟨.model, js "*"⟩, some eveCondition, none,
      .active⟩,
    ⟨js "g2", ⟨.user, js "adam"⟩, .allow, [.run], ⟨.model, js "*"⟩, none, none, .active⟩]

/-- Where the deny is on another principal, the allow holds for every model. -/
theorem allow_beside_deny_reaches :
    (AccessDecisionService.of eveGrants [] (createConditionEvaluator eveCel)
      ⟨false, false, false⟩).Reaches id adam .run .model := by
  have hall : (AccessDecisionService.of eveGrants [] (createConditionEvaluator eveCel)
      ⟨false, false, false⟩).decideAll id adam .run .model =
        some ⟨.allow, js "g2", ⟨.user, js "adam"⟩, none, none, none⟩ := by
    decide +kernel
  refine (decideAll_reaches_iff (fun _ _ _ _ _ _ _ _ => rfl) (by decide) hall rfl).mpr
    ⟨?_, Or.inl ?_⟩
  · intro grant hgrant hdeny hkind haction field hfield value hmethods
    have hmem := (mem_candidates_of.mp hgrant).1
    unfold eveGrants at hmem
    rcases List.mem_pair.mp hmem with rfl | rfl
    · rfl
    · cases hdeny
  · decide +kernel

end Swamp.Access
