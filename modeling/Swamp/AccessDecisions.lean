import Swamp.CommitAuthorization
import Swamp.OrderedMap

/-!
# Access decisions from grants

A policy snapshot holds the grants by subject and the groups by member.  A
decision goes through the grants of the principal's subjects that match the
resource, the action and the methods: denies first, then allows, counting the
conditions it evaluates.  What a condition says is the evaluator's, a parameter:
it answers, asks for fields the resource does not have, or fails.
-/

namespace Swamp.Access

open Js

inductive PrincipalKind where
  | user
  | worker
  | service
deriving DecidableEq

def PrincipalKind.text : PrincipalKind → JsString
  | .user => js "user"
  | .worker => js "worker"
  | .service => js "service"

structure Principal where
  kind : PrincipalKind
  id : JsString

/-- `principalToString`. -/
def principalToString (principal : Principal) : JsString :=
  principal.kind.text ++ js ":" ++ principal.id

inductive SubjectKind where
  | user
  | group
  | idpGroup
  | collective
  | service
deriving DecidableEq

def SubjectKind.text : SubjectKind → JsString
  | .user => js "user"
  | .group => js "group"
  | .idpGroup => js "idp-group"
  | .collective => js "collective"
  | .service => js "service"

structure Subject where
  kind : SubjectKind
  name : JsString
deriving DecidableEq

/-- `subjectToString`. -/
def subjectToString (subject : Subject) : JsString := subject.kind.text ++ js ":" ++ subject.name

inductive Effect where
  | allow
  | deny
deriving DecidableEq

inductive GrantState where
  | active
  | revoked
deriving DecidableEq

structure ResourceSelector where
  kind : ResourceKind
  pattern : JsString
deriving DecidableEq

/-- `Grant`, with the fields a decision or a fingerprint reads. -/
structure Grant where
  id : JsString
  subject : Subject
  effect : Effect
  actions : List Action
  resource : ResourceSelector
  condition : Option JsString
  methods : Option (List JsString)
  state : GrantState
deriving DecidableEq

/-- `Group`. -/
structure Group where
  name : JsString
  members : List Principal

/-- `AccessPrincipal`: who asks. -/
structure AccessPrincipal where
  principal : Principal
  collectives : List JsString
  groups : List JsString
  client : Option JsString

/-- The values of named fields. -/
abbrev Fields := OrderedMap JsString Json

/-- `AccessResource`: what is asked for.  `kindScope` is `scope: "kind"`. -/
structure Resource where
  kind : ResourceKind
  name : JsString
  fields : Fields
  kindScope : Bool
  anyMethod : Bool
  pending : Option (List JsString)

/-- `PrincipalContext`: what a condition reads of the principal. -/
structure PrincipalContext where
  sub : JsString
  groups : List JsString
  collectives : List JsString

/-- Why a condition was not evaluated: fields it needs are missing, or it
failed. -/
inductive ConditionError where
  | missingFields (fields : List JsString)
  | failed

/-- `ConditionEvaluator`. -/
abbrev ConditionEvaluator :=
  JsString → ResourceKind → Fields → PrincipalContext → Except ConditionError Bool

/-- `ConditionOutcome`. -/
inductive ConditionOutcome where
  | match
  | noMatch
  | missingField
  | pending
  | undecided
  | error
deriving DecidableEq

/-- `alwaysFalse`: the evaluator of a snapshot that was given none. -/
def alwaysFalse : ConditionEvaluator := fun _ _ _ _ => .ok false

/-- Values under their keys, each key's in the order they come. -/
def pushAll {V : Type} (entries : List (JsString × V)) : OrderedMap JsString (List V) :=
  entries.foldl (fun m entry => m.set entry.1 ((m.get entry.1).getD [] ++ [entry.2])) .empty

/-- `PolicySnapshot`. -/
structure PolicySnapshot where
  grantsBySubject : OrderedMap JsString (List Grant)
  groupsByPrincipal : OrderedMap JsString (List JsString)
  evaluateCondition : ConditionEvaluator

namespace PolicySnapshot

/-- The constructor. -/
def create (grants : List Grant) (groups : List Group) (evaluateCondition : ConditionEvaluator) :
    PolicySnapshot where
  grantsBySubject := pushAll (grants.map (fun grant => (subjectToString grant.subject, grant)))
  groupsByPrincipal := pushAll (groups.flatMap (fun group =>
    group.members.map (fun member => (principalToString member, group.name))))
  evaluateCondition := evaluateCondition

variable (self : PolicySnapshot)

/-- `grantsForSubjects`. -/
def grantsForSubjects (subjects : List JsString) : List Grant :=
  subjects.flatMap (fun subject => (self.grantsBySubject.get subject).getD [])

/-- `groupsForPrincipal`. -/
def groupsForPrincipal (principalKey : JsString) : List JsString :=
  (self.groupsByPrincipal.get principalKey).getD []

/-- `evaluateConditionOutcome`. -/
def evaluateConditionOutcome (condition : JsString) (kind : ResourceKind) (fields : Fields)
    (context : PrincipalContext) (pending : Option (List JsString)) : ConditionOutcome :=
  match self.evaluateCondition condition kind fields context with
  | .ok true => .match
  | .ok false => .noMatch
  | .error (.missingFields missing) =>
    match pending with
    | some known => if missing.all known.contains then .pending else .missingField
    | none => .missingField
  | .error .failed => .error

end PolicySnapshot

section

variable (toLowerCase : JsString → JsString)

/-- `resourceSelectorMatches`. -/
def resourceSelectorMatches (pattern resourceName : JsString) : Bool :=
  if pattern = js "*" then true
  else if endsWith pattern (js "*") then startsWith resourceName pattern.dropLast
  else pattern = resourceName

/-- Whether a unit is one that may stand before a type's name. -/
def isTypeLead (u : CodeUnit) : Bool := u = unit '@' || u = unit '/'

/-- A pattern without the `*` at its end. -/
def withoutStar (pattern : JsString) : JsString :=
  if endsWith pattern (js "*") then pattern.dropLast else pattern

/-- `namesTypePath`. -/
def namesTypePath (pattern : JsString) : Bool :=
  let body := (withoutStar pattern).dropWhile isTypeLead
  body.contains (unit '/') || decide (js "::" <:+: body)

/-- Whether a text ends in a separator of types. -/
def endsInSeparator (s : JsString) : Bool :=
  endsWith s (js "/") || endsWith s (js ".") || endsWith s (js "::") ||
    (s.getLast?.any isBlank)

/-- `canonicalTypePattern`. -/
def canonicalTypePattern (pattern : JsString) : Option JsString :=
  if pattern = js "*" then some (js "*")
  else
    match ModelType.create toLowerCase (withoutStar pattern) with
    | .error _ => none
    | .ok type =>
      if endsWith pattern (js "*") then
        if endsInSeparator (withoutStar pattern) then some (type.normalized ++ js "/*")
        else some (type.normalized ++ js "*")
      else some type.normalized

/-- `typePatternMatchesIgnoringAt`. -/
def typePatternMatchesIgnoringAt (canonicalPattern modelType : JsString) : Bool :=
  if canonicalPattern = js "*" then true
  else
    let lead := (withoutStar canonicalPattern).dropWhile isTypeLead
    if lead.contains (unit '/') then
      match normalizeModelTypeName toLowerCase modelType with
      | none => false
      | some type => if endsWith canonicalPattern (js "*") then startsWith type lead else type = lead
    else resourceSelectorMatches canonicalPattern modelType

/-- `isControlPlaneRecordResource`. -/
def isControlPlaneRecordResource (resource : Resource) : Bool :=
  resource.kind = .access && CONTROL_PLANE_MODEL_TYPES.contains resource.name

/-- A field that is a text. -/
def Resource.textField (resource : Resource) (name : JsString) : Option JsString :=
  match resource.fields.get name with
  | some (.str text) => some text
  | _ => none

/-- Whether a deny names a type, in whatever spelling. -/
def denyMatchesType (pattern modelType : JsString) : Bool :=
  match canonicalTypePattern toLowerCase pattern with
  | none => false
  | some canonical =>
    if namesTypePath pattern then typePatternMatchesIgnoringAt toLowerCase canonical modelType
    else resourceSelectorMatches canonical modelType

/-- `grantMatchesResource`. -/
def grantMatchesResource (grant : Grant) (resource : Resource) : Bool :=
  if grant.resource.kind ≠ resource.kind then false
  else if resourceSelectorMatches grant.resource.pattern resource.name then true
  else
    match resource.textField (js "modelType") with
    | none => false
    | some modelType =>
      if resource.kind = .model ∧ resourceSelectorMatches grant.resource.pattern modelType then
        true
      else if grant.effect = .deny ∧
          (resource.kind = .model ∨ isControlPlaneRecordResource resource) then
        denyMatchesType toLowerCase grant.resource.pattern modelType
      else false

/-- `GrantBasedAccessDecisionServiceOptions`: which actions are implied for an
allow. -/
structure Implications where
  approve : Bool
  signal : Bool
  tag : Bool

/-- `IMPLYING_ACTION`. -/
def implyingAction : Action → Option Action
  | .approve => some .run
  | .signal => some .run
  | .tag => some .write
  | _ => none

/-- Whether an allow of the implying action covers this one. -/
def Implications.covers (implications : Implications) : Action → Bool
  | .approve => implications.approve
  | .signal => implications.signal
  | .tag => implications.tag
  | _ => false

/-- `ActionMatch`. -/
inductive ActionMatch where
  | direct
  | implied (by_ : Action)

/-- `grantMatchesAction`. -/
def grantMatchesAction (grant : Grant) (action : Action) (implications : Implications) :
    Option ActionMatch :=
  if grant.actions.contains action then some .direct
  else
    match implyingAction action with
    | none => none
    | some implying =>
      if grant.actions.contains implying ∧
          (grant.effect = .deny ∨ implications.covers action) then
        some (.implied implying)
      else none

/-- `grantMatchesMethods`. -/
def grantMatchesMethods (grant : Grant) (resource : Resource) : Bool :=
  match grant.methods with
  | none => true
  | some methods =>
    if methods = [] then true
    else
      match resource.textField (js "methodName") with
      | none => grant.effect = .deny || resource.anyMethod
      | some methodName => methods.contains methodName

/-- `AccessDecision`. -/
structure AccessDecision where
  effect : Effect
  grantId : JsString
  subject : Subject
  condition : Option JsString
  impliedBy : Option Action
  dependsOn : Option (List JsString)
deriving DecidableEq

def MAX_AGGREGATE_CONDITIONS : ℕ := 100

/-- `GrantBasedAccessDecisionService`. -/
structure AccessDecisionService where
  snapshot : PolicySnapshot
  implications : Implications

/-- `resolveSubjects`. -/
def resolveSubjects (accessPrincipal : AccessPrincipal) (localGroups : List JsString) :
    List JsString :=
  [principalToString accessPrincipal.principal] ++
    localGroups.map (fun name => js "group:" ++ name) ++
    accessPrincipal.groups.map (fun name => js "idp-group:" ++ name) ++
    accessPrincipal.collectives.map (fun name => js "collective:" ++ name)

/-- `buildPrincipalContext`. -/
def buildPrincipalContext (accessPrincipal : AccessPrincipal) (localGroups : List JsString) :
    PrincipalContext :=
  ⟨accessPrincipal.principal.id, localGroups, accessPrincipal.collectives⟩

/-- `clientConditionValue`. -/
def clientConditionValue (client : Option JsString) : JsString := client.getD (js "direct:")

/-- The condition of a grant, none when it is empty. -/
def Grant.conditionText (grant : Grant) : Option JsString := grant.condition.filter (· ≠ [])

/-- The fields a condition reads: the name, the resource's own, and the client,
which no field stands in for. -/
def conditionFields (resource : Resource) (client : Option JsString) : Fields :=
  ((OrderedMap.ofList [(js "name", Json.str resource.name)]).setAll resource.fields.entries).set
    (js "client") (Json.str (clientConditionValue client))

/-- `evaluateGrant`. -/
def evaluateGrant (grant : Grant) (snapshot : PolicySnapshot) (resource : Resource)
    (principalContext : PrincipalContext) (client : Option JsString) : ConditionOutcome :=
  match grant.conditionText with
  | none => .match
  | some condition =>
    let outcome := snapshot.evaluateConditionOutcome condition resource.kind
      (conditionFields resource client) principalContext resource.pending
    if outcome = .missingField ∧ resource.kindScope then .undecided else outcome

/-- `MatchedGrant`. -/
structure MatchedGrant where
  grant : Grant
  actionMatch : ActionMatch

/-- `toDecision`. -/
def toDecision (matched : MatchedGrant) (dependsOn : Option (List JsString)) : AccessDecision where
  effect := matched.grant.effect
  grantId := matched.grant.id
  subject := matched.grant.subject
  condition := matched.grant.condition
  impliedBy :=
    match matched.actionMatch with
    | .direct => none
    | .implied implying => some implying
  dependsOn := dependsOn

/-- `serviceTriggerDefault`. -/
def serviceTriggerDefault (accessPrincipal : AccessPrincipal) (action : Action)
    (resource : Resource) : Option AccessDecision :=
  if accessPrincipal.principal.kind = .service ∧ action = .run ∧ resource.kind = .workflow then
    some ⟨.allow, js "builtin:service-trigger-default", ⟨.service, accessPrincipal.principal.id⟩,
      none, none, none⟩
  else none

/-- The deny of a decision that would evaluate too many conditions. -/
def budgetExceeded (accessPrincipal : AccessPrincipal) : AccessDecision where
  effect := .deny
  grantId := js "aggregate-budget-exceeded"
  subject :=
    ⟨if accessPrincipal.principal.kind = .service then .service else .user,
      accessPrincipal.principal.id⟩
  condition := none
  impliedBy := none
  dependsOn := none

/-- The conditions evaluated once this grant is. -/
def countCondition (grant : Grant) (evaluated : ℕ) : ℕ :=
  if grant.conditionText.isSome then evaluated + 1 else evaluated

/-- Whether a grant's condition is one too many. -/
def overBudget (grant : Grant) (evaluated : ℕ) : Bool :=
  grant.conditionText.isSome && decide (MAX_AGGREGATE_CONDITIONS < evaluated + 1)

/-- The loop over the denies: the answer of one that refuses, or how many
conditions were evaluated and whether a deny was undecided. -/
def decideDenies (exceeded : AccessDecision) (outcome : Grant → ConditionOutcome) :
    List MatchedGrant → ℕ → Bool → Except AccessDecision (ℕ × Bool)
  | [], evaluated, undecided => .ok (evaluated, undecided)
  | matched :: rest, evaluated, undecided =>
    if overBudget matched.grant evaluated then .error exceeded
    else
      let evaluated := countCondition matched.grant evaluated
      match outcome matched.grant with
      | .match => .error (toDecision matched none)
      | .missingField => .error (toDecision matched none)
      | .error => .error (toDecision matched none)
      | .undecided => decideDenies exceeded outcome rest evaluated true
      | .noMatch => decideDenies exceeded outcome rest evaluated undecided
      | .pending => decideDenies exceeded outcome rest evaluated undecided

/-- The loop over the allows: the answer of one that allows, or the first that
is pending. -/
def decideAllows (exceeded : AccessDecision) (outcome : Grant → ConditionOutcome)
    (pending : Option (List JsString)) :
    List MatchedGrant → ℕ → Option AccessDecision → Except AccessDecision (Option AccessDecision)
  | [], _, pendingAllow => .ok pendingAllow
  | matched :: rest, evaluated, pendingAllow =>
    if overBudget matched.grant evaluated then .error exceeded
    else
      let evaluated := countCondition matched.grant evaluated
      match outcome matched.grant with
      | .match => .error (toDecision matched none)
      | .pending =>
        decideAllows exceeded outcome pending rest evaluated
          (pendingAllow.or (some (toDecision matched pending)))
      | _ => decideAllows exceeded outcome pending rest evaluated pendingAllow

namespace AccessDecisionService

variable (self : AccessDecisionService)

/-- The groups of the snapshot that list the principal. -/
def localGroups (principal : AccessPrincipal) : List JsString :=
  self.snapshot.groupsForPrincipal (principalToString principal.principal)

/-- The grants of the principal's subjects. -/
def candidates (principal : AccessPrincipal) : List Grant :=
  self.snapshot.grantsForSubjects (resolveSubjects principal (self.localGroups principal))

/-- The action a resource is decided as: any on a control-plane record is
managing access. -/
def decidedAction (action : Action) (resource : Resource) : Action :=
  if isControlPlaneRecordResource resource then .admin else action

/-- A grant that matches the resource, the action and the methods. -/
def matchGrant (action : Action) (resource : Resource) (grant : Grant) : Option MatchedGrant :=
  if grantMatchesResource toLowerCase grant resource then
    match grantMatchesAction grant (decidedAction action resource) self.implications with
    | none => none
    | some actionMatch =>
      if grantMatchesMethods grant resource then some ⟨grant, actionMatch⟩ else none
  else none

/-- The matching grants, in the order they are met. -/
def matching (principal : AccessPrincipal) (action : Action) (resource : Resource) :
    List MatchedGrant :=
  (self.candidates principal).filterMap (self.matchGrant toLowerCase action resource)

/-- What a grant's condition says here. -/
def outcome (principal : AccessPrincipal) (resource : Resource) (grant : Grant) :
    ConditionOutcome :=
  evaluateGrant grant self.snapshot resource
    (buildPrincipalContext principal (self.localGroups principal)) principal.client

/-- `decide`. -/
def decide (principal : AccessPrincipal) (action : Action) (resource : Resource) :
    Option AccessDecision :=
  let matched := self.matching toLowerCase principal action resource
  let denies := matched.filter (fun m => m.grant.effect = .deny)
  let allows := matched.filter (fun m => m.grant.effect ≠ .deny)
  match decideDenies (budgetExceeded principal) (self.outcome principal resource) denies 0 false with
  | .error decision => some decision
  | .ok (evaluated, denyUndecided) =>
    match decideAllows (budgetExceeded principal) (self.outcome principal resource)
      resource.pending allows evaluated none with
    | .error decision => some decision
    | .ok (some pendingAllow) => some pendingAllow
    | .ok none =>
      if denyUndecided then none
      else serviceTriggerDefault principal (decidedAction action resource) resource

/-- Whether a deny of the kind and action is passed over by `decideAll`: its
condition, with no resource field to read, does not match. -/
def passedOver (principal : AccessPrincipal) (kind : ResourceKind) (grant : Grant) : Bool :=
  match grant.conditionText with
  | none => false
  | some condition =>
    self.snapshot.evaluateConditionOutcome condition kind
      (OrderedMap.ofList [(js "client", Json.str (clientConditionValue principal.client))])
      (buildPrincipalContext principal (self.localGroups principal)) none = .noMatch

/-- The first deny of the kind and action that is not passed over. -/
def refusingDeny (principal : AccessPrincipal) (action : Action) (kind : ResourceKind) :
    List Grant → Option MatchedGrant
  | [] => none
  | grant :: rest =>
    if grant.effect ≠ .deny ∨ grant.resource.kind ≠ kind then
      refusingDeny principal action kind rest
    else
      match grantMatchesAction grant action self.implications with
      | none => refusingDeny principal action kind rest
      | some actionMatch =>
        if self.passedOver principal kind grant then refusingDeny principal action kind rest
        else some ⟨grant, actionMatch⟩

/-- `decideAll`. -/
def decideAll (principal : AccessPrincipal) (action : Action) (kind : ResourceKind) :
    Option AccessDecision :=
  match self.refusingDeny principal action kind (self.candidates principal) with
  | some matched => some (toDecision matched none)
  | none =>
    self.decide toLowerCase principal action
      { kind := kind
        name := js "*"
        fields := OrderedMap.ofList [(js "name", Json.str (js "*"))]
        kindScope := false
        anyMethod := false
        pending := none }

end AccessDecisionService

end

end Swamp.Access
