import Swamp.CanonicalJson
import Swamp.DecideAll

/-!
# The fingerprint of what a principal may read

A follower keeps its copy while the fingerprint of its read access stays the same.
The fingerprint digests the principal, its groups and its read or admin grants,
each list sorted; a decision meets grants and groups in the order the snapshot has
them.  `JSON.stringify` gives one text to each of the values digested, so the value
stands for its text, and texts only order the grants.
-/

namespace Swamp

open Js

def Action.text : Action → JsString
  | .run => js "run"
  | .read => js "read"
  | .write => js "write"
  | .approve => js "approve"
  | .signal => js "signal"
  | .tag => js "tag"
  | .admin => js "admin"

def ResourceKind.text : ResourceKind → JsString
  | .workflow => js "workflow"
  | .model => js "model"
  | .data => js "data"
  | .access => js "access"
  | .vault => js "vault"

namespace Access

def Effect.text : Effect → JsString
  | .allow => js "allow"
  | .deny => js "deny"

def GrantState.text : GrantState → JsString
  | .active => js "active"
  | .revoked => js "revoked"

def FINGERPRINT_FORMAT : ℕ := 4

def READ_ACTIONS : List Action := [.read, .admin]

/-- Texts in order. -/
def sortTexts (texts : List JsString) : List JsString :=
  texts.insertionSort (fun a b => a ≤ b)

/-- An array of texts. -/
def textArray (texts : List JsString) : Json := .arr (texts.map Json.str)

/-- A text, `null` when there is none. -/
def textOrNull : Option JsString → Json
  | none => .null
  | some text => .str text

/-- `decisionFields`. -/
def decisionFields (grant : Grant) : Json :=
  .arr
    [.str grant.id,
      .str grant.state.text,
      .str grant.subject.kind.text,
      .str grant.subject.name,
      .str grant.effect.text,
      textArray (sortTexts (grant.actions.map Action.text)),
      .str grant.resource.kind.text,
      .str grant.resource.pattern,
      match grant.methods with
      | none => .null
      | some methods => textArray (sortTexts methods),
      textOrNull grant.condition]

/-- Whether a grant is for reading or managing access. -/
def readsOrAdmins (grant : Grant) : Bool := grant.actions.any READ_ACTIONS.contains

section

variable {Digest : Type} (stringify : Json → JsString) (digest : Json → Digest)

/-- What `readAccessFingerprint` digests. -/
def fingerprintInputs (principal : AccessPrincipal) (localGroups : List JsString)
    (grants : List Grant) (restrictedTypes : List JsString) : Json :=
  .arr
    [.num FINGERPRINT_FORMAT,
      .str (principalToString principal.principal),
      textArray (sortTexts principal.collectives),
      textArray (sortTexts principal.groups),
      textArray (sortTexts localGroups),
      .arr (((grants.filter readsOrAdmins).map decisionFields).insertionSort
        (fun a b => stringify a ≤ stringify b)),
      textArray (sortTexts restrictedTypes.eraseDups),
      textOrNull principal.client]

/-- `readAccessFingerprint`, of a snapshot.  `digest` is SHA-256. -/
def AccessDecisionService.readAccessFingerprint (self : AccessDecisionService)
    (principal : AccessPrincipal) (restrictedTypes : List JsString) : Digest :=
  digest (fingerprintInputs stringify principal (self.localGroups principal)
    (self.candidates principal) restrictedTypes)

end

theorem actionText_injective : Function.Injective Action.text := by
  intro a b h
  cases a <;> cases b <;> first | rfl | exact absurd h (by decide)

theorem kindText_injective : Function.Injective ResourceKind.text := by
  intro a b h
  cases a <;> cases b <;> first | rfl | exact absurd h (by decide)

theorem effectText_injective : Function.Injective Effect.text := by
  intro a b h
  cases a <;> cases b <;> first | rfl | exact absurd h (by decide)

theorem perm_of_sortTexts {texts texts' : List JsString}
    (h : textArray (sortTexts texts) = textArray (sortTexts texts')) : texts.Perm texts' := by
  have hsorted : sortTexts texts = sortTexts texts' :=
    List.map_injective_iff.mpr (fun a b hab => Json.str.inj hab) (Json.arr.inj h)
  have hfirst : texts.Perm (sortTexts texts) := (List.perm_insertionSort _ texts).symm
  have hsecond : (sortTexts texts').Perm texts' := List.perm_insertionSort _ texts'
  rw [hsorted] at hfirst
  exact hfirst.trans hsecond

theorem textOrNull_injective : Function.Injective textOrNull := by
  intro a b h
  cases a with
  | none =>
    cases b with
    | none => rfl
    | some text => cases h
  | some text =>
    cases b with
    | none => cases h
    | some text' => rw [Json.str.inj h]

/-- Grants that decide alike: the same effect, resource and condition, and the
same actions and methods in some order. -/
structure DecidesAs (grant grant' : Grant) : Prop where
  effect : grant.effect = grant'.effect
  actions : grant.actions.Perm grant'.actions
  resource : grant.resource = grant'.resource
  condition : grant.condition = grant'.condition
  methods : Option.Rel List.Perm grant.methods grant'.methods

/-- **Grants that digest alike decide alike.** -/
theorem decidesAs_of_fields {grant grant' : Grant}
    (h : decisionFields grant = decisionFields grant') : DecidesAs grant grant' := by
  unfold decisionFields at h
  simp only [Json.arr.injEq, List.cons.injEq, Json.str.injEq, and_true] at h
  obtain ⟨-, -, -, -, heffect, hactions, hkind, hpattern, hmethods, hcondition⟩ := h
  refine ⟨effectText_injective heffect, ?_, ?_, textOrNull_injective hcondition, ?_⟩
  · exact (List.map_perm_map_iff actionText_injective).mp (perm_of_sortTexts hactions)
  · exact congrArg₂ ResourceSelector.mk (kindText_injective hkind) hpattern
  · cases hgrant : grant.methods with
    | none =>
      cases hgrant' : grant'.methods with
      | none => exact Option.Rel.none
      | some methods' =>
        rw [hgrant, hgrant'] at hmethods
        cases hmethods
    | some methods =>
      cases hgrant' : grant'.methods with
      | none =>
        rw [hgrant, hgrant'] at hmethods
        cases hmethods
      | some methods' =>
        rw [hgrant, hgrant'] at hmethods
        exact Option.Rel.some (perm_of_sortTexts hmethods)

section

variable {toLowerCase : JsString → JsString} {self self' : AccessDecisionService}
  {grant grant' : Grant} {action : Action} {resource : Resource}

theorem DecidesAs.matchesResource (h : DecidesAs grant grant') :
    grantMatchesResource toLowerCase grant resource =
      grantMatchesResource toLowerCase grant' resource := by
  unfold grantMatchesResource
  rw [h.resource, h.effect]

theorem DecidesAs.matchesAction (h : DecidesAs grant grant') (implications : Implications) :
    grantMatchesAction grant action implications =
      grantMatchesAction grant' action implications := by
  have hcontains : ∀ a, grant.actions.contains a = grant'.actions.contains a := by
    intro a
    rw [Bool.eq_iff_iff, List.contains_iff_mem, List.contains_iff_mem]
    exact h.actions.mem_iff
  unfold grantMatchesAction
  simp only [hcontains, h.effect]

theorem DecidesAs.matchesMethods (h : DecidesAs grant grant') :
    grantMatchesMethods grant resource = grantMatchesMethods grant' resource := by
  have hmethods := h.methods
  unfold grantMatchesMethods
  cases hgrant : grant.methods with
  | none =>
    cases hgrant' : grant'.methods with
    | none => rfl
    | some methods' =>
      rw [hgrant, hgrant'] at hmethods
      cases hmethods
  | some methods =>
    rw [hgrant] at hmethods
    cases hgrant' : grant'.methods with
    | none =>
      rw [hgrant'] at hmethods
      cases hmethods
    | some methods' =>
      rw [hgrant'] at hmethods
      have hperm : methods.Perm methods' := by
        cases hmethods with
        | some hperm => exact hperm
      have hcontains : ∀ name, methods.contains name = methods'.contains name := by
        intro name
        rw [Bool.eq_iff_iff, List.contains_iff_mem, List.contains_iff_mem]
        exact hperm.mem_iff
      have hnil : methods = [] ↔ methods' = [] :=
        ⟨fun heq => (heq ▸ hperm).symm.eq_nil, fun heq => (heq ▸ hperm).eq_nil⟩
      simp only [hcontains, hnil, h.effect]

theorem DecidesAs.matchGrant (h : DecidesAs grant grant')
    (himplications : self.implications = self'.implications) :
    (self.matchGrant toLowerCase action resource grant).isSome =
      (self'.matchGrant toLowerCase action resource grant').isSome := by
  unfold AccessDecisionService.matchGrant
  rw [h.matchesResource, h.matchesAction, h.matchesMethods, himplications]
  split
  · split
    · rfl
    · split
      · rfl
      · rfl
  · rfl

theorem DecidesAs.conditionText (h : DecidesAs grant grant') :
    grant.conditionText = grant'.conditionText := by
  unfold Grant.conditionText
  rw [h.condition]

theorem DecidesAs.outcome (h : DecidesAs grant grant') (principal : AccessPrincipal) :
    self.outcome principal resource grant = self.outcome principal resource grant' := by
  unfold AccessDecisionService.outcome evaluateGrant
  rw [h.conditionText]

end

/-- Lists that are the same up to what is read of their elements stay so when
what is kept of each depends on that. -/
theorem perm_filterMap {α κ β : Type} {f : α → κ} {u v : α → Option β} {l l' : List α}
    (h : (l.map f).Perm (l'.map f)) (hsame : ∀ a ∈ l, ∀ b, f a = f b → u a = v b) :
    (l.filterMap u).Perm (l'.filterMap v) := by
  induction l generalizing l' with
  | nil =>
    have hnil : l' = [] := List.map_eq_nil_iff.mp h.nil_eq.symm
    subst hnil
    exact List.Perm.nil
  | cons a l ih =>
    have hmem : f a ∈ l'.map f := h.subset List.mem_cons_self
    obtain ⟨b, hb, hfb⟩ := List.mem_map.mp hmem
    obtain ⟨s, t, rfl⟩ := List.append_of_mem hb
    have hrest : (l.map f).Perm ((s ++ t).map f) := by
      have hmiddle : ((s ++ b :: t).map f).Perm (f a :: (s ++ t).map f) := by
        rw [← hfb]
        exact (List.perm_middle).map f
      exact (List.perm_cons _).mp (h.trans hmiddle)
    have hih := ih hrest (fun c hc => hsame c (List.mem_cons_of_mem _ hc))
    have hmiddle : ((s ++ b :: t).filterMap v).Perm ((b :: (s ++ t)).filterMap v) :=
      (List.perm_middle).filterMap v
    refine List.Perm.trans ?_ hmiddle.symm
    rw [List.filterMap_cons, List.filterMap_cons, hsame a List.mem_cons_self b hfb.symm]
    cases v b with
    | none => exact hih
    | some value => exact hih.cons value

/-- What the loop over the allows ends with, and what it met. -/
inductive AllowsEnd (exceeded : AccessDecision) (outcome : Grant → ConditionOutcome)
    (allows : List MatchedGrant) (pendingAllow : Option AccessDecision) :
    Except AccessDecision (Option AccessDecision) → Prop
  | exceeded : AllowsEnd exceeded outcome allows pendingAllow (.error exceeded)
  | allowed (m : MatchedGrant) (hm : m ∈ allows) (hmatch : outcome m.grant = .match) :
      AllowsEnd exceeded outcome allows pendingAllow (.error (toDecision m none))
  | pending (found : AccessDecision)
      (hfrom : pendingAllow.isSome ∨ ∃ m ∈ allows, outcome m.grant = .pending) :
      AllowsEnd exceeded outcome allows pendingAllow (.ok (some found))
  | nothing (hstart : pendingAllow = none)
      (hall : ∀ m ∈ allows, outcome m.grant ≠ .match ∧ outcome m.grant ≠ .pending) :
      AllowsEnd exceeded outcome allows pendingAllow (.ok none)

section

variable {exceeded : AccessDecision} {outcome : Grant → ConditionOutcome}
  {rest : List MatchedGrant} {pendingAllow : Option AccessDecision} {m : MatchedGrant}
  {result : Except AccessDecision (Option AccessDecision)}

theorem AllowsEnd.skip (h : AllowsEnd exceeded outcome rest pendingAllow result)
    (hmatch : outcome m.grant ≠ .match) (hpending : outcome m.grant ≠ .pending) :
    AllowsEnd exceeded outcome (m :: rest) pendingAllow result := by
  cases h with
  | exceeded => exact .exceeded
  | allowed n hn hmatches => exact .allowed n (List.mem_cons_of_mem _ hn) hmatches
  | pending found hfrom =>
    refine .pending found (hfrom.imp_right ?_)
    intro h
    obtain ⟨n, hn, hpends⟩ := h
    exact ⟨n, List.mem_cons_of_mem _ hn, hpends⟩
  | nothing hstart hall =>
    exact .nothing hstart (List.forall_mem_cons.mpr ⟨⟨hmatch, hpending⟩, hall⟩)

theorem AllowsEnd.pend {first : AccessDecision}
    (h : AllowsEnd exceeded outcome rest (pendingAllow.or (some first)) result)
    (hpending : outcome m.grant = .pending) :
    AllowsEnd exceeded outcome (m :: rest) pendingAllow result := by
  cases h with
  | exceeded => exact .exceeded
  | allowed n hn hmatches => exact .allowed n (List.mem_cons_of_mem _ hn) hmatches
  | pending found _ => exact .pending found (Or.inr ⟨m, List.mem_cons_self, hpending⟩)
  | nothing hstart _ =>
    cases pendingAllow with
    | none | some earlier => cases hstart

theorem decideAllows_end (pending : Option (List JsString)) (allows : List MatchedGrant)
    (evaluated : ℕ) (pendingAllow : Option AccessDecision) :
    AllowsEnd exceeded outcome allows pendingAllow
      (decideAllows exceeded outcome pending allows evaluated pendingAllow) := by
  induction allows generalizing evaluated pendingAllow with
  | nil =>
    cases pendingAllow with
    | none => exact .nothing rfl (fun m hm => by cases hm)
    | some found => exact .pending found (Or.inl rfl)
  | cons m rest ih =>
    rw [decideAllows]
    cases overBudget m.grant evaluated with
    | true => exact .exceeded
    | false =>
      simp only [Bool.false_eq_true, if_false]
      cases houtcome : outcome m.grant with
      | «match» => exact .allowed m List.mem_cons_self houtcome
      | pending => exact (ih _ _).pend houtcome
      | noMatch | missingField | undecided
      | error => exact (ih _ _).skip (by simp [houtcome]) (by simp [houtcome])

end

section

variable (toLowerCase : JsString → JsString) (self other : AccessDecisionService)
  (principal : AccessPrincipal) (action : Action) (resource : Resource)

/-- A matching deny refuses, where conditions read the groups in the order of the other
snapshot. -/
def AccessDecisionService.RefusesAs : Prop :=
  ∃ m ∈ self.denies toLowerCase principal action resource,
    refuses (other.outcome principal resource m.grant) = true

/-- A matching allow's condition matches or is pending, read in the order of the other
snapshot. -/
def AccessDecisionService.AllowsAs : Prop :=
  ∃ m ∈ self.allows toLowerCase principal action resource,
    other.outcome principal resource m.grant = .match ∨
      other.outcome principal resource m.grant = .pending

variable {toLowerCase self other principal action resource}

theorem notRefuses_iff :
    ¬ self.RefusesAs toLowerCase self principal action resource ↔
      ∀ m ∈ self.denies toLowerCase principal action resource,
        refuses (self.outcome principal resource m.grant) = false := by
  unfold AccessDecisionService.RefusesAs
  simp only [not_exists, not_and, Bool.not_eq_true]

theorem serviceTriggerDefault_read (haction : action ∈ READ_ACTIONS) :
    serviceTriggerDefault principal (AccessDecisionService.decidedAction action resource)
      resource = none := by
  unfold serviceTriggerDefault AccessDecisionService.decidedAction
  apply if_neg
  intro h
  have hrun := h.2.1
  split at hrun
  · cases hrun
  · subst hrun
    exact absurd haction (by decide)

/-- **A read decision that is no deny** allows exactly when an allow matches or is
pending. -/
theorem decide_allows_iff (haction : action ∈ READ_ACTIONS)
    (hnone : ¬ self.RefusesAs toLowerCase self principal action resource)
    (hwithin : self.WithinBudget toLowerCase principal action resource) :
    (self.decide toLowerCase principal action resource).map (·.effect) = some .allow ↔
      self.AllowsAs toLowerCase self principal action resource := by
  replace hnone := notRefuses_iff.mp hnone
  have hpasses := decide_passes_iff.mpr ⟨hnone, hwithin⟩
  have hallows : ∀ m ∈ self.allows toLowerCase principal action resource,
      m.grant.effect = .allow := fun m hm => (mem_allows.mp hm).2
  have hdenies := (@decideDenies_ok_iff (budgetExceeded principal)
    (self.outcome principal resource) (self.denies toLowerCase principal action resource) 0 false
    _).mpr ⟨hnone, hwithin.1, rfl⟩
  rw [decide_eq, serviceTriggerDefault_read haction] at hpasses ⊢
  unfold answer at hpasses ⊢
  rw [hdenies] at hpasses ⊢
  simp only at hpasses ⊢
  have hend := @decideAllows_end (budgetExceeded principal) (self.outcome principal resource)
    resource.pending (self.allows toLowerCase principal action resource)
    (0 + conditions (self.denies toLowerCase principal action resource)) none
  generalize hloop : decideAllows (budgetExceeded principal) (self.outcome principal resource)
    resource.pending (self.allows toLowerCase principal action resource)
    (0 + conditions (self.denies toLowerCase principal action resource)) none = result
    at hend hpasses ⊢
  cases hend with
  | exceeded => exact absurd rfl (hpasses _ rfl)
  | allowed m hm hmatch =>
    refine iff_of_true ?_ ⟨m, hm, Or.inl hmatch⟩
    exact congrArg some (hallows m hm)
  | pending found hfrom =>
    have hallowed : found.effect = .allow :=
      decideAllows_pending hallows (fun p hp => by cases hp) hloop
    apply iff_of_true (congrArg some hallowed)
    rcases hfrom with hstart | ⟨m, hm, hpends⟩
    · cases hstart
    · exact ⟨m, hm, Or.inr hpends⟩
  | nothing _ hall =>
    refine iff_of_false (by simp) ?_
    intro h
    obtain ⟨m, hm, hfound⟩ := h
    rcases hfound with hmatch | hpends
    · exact (hall m hm).1 hmatch
    · exact (hall m hm).2 hpends

end

section

variable {toLowerCase : JsString → JsString} {self self' : AccessDecisionService}
  {principal : AccessPrincipal} {action : Action} {resource : Resource}

/-- What a decision sees of a matching grant, its condition read in the order of a
snapshot. -/
def looksAt (self : AccessDecisionService) (principal : AccessPrincipal) (resource : Resource)
    (m : MatchedGrant) : Effect × ConditionOutcome :=
  (m.grant.effect, self.outcome principal resource m.grant)

theorem matchGrant_reads (haction : action ∈ READ_ACTIONS) {grant : Grant}
    (hreads : readsOrAdmins grant = false) :
    self.matchGrant toLowerCase action resource grant = none := by
  have hdecided : AccessDecisionService.decidedAction action resource ∈ READ_ACTIONS := by
    unfold AccessDecisionService.decidedAction
    split
    · decide
    · exact haction
  unfold AccessDecisionService.matchGrant
  generalize AccessDecisionService.decidedAction action resource = decided at hdecided ⊢
  have hnot : grant.actions.contains decided = false := by
    rw [Bool.eq_false_iff]
    intro hcontains
    rw [List.contains_iff_mem] at hcontains
    have hany : readsOrAdmins grant = true :=
      List.any_eq_true.mpr ⟨decided, hcontains, List.contains_iff_mem.mpr hdecided⟩
    rw [hreads] at hany
    cases hany
  have hmatch : grantMatchesAction grant decided self.implications = none := by
    unfold grantMatchesAction
    rw [hnot]
    cases decided with
    | read | admin => rfl
    | run | write | approve | signal | tag => exact absurd hdecided (by decide)
  rw [hmatch]
  exact ite_self none

theorem matching_reads (haction : action ∈ READ_ACTIONS) :
    self.matching toLowerCase principal action resource =
      ((self.candidates principal).filter readsOrAdmins).filterMap
        (self.matchGrant toLowerCase action resource) := by
  unfold AccessDecisionService.matching
  rw [List.filterMap_filter]
  apply List.filterMap_congr
  intro grant _
  cases hreads : readsOrAdmins grant with
  | true => simp
  | false => simp [matchGrant_reads haction hreads]

/-- **One fingerprint, the same grants to look at**, in either order of the groups. -/
theorem looksAt_perm (haction : action ∈ READ_ACTIONS)
    (himplications : self.implications = self'.implications)
    (hfields : (((self.candidates principal).filter readsOrAdmins).map decisionFields).Perm
      (((self'.candidates principal).filter readsOrAdmins).map decisionFields)) :
    ((self.matching toLowerCase principal action resource).map
      (looksAt self' principal resource)).Perm
      ((self'.matching toLowerCase principal action resource).map
        (looksAt self' principal resource)) := by
  rw [matching_reads haction, matching_reads haction, List.map_filterMap, List.map_filterMap]
  apply perm_filterMap hfields
  intro grant _ grant' hsame
  have halike := decidesAs_of_fields hsame
  have hisSome := @DecidesAs.matchGrant toLowerCase self self' grant grant' action resource halike
    himplications
  cases hm : self.matchGrant toLowerCase action resource grant with
  | none =>
    rw [hm] at hisSome
    rw [Option.isSome_eq_false_iff.mp hisSome.symm |> Option.isNone_iff_eq_none.mp]
  | some m =>
    rw [hm] at hisSome
    obtain ⟨m', hm'⟩ := Option.isSome_iff_exists.mp hisSome.symm
    rw [hm']
    simp only [Option.map_some, Option.some.injEq]
    unfold looksAt
    rw [matchGrant_grant hm, matchGrant_grant hm', halike.effect, halike.outcome principal]

end

section

variable {Digest : Type} {stringify : Json → JsString} {digest : Json → Digest}
  {self self' : AccessDecisionService} {principal : AccessPrincipal}
  {restrictedTypes : List JsString}

theorem fields_perm_of_fingerprint (hdigest : Function.Injective digest)
    (h : self.readAccessFingerprint stringify digest principal restrictedTypes =
      self'.readAccessFingerprint stringify digest principal restrictedTypes) :
    (((self.candidates principal).filter readsOrAdmins).map decisionFields).Perm
      (((self'.candidates principal).filter readsOrAdmins).map decisionFields) := by
  have hinputs := hdigest h
  unfold fingerprintInputs at hinputs
  simp only [Json.arr.injEq, List.cons.injEq] at hinputs
  have hfirst := (List.perm_insertionSort (fun a b => stringify a ≤ stringify b)
    (((self.candidates principal).filter readsOrAdmins).map decisionFields)).symm
  rw [hinputs.2.2.2.2.2.1] at hfirst
  exact hfirst.trans (List.perm_insertionSort _ _)

end

section

variable {toLowerCase : JsString → JsString} {self self' : AccessDecisionService}
  {principal : AccessPrincipal} {action : Action} {resource : Resource}

theorem refusesAs_iff :
    self.RefusesAs toLowerCase self' principal action resource ↔
      ∃ looked ∈ (self.matching toLowerCase principal action resource).map
        (looksAt self' principal resource), looked.1 = .deny ∧ refuses looked.2 = true := by
  constructor
  · intro h
    obtain ⟨m, hm, hrefuses⟩ := h
    obtain ⟨hmatching, hdeny⟩ := mem_denies.mp hm
    exact ⟨_, List.mem_map_of_mem hmatching, hdeny, hrefuses⟩
  · intro h
    obtain ⟨looked, hlooked, hdeny, hrefuses⟩ := h
    obtain ⟨m, hmatching, rfl⟩ := List.mem_map.mp hlooked
    exact ⟨m, mem_denies.mpr ⟨hmatching, hdeny⟩, hrefuses⟩

theorem allowsAs_iff :
    self.AllowsAs toLowerCase self' principal action resource ↔
      ∃ looked ∈ (self.matching toLowerCase principal action resource).map
        (looksAt self' principal resource), looked.1 = .allow ∧
          (looked.2 = .match ∨ looked.2 = .pending) := by
  constructor
  · intro h
    obtain ⟨m, hm, hfound⟩ := h
    obtain ⟨hmatching, hallow⟩ := mem_allows.mp hm
    exact ⟨_, List.mem_map_of_mem hmatching, hallow, hfound⟩
  · intro h
    obtain ⟨looked, hlooked, hallow, hfound⟩ := h
    obtain ⟨m, hmatching, rfl⟩ := List.mem_map.mp hlooked
    exact ⟨m, mem_allows.mpr ⟨hmatching, hallow⟩, hfound⟩

/-- **A read decision is a deny** exactly when a deny refuses, or the budget is exceeded. -/
theorem decide_denies_iff :
    (self.decide toLowerCase principal action resource).map (·.effect) = some .deny ↔
      self.RefusesAs toLowerCase self principal action resource ∨
        ¬ self.WithinBudget toLowerCase principal action resource := by
  rw [← not_iff_not, not_or, notRefuses_iff, not_not, ← decide_passes_iff, Option.map_eq_some_iff]
  simp only [not_exists, not_and, ne_eq]

theorem eq_of_allow_iff {a b : Option Effect} (h : a = some .allow ↔ b = some .allow)
    (ha : a ≠ some .deny) (hb : b ≠ some .deny) : a = b := by
  cases a with
  | none =>
    cases b with
    | none => rfl
    | some effect =>
      cases effect with
      | allow => cases h.mpr rfl
      | deny => exact absurd rfl hb
  | some effect =>
    cases effect with
    | allow => exact (h.mp rfl).symm
    | deny => exact absurd rfl ha

/-- Effects that are told by what denies and what allows are the same when these are. -/
theorem effect_eq_iff {a b : Option Effect} {denied denied' allowed allowed' : Prop}
    (hdenied : a = some .deny ↔ denied) (hdenied' : b = some .deny ↔ denied')
    (hallowed : ¬ denied → (a = some .allow ↔ allowed))
    (hallowed' : ¬ denied' → (b = some .allow ↔ allowed')) :
    a = b ↔ (denied ↔ denied') ∧ (¬ denied → (allowed ↔ allowed')) := by
  constructor
  · intro heq
    subst heq
    have hsame : denied ↔ denied' := hdenied.symm.trans hdenied'
    exact ⟨hsame, fun hnot =>
      (hallowed hnot).symm.trans (hallowed' (fun h => hnot (hsame.mpr h)))⟩
  · intro h
    by_cases hd : denied
    · rw [hdenied.mpr hd, hdenied'.mpr (h.1.mp hd)]
    · have hd' : ¬ denied' := fun hd' => hd (h.1.mpr hd')
      exact eq_of_allow_iff ((hallowed hd).trans ((h.2 hd).trans (hallowed' hd').symm))
        (fun ha => hd (hdenied.mp ha)) (fun hb => hd' (hdenied'.mp hb))

end

section

variable {Digest : Type} {toLowerCase : JsString → JsString} {stringify : Json → JsString}
  {digest : Json → Digest} {grants grants' : List Grant} {groups groups' : List Group}
  {evaluator : ConditionEvaluator} {implications : Implications} {principal : AccessPrincipal}
  {restrictedTypes : List JsString}

/-- **When one fingerprint means the same read decisions.**  Two snapshots give a principal
one fingerprint.  Then the decisions to read and to manage access have the same effect on
every resource exactly when, of the grants that match it, a deny refuses or the budget is
exceeded in the orders of the one snapshot as in those of the other, and where neither, an
allow's condition matches or is pending in the one order of the groups as in the other. -/
theorem fingerprint_keeps_decisions_iff (hdigest : Function.Injective digest)
    (hsame : (AccessDecisionService.of grants groups evaluator
        implications).readAccessFingerprint stringify digest principal restrictedTypes =
      (AccessDecisionService.of grants' groups' evaluator
        implications).readAccessFingerprint stringify digest principal restrictedTypes) :
    let self := AccessDecisionService.of grants groups evaluator implications
    let other := AccessDecisionService.of grants' groups' evaluator implications
    (∀ action ∈ READ_ACTIONS, ∀ resource,
      (self.decide toLowerCase principal action resource).map (·.effect) =
        (other.decide toLowerCase principal action resource).map (·.effect)) ↔
    ∀ action ∈ READ_ACTIONS, ∀ resource,
      (self.RefusesAs toLowerCase self principal action resource ∨
          ¬ self.WithinBudget toLowerCase principal action resource ↔
        self.RefusesAs toLowerCase other principal action resource ∨
          ¬ other.WithinBudget toLowerCase principal action resource) ∧
      (¬ (self.RefusesAs toLowerCase self principal action resource ∨
          ¬ self.WithinBudget toLowerCase principal action resource) →
        (self.AllowsAs toLowerCase self principal action resource ↔
          self.AllowsAs toLowerCase other principal action resource)) := by
  intro self other
  have hfields := fields_perm_of_fingerprint hdigest hsame
  refine forall_congr' fun action => forall_congr' fun haction => forall_congr' fun resource => ?_
  have hlooks := @looksAt_perm toLowerCase self other principal action resource haction rfl hfields
  have hrefuses : self.RefusesAs toLowerCase other principal action resource ↔
      other.RefusesAs toLowerCase other principal action resource := by
    rw [refusesAs_iff, refusesAs_iff]
    simp only [hlooks.mem_iff]
  have hallows : self.AllowsAs toLowerCase other principal action resource ↔
      other.AllowsAs toLowerCase other principal action resource := by
    rw [allowsAs_iff, allowsAs_iff]
    simp only [hlooks.mem_iff]
  rw [hrefuses, hallows]
  have hallowed : ∀ service : AccessDecisionService,
      ¬ (service.RefusesAs toLowerCase service principal action resource ∨
        ¬ service.WithinBudget toLowerCase principal action resource) →
      ((service.decide toLowerCase principal action resource).map (·.effect) = some .allow ↔
        service.AllowsAs toLowerCase service principal action resource) :=
    fun service hpasses => decide_allows_iff haction (fun h => hpasses (Or.inl h))
      (not_not.mp (fun h => hpasses (Or.inr h)))
  exact effect_eq_iff decide_denies_iff decide_denies_iff (hallowed self) (hallowed other)

end

/-- A condition on the first group the principal is listed in. -/
def firstGroupCondition : JsString := js "principal.groups[0] == \"a\""

/-- What CEL reads of that condition, and what it says of a principal. -/
def firstGroupCel : Cel where
  parse _ condition :=
    if condition = firstGroupCondition then
      some (.node (js "==") (.list
        [.node (js "[]") (.list
          [.node (js ".") (.list [.node (js "id") (.text (js "principal")), .text (js "groups")]),
            .node (js "value") .other]),
          .node (js "value") (.text (js "a"))]))
    else none
  evaluate _ condition _ principal :=
    if condition = firstGroupCondition then principal.groups.head?.map (· = js "a") else none

/-- One who may read data while the first group is `a`. -/
def firstGroupGrants : List Grant :=
  [⟨js "g1", ⟨.user, js "adam"⟩, .allow, [.read], ⟨.data, js "*"⟩, some firstGroupCondition, none,
    .active⟩]

def groupA : Group := ⟨js "a", [⟨.user, js "adam"⟩]⟩

def groupB : Group := ⟨js "b", [⟨.user, js "adam"⟩]⟩

mutual

/-- `JSON.stringify` of arrays, texts without control characters, and `null`. -/
def plainText : Json → JsString
  | .arr items => js "[" ++ plainTexts items ++ js "]"
  | .str text =>
    js "\"" ++ text.flatMap (fun u =>
      if u = unit '"' ∨ u = unit '\\' then [unit '\\', u] else [u]) ++ js "\""
  | _ => js "null"

def plainTexts : List Json → JsString
  | [] => []
  | [item] => plainText item
  | item :: rest => plainText item ++ js "," ++ plainTexts rest

end

/-- Listing the two groups of a principal in the other order keeps the fingerprint
and takes an allow to read away. -/
theorem group_order_changes_read :
    ¬ ∀ (toLowerCase : JsString → JsString) (stringify : Json → JsString) (digest : Json → Json)
        (grants grants' : List Grant) (groups groups' : List Group)
        (evaluator : ConditionEvaluator) (implications : Implications)
        (principal : AccessPrincipal) (restrictedTypes : List JsString),
      Function.Injective digest →
      (AccessDecisionService.of grants groups evaluator
          implications).readAccessFingerprint stringify digest principal restrictedTypes =
        (AccessDecisionService.of grants' groups' evaluator
          implications).readAccessFingerprint stringify digest principal restrictedTypes →
      ∀ action ∈ READ_ACTIONS, ∀ resource,
        ((AccessDecisionService.of grants groups evaluator implications).decide toLowerCase
            principal action resource).map (·.effect) =
          ((AccessDecisionService.of grants' groups' evaluator implications).decide toLowerCase
            principal action resource).map (·.effect) := by
  intro h
  have heffects := h id plainText id firstGroupGrants firstGroupGrants [groupA, groupB]
    [groupB, groupA] (createConditionEvaluator firstGroupCel) ⟨false, false, false⟩ adam []
    Function.injective_id (by decide +kernel) .read (by decide)
    (asked .data (js "report") (js "ns") (.str (js "main")))
  exact absurd heffects (by decide +kernel)

/-- One who may read every model, but not through `delete`. -/
def readGrants : List Grant := deleteGrants.map (fun grant => { grant with actions := [.read] })

/-- Grants of one user in the other order keep the fingerprint and the decisions. -/
theorem grant_order_keeps_read :
    (AccessDecisionService.of readGrants [] (createConditionEvaluator deleteCel)
        ⟨false, false, false⟩).readAccessFingerprint plainText id adam [] =
      (AccessDecisionService.of readGrants.reverse [] (createConditionEvaluator deleteCel)
        ⟨false, false, false⟩).readAccessFingerprint plainText id adam [] ∧
    ∀ action ∈ READ_ACTIONS, ∀ resource,
      ((AccessDecisionService.of readGrants [] (createConditionEvaluator deleteCel)
          ⟨false, false, false⟩).decide id adam action resource).map (·.effect) =
        ((AccessDecisionService.of readGrants.reverse [] (createConditionEvaluator deleteCel)
          ⟨false, false, false⟩).decide id adam action resource).map (·.effect) := by
  have hsame : (AccessDecisionService.of readGrants [] (createConditionEvaluator deleteCel)
        ⟨false, false, false⟩).readAccessFingerprint plainText id adam [] =
      (AccessDecisionService.of readGrants.reverse [] (createConditionEvaluator deleteCel)
        ⟨false, false, false⟩).readAccessFingerprint plainText id adam [] := by
    decide +kernel
  refine ⟨hsame, (fingerprint_keeps_decisions_iff Function.injective_id hsame).mpr ?_⟩
  intro action _ resource
  -- Without groups the conditions say the same in both orders.
  refine ⟨or_congr Iff.rfl (not_congr (iff_of_true ?_ ?_)), fun _ => Iff.rfl⟩
  · exact withinBudget_of_nodup (by decide) (by decide +kernel)
  · exact withinBudget_of_nodup (by decide) (by decide +kernel)

end Access

end Swamp
