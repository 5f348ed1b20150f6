import Mathlib.Data.Multiset.Basic
import Swamp.AccessDecisions

/-!
# Access decisions fail closed

The two loops of a decision are described by what they find, not by the order
they find it in: the denies are passed when none refuses and the conditions are
within the budget (`decideDenies_ok_iff`), and a larger count of conditions can
only turn what the allows answer into a refusal (`decideAllows_mono`).
-/

namespace Swamp.Access

open Js

theorem getD_pushAll {V : Type} (entries : List (JsString × V)) (k : JsString) :
    ((pushAll entries).get k).getD [] =
      (entries.filter (fun entry => entry.1 = k)).map Prod.snd := by
  unfold pushAll
  induction entries using List.reverseRecOn with
  | nil => rfl
  | append_singleton entries entry ih =>
    rw [List.foldl_append, List.foldl_cons, List.foldl_nil, OrderedMap.get_set,
      List.filter_append, List.map_append, ← ih]
    by_cases h : k = entry.1
    · subst h
      simp
    · have hne : ¬ entry.1 = k := fun heq => h heq.symm
      simp [h, hne]

theorem grantsForSubjects_create (grants : List Grant) (groups : List Group)
    (evaluator : ConditionEvaluator) (subjects : List JsString) :
    (PolicySnapshot.create grants groups evaluator).grantsForSubjects subjects =
      subjects.flatMap (fun subject =>
        grants.filter (fun grant => subjectToString grant.subject = subject)) := by
  unfold PolicySnapshot.grantsForSubjects PolicySnapshot.create
  simp only [getD_pushAll, List.filter_map, List.map_map]
  apply List.flatMap_congr
  intro subject _
  exact List.map_id _

/-- A deny with this outcome refuses. -/
def refuses (outcome : ConditionOutcome) : Bool :=
  outcome = .match || outcome = .missingField || outcome = .error

/-- How many conditions a list of grants has. -/
def conditions (matched : List MatchedGrant) : ℕ :=
  matched.countP (fun m => m.grant.conditionText.isSome)

/-- Whether evaluating the conditions of a list, after some others, stays within
the budget. -/
def withinBudget (matched : List MatchedGrant) (evaluated : ℕ) : Prop :=
  conditions matched = 0 ∨ evaluated + conditions matched ≤ MAX_AGGREGATE_CONDITIONS

variable {decision : AccessDecision}

section

variable {exceeded : AccessDecision} {outcome : Grant → ConditionOutcome}

theorem conditions_cons (m : MatchedGrant) (rest : List MatchedGrant) :
    conditions (m :: rest) =
      conditions rest + if m.grant.conditionText.isSome then 1 else 0 := List.countP_cons

theorem countCondition_eq (grant : Grant) (evaluated : ℕ) :
    countCondition grant evaluated =
      evaluated + if grant.conditionText.isSome then 1 else 0 := by
  unfold countCondition
  split
  · rfl
  · rfl

/-- The budget, one grant at a time. -/
theorem withinBudget_cons (m : MatchedGrant) (rest : List MatchedGrant) (evaluated : ℕ) :
    withinBudget (m :: rest) evaluated ↔
      overBudget m.grant evaluated = false ∧
        withinBudget rest (countCondition m.grant evaluated) := by
  unfold withinBudget
  rw [conditions_cons, countCondition_eq]
  unfold overBudget
  cases m.grant.conditionText.isSome with
  | true =>
    simp only [if_true, Bool.true_and, decide_eq_false_iff_not]
    omega
  | false =>
    simp only [Bool.false_eq_true, if_false, Bool.false_and, Nat.add_zero, true_and]

/-- **The denies are passed** exactly when none refuses, within the budget. -/
theorem decideDenies_ok_iff (denies : List MatchedGrant) (evaluated : ℕ) (undecided : Bool)
    (result : ℕ × Bool) :
    decideDenies exceeded outcome denies evaluated undecided = .ok result ↔
      (∀ m ∈ denies, refuses (outcome m.grant) = false) ∧ withinBudget denies evaluated ∧
        result = (evaluated + conditions denies,
          undecided || denies.any (fun m => outcome m.grant = .undecided)) := by
  induction denies generalizing evaluated undecided with
  | nil =>
    have hnone : ∀ m ∈ ([] : List MatchedGrant), refuses (outcome m.grant) = false := by
      intro m hm
      cases hm
    rw [decideDenies, Except.ok.injEq, List.any_nil, Bool.or_false]
    constructor
    · intro h
      exact ⟨hnone, Or.inl rfl, h.symm⟩
    · intro h
      exact h.2.2.symm
  | cons m rest ih =>
    rw [withinBudget_cons, conditions_cons, decideDenies, List.forall_mem_cons, List.any_cons]
    cases hover : overBudget m.grant evaluated with
    | true => simp
    | false =>
      simp only [Bool.false_eq_true, if_false, true_and]
      have hcount : countCondition m.grant evaluated + conditions rest =
          evaluated + (conditions rest + if m.grant.conditionText.isSome then 1 else 0) := by
        rw [countCondition_eq]
        omega
      cases houtcome : outcome m.grant with
      | «match» | missingField | error => simp [refuses]
      | noMatch | pending | undecided => simp [ih, refuses, hcount]

/-- A loop over denies that answers, refuses. -/
theorem decideDenies_error {denies : List MatchedGrant} (hexceeded : exceeded.effect = .deny)
    (hdenies : ∀ m ∈ denies, m.grant.effect = .deny) {evaluated : ℕ} {undecided : Bool}
    (h : decideDenies exceeded outcome denies evaluated undecided = .error decision) :
    decision.effect = .deny ∧ (withinBudget denies evaluated →
      ∃ m ∈ denies, refuses (outcome m.grant) = true ∧ decision = toDecision m none) := by
  induction denies generalizing evaluated undecided with
  | nil => cases h
  | cons m rest ih =>
    obtain ⟨hm, hrest⟩ := List.forall_mem_cons.mp hdenies
    rw [withinBudget_cons]
    rw [decideDenies] at h
    cases hover : overBudget m.grant evaluated with
    | true =>
      rw [hover, if_pos rfl] at h
      obtain rfl := Except.error.inj h
      refine ⟨hexceeded, ?_⟩
      intro hwithin
      exact absurd hwithin.1 (by simp)
    | false =>
      rw [hover] at h
      simp only [Bool.false_eq_true, if_false] at h
      have hlater : ∀ {u}, decideDenies exceeded outcome rest
          (countCondition m.grant evaluated) u = .error decision → decision.effect = .deny ∧
            (false = false ∧ withinBudget rest (countCondition m.grant evaluated) →
              ∃ n ∈ m :: rest, refuses (outcome n.grant) = true ∧
                decision = toDecision n none) := by
        intro u hu
        obtain ⟨heffect, hfound⟩ := ih hrest hu
        refine ⟨heffect, ?_⟩
        intro hwithin
        obtain ⟨n, hn, hrefuses⟩ := hfound hwithin.2
        exact ⟨n, List.mem_cons_of_mem _ hn, hrefuses⟩
      have hnow : refuses (outcome m.grant) = true → toDecision m none = decision →
          decision.effect = .deny ∧
            (false = false ∧ withinBudget rest (countCondition m.grant evaluated) →
              ∃ n ∈ m :: rest, refuses (outcome n.grant) = true ∧
                decision = toDecision n none) := by
        intro hrefuses hdecision
        subst hdecision
        exact ⟨hm, fun _ => ⟨m, List.mem_cons_self, hrefuses, rfl⟩⟩
      cases houtcome : outcome m.grant with
      | «match» | missingField | error =>
        rw [houtcome] at h
        exact hnow (by rw [houtcome]; rfl) (Except.error.inj h)
      | noMatch | pending | undecided =>
        rw [houtcome] at h
        exact hlater h

/-- **A larger count of conditions** answers the same or refuses. -/
theorem decideAllows_mono (pending : Option (List JsString)) (allows : List MatchedGrant)
    {evaluated more : ℕ} (hle : evaluated ≤ more) (pendingAllow : Option AccessDecision) :
    decideAllows exceeded outcome pending allows more pendingAllow = .error exceeded ∨
      decideAllows exceeded outcome pending allows more pendingAllow =
        decideAllows exceeded outcome pending allows evaluated pendingAllow := by
  induction allows generalizing evaluated more pendingAllow with
  | nil => exact Or.inr rfl
  | cons m rest ih =>
    rw [decideAllows, decideAllows]
    cases hmore : overBudget m.grant more with
    | true => exact Or.inl (if_pos rfl)
    | false =>
      have hfewer : overBudget m.grant evaluated = false := by
        unfold overBudget at hmore ⊢
        cases hcondition : m.grant.conditionText.isSome with
        | true =>
          rw [hcondition] at hmore
          simp only [Bool.true_and, decide_eq_false_iff_not] at hmore ⊢
          omega
        | false => rfl
      have hcount : countCondition m.grant evaluated ≤ countCondition m.grant more := by
        rw [countCondition_eq, countCondition_eq]
        omega
      rw [hfewer]
      simp only [Bool.false_eq_true, if_false]
      cases outcome m.grant with
      | «match» => exact Or.inr rfl
      | pending | noMatch | missingField | undecided | error => exact ih hcount _

/-- The first pending allow of a list, if any. -/
def firstPending (outcome : Grant → ConditionOutcome) (pending : Option (List JsString))
    (allows : List MatchedGrant) : Option AccessDecision :=
  (allows.find? (fun m => outcome m.grant = .pending)).map (fun m => toDecision m pending)

/-- **The allows within the budget**: the first that matches, else the first
that is pending. -/
theorem decideAllows_within (pending : Option (List JsString)) (allows : List MatchedGrant)
    {evaluated : ℕ} (hwithin : withinBudget allows evaluated)
    (pendingAllow : Option AccessDecision) :
    decideAllows exceeded outcome pending allows evaluated pendingAllow =
      match allows.find? (fun m => outcome m.grant = .match) with
      | some m => .error (toDecision m none)
      | none => .ok (pendingAllow.or (firstPending outcome pending allows)) := by
  unfold firstPending
  induction allows generalizing evaluated pendingAllow with
  | nil => simp [decideAllows]
  | cons m rest ih =>
    obtain ⟨hnow, hlater⟩ := (withinBudget_cons m rest evaluated).mp hwithin
    rw [decideAllows, hnow]
    simp only [Bool.false_eq_true, if_false, List.find?_cons]
    cases houtcome : outcome m.grant with
    | «match» => simp
    | pending =>
      simp only [reduceCtorEq, decide_false, decide_true, Option.map_some]
      rw [ih hlater]
      cases pendingAllow with
      | none | some p => simp
    | noMatch | missingField | undecided | error => simp [ih hlater]

/-- What the denies and then the allows answer. -/
def answer (exceeded : AccessDecision) (outcome : Grant → ConditionOutcome)
    (pending : Option (List JsString)) (default : Option AccessDecision)
    (denies allows : List MatchedGrant) : Option AccessDecision :=
  match decideDenies exceeded outcome denies 0 false with
  | .error decision => some decision
  | .ok (evaluated, denyUndecided) =>
    match decideAllows exceeded outcome pending allows evaluated none with
    | .error decision => some decision
    | .ok (some pendingAllow) => some pendingAllow
    | .ok none => if denyUndecided then none else default

theorem conditions_sublist {fewer more : List MatchedGrant} (h : fewer.Sublist more) :
    conditions fewer ≤ conditions more := h.countP_le

variable {pending : Option (List JsString)} {default : Option AccessDecision}

/-- **A deny that cannot be passed refuses.** -/
theorem answer_refused {denies allows : List MatchedGrant} (hexceeded : exceeded.effect = .deny)
    (hdenies : ∀ m ∈ denies, m.grant.effect = .deny) {m : MatchedGrant} (hm : m ∈ denies)
    (hrefuses : refuses (outcome m.grant) = true) :
    ∃ decision, answer exceeded outcome pending default denies allows = some decision ∧
      decision.effect = .deny := by
  unfold answer
  cases hloop : decideDenies exceeded outcome denies 0 false with
  | error decision => exact ⟨decision, rfl, (decideDenies_error hexceeded hdenies hloop).1⟩
  | ok result =>
    have hpassed := ((decideDenies_ok_iff _ _ _ _).mp hloop).1 m hm
    rw [hpassed] at hrefuses
    cases hrefuses

/-- **More denies never allow.** -/
theorem answer_more {denies more allows : List MatchedGrant} (hexceeded : exceeded.effect = .deny)
    (hmore : ∀ m ∈ more, m.grant.effect = .deny) (hsub : denies.Sublist more)
    (h : answer exceeded outcome pending default more allows = some decision)
    (hallow : decision.effect = .allow) :
    answer exceeded outcome pending default denies allows = some decision := by
  unfold answer at h ⊢
  cases hloop : decideDenies exceeded outcome more 0 false with
  | error refusal =>
    rw [hloop] at h
    obtain rfl := Option.some.inj h
    rw [(decideDenies_error hexceeded hmore hloop).1] at hallow
    cases hallow
  | ok result =>
    obtain ⟨hnone, hwithin, rfl⟩ := (decideDenies_ok_iff _ _ _ _).mp hloop
    rw [hloop] at h
    -- Fewer denies: none refuses, fewer conditions, and none newly undecided.
    have hcount := conditions_sublist hsub
    have hbudget : withinBudget denies 0 := by
      unfold withinBudget at hwithin ⊢
      omega
    have hfewer : decideDenies exceeded outcome denies 0 false = .ok _ :=
      (decideDenies_ok_iff _ _ _ _).mpr ⟨fun m hm => hnone m (hsub.subset hm), hbudget, rfl⟩
    rw [hfewer]
    simp only [Nat.zero_add, Bool.false_or] at h ⊢
    rcases @decideAllows_mono exceeded outcome pending allows _ _ hcount none with
      hover | hsame
    · rw [hover] at h
      obtain rfl := Option.some.inj h
      rw [hexceeded] at hallow
      cases hallow
    · rw [hsame] at h
      split at h
      · exact h
      · exact h
      · split at h
        · cases h
        · rename_i hundecided
          rw [if_neg]
          · exact h
          · intro hany
            obtain ⟨m, hm, hm'⟩ := List.any_eq_true.mp hany
            exact hundecided (List.any_eq_true.mpr ⟨m, hsub.subset hm, hm'⟩)

/-- **Within the budget**, the answer is the first deny that refuses, else the
first allow that matches, else the first that is pending, else the default
unless a deny is undecided. -/
theorem answer_within {denies allows : List MatchedGrant} (hexceeded : exceeded.effect = .deny)
    (hdenies : ∀ m ∈ denies, m.grant.effect = .deny)
    (hbudget : conditions denies + conditions allows ≤ MAX_AGGREGATE_CONDITIONS) :
    (∃ m ∈ denies, refuses (outcome m.grant) = true ∧
      answer exceeded outcome pending default denies allows = some (toDecision m none)) ∨
    (∀ m ∈ denies, refuses (outcome m.grant) = false) ∧
      answer exceeded outcome pending default denies allows =
        match allows.find? (fun m => outcome m.grant = .match) with
        | some m => some (toDecision m none)
        | none =>
          match firstPending outcome pending allows with
          | some decision => some decision
          | none =>
            if denies.any (fun m => outcome m.grant = .undecided) then none else default := by
  have hfirst : withinBudget denies 0 := Or.inr (by omega)
  unfold answer
  cases hloop : decideDenies exceeded outcome denies 0 false with
  | error refusal =>
    obtain ⟨-, hfound⟩ := decideDenies_error hexceeded hdenies hloop
    obtain ⟨m, hm, hrefuses, rfl⟩ := hfound hfirst
    exact Or.inl ⟨m, hm, hrefuses, rfl⟩
  | ok result =>
    obtain ⟨hnone, -, rfl⟩ := (decideDenies_ok_iff _ _ _ _).mp hloop
    refine Or.inr ⟨hnone, ?_⟩
    simp only [Nat.zero_add, Bool.false_or]
    rw [decideAllows_within pending allows (Or.inr hbudget) none, Option.none_or]
    cases allows.find? (fun m => outcome m.grant = .match) with
    | some m => rfl
    | none =>
      cases firstPending outcome pending allows with
      | some decision | none => rfl

end

section

variable (toLowerCase : JsString → JsString) (self : AccessDecisionService)
  (principal : AccessPrincipal) (action : Action) (resource : Resource)

/-- The matching denies. -/
def AccessDecisionService.denies : List MatchedGrant :=
  (self.matching toLowerCase principal action resource).filter (fun m => m.grant.effect = .deny)

/-- The matching allows. -/
def AccessDecisionService.allows : List MatchedGrant :=
  (self.matching toLowerCase principal action resource).filter (fun m => m.grant.effect ≠ .deny)

variable {toLowerCase self principal action resource}

theorem mem_denies {m : MatchedGrant} :
    m ∈ self.denies toLowerCase principal action resource ↔
      m ∈ self.matching toLowerCase principal action resource ∧ m.grant.effect = .deny := by
  unfold AccessDecisionService.denies
  rw [List.mem_filter, decide_eq_true_eq]

theorem mem_allows {m : MatchedGrant} :
    m ∈ self.allows toLowerCase principal action resource ↔
      m ∈ self.matching toLowerCase principal action resource ∧ m.grant.effect = .allow := by
  unfold AccessDecisionService.allows
  rw [List.mem_filter, decide_eq_true_eq]
  apply and_congr Iff.rfl
  cases m.grant.effect with
  | allow | deny => simp

/-- A decision, by its two loops. -/
theorem decide_eq :
    self.decide toLowerCase principal action resource =
      answer (budgetExceeded principal) (self.outcome principal resource) resource.pending
        (serviceTriggerDefault principal (AccessDecisionService.decidedAction action resource)
          resource)
        (self.denies toLowerCase principal action resource)
        (self.allows toLowerCase principal action resource) := rfl

end

/-- The service over a snapshot of grants and groups. -/
def AccessDecisionService.of (grants : List Grant) (groups : List Group)
    (evaluator : ConditionEvaluator) (implications : Implications) : AccessDecisionService :=
  ⟨PolicySnapshot.create grants groups evaluator, implications⟩

variable {grant : Grant}

section

variable {toLowerCase : JsString → JsString} {self : AccessDecisionService}
  {principal : AccessPrincipal} {action : Action} {resource : Resource}

theorem matchGrant_grant {m : MatchedGrant}
    (h : self.matchGrant toLowerCase action resource grant = some m) : m.grant = grant := by
  unfold AccessDecisionService.matchGrant at h
  split at h
  · split at h
    · cases h
    · split at h
      · obtain rfl := Option.some.inj h
        rfl
      · cases h
  · cases h

theorem filter_filterMap_matchGrant (P : Grant → Bool) (grants : List Grant) :
    (grants.filterMap (self.matchGrant toLowerCase action resource)).filter
        (fun m => P m.grant) =
      (grants.filter P).filterMap (self.matchGrant toLowerCase action resource) := by
  induction grants with
  | nil => rfl
  | cons grant rest ih =>
    cases hm : self.matchGrant toLowerCase action resource grant with
    | none =>
      rw [List.filterMap_cons_none hm, ih]
      by_cases hP : P grant = true
      · rw [List.filter_cons_of_pos hP, List.filterMap_cons_none hm]
      · rw [List.filter_cons_of_neg hP]
    | some m =>
      have hgrant := matchGrant_grant hm
      rw [List.filterMap_cons_some hm]
      by_cases hP : P grant = true
      · rw [List.filter_cons_of_pos (by rw [hgrant]; exact hP), List.filter_cons_of_pos hP,
          List.filterMap_cons_some hm, ih]
      · rw [List.filter_cons_of_neg (by rw [hgrant]; exact hP), List.filter_cons_of_neg hP, ih]

end

section

variable {toLowerCase : JsString → JsString} {groups : List Group}
  {evaluator : ConditionEvaluator} {implications : Implications} {principal : AccessPrincipal}
  {action : Action} {resource : Resource}

theorem candidates_of (grants : List Grant) :
    (AccessDecisionService.of grants groups evaluator implications).candidates principal =
      (resolveSubjects principal ((AccessDecisionService.of grants groups evaluator
        implications).localGroups principal)).flatMap (fun subject =>
          grants.filter (fun grant => subjectToString grant.subject = subject)) :=
  grantsForSubjects_create _ _ _ _

theorem mem_candidates_of {grants : List Grant} :
    grant ∈ (AccessDecisionService.of grants groups evaluator implications).candidates principal ↔
      grant ∈ grants ∧ subjectToString grant.subject ∈ resolveSubjects principal
        ((AccessDecisionService.of grants groups evaluator implications).localGroups principal) := by
  rw [candidates_of, List.mem_flatMap]
  simp only [List.mem_filter, decide_eq_true_eq]
  constructor
  · intro h
    obtain ⟨subject, hsubject, hgrant, heq⟩ := h
    exact ⟨hgrant, heq ▸ hsubject⟩
  · intro h
    exact ⟨_, h.2, h.1, rfl⟩

theorem outcome_of (grants more : List Grant) :
    (AccessDecisionService.of more groups evaluator implications).outcome principal resource =
      (AccessDecisionService.of grants groups evaluator implications).outcome principal resource :=
  rfl

theorem sublist_flatMap {α β : Type} {f g : α → List β} (h : ∀ a, (f a).Sublist (g a))
    (l : List α) : (l.flatMap f).Sublist (l.flatMap g) := by
  induction l with
  | nil => exact List.Sublist.refl _
  | cons a l ih =>
    rw [List.flatMap_cons, List.flatMap_cons]
    exact (h a).append ih

section

variable (before after : List Grant) {added : Grant}

/-- With one more grant, what matched still does, in its order. -/
theorem denies_sublist :
    ((AccessDecisionService.of (before ++ after) groups evaluator implications).denies toLowerCase
        principal action resource).Sublist
      ((AccessDecisionService.of (before ++ added :: after) groups evaluator implications).denies
        toLowerCase principal action resource) := by
  unfold AccessDecisionService.denies AccessDecisionService.matching
  refine List.Sublist.filter _ (List.Sublist.filterMap _ ?_)
  rw [candidates_of, candidates_of]
  refine sublist_flatMap ?_ _
  intro subject
  exact ((List.sublist_cons_self added after).append_left before).filter _

/-- With one more deny, the allows are the same. -/
theorem allows_same (hadded : added.effect = .deny) :
    (AccessDecisionService.of (before ++ added :: after) groups evaluator implications).allows
        toLowerCase principal action resource =
      (AccessDecisionService.of (before ++ after) groups evaluator implications).allows toLowerCase
        principal action resource := by
  unfold AccessDecisionService.allows AccessDecisionService.matching
  rw [filter_filterMap_matchGrant (fun grant => grant.effect ≠ .deny),
    filter_filterMap_matchGrant (fun grant => grant.effect ≠ .deny), candidates_of, candidates_of,
    List.filter_flatMap, List.filter_flatMap]
  have hsame : ∀ subject, ((before ++ added :: after).filter
      (fun grant => subjectToString grant.subject = subject)).filter
        (fun grant => grant.effect ≠ .deny) =
      ((before ++ after).filter (fun grant => subjectToString grant.subject = subject)).filter
        (fun grant => grant.effect ≠ .deny) := by
    intro subject
    simp only [List.filter_filter, List.filter_append]
    congr 1
    exact List.filter_cons_of_neg (by simp [hadded])
  simp only [hsame]
  rfl

/-- **Adding a deny never allows.** -/
theorem decide_added (hadded : added.effect = .deny)
    (h : (AccessDecisionService.of (before ++ added :: after) groups evaluator implications).decide
      toLowerCase principal action resource = some decision) (hallow : decision.effect = .allow) :
    (AccessDecisionService.of (before ++ after) groups evaluator implications).decide toLowerCase
      principal action resource = some decision := by
  rw [decide_eq, outcome_of (before ++ after), allows_same before after hadded] at h
  rw [decide_eq]
  exact answer_more rfl (fun m hm => (mem_denies.mp hm).2) (denies_sublist before after) h hallow

end

end

/-- What a decision comes to. -/
inductive Verdict where
  | deny
  | allow
  | allowPending
  | serviceDefault
  | none

section

variable (principal : AccessPrincipal) (action : Action) (resource : Resource)

/-- The service default where a decision falls through to it. -/
def fallback : Option AccessDecision :=
  serviceTriggerDefault principal (AccessDecisionService.decidedAction action resource) resource

/-- The verdict, from the outcomes of the matching grants alone. -/
def verdictOf (outcomes : Multiset (Effect × ConditionOutcome)) : Verdict :=
  if outcomes.countP (fun o => o.1 = .deny ∧ refuses o.2 = true) ≠ 0 then .deny
  else if (Effect.allow, ConditionOutcome.match) ∈ outcomes then .allow
  else if (Effect.allow, ConditionOutcome.pending) ∈ outcomes then .allowPending
  else if (Effect.deny, ConditionOutcome.undecided) ∈ outcomes then .none
  else if (fallback principal action resource).isSome then .serviceDefault
  else .none

/-- A decision with this verdict: one of a matching grant with that effect, the
service default, or none. -/
inductive Answers (matched : List MatchedGrant) : Verdict → Option AccessDecision → Prop
  | deny {m : MatchedGrant} (hm : m ∈ matched) (heffect : m.grant.effect = .deny) :
      Answers matched .deny (some (toDecision m none))
  | allow {m : MatchedGrant} (hm : m ∈ matched) (heffect : m.grant.effect = .allow) :
      Answers matched .allow (some (toDecision m none))
  | allowPending {m : MatchedGrant} {pending : List JsString} (hm : m ∈ matched)
      (heffect : m.grant.effect = .allow) (hpending : resource.pending = some pending) :
      Answers matched .allowPending (some (toDecision m (some pending)))
  | serviceDefault {decision : AccessDecision} (h : fallback principal action resource = some decision) :
      Answers matched .serviceDefault (some decision)
  | none : Answers matched .none none

end

section

variable {toLowerCase : JsString → JsString} {self : AccessDecisionService}
  {principal : AccessPrincipal} {action : Action} {resource : Resource}

variable (toLowerCase self principal action resource) in
/-- The outcomes of the matching grants. -/
def AccessDecisionService.outcomes : Multiset (Effect × ConditionOutcome) :=
  ((self.matching toLowerCase principal action resource).map
    (fun m => (m.grant.effect, self.outcome principal resource m.grant)) : List _)

theorem pending_of_outcome (h : self.outcome principal resource grant = .pending) :
    ∃ p, resource.pending = some p := by
  unfold AccessDecisionService.outcome evaluateGrant at h
  split at h
  · cases h
  · simp only at h
    split at h
    · cases h
    · unfold PolicySnapshot.evaluateConditionOutcome at h
      split at h
      · cases h
      · cases h
      · split at h
        · rename_i known hknown
          exact ⟨known, hknown⟩
        · cases h
      · cases h

theorem conditions_split :
    conditions (self.denies toLowerCase principal action resource) +
        conditions (self.allows toLowerCase principal action resource) =
      conditions (self.matching toLowerCase principal action resource) := by
  unfold AccessDecisionService.denies AccessDecisionService.allows conditions
  rw [List.countP_filter, List.countP_filter]
  induction self.matching toLowerCase principal action resource with
  | nil => rfl
  | cons m rest ih =>
    rw [List.countP_cons, List.countP_cons, List.countP_cons, ← ih]
    cases heffect : m.grant.effect with
    | allow =>
      simp only [reduceCtorEq, decide_false, Bool.and_false, ne_eq, not_false_eq_true,
        decide_true, Bool.and_true, Bool.false_eq_true, if_false, Nat.add_zero]
      omega
    | deny =>
      simp only [decide_true, Bool.and_true, ne_eq, not_true_eq_false, decide_false,
        Bool.and_false, Bool.false_eq_true, if_false, Nat.add_zero]
      omega

theorem mem_outcomes {o : Effect × ConditionOutcome} :
    o ∈ self.outcomes toLowerCase principal action resource ↔
      ∃ m ∈ self.matching toLowerCase principal action resource,
        m.grant.effect = o.1 ∧ self.outcome principal resource m.grant = o.2 := by
  unfold AccessDecisionService.outcomes
  rw [Multiset.mem_coe, List.mem_map]
  constructor
  · intro h
    obtain ⟨m, hm, rfl⟩ := h
    exact ⟨m, hm, rfl, rfl⟩
  · intro h
    obtain ⟨m, hm, heffect, houtcome⟩ := h
    exact ⟨m, hm, Prod.ext heffect houtcome⟩

/-- **Within the budget the verdict is a function of the outcomes.** -/
theorem decide_answers
    (hbudget : conditions (self.matching toLowerCase principal action resource) ≤
      MAX_AGGREGATE_CONDITIONS) :
    Answers principal action resource (self.matching toLowerCase principal action resource)
      (verdictOf principal action resource (self.outcomes toLowerCase principal action resource))
      (self.decide toLowerCase principal action resource) := by
  rw [← conditions_split] at hbudget
  rw [decide_eq]
  have hall : ∀ m ∈ self.denies toLowerCase principal action resource, m.grant.effect = .deny :=
    fun m hm => (mem_denies.mp hm).2
  rcases @answer_within (budgetExceeded principal) (self.outcome principal resource)
    resource.pending (fallback principal action resource) _
    (self.allows toLowerCase principal action resource) rfl hall hbudget with
    ⟨m, hm, hrefuses, hanswer⟩ | ⟨hnone, hanswer⟩
  · obtain ⟨hmatch, heffect⟩ := mem_denies.mp hm
    have hverdict : verdictOf principal action resource
        (self.outcomes toLowerCase principal action resource) = .deny := by
      refine if_pos (Nat.pos_iff_ne_zero.mp (Multiset.countP_pos.mpr ?_))
      exact ⟨(m.grant.effect, self.outcome principal resource m.grant),
        mem_outcomes.mpr ⟨m, hmatch, rfl, rfl⟩, heffect, hrefuses⟩
    rw [hverdict]
    exact hanswer ▸ Answers.deny hmatch heffect
  · have hpassed : ¬ (self.outcomes toLowerCase principal action resource).countP
        (fun o => o.1 = .deny ∧ refuses o.2 = true) ≠ 0 := by
      intro hex
      obtain ⟨o, ho, hdeny, hrefuses⟩ :=
        Multiset.countP_pos.mp (Nat.pos_iff_ne_zero.mpr hex)
      obtain ⟨m, hm, heffect, houtcome⟩ := mem_outcomes.mp ho
      rw [← houtcome, hnone m (mem_denies.mpr ⟨hm, heffect.trans hdeny⟩)] at hrefuses
      cases hrefuses
    have hallows : ∀ outcome, (Effect.allow, outcome) ∈
        self.outcomes toLowerCase principal action resource ↔
          ∃ m ∈ self.allows toLowerCase principal action resource,
            self.outcome principal resource m.grant = outcome := by
      intro outcome
      rw [mem_outcomes]
      constructor
      · intro h
        obtain ⟨m, hm, heffect, houtcome⟩ := h
        exact ⟨m, mem_allows.mpr ⟨hm, heffect⟩, houtcome⟩
      · intro h
        obtain ⟨m, hm, houtcome⟩ := h
        exact ⟨m, (mem_allows.mp hm).1, (mem_allows.mp hm).2, houtcome⟩
    have hundecided : (Effect.deny, ConditionOutcome.undecided) ∈
        self.outcomes toLowerCase principal action resource ↔
          (self.denies toLowerCase principal action resource).any
            (fun m => self.outcome principal resource m.grant = .undecided) = true := by
      rw [mem_outcomes, List.any_eq_true]
      constructor
      · intro h
        obtain ⟨m, hm, heffect, houtcome⟩ := h
        exact ⟨m, mem_denies.mpr ⟨hm, heffect⟩, decide_eq_true houtcome⟩
      · intro h
        obtain ⟨m, hm, houtcome⟩ := h
        exact ⟨m, (mem_denies.mp hm).1, (mem_denies.mp hm).2, of_decide_eq_true houtcome⟩
    unfold verdictOf
    rw [if_neg hpassed]
    simp only [hallows, hundecided]
    have hdefault : answer (budgetExceeded principal) (self.outcome principal resource)
        resource.pending (serviceTriggerDefault principal
          (AccessDecisionService.decidedAction action resource) resource) _ _ = _ := hanswer
    rw [hdefault]
    cases hmatch : (self.allows toLowerCase principal action resource).find?
        (fun m => self.outcome principal resource m.grant = .match) with
    | some m =>
      have hm := List.mem_of_find?_eq_some hmatch
      have houtcome : self.outcome principal resource m.grant = .match := by
        simpa using List.find?_some hmatch
      rw [if_pos ⟨m, hm, houtcome⟩]
      exact Answers.allow (mem_allows.mp hm).1 (mem_allows.mp hm).2
    | none =>
      have hno : ¬ ∃ m ∈ self.allows toLowerCase principal action resource,
          self.outcome principal resource m.grant = .match := by
        intro hex
        obtain ⟨m, hm, houtcome⟩ := hex
        exact absurd (decide_eq_true houtcome) (List.find?_eq_none.mp hmatch m hm)
      rw [if_neg hno]
      unfold firstPending
      cases hpending : (self.allows toLowerCase principal action resource).find?
          (fun m => self.outcome principal resource m.grant = .pending) with
      | some m =>
        have hm := List.mem_of_find?_eq_some hpending
        have houtcome : self.outcome principal resource m.grant = .pending := by
          simpa using List.find?_some hpending
        obtain ⟨known, hknown⟩ := pending_of_outcome houtcome
        rw [if_pos ⟨m, hm, houtcome⟩, hknown]
        exact Answers.allowPending (mem_allows.mp hm).1 (mem_allows.mp hm).2 hknown
      | none =>
        have hnot : ¬ ∃ m ∈ self.allows toLowerCase principal action resource,
            self.outcome principal resource m.grant = .pending := by
          intro hex
          obtain ⟨m, hm, houtcome⟩ := hex
          exact absurd (decide_eq_true houtcome) (List.find?_eq_none.mp hpending m hm)
        rw [if_neg hnot]
        simp only [Option.map_none]
        split
        · exact Answers.none
        · cases hfallback : fallback principal action resource with
          | some decision => exact Answers.serviceDefault hfallback
          | none => exact Answers.none

end

/-- An evaluator that does not look at the order of the groups. -/
def IgnoresGroupOrder (evaluator : ConditionEvaluator) : Prop :=
  ∀ condition kind fields (context : PrincipalContext) (groups : List JsString),
    context.groups.Perm groups →
      evaluator condition kind fields { context with groups } =
        evaluator condition kind fields context

section

variable {toLowerCase : JsString → JsString} {grants grants' : List Grant}
  {groups groups' : List Group} {evaluator : ConditionEvaluator} {implications : Implications}
  {principal : AccessPrincipal} {action : Action} {resource : Resource}

theorem localGroups_perm (h : groups.Perm groups') :
    ((AccessDecisionService.of grants groups evaluator implications).localGroups principal).Perm
      ((AccessDecisionService.of grants' groups' evaluator implications).localGroups principal) := by
  unfold AccessDecisionService.localGroups PolicySnapshot.groupsForPrincipal
    AccessDecisionService.of PolicySnapshot.create
  simp only [getD_pushAll]
  exact ((h.flatMap_right _).filter _).map _

theorem candidates_perm (hgrants : grants.Perm grants') (hgroups : groups.Perm groups') :
    ((AccessDecisionService.of grants groups evaluator implications).candidates principal).Perm
      ((AccessDecisionService.of grants' groups' evaluator implications).candidates principal) := by
  have hlocal := @localGroups_perm grants grants' groups groups' evaluator implications principal
    hgroups
  rw [candidates_of, candidates_of]
  have hsubjects : (resolveSubjects principal ((AccessDecisionService.of grants groups evaluator
      implications).localGroups principal)).Perm (resolveSubjects principal
        ((AccessDecisionService.of grants' groups' evaluator implications).localGroups
          principal)) := by
    unfold resolveSubjects
    exact (((hlocal.map _).append_left _).append_right _).append_right _
  apply (hsubjects.flatMap_right _).trans
  exact List.Perm.flatMap_left _ (fun subject _ => hgrants.filter _)

theorem outcome_perm (hevaluator : IgnoresGroupOrder evaluator) (hgroups : groups.Perm groups') :
    (AccessDecisionService.of grants' groups' evaluator implications).outcome principal resource =
      (AccessDecisionService.of grants groups evaluator implications).outcome principal resource := by
  funext grant
  have hlocal := @localGroups_perm grants grants' groups groups' evaluator implications principal
    hgroups
  unfold AccessDecisionService.outcome evaluateGrant
  cases grant.conditionText with
  | none => rfl
  | some condition =>
    have heval := hevaluator condition resource.kind (conditionFields resource principal.client)
      (buildPrincipalContext principal ((AccessDecisionService.of grants groups evaluator
        implications).localGroups principal)) _ hlocal
    have hcondition : ∀ (gs : List Grant) (hs : List Group), (AccessDecisionService.of gs hs
        evaluator implications).snapshot.evaluateCondition = evaluator := fun _ _ => rfl
    have hsame : (AccessDecisionService.of grants' groups' evaluator
        implications).snapshot.evaluateConditionOutcome condition resource.kind
          (conditionFields resource principal.client) (buildPrincipalContext principal
            ((AccessDecisionService.of grants' groups' evaluator implications).localGroups
              principal)) resource.pending =
        (AccessDecisionService.of grants groups evaluator
          implications).snapshot.evaluateConditionOutcome condition resource.kind
            (conditionFields resource principal.client) (buildPrincipalContext principal
              ((AccessDecisionService.of grants groups evaluator implications).localGroups
                principal)) resource.pending := by
      unfold PolicySnapshot.evaluateConditionOutcome
      rw [hcondition, hcondition, ← heval]
      rfl
    simp only [hsame]

theorem matching_perm (hgrants : grants.Perm grants') (hgroups : groups.Perm groups') :
    ((AccessDecisionService.of grants groups evaluator implications).matching toLowerCase principal
      action resource).Perm
      ((AccessDecisionService.of grants' groups' evaluator implications).matching toLowerCase
        principal action resource) :=
  (candidates_perm hgrants hgroups).filterMap _

end

/-- **Access decisions fail closed.**  For every snapshot of grants and groups,
every evaluator of conditions, principal, action and resource:

* while a deny of one of the principal's subjects matches the resource, the
  action and the methods, and its condition matches, misses a field or fails, the
  answer is no allow;
* a deny added anywhere in the snapshot turns no other answer into an allow;
* while at most `MAX_AGGREGATE_CONDITIONS` conditional grants match, what is
  answered is a function of their outcomes, and it is the same in every order of
  the grants and of the groups, when the evaluator does not look at that order. -/
theorem decide_fails_closed (toLowerCase : JsString → JsString) (grants : List Grant)
    (groups : List Group) (evaluator : ConditionEvaluator) (implications : Implications)
    (principal : AccessPrincipal) (action : Action) (resource : Resource) :
    (∀ deny ∈ grants, deny.effect = .deny →
      subjectToString deny.subject ∈ resolveSubjects principal
        ((AccessDecisionService.of grants groups evaluator implications).localGroups principal) →
      grantMatchesResource toLowerCase deny resource = true →
      (grantMatchesAction deny (AccessDecisionService.decidedAction action resource)
        implications).isSome → grantMatchesMethods deny resource = true →
      refuses ((AccessDecisionService.of grants groups evaluator implications).outcome principal
        resource deny) = true →
      ∀ decision, (AccessDecisionService.of grants groups evaluator implications).decide toLowerCase
        principal action resource = some decision → decision.effect ≠ .allow) ∧
    (∀ before after added, grants = before ++ after → added.effect = .deny →
      ∀ decision, (AccessDecisionService.of (before ++ added :: after) groups evaluator
        implications).decide toLowerCase principal action resource = some decision →
        decision.effect = .allow →
        (AccessDecisionService.of grants groups evaluator implications).decide toLowerCase principal
          action resource = some decision) ∧
    (conditions ((AccessDecisionService.of grants groups evaluator implications).matching
        toLowerCase principal action resource) ≤ MAX_AGGREGATE_CONDITIONS →
      Answers principal action resource
        ((AccessDecisionService.of grants groups evaluator implications).matching toLowerCase
          principal action resource)
        (verdictOf principal action resource ((AccessDecisionService.of grants groups evaluator
          implications).outcomes toLowerCase principal action resource))
        ((AccessDecisionService.of grants groups evaluator implications).decide toLowerCase principal
          action resource) ∧
      (IgnoresGroupOrder evaluator → ∀ grants' groups', grants.Perm grants' → groups.Perm groups' →
        Answers principal action resource
          ((AccessDecisionService.of grants' groups' evaluator implications).matching toLowerCase
            principal action resource)
          (verdictOf principal action resource ((AccessDecisionService.of grants groups evaluator
            implications).outcomes toLowerCase principal action resource))
          ((AccessDecisionService.of grants' groups' evaluator implications).decide toLowerCase
            principal action resource))) := by
  refine ⟨?_, ?_, ?_⟩
  · intro deny hdeny heffect hsubject hresource haction hmethods hrefuses decision hdecision
    obtain ⟨actionMatch, hactionMatch⟩ := Option.isSome_iff_exists.mp haction
    have hmatch : (AccessDecisionService.of grants groups evaluator implications).matchGrant
        toLowerCase action resource deny = some ⟨deny, actionMatch⟩ := by
      have himplications : (AccessDecisionService.of grants groups evaluator
          implications).implications = implications := rfl
      unfold AccessDecisionService.matchGrant
      rw [if_pos hresource, himplications, hactionMatch]
      simp only
      rw [if_pos hmethods]
    have hm : (⟨deny, actionMatch⟩ : MatchedGrant) ∈ (AccessDecisionService.of grants groups
        evaluator implications).denies toLowerCase principal action resource :=
      mem_denies.mpr ⟨List.mem_filterMap.mpr
        ⟨deny, mem_candidates_of.mpr ⟨hdeny, hsubject⟩, hmatch⟩, heffect⟩
    rw [decide_eq] at hdecision
    obtain ⟨refusal, hanswer, hrefusal⟩ := @answer_refused (budgetExceeded principal) _ _ _ _ _ rfl
      (fun n hn => (mem_denies.mp hn).2) _ hm hrefuses
    rw [hanswer] at hdecision
    obtain rfl := Option.some.inj hdecision
    rw [hrefusal]
    exact Effect.noConfusion
  · intro before after added hgrants hadded decision hdecision hallow
    subst hgrants
    exact decide_added before after hadded hdecision hallow
  · intro hbudget
    refine ⟨decide_answers hbudget, ?_⟩
    intro hevaluator grants' groups' hgrants hgroups
    have hmatching := @matching_perm toLowerCase grants grants' groups groups' evaluator
      implications principal action resource hgrants hgroups
    have houtcomes : (AccessDecisionService.of grants' groups' evaluator implications).outcomes
        toLowerCase principal action resource = (AccessDecisionService.of grants groups evaluator
          implications).outcomes toLowerCase principal action resource := by
      unfold AccessDecisionService.outcomes
      rw [@outcome_perm grants grants' groups groups' evaluator implications principal resource
        hevaluator hgroups, Multiset.coe_eq_coe]
      exact (hmatching.map _).symm
    rw [← houtcomes]
    apply decide_answers
    unfold conditions at hbudget ⊢
    rw [← hmatching.countP_eq]
    exact hbudget

end Swamp.Access
