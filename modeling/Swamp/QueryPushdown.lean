import Swamp.DataQuery

/-!
# What a predicate entails of a row

A row is dropped before the predicate is evaluated only by a clause that a
conjunct of the predicate entails, and a conjunction is true only when each of
its conjuncts is: `and` with a false or a failing side is never true.
-/

namespace Swamp

namespace Query

open Js

/-- `c` is reached from the top of a predicate through conjunctions only. -/
inductive Conjunct (c : Ast) : Ast → Prop where
  | self : Conjunct c c
  | left {l r : Ast} (h : Conjunct c l) : Conjunct c (.and l r)
  | right {l r : Ast} (h : Conjunct c r) : Conjunct c (.and l r)

variable {c ast : Ast}

theorem conjunct_of_mem (h : c ∈ topLevelConjuncts ast) : Conjunct c ast := by
  induction ast using topLevelConjuncts.induct with
  | case1 l r ihl ihr =>
    rw [topLevelConjuncts] at h
    rcases List.mem_append.mp h with h | h
    · exact .left (ihl h)
    · exact .right (ihr h)
  | case2 ast hand =>
    rw [topLevelConjuncts] at h
    · rw [List.mem_singleton.mp h]
      exact .self
    · exact hand

/-- The conjuncts are not conjunctions. -/
theorem topLevelConjuncts_of_mem (h : c ∈ topLevelConjuncts ast) : topLevelConjuncts c = [c] := by
  induction ast using topLevelConjuncts.induct with
  | case1 l r ihl ihr =>
    rw [topLevelConjuncts] at h
    rcases List.mem_append.mp h with h | h
    · exact ihl h
    · exact ihr h
  | case2 ast hand =>
    rw [topLevelConjuncts] at h
    · rw [List.mem_singleton.mp h]
      rw [topLevelConjuncts]
      exact hand
    · exact hand

/-- What is found among the conjuncts is found at one of them alone. -/
theorem findSome?_conjunct {α : Type} {f : Ast → Option α} {a : α}
    (h : (topLevelConjuncts ast).findSome? f = some a) :
    ∃ c, Conjunct c ast ∧ f c = some a ∧ (topLevelConjuncts c).findSome? f = some a := by
  obtain ⟨c, hc, hf⟩ := List.exists_of_findSome?_eq_some h
  refine ⟨c, conjunct_of_mem hc, hf, ?_⟩
  rw [topLevelConjuncts_of_mem hc]
  simp [hf]

variable {workflow : JsString}

theorem latestRun_conjunct (h : extractWorkflowRunIdLatestRun ast = some workflow) :
    ∃ l r, Conjunct (.eq l r) ast ∧
      (latestRunEquality l r).or (latestRunEquality r l) = some workflow := by
  induction ast using extractWorkflowRunIdLatestRun.induct with
  | case1 l r => exact ⟨l, r, .self, h⟩
  | case2 l r ihl ihr =>
    rw [extractWorkflowRunIdLatestRun] at h
    rcases Option.or_eq_some_iff.mp h with h | ⟨_, h⟩
    · obtain ⟨a, b, hc, hw⟩ := ihl h
      exact ⟨a, b, .left hc, hw⟩
    · obtain ⟨a, b, hc, hw⟩ := ihr h
      exact ⟨a, b, .right hc, hw⟩
  | case3 ast heq hand =>
    rw [extractWorkflowRunIdLatestRun] at h
    · exact nomatch h
    · exact heq
    · exact hand

variable {node : Ast} {s : JsString}

theorem nonEmptyText_some (h : nonEmptyText node = some s) : node = .value (.str s) ∧ s ≠ [] := by
  unfold nonEmptyText at h
  split at h
  · split at h
    · exact nomatch h
    · rename_i hne
      obtain rfl := Option.some.inj h
      exact ⟨rfl, hne⟩
  · exact nomatch h

theorem typeTagEqualityOf_cases (hs : typeTagEqualityOf c = some s) :
    ∃ l r, c = .eq l r ∧
      ((isTypeTagReference l = true ∧ nonEmptyText r = some s) ∨
        (isTypeTagReference r = true ∧ nonEmptyText l = some s)) := by
  unfold typeTagEqualityOf at hs
  split at hs
  · rename_i l r
    refine ⟨l, r, rfl, ?_⟩
    cases hr : nonEmptyText r with
    | some t =>
      rw [hr] at hs
      dsimp only at hs
      split at hs
      · rename_i hl
        exact Or.inl ⟨hl, hs⟩
      · split at hs
        · rename_i hright
          exact Or.inr ⟨hright, hs⟩
        · exact nomatch hs
    | none =>
      rw [hr] at hs
      dsimp only at hs
      split at hs
      · rename_i hright
        exact Or.inr ⟨hright, hs⟩
      · exact nomatch hs
  · exact nomatch hs

/-- An evaluation gave `true`. -/
def Run.IsTrue (run : Run) : Prop := run.result = .ok (.bool true)

/-- The part of the expression language's semantics that the pushdown relies on. -/
structure Cel.Sound (cel : Cel) : Prop where
  value (env : Env) (v : Json) : (cel (.value v) env).result = .ok v
  id (env : Env) (name : JsString) (v : Json) :
    (cel (.id name) env).result = .ok v ↔ env.field name = .value v
  member (env : Env) (object : Ast) (key : JsString) (v : Json) :
    (cel (.member object key) env).result = .ok v →
      ∃ fields, (cel object env).result = .ok (.obj fields) ∧ Json.field fields key = some v
  index (env : Env) (object key : Ast) (name : JsString) (v : Json) :
    (cel (.index object key) env).result = .ok v → (cel key env).result = .ok (.str name) →
      ∃ fields, (cel object env).result = .ok (.obj fields) ∧ Json.field fields name = some v
  /-- A conjunction is true when both sides are; a failing side makes none true. -/
  and (env : Env) (l r : Ast) : (cel (.and l r) env).IsTrue ↔
    (cel l env).IsTrue ∧ (cel r env).IsTrue
  /-- An equality needs both values; a text equals itself only. -/
  eq (env : Env) (l r : Ast) : (cel (.eq l r) env).IsTrue →
    ∃ u v, (cel l env).result = .ok u ∧ (cel r env).result = .ok v ∧
      ∀ s, u = .str s ↔ v = .str s
  eqBool (env : Env) (l r : Ast) (b c : Bool) : (cel l env).result = .ok (.bool b) →
    (cel r env).result = .ok (.bool c) → ((cel (.eq l r) env).IsTrue ↔ b = c)
  /-- `model` and `behavior`, given a reference, ask the row. -/
  modelCall (env : Env) (name reference : JsString) : name ∈ MODEL_FUNCTIONS →
    (cel (.call name [.value (.str reference)]) env).IsTrue → env.model reference = true
  latestRunCall (env : Env) (workflow : JsString) (v : Json) :
    (cel (.call LATEST_RUN_FUNCTION [.value (.str workflow)]) env).result = .ok v →
      v = env.latestRun workflow
  /-- After a true left side, a conjunction reads what its sides read. -/
  readsAnd (env : Env) (l r : Ast) (name : JsString) : (cel l env).IsTrue →
    (name ∈ (cel (.and l r) env).reads ↔
      name ∈ (cel l env).reads ∨ name ∈ (cel r env).reads)
  readsEq (env : Env) (l r : Ast) (name : JsString) : name ∈ (cel (.eq l r) env).reads →
    name ∈ (cel l env).reads ∨ name ∈ (cel r env).reads
  readsId (env : Env) (name field : JsString) : field ∈ (cel (.id name) env).reads → field = name
  readsValue (env : Env) (v : Json) : (cel (.value v) env).reads = []

variable {v : Json}

section Conjuncts

variable {cel : Cel} (hcel : cel.Sound) {env : Env}

include hcel

theorem conjunct_true (hc : Conjunct c ast) (h : (cel ast env).IsTrue) : (cel c env).IsTrue := by
  induction hc with
  | self => exact h
  | left _ ih => exact ih ((hcel.and env _ _).mp h).1
  | right _ ih => exact ih ((hcel.and env _ _).mp h).2

theorem eq_text {l r : Ast} (h : (cel (.eq l r) env).IsTrue) :
    (cel l env).result = .ok (.str s) ↔ (cel r env).result = .ok (.str s) := by
  obtain ⟨u, v, hu, hv, hs⟩ := hcel.eq env l r h
  rw [hu, hv]
  constructor
  · intro heq
    rw [(hs s).mp (Except.ok.inj heq)]
  · intro heq
    rw [(hs s).mpr (Except.ok.inj heq)]

/-- A field equated with a text reads as that text. -/
theorem stringEqualityOf_true {fields : List JsString} (hs : stringEqualityOf fields c = some s)
    (h : (cel c env).IsTrue) : ∃ field ∈ fields, env.field field = .value (.str s) := by
  unfold stringEqualityOf at hs
  split at hs
  · rename_i field t hoperands
    split at hs
    · rename_i hmem
      obtain rfl := Option.some.inj hs
      refine ⟨field, hmem, ?_⟩
      unfold equalityOperands at hoperands
      split at hoperands
      · obtain ⟨rfl, rfl⟩ := Prod.mk.inj (Option.some.inj hoperands)
        exact (hcel.id env _ _).mp ((eq_text hcel h).mpr (hcel.value env _))
      · obtain ⟨rfl, rfl⟩ := Prod.mk.inj (Option.some.inj hoperands)
        exact (hcel.id env _ _).mp ((eq_text hcel h).mp (hcel.value env _))
      · exact nomatch hoperands
    · exact nomatch hs
  · exact nomatch hs

theorem extractAny_true {fields : List JsString} (hs : extractAnyStringEquality ast fields = some s)
    (h : (cel ast env).IsTrue) : ∃ field ∈ fields, env.field field = .value (.str s) := by
  obtain ⟨c, hc, hf, _⟩ := findSome?_conjunct hs
  exact stringEqualityOf_true hcel hf (conjunct_true hcel hc h)

theorem extractString_true {field : JsString} (hs : extractStringEquality ast field = some s)
    (h : (cel ast env).IsTrue) : env.field field = .value (.str s) := by
  obtain ⟨found, hmem, hread⟩ := extractAny_true hcel hs h
  rwa [List.mem_singleton.mp hmem] at hread

theorem isTypeTagReference_true (hnode : isTypeTagReference node = true)
    (h : (cel node env).result = .ok (.str s)) :
    env.field (js "dataType") = .value (.str s) ∨
      ∃ fields, env.field (js "tags") = .value (.obj fields) ∧
        Json.field fields (js "type") = some (.str s) := by
  unfold isTypeTagReference at hnode
  split at hnode
  · rename_i name
    obtain rfl := of_decide_eq_true hnode
    exact Or.inl ((hcel.id env _ _).mp h)
  · rename_i object key
    obtain ⟨hobject, hkey⟩ := of_decide_eq_true hnode
    obtain ⟨fields, hmap, hfield⟩ := hcel.member env _ _ _ h
    exact Or.inr ⟨fields, hobject ▸ (hcel.id env _ _).mp hmap, hkey ▸ hfield⟩
  · rename_i object key
    obtain ⟨hobject, hkey⟩ := of_decide_eq_true hnode
    obtain ⟨fields, hmap, hfield⟩ := hcel.index env _ _ _ _ h (hcel.value env _)
    exact Or.inr ⟨fields, hobject ▸ (hcel.id env _ _).mp hmap, hkey ▸ hfield⟩
  · exact nomatch hnode

theorem extractTypeTag_true (hs : extractTypeTagEquality ast = some s) (h : (cel ast env).IsTrue) :
    s ≠ [] ∧ (env.field (js "dataType") = .value (.str s) ∨
      ∃ fields, env.field (js "tags") = .value (.obj fields) ∧
        Json.field fields (js "type") = some (.str s)) := by
  obtain ⟨c, hc, hf, _⟩ := findSome?_conjunct hs
  have htrue := conjunct_true hcel hc h
  obtain ⟨l, r, rfl, hside⟩ := typeTagEqualityOf_cases hf
  rcases hside with ⟨href, htext⟩ | ⟨href, htext⟩
  · obtain ⟨rfl, hne⟩ := nonEmptyText_some htext
    exact ⟨hne, isTypeTagReference_true hcel href
      ((eq_text hcel htrue).mpr (hcel.value env _))⟩
  · obtain ⟨rfl, hne⟩ := nonEmptyText_some htext
    exact ⟨hne, isTypeTagReference_true hcel href
      ((eq_text hcel htrue).mp (hcel.value env _))⟩

theorem extractModelCall_true {reference : JsString} (hs : extractModelCall ast = some reference)
    (h : (cel ast env).IsTrue) : env.model reference = true := by
  obtain ⟨c, hc, hf, _⟩ := findSome?_conjunct hs
  have htrue := conjunct_true hcel hc h
  unfold modelCallOf at hf
  split at hf
  · split at hf
    · rename_i hname
      obtain rfl := Option.some.inj hf
      exact hcel.modelCall env _ _ hname htrue
    · exact nomatch hf
  · exact nomatch hf

theorem latestRunEquality_true {field call : Ast}
    (hs : latestRunEquality field call = some workflow) (hcall : (cel call env).result = .ok v) :
    field = .id (js "workflowRunId") ∧ v = env.latestRun workflow := by
  unfold latestRunEquality at hs
  split at hs
  · split at hs
    · rename_i hname
      obtain ⟨rfl, rfl⟩ := hname
      obtain rfl := Option.some.inj hs
      exact ⟨rfl, hcel.latestRunCall env _ _ hcall⟩
    · exact nomatch hs
  · exact nomatch hs

theorem extractLatestRun_true {runId : JsString}
    (hs : extractWorkflowRunIdLatestRun ast = some workflow) (h : (cel ast env).IsTrue)
    (hfield : env.field (js "workflowRunId") = .value (.str runId)) :
    env.latestRun workflow = .str runId := by
  obtain ⟨l, r, hc, hor⟩ := latestRun_conjunct hs
  have htrue := conjunct_true hcel hc h
  obtain ⟨u, v, hu, hv, hsame⟩ := hcel.eq env l r htrue
  have hrun := (hcel.id env (js "workflowRunId") (.str runId)).mpr hfield
  rcases Option.or_eq_some_iff.mp hor with hor | ⟨_, hor⟩
  · obtain ⟨rfl, hlatest⟩ := latestRunEquality_true hcel hor hv
    rw [hu] at hrun
    rw [← hlatest]
    exact (hsame runId).mp (Except.ok.inj hrun)
  · obtain ⟨rfl, hlatest⟩ := latestRunEquality_true hcel hor hu
    rw [hv] at hrun
    rw [← hlatest]
    exact (hsame runId).mpr (Except.ok.inj hrun)

end Conjuncts

/-- The type tag of a row, empty when it has none. -/
def typeTag (host : Host) (row : CatalogRow) : JsString :=
  match parseTags host row with
  | .obj fields =>
    match Json.field fields (js "type") with
    | some (.str tag) => tag
    | _ => []
  | _ => []

/-- A row as the writers of the catalog leave it. -/
structure CatalogRow.Written (host : Host) (row : CatalogRow) : Prop where
  typeTag : row.dataType = typeTag host row
  lifecycle : row.lifecycle = js "active" ∨ row.lifecycle = js "deleted" ∨ row.lifecycle = []

/-- No name is forwarded to another. -/
def Resolved.NoForwards (resolved : Resolved) : Prop :=
  ∀ name model key, resolved.renameForwards name model key = none

theorem CatalogRow.Written.lifecycle_eq {host : Host} {row : CatalogRow} (h : row.Written host) :
    lifecycleFromColumn row.lifecycle = row.lifecycle := by
  rcases h.lifecycle with heq | heq | heq <;> rw [heq] <;> decide

section Rows

variable {cel : Cel} {host : Host} {resolved : Resolved} {options : QueryOptions}
  {predicate : Ast} {row : CatalogRow}

theorem renameTarget_none (hforward : resolved.NoForwards) :
    renameTarget resolved predicate row = none := by
  unfold renameTarget
  cases nameLiteral predicate with
  | none => rfl
  | some name => exact hforward name _ _

variable (host options predicate row) in
/-- Apart from the body, a row reads as its record. -/
theorem readField_record (hforward : resolved.NoForwards) (name : JsString)
    (hattributes : name ≠ js "attributes") (hcontent : name ≠ js "content")
    (hfield : Json.field (bareRecord host row).fields name = some v) :
    (rowEnv host resolved options predicate row).field name = .value v := by
  have hname : ¬(name = js "name" ∧ renameTarget resolved predicate row = some row.dataName) := by
    rw [renameTarget_none hforward]
    exact fun h => nomatch h.2
  show readField host resolved options predicate row name = .value v
  rw [readField, if_neg hattributes, if_neg hcontent, if_neg hname, hfield]

theorem text_of_read (hforward : resolved.NoForwards) {name column : JsString}
    (hattributes : name ≠ js "attributes") (hcontent : name ≠ js "content")
    (hfield : Json.field (bareRecord host row).fields name = some (.str column))
    (hread : (rowEnv host resolved options predicate row).field name = .value (.str s)) :
    column = s := by
  rw [readField_record host options predicate row hforward name hattributes hcontent hfield] at hread
  exact Json.str.inj (FieldRead.value.inj hread)

theorem typeTag_eq {fields : List (JsString × Json)} (htags : parseTags host row = .obj fields)
    (hfield : Json.field fields (js "type") = some (.str s)) : typeTag host row = s := by
  simp only [typeTag, htags, hfield]

section Entailed

variable (hcel : cel.Sound) (hforward : resolved.NoForwards)
  (htrue : (cel predicate (rowEnv host resolved options predicate row)).IsTrue)

include hcel htrue

theorem modelTarget_holds {target : ResolvedModel}
    (htarget : modelTarget resolved predicate = some target) :
    row.typeNormalized = target.modelType ∧ row.modelId = target.modelId := by
  obtain ⟨reference, hreference, hmodel⟩ := Option.bind_eq_some_iff.mp htarget
  have hmatches : matchesModel resolved row reference = true :=
    extractModelCall_true hcel hreference htrue
  simp only [matchesModel, hmodel, decide_eq_true_eq] at hmatches
  exact hmatches

include hforward

theorem dataType_holds (hrow : row.Written host) (hs : extractTypeTagEquality predicate = some s) :
    row.dataType = s := by
  obtain ⟨_, hread⟩ := extractTypeTag_true hcel hs htrue
  rcases hread with hread | ⟨fields, hread, hfield⟩
  · exact text_of_read hforward (by decide) (by decide) rfl hread
  · have htags := readField_record host options predicate row hforward (js "tags")
      (by decide) (by decide) rfl
    have heq : parseTags host row = .obj fields := FieldRead.value.inj (htags.symm.trans hread)
    rw [hrow.typeTag]
    exact typeTag_eq heq hfield

theorem extracted_holds (hrow : row.Written host) :
    ∀ clause ∈ extractedClauses resolved predicate, clause.Holds row := by
  intro clause hclause
  unfold extractedClauses at hclause
  simp only [List.mem_append, Option.mem_toList, Option.map_eq_some_iff,
    or_assoc] at hclause
  rcases hclause with ⟨s, hs, rfl⟩ | ⟨s, hs, rfl⟩ | ⟨s, hs, rfl⟩ | ⟨s, hs, rfl⟩ | ⟨s, hs, rfl⟩ |
    ⟨s, hs, rfl⟩ | hclause
  · obtain ⟨field, hmem, hread⟩ := extractAny_true hcel hs htrue
    unfold MODEL_NAME_FIELDS at hmem
    simp only [List.mem_cons, List.not_mem_nil, or_false] at hmem
    rcases hmem with rfl | rfl
    · exact text_of_read hforward (by decide) (by decide) rfl hread
    · exact text_of_read hforward (by decide) (by decide) rfl hread
  · exact text_of_read hforward (by decide) (by decide) rfl (extractString_true hcel hs htrue)
  · exact text_of_read hforward (by decide) (by decide) rfl (extractString_true hcel hs htrue)
  · exact text_of_read hforward (by decide) (by decide) rfl (extractString_true hcel hs htrue)
  · have hcolumn : lifecycleFromColumn row.lifecycle = s :=
      text_of_read hforward (by decide) (by decide) rfl (extractString_true hcel hs htrue)
    rwa [hrow.lifecycle_eq] at hcolumn
  · exact dataType_holds hcel hforward htrue hrow hs
  · split at hclause
    · rename_i target htarget
      have hmodel := modelTarget_holds hcel htrue htarget
      simp only [List.mem_cons, List.not_mem_nil, or_false] at hclause
      rcases hclause with rfl | rfl
      · exact hmodel.1
      · exact hmodel.2
    · exact absurd hclause List.not_mem_nil

theorem latestRun_holds {run : Option JsString} (hrun : latestRunOf resolved predicate = some run) :
    run = some row.workflowRunId := by
  obtain ⟨workflow, hworkflow, rfl⟩ := Option.map_eq_some_iff.mp hrun
  have hfield := readField_record host options predicate row hforward (js "workflowRunId")
    (by decide) (by decide) rfl
  have hlatest := extractLatestRun_true hcel hworkflow htrue hfield
  simp only [rowEnv] at hlatest
  cases hrunId : (resolved.latestRuns workflow).getD none with
  | none => rw [hrunId] at hlatest; exact nomatch hlatest
  | some runId =>
    rw [hrunId] at hlatest
    exact congrArg some (Json.str.inj hlatest)

end Entailed

end Rows

section Filter

variable (cel : Cel) (host : Host) (resolved : Resolved) (options : QueryOptions)
  (predicate : Ast)

/-- An expression is true of a row, and reads no content of an item that is not text. -/
def evaluatesTrue (node : Ast) (row : CatalogRow) : Bool :=
  let env := rowEnv host resolved options predicate row
  match (cel node env).result with
  | .ok v => isTrue v && !(cel node env).readBinaryContent env
  | .error _ => false

/-- The rows a query is about, whatever its predicate says of them. -/
def inScope (row : CatalogRow) : Bool :=
  (opensHistory predicate || if options.latestPerStep then decide (row.isStepLatest = 1)
    else decide (row.isLatest = 1)) &&
  decide (row.typeNormalized ∉ options.excludeModelTypes)

/-- The rows a query asks for. -/
def answers (row : CatalogRow) : Bool :=
  inScope options predicate row && evaluatesTrue cel host resolved options predicate predicate row

/-- As many of some rows as the limit leaves, when `count` were matched before. -/
def capped (count : ℕ) (rows : List CatalogRow) : List CatalogRow :=
  match options.limit with
  | some limit => rows.take (max (limit - count) 1)
  | none => rows

variable {cel host resolved options predicate} {row : CatalogRow}

theorem isTrue_iff : isTrue v = true ↔ v = .bool true := by
  cases v with
  | bool b => cases b <;> simp [isTrue]
  | _ => simp [isTrue]

theorem evaluatesTrue_iff :
    evaluatesTrue cel host resolved options predicate node row = true ↔
      (cel node (rowEnv host resolved options predicate row)).IsTrue ∧
      (cel node (rowEnv host resolved options predicate row)).readBinaryContent
        (rowEnv host resolved options predicate row) = false := by
  unfold evaluatesTrue Run.IsTrue
  dsimp only
  split
  · rename_i v hresult
    rw [hresult, Bool.and_eq_true, isTrue_iff, Bool.not_eq_true']
    constructor
    · intro h
      exact ⟨congrArg _ h.1, h.2⟩
    · intro h
      exact ⟨Except.ok.inj h.1, h.2⟩
  · rename_i hresult
    rw [hresult]
    constructor
    · intro h
      exact nomatch h
    · intro h
      exact nomatch h.1

theorem implicit_holds_iff :
    (∀ clause ∈ implicitClauses options predicate, clause.Holds row) ↔
      inScope options predicate row = true := by
  have htypes : (∀ clause ∈ (if options.excludeModelTypes = [] then []
      else [Clause.typeNotIn options.excludeModelTypes]), clause.Holds row) ↔
      row.typeNormalized ∉ options.excludeModelTypes := by
    by_cases hnone : options.excludeModelTypes = []
    · simp [hnone]
    · rw [if_neg hnone, List.forall_mem_singleton]
      rfl
  have hflags : (∀ clause ∈ (if opensHistory predicate then []
      else [if options.latestPerStep then Clause.isStepLatest else .isLatest]),
        clause.Holds row) ↔
      (opensHistory predicate || if options.latestPerStep then decide (row.isStepLatest = 1)
        else decide (row.isLatest = 1)) = true := by
    by_cases hopens : opensHistory predicate = true
    · simp [hopens]
    · rw [if_neg hopens, List.forall_mem_singleton, Bool.eq_false_iff.mpr hopens, Bool.false_or]
      by_cases hstep : options.latestPerStep = true
      · rw [if_pos hstep, if_pos hstep, decide_eq_true_eq]
        rfl
      · rw [if_neg hstep, if_neg hstep, decide_eq_true_eq]
        rfl
  unfold implicitClauses inScope
  rw [List.forall_mem_append, hflags, htypes, Bool.and_eq_true, decide_eq_true_eq]

section Sound

variable (hcel : cel.Sound) (hforward : resolved.NoForwards)

include hcel hforward

theorem isLatestTrue_iff :
    (cel isLatestTrue (rowEnv host resolved options predicate row)).IsTrue ↔
      row.isLatest = 1 := by
  have hread := readField_record host options predicate row hforward (js "isLatest")
    (by decide) (by decide) rfl
  have hfield := (hcel.id (rowEnv host resolved options predicate row) _ _).mpr hread
  rw [isLatestTrue, hcel.eqBool _ _ _ _ _ hfield (hcel.value _ _)]
  exact decide_eq_true_iff

/-- Reading the flag is no violation. -/
theorem readBinary_and (htrue : (cel predicate
      (rowEnv host resolved options predicate row)).IsTrue) :
    (cel (.and predicate isLatestTrue)
        (rowEnv host resolved options predicate row)).readBinaryContent
          (rowEnv host resolved options predicate row) =
      (cel predicate (rowEnv host resolved options predicate row)).readBinaryContent
        (rowEnv host resolved options predicate row) := by
  have hread := readField_record host options predicate row hforward (js "isLatest")
    (by decide) (by decide) rfl
  rw [Bool.eq_iff_iff]
  unfold Run.readBinaryContent
  rw [List.any_eq_true, List.any_eq_true]
  constructor
  · intro h
    obtain ⟨name, hname, hrefused⟩ := h
    rcases (hcel.readsAnd _ _ _ _ htrue).mp hname with hname | hname
    · exact ⟨name, hname, hrefused⟩
    · rcases hcel.readsEq _ _ _ _ hname with hname | hname
      · rw [hcel.readsId _ _ _ hname, hread] at hrefused
        exact nomatch hrefused
      · rw [hcel.readsValue] at hname
        exact absurd hname List.not_mem_nil
  · intro h
    obtain ⟨name, hname, hrefused⟩ := h
    exact ⟨name, (hcel.readsAnd _ _ _ _ htrue).mpr (Or.inl hname), hrefused⟩

theorem evaluatesTrue_filter (hscope : inScope options predicate row = true) :
    evaluatesTrue cel host resolved options predicate (filterAst options predicate) row =
      evaluatesTrue cel host resolved options predicate predicate row := by
  unfold filterAst
  by_cases hplain : opensHistory predicate ∨ options.latestPerStep
  · rw [if_pos hplain]
  · rw [if_neg hplain]
    have hlatest : row.isLatest = 1 := by
      unfold inScope at hscope
      simp only [not_or, Bool.not_eq_true] at hplain
      rw [hplain.1, hplain.2] at hscope
      simp at hscope
      exact hscope.1
    rw [Bool.eq_iff_iff, evaluatesTrue_iff, evaluatesTrue_iff, hcel.and,
      isLatestTrue_iff hcel hforward]
    constructor
    · intro h
      rw [readBinary_and hcel hforward h.1.1] at h
      exact ⟨h.1.1, h.2⟩
    · intro h
      rw [readBinary_and hcel hforward h.1]
      exact ⟨⟨h.1, hlatest⟩, h.2⟩

theorem pushed_answers {clauses : List Clause}
    (hclauses : whereClauses resolved options predicate = some clauses)
    (hrow : row.Written host) :
    (clauses.all (fun clause => clause.Holds row) &&
        evaluatesTrue cel host resolved options predicate (filterAst options predicate) row) =
      answers cel host resolved options predicate row := by
  have himplicit : ∀ clause ∈ implicitClauses options predicate, clause ∈ clauses := by
    intro clause hclause
    unfold whereClauses at hclauses
    split at hclauses
    · exact nomatch hclauses
    · obtain rfl := Option.some.inj hclauses
      exact List.mem_append_left _ (List.mem_append_left _ hclause)
    · obtain rfl := Option.some.inj hclauses
      exact List.mem_append_left _ hclause
  have hpushed : inScope options predicate row = true →
      (cel predicate (rowEnv host resolved options predicate row)).IsTrue →
      ∀ clause ∈ clauses, clause.Holds row := by
    intro hscope htrue
    have hboth : ∀ clause ∈ implicitClauses options predicate ++
        extractedClauses resolved predicate, clause.Holds row :=
      List.forall_mem_append.mpr ⟨implicit_holds_iff.mpr hscope,
        extracted_holds hcel hforward htrue hrow⟩
    unfold whereClauses at hclauses
    split at hclauses
    · exact nomatch hclauses
    · rename_i runId hrun
      obtain rfl := Option.some.inj hclauses
      have heq := latestRun_holds hcel hforward htrue hrun
      refine List.forall_mem_append.mpr ⟨hboth, List.forall_mem_singleton.mpr ?_⟩
      exact (Option.some.inj heq).symm
    · obtain rfl := Option.some.inj hclauses
      exact hboth
  unfold answers
  rw [Bool.eq_iff_iff, Bool.and_eq_true, Bool.and_eq_true, List.all_eq_true]
  simp only [decide_eq_true_eq]
  constructor
  · intro h
    have hscope := implicit_holds_iff.mp (fun clause hclause =>
      h.1 clause (himplicit clause hclause))
    exact ⟨hscope, (evaluatesTrue_filter hcel hforward hscope) ▸ h.2⟩
  · intro h
    refine ⟨hpushed h.1 (evaluatesTrue_iff.mp h.2).1, ?_⟩
    rw [evaluatesTrue_filter hcel hforward h.1]
    exact h.2

end Sound

end Filter

end Query

end Swamp
