import Swamp.AccessDecisions

/-!
# Evaluating grant conditions

A condition is parsed and evaluated by the CEL engine, a parameter.  Around it the
repository decides which fields a condition sees: a field that describes the
resource and is missing is an error, one that describes the request reads as a
default when the request has none.  Which fields a condition references is read
off its syntax tree, without the names its macros bind.
-/

namespace Swamp.Access

open Js

inductive ConditionFieldType where
  | string
  | map

inductive ConditionFieldRole where
  | resource
  | request
deriving DecidableEq

/-- `ConditionField`, with what an evaluation reads of it. -/
structure ConditionField where
  name : JsString
  type : ConditionFieldType
  role : ConditionFieldRole
  absent : Option Json

/-- A field that describes the resource. -/
def resourceField (name : JsString) (type : ConditionFieldType) : ConditionField :=
  ⟨name, type, .resource, none⟩

/-- A text that describes the request. -/
def requestField (name : JsString) : ConditionField := ⟨name, .string, .request, none⟩

def ABSENT_CLIENT_CONDITION_VALUE : JsString := js "direct:"

def CLIENT_FIELD : ConditionField :=
  { requestField (js "client") with absent := some (.str ABSENT_CLIENT_CONDITION_VALUE) }

def RUN_FIELD : ConditionField := resourceField (js "run") .map

def TAGS_FIELD : ConditionField := resourceField (js "tags") .map

def CONDITION_FIELDS : ResourceKind → List ConditionField
  | .workflow =>
    [resourceField (js "name") .string, TAGS_FIELD, resourceField (js "collective") .string,
      CLIENT_FIELD, RUN_FIELD]
  | .model =>
    [resourceField (js "name") .string, resourceField (js "modelType") .string, TAGS_FIELD,
      resourceField (js "collective") .string, requestField (js "methodName"), CLIENT_FIELD]
  | .data =>
    [resourceField (js "name") .string, resourceField (js "ns") .string, TAGS_FIELD,
      resourceField (js "owner") .map, CLIENT_FIELD]
  | .access => [resourceField (js "name") .string, CLIENT_FIELD]
  | .vault => [resourceField (js "name") .string, requestField (js "key"), CLIENT_FIELD]

def conditionFieldZeroValue : ConditionFieldType → Json
  | .map => .obj []
  | .string => .str []

def conditionFieldAbsentValue (field : ConditionField) : Json :=
  field.absent.getD (conditionFieldZeroValue field.type)

/-- A parsed condition: nodes, arrays, texts, and values of other types. -/
inductive Ast where
  | node (op : JsString) (args : Ast)
  | list (items : List Ast)
  | text (s : JsString)
  | other

def BINDING_MACROS : List JsString :=
  [js "all", js "exists", js "exists_one", js "map", js "filter"]

/-- The name a macro binds: its first argument, when that is an identifier. -/
def binderOf (method : Ast) (callArgs : List Ast) : Option JsString :=
  match method, callArgs with
  | .text name, .node op (.text binder) :: _ =>
    if name ∈ BINDING_MACROS ∧ op = js "id" then some binder else none
  | _, _ => none

mutual

/-- `walk`: the declared names a tree mentions outside what binds them. -/
def walk (declared : List JsString) : Ast → List JsString → List JsString
  | .list items, bound => walkAll declared items bound
  | .text _, _ => []
  | .other, _ => []
  | .node op args, bound =>
    if op = js "id" then
      match args with
      | .text name => if name ∈ declared ∧ name ∉ bound then [name] else []
      | _ => []
    else if op = js "rcall" then
      match args with
      | .list (method :: receiver :: .list (first :: others) :: _) =>
        walk declared receiver bound ++
          match binderOf method (first :: others) with
          | some binder => walkAll declared others (binder :: bound)
          | none => walk declared first bound ++ walkAll declared others bound
      | .list (_ :: receiver :: callArgs :: _) =>
        walk declared receiver bound ++ walk declared callArgs bound
      | .list [_, receiver] => walk declared receiver bound
      | .list _ => []
      | args => walk declared args bound
    else if op = js "." ∨ op = js ".?" then
      match args with
      | .list (target :: _) => walk declared target bound
      | _ => []
    else walk declared args bound

/-- `walk` over an array. -/
def walkAll (declared : List JsString) : List Ast → List JsString → List JsString
  | [], _ => []
  | item :: rest, bound => walk declared item bound ++ walkAll declared rest bound

end

def referencedConditionFields (ast : Ast) (kind : ResourceKind) : List JsString :=
  (walk ((CONDITION_FIELDS kind).map (·.name)) ast []).eraseDups

/-- The CEL environments, one for each kind: what a condition parses to, and
whether it evaluates to `true`.  `none` is a throw. -/
structure Cel where
  parse : ResourceKind → JsString → Option Ast
  evaluate : ResourceKind → JsString → Fields → PrincipalContext → Option Bool

/-- The engine reads of its context only the variables the parsed condition
references, and the principal. -/
def Cel.ReadsReferenced (cel : Cel) : Prop :=
  ∀ kind condition ast, cel.parse kind condition = some ast →
    ∀ context context' : Fields,
      (∀ name ∈ referencedConditionFields ast kind, context.get name = context'.get name) →
      ∀ principal, cel.evaluate kind condition context principal =
        cel.evaluate kind condition context' principal

/-- The loop over the fields of a kind: the context with the absent request
fields, and the resource fields that are missing. -/
def supplyAbsent (referenced : List JsString) :
    List ConditionField → Fields → List JsString → Fields × List JsString
  | [], context, missing => (context, missing)
  | field :: rest, context, missing =>
    if field.name ∉ referenced ∨ context.has field.name then
      supplyAbsent referenced rest context missing
    else
      match field.role with
      | .request =>
        supplyAbsent referenced rest
          (context.set field.name (conditionFieldAbsentValue field)) missing
      | .resource => supplyAbsent referenced rest context (missing ++ [field.name])

/-- `createConditionEvaluator`. -/
def createConditionEvaluator (cel : Cel) : ConditionEvaluator :=
  fun condition kind resourceFields principalContext =>
    match cel.parse kind condition with
    | none => .error .failed
    | some ast =>
      let (context, missing) := supplyAbsent (referencedConditionFields ast kind)
        (CONDITION_FIELDS kind) resourceFields []
      if missing ≠ [] then .error (.missingFields missing)
      else
        match cel.evaluate kind condition context principalContext with
        | none => .error .failed
        | some result => .ok result

section

variable {declared : List JsString}

mutual

/-- A walk finds declared names only. -/
theorem walk_declared : ∀ (ast : Ast) (bound : List JsString), walk declared ast bound ⊆ declared
  | .list items, bound => by
      rw [walk]
      exact walkAll_declared items bound
  | .text _, bound => by simp [walk]
  | .other, bound => by simp [walk]
  | .node op args, bound => by
      unfold walk
      split
      · split
        · split
          · rename_i hname
            simp [hname.1]
          · exact List.nil_subset _
        · exact List.nil_subset _
      · split
        · split
          · rename_i method receiver first others _
            refine List.append_subset.mpr ⟨walk_declared receiver bound, ?_⟩
            split
            · rename_i binder _
              exact walkAll_declared others (binder :: bound)
            · exact List.append_subset.mpr
                ⟨walk_declared first bound, walkAll_declared others bound⟩
          · rename_i receiver callArgs _ _
            exact List.append_subset.mpr
              ⟨walk_declared receiver bound, walk_declared callArgs bound⟩
          · exact walk_declared _ bound
          · exact List.nil_subset _
          · exact walk_declared args bound
        · split
          · split
            · rename_i target _
              exact walk_declared target bound
            · exact List.nil_subset _
          · exact walk_declared args bound

theorem walkAll_declared : ∀ (items : List Ast) (bound : List JsString),
    walkAll declared items bound ⊆ declared
  | [], bound => by simp [walkAll]
  | item :: rest, bound => by
      rw [walkAll]
      exact List.append_subset.mpr ⟨walk_declared item bound, walkAll_declared rest bound⟩

end

end

theorem referenced_declared {ast : Ast} {kind : ResourceKind} {name : JsString}
    (h : name ∈ referencedConditionFields ast kind) :
    ∃ field ∈ CONDITION_FIELDS kind, field.name = name := by
  have hfound := walk_declared ast [] (List.mem_eraseDups.mp h)
  exact List.mem_map.mp hfound

variable {context : Fields}

section

variable {referenced : List JsString}

theorem supplyAbsent_agree (fields : List ConditionField) {context' : Fields}
    (missing : List JsString) (hagree : ∀ name ∈ referenced, context.get name = context'.get name) :
    (∀ name ∈ referenced, (supplyAbsent referenced fields context missing).1.get name =
      (supplyAbsent referenced fields context' missing).1.get name) ∧
    (supplyAbsent referenced fields context missing).2 =
      (supplyAbsent referenced fields context' missing).2 := by
  induction fields generalizing context context' missing with
  | nil => exact ⟨hagree, rfl⟩
  | cons field rest ih =>
    rw [supplyAbsent, supplyAbsent]
    by_cases hreferenced : field.name ∈ referenced
    · have hhas : context.has field.name = context'.has field.name := by
        unfold OrderedMap.has
        rw [hagree _ hreferenced]
      rw [hhas]
      split
      · exact ih missing hagree
      · cases field.role with
        | resource => exact ih _ hagree
        | request =>
          apply ih missing
          intro name hname
          rw [OrderedMap.get_set, OrderedMap.get_set, hagree name hname]
    · rw [if_pos (Or.inl hreferenced), if_pos (Or.inl hreferenced)]
      exact ih missing hagree

theorem supplyAbsent_missing (fields : List ConditionField) (context : Fields)
    (missing : List JsString) :
    missing ⊆ (supplyAbsent referenced fields context missing).2 := by
  induction fields generalizing context missing with
  | nil => exact List.Subset.refl _
  | cons field rest ih =>
    rw [supplyAbsent]
    split
    · exact ih context missing
    · cases field.role with
      | request => exact ih _ missing
      | resource =>
        exact fun name hname => ih context _ (List.mem_append_left _ hname)

theorem mem_supplyAbsent {fields : List ConditionField} {field : ConditionField}
    (hfield : field ∈ fields) (hsame : ∀ g ∈ fields, g.name = field.name → g.role = .resource)
    (hreferenced : field.name ∈ referenced) (habsent : context.get field.name = none)
    (missing : List JsString) :
    field.name ∈ (supplyAbsent referenced fields context missing).2 := by
  induction fields generalizing context missing with
  | nil => cases hfield
  | cons g rest ih =>
    have hrest : ∀ h ∈ rest, h.name = field.name → h.role = .resource :=
      fun h hh => hsame h (List.mem_cons_of_mem _ hh)
    rw [supplyAbsent]
    by_cases hname : g.name = field.name
    · have hnow : ¬ (g.name ∉ referenced ∨ context.has g.name = true) := by
        rw [hname]
        unfold OrderedMap.has
        rw [habsent]
        simp [hreferenced]
      rw [if_neg hnow, hsame g List.mem_cons_self hname]
      refine supplyAbsent_missing rest context _ (List.mem_append_right _ ?_)
      rw [hname]
      exact List.mem_singleton_self _
    · have hlater : field ∈ rest := by
        rcases List.mem_cons.mp hfield with heq | hmem
        · exact absurd (congrArg ConditionField.name heq).symm hname
        · exact hmem
      split
      · exact ih hlater hrest habsent missing
      · cases g.role with
        | resource => exact ih hlater hrest habsent _
        | request =>
          refine ih hlater hrest ?_ missing
          rw [OrderedMap.get_set_ne _ _ (fun heq => hname heq.symm)]
          exact habsent

end

section

variable {cel : Cel} {condition : JsString} {kind : ResourceKind} {principal : PrincipalContext}

/-- **An evaluation reads the referenced fields** and the principal. -/
theorem evaluator_reads (hcel : cel.ReadsReferenced) {context' : Fields}
    (hagree : ∀ ast, cel.parse kind condition = some ast →
      ∀ name ∈ referencedConditionFields ast kind, context.get name = context'.get name) :
    createConditionEvaluator cel condition kind context principal =
      createConditionEvaluator cel condition kind context' principal := by
  unfold createConditionEvaluator
  cases hparse : cel.parse kind condition with
  | none => rfl
  | some ast =>
    obtain ⟨hsupplied, hmissing⟩ :=
      supplyAbsent_agree (CONDITION_FIELDS kind) [] (hagree ast hparse)
    simp only
    rw [hmissing, hcel kind condition ast hparse _ _ hsupplied principal]

theorem evaluator_supplied {result : Bool}
    (h : createConditionEvaluator cel condition kind context principal = .ok result) {ast : Ast}
    (hparse : cel.parse kind condition = some ast) {field : ConditionField}
    (hfield : field ∈ CONDITION_FIELDS kind)
    (hsame : ∀ g ∈ CONDITION_FIELDS kind, g.name = field.name → g.role = .resource)
    (hreferenced : field.name ∈ referencedConditionFields ast kind) :
    (context.get field.name).isSome := by
  cases habsent : context.get field.name with
  | some value => rfl
  | none =>
    have hmissing := mem_supplyAbsent hfield hsame hreferenced habsent []
    unfold createConditionEvaluator at h
    rw [hparse] at h
    simp only at h
    rw [if_pos (List.ne_nil_of_mem hmissing)] at h
    cases h

end

end Swamp.Access
