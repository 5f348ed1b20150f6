import Mathlib.Data.List.Lex
import Mathlib.Data.List.Sort
import Mathlib.Data.Prod.Lex
import Swamp.QueryPredicate

/-!
# Running a data query over the catalog

`executeMatch` reads the rows of the catalog under the clauses a predicate
pushes down, evaluates the predicate over each of them, and hydrates those it is
true of.  A body is read only when the evaluation touches it.  Reading `content`
of an item that is not text is a violation, also where the expression absorbs
the error.

The expression engine, the file system, `JSON.parse` and the decoding of bytes
are parameters.
-/

namespace Swamp

namespace Query

open Js

/-- One row of the catalog, without the columns no query reads. -/
structure CatalogRow where
  ns : JsString
  typeNormalized : JsString
  modelId : JsString
  dataName : JsString
  id : JsString
  version : ℕ
  isLatest : ℕ
  isStepLatest : ℕ
  modelName : JsString
  specName : JsString
  dataType : JsString
  contentType : JsString
  lifetime : JsString
  garbageCollection : JsString
  /-- `deleted` for a deletion marker, `active` otherwise, empty when unknown. -/
  lifecycle : JsString
  ownerType : JsString
  streaming : ℕ
  size : ℕ
  createdAt : JsString
  /-- The tags, as JSON text. -/
  tags : JsString
  ownerRef : JsString
  workflowRunId : JsString
  workflowName : JsString
  jobName : JsString
  stepName : JsString
  source : JsString

/-- What a query returns of a row, without its path. -/
structure DataRecord where
  id : JsString
  name : JsString
  version : ℕ
  isLatest : Bool
  createdAt : JsString
  ns : JsString
  attributes : Json
  tags : Json
  modelName : JsString
  modelId : JsString
  modelType : JsString
  specName : JsString
  dataType : JsString
  contentType : JsString
  lifetime : JsString
  garbageCollection : Json
  lifecycle : JsString
  ownerType : JsString
  streaming : Bool
  size : ℕ
  content : Json
  ownerRef : JsString
  workflowRunId : JsString
  workflowName : JsString
  jobName : JsString
  stepName : JsString
  source : JsString

/-- What the host of a query provides. -/
structure Host where
  toLowerCase : JsString → JsString
  parseJson : JsString → Option Json
  decode : List UInt8 → JsString
  /-- The namespace the repository writes under. -/
  ns : JsString
  /-- The bytes of a row's body, none when there is no file; `error` when reading it throws. -/
  getContent : CatalogRow → Except Unit (Option (List UInt8))
  /-- Whether a body shorter than its row says is the whole body. -/
  isAcceptedShortContent : CatalogRow → Bool
  /-- Whether the file of a row's body is there; `error` when its path cannot be formed. -/
  hasContentFile : CatalogRow → Except Unit Bool
  /-- `CAST(json_extract(tags, '$."key"') AS TEXT)` of valid JSON, empty otherwise. -/
  tagText : JsString → JsString → JsString

def TEXT_APPLICATION_TYPES : List JsString :=
  [js "application/json", js "application/x-ndjson", js "application/yaml",
    js "application/x-yaml", js "application/xml", js "application/toml",
    js "application/javascript", js "application/ecmascript", js "application/x-sh",
    js "application/sql", js "application/graphql"]

def TEXT_SUFFIXES : List JsString := [js "+json", js "+xml", js "+yaml"]

def essence (host : Host) (contentType : JsString) : JsString :=
  host.toLowerCase (trim (contentType.takeWhile (fun u => decide (u ≠ unit ';'))))

def isJsonMediaType (host : Host) (contentType : JsString) : Bool :=
  essence host contentType = js "application/json"

def isTextContentType (host : Host) (contentType : JsString) : Bool :=
  (js "text/").isPrefixOf (essence host contentType) ||
    essence host contentType ∈ TEXT_APPLICATION_TYPES ||
    TEXT_SUFFIXES.any (fun suffix => suffix.isSuffixOf (essence host contentType))

def garbageCollectionFromColumn (column : JsString) : Json :=
  if column ≠ [] ∧ column.all isDigitUnit then .num (decimalValue column) else .str column

def lifecycleFromColumn (column : JsString) : JsString :=
  if column = js "active" ∨ column = js "deleted" then column else []

/-- The bytes of a row's body: none when it is absent or shorter than its row says. -/
def rawBytes (host : Host) (row : CatalogRow) (loadAttributes loadContent : Bool) :
    Except Unit (Option (List UInt8)) :=
  if row.ns = host.ns ∧ ((loadAttributes ∧ isJsonMediaType host row.contentType) ∨
      (loadContent ∧ isTextContentType host row.contentType)) then do
    match ← host.getContent row with
    | none => return none
    | some bytes =>
      if bytes.length < row.size ∧ host.isAcceptedShortContent row = false then return none
      else return some bytes
  else return none

/-- `parseContent`: the attributes and the content. -/
def parseContent (host : Host) (bytes : Option (List UInt8)) (contentType : JsString)
    (loadAttributes loadContent : Bool) : Json × Json :=
  match bytes with
  | none => (.obj [], .str [])
  | some bytes =>
    let decoded := host.decode bytes
    let textContent : Json :=
      if loadContent ∧ isTextContentType host contentType then .str decoded else .str []
    if loadAttributes ∧ isJsonMediaType host contentType then
      match host.parseJson decoded with
      | some attributes => (attributes, attributes)
      | none => (.obj [], textContent)
    else (.obj [], textContent)

def parseTags (host : Host) (row : CatalogRow) : Json := (host.parseJson row.tags).getD (.obj [])

/-- The record of a row whose body was read as `body`. -/
def recordOf (host : Host) (row : CatalogRow) (body : Json × Json) : DataRecord where
  id := row.id
  name := row.dataName
  version := row.version
  isLatest := row.isLatest = 1
  createdAt := row.createdAt
  ns := row.ns
  attributes := body.1
  tags := parseTags host row
  modelName := row.modelName
  modelId := row.modelId
  modelType := row.typeNormalized
  specName := row.specName
  dataType := row.dataType
  contentType := row.contentType
  lifetime := row.lifetime
  garbageCollection := garbageCollectionFromColumn row.garbageCollection
  lifecycle := lifecycleFromColumn row.lifecycle
  ownerType := row.ownerType
  streaming := row.streaming = 1
  size := row.size
  content := body.2
  ownerRef := row.ownerRef
  workflowRunId := row.workflowRunId
  workflowName := row.workflowName
  jobName := row.jobName
  stepName := row.stepName
  source := row.source

def fromRow (host : Host) (row : CatalogRow) (loadAttributes loadContent : Bool) :
    Except Unit DataRecord := do
  let bytes ← rawBytes host row loadAttributes loadContent
  return recordOf host row (parseContent host bytes row.contentType loadAttributes loadContent)

/-- The record before anything of the body is read. -/
def bareRecord (host : Host) (row : CatalogRow) : DataRecord :=
  recordOf host row (.obj [], .str [])

/-- The properties a predicate reads, apart from the two that read the body. -/
def DataRecord.fields (record : DataRecord) : List (JsString × Json) :=
  [(js "id", .str record.id), (js "name", .str record.name),
    (js "version", Json.ofNat record.version), (js "isLatest", .bool record.isLatest),
    (js "createdAt", .str record.createdAt), (js "tags", record.tags),
    (js "modelName", .str record.modelName), (js "behaviorName", .str record.modelName),
    (js "modelId", .str record.modelId), (js "modelType", .str record.modelType),
    (js "specName", .str record.specName), (js "dataType", .str record.dataType),
    (js "contentType", .str record.contentType), (js "lifetime", .str record.lifetime),
    (js "garbageCollection", record.garbageCollection), (js "lifecycle", .str record.lifecycle),
    (js "ownerType", .str record.ownerType), (js "streaming", .bool record.streaming),
    (js "size", Json.ofNat record.size), (js "ownerRef", .str record.ownerRef),
    (js "workflowRunId", .str record.workflowRunId),
    (js "workflowName", .str record.workflowName), (js "jobName", .str record.jobName),
    (js "stepName", .str record.stepName), (js "source", .str record.source),
    (js "ns", .str record.ns)]

/-- What reading one property of the evaluated record gives. -/
inductive FieldRead where
  | value (v : Json)
  | undefined
  /-- `content` of an item that is not text. -/
  | refused
  /-- The body could not be read. -/
  | failed

/-- What one evaluation of an expression sees. -/
structure Env where
  field : JsString → FieldRead
  latestRun : JsString → Json
  model : JsString → Bool

/-- One evaluation: its value, or that it threw, and the properties it read. -/
structure Run where
  result : Except Unit Json
  reads : List JsString

/-- The expression engine. -/
abbrev Cel : Type := Ast → Env → Run

def FieldRead.isRefused : FieldRead → Bool
  | .refused => true
  | _ => false

def FieldRead.isFailed : FieldRead → Bool
  | .failed => true
  | _ => false

/-- The evaluation read the content of an item that is not text. -/
def Run.readBinaryContent (run : Run) (env : Env) : Bool :=
  run.reads.any (fun name => (env.field name).isRefused)

/-- The evaluation met a body that could not be read. -/
def Run.loadFailed (run : Run) (env : Env) : Bool :=
  run.reads.any (fun name => (env.field name).isFailed)

structure ResolvedModel where
  modelType : JsString
  modelId : JsString

structure QuerySort where
  /-- The tag to sort by, the creation time when there is none. -/
  tagKey : Option JsString
  descending : Bool

structure QueryOptions where
  limit : Option ℕ
  latestPerStep : Bool
  loadAttributes : Option Bool
  select : Option Ast
  excludeModelTypes : List JsString
  sort : Option QuerySort

/-- What was resolved before the rows are read, and the service's own settings. -/
structure Resolved where
  /-- The run each workflow resolved to: none when it was not asked for. -/
  latestRuns : JsString → Option (Option JsString)
  models : JsString → Option ResolvedModel
  /-- Where a name forwards to in one model. -/
  renameForwards : JsString → Option ResolvedModel → JsString × JsString × JsString →
    Option JsString
  filterStaleRows : Bool

/-- One column condition. -/
inductive Clause where
  | isLatest
  | isStepLatest
  | typeNotIn (types : List JsString)
  | modelName (value : JsString)
  | specName (value : JsString)
  | modelType (value : JsString)
  | modelId (value : JsString)
  | lifecycle (value : JsString)
  | dataType (value : JsString)
  | workflowRunId (value : JsString)

/-- A row meets a column condition. -/
def Clause.Holds : Clause → CatalogRow → Prop
  | .isLatest, row => row.isLatest = 1
  | .isStepLatest, row => row.isStepLatest = 1
  | .typeNotIn types, row => row.typeNormalized ∉ types
  | .modelName value, row => row.modelName = value
  | .specName value, row => row.specName = value
  | .modelType value, row => row.typeNormalized = value
  | .modelId value, row => row.modelId = value
  | .lifecycle value, row => row.lifecycle = value
  | .dataType value, row => row.dataType = value
  | .workflowRunId value, row => row.workflowRunId = value

instance (clause : Clause) (row : CatalogRow) : Decidable (clause.Holds row) := by
  cases clause <;> (unfold Clause.Holds; infer_instance)

/-- The predicate reads or opens the history of names. -/
def opensHistory (predicate : Ast) : Bool :=
  (collectRootIdentifiers predicate).any (fun id => id ∈ HISTORY_OPT_IN_FIELDS)

/-- `isLatest == true`. -/
def isLatestTrue : Ast := .eq (.id (js "isLatest")) (.value (.bool true))

/-- The expression evaluated over each row. -/
def filterAst (options : QueryOptions) (predicate : Ast) : Ast :=
  if opensHistory predicate ∨ options.latestPerStep then predicate
  else .and predicate isLatestTrue

def referencesAttributes (node : Ast) : Bool := js "attributes" ∈ collectRootIdentifiers node

def referencesContent (node : Ast) : Bool := js "content" ∈ collectRootIdentifiers node

def selectReadsContent (node : Ast) : Bool :=
  js "content" ∈ collectRootIdentifiers node ∨
    js "contentEncoding" ∈ collectRootIdentifiers node

def needsContent (options : QueryOptions) (predicate : Ast) : Bool :=
  referencesContent (filterAst options predicate)

def needsAttributes (options : QueryOptions) (predicate : Ast) : Bool :=
  let byFilter := options.loadAttributes.getD
    (referencesAttributes (filterAst options predicate) || needsContent options predicate)
  match options.select with
  | some select => byFilter || referencesAttributes select || selectReadsContent select
  | none => byFilter

def needsHydration (options : QueryOptions) (predicate : Ast) : Bool :=
  !needsAttributes options predicate && options.select.isNone

/-- The conditions that come from the query itself, not from its predicate. -/
def implicitClauses (options : QueryOptions) (predicate : Ast) : List Clause :=
  (if opensHistory predicate then []
    else [if options.latestPerStep then .isStepLatest else .isLatest]) ++
  if options.excludeModelTypes = [] then [] else [.typeNotIn options.excludeModelTypes]

/-- What `model` and `behavior` call the resolved definition. -/
def modelTarget (resolved : Resolved) (predicate : Ast) : Option ResolvedModel :=
  (extractModelCall predicate).bind resolved.models

/-- The conditions extracted from the predicate, but for the latest run's. -/
def extractedClauses (resolved : Resolved) (predicate : Ast) : List Clause :=
  ((extractModelNameEquality predicate).map Clause.modelName).toList ++
    ((extractStringEquality predicate (js "specName")).map Clause.specName).toList ++
    ((extractStringEquality predicate (js "modelType")).map Clause.modelType).toList ++
    ((extractStringEquality predicate (js "modelId")).map Clause.modelId).toList ++
    ((extractStringEquality predicate (js "lifecycle")).map Clause.lifecycle).toList ++
    ((extractTypeTagEquality predicate).map Clause.dataType).toList ++
    match modelTarget resolved predicate with
    | some target => [.modelType target.modelType, .modelId target.modelId]
    | none => []

/-- The run the predicate's `latestRun` resolved to: `some none` when it has none. -/
def latestRunOf (resolved : Resolved) (predicate : Ast) : Option (Option JsString) :=
  (extractWorkflowRunIdLatestRun predicate).map
    (fun workflow => (resolved.latestRuns workflow).getD none)

/-- The literal whose rename forwards a latest-only read follows. -/
def nameLiteral (predicate : Ast) : Option JsString :=
  if opensHistory predicate then none else extractStringEquality predicate (js "name")

/-- Where the rows of one model are forwarded to. -/
def renameTarget (resolved : Resolved) (predicate : Ast) (row : CatalogRow) : Option JsString :=
  (nameLiteral predicate).bind (fun name =>
    resolved.renameForwards name (modelTarget resolved predicate)
      (row.ns, row.typeNormalized, row.modelId))

/-- The order of the database's texts: by code point, surrogates after the basic plane. -/
def collate (s : JsString) : List ℕ :=
  s.map (fun u => if 0xD800 ≤ u.val ∧ u.val ≤ 0xDFFF then u.val + 0x10000 else u.val)

def sortKey (host : Host) (sort : QuerySort) (row : CatalogRow) : JsString :=
  match sort.tagKey with
  | none => row.createdAt
  | some key => host.tagText row.tags key

/-- The columns a sorted read orders by. -/
def orderKey (host : Host) (sort : QuerySort) (row : CatalogRow) :
    Lex (List (List ℕ) × ℕ) :=
  toLex ([collate (sortKey host sort row), collate row.ns, collate row.typeNormalized,
    collate row.modelId, collate row.dataName], row.version)

def Before (host : Host) (sort : QuerySort) (a b : CatalogRow) : Prop :=
  if sort.descending then orderKey host sort b ≤ orderKey host sort a
  else orderKey host sort a ≤ orderKey host sort b

instance (host : Host) (sort : QuerySort) : DecidableRel (Before host sort) := by
  intro a b
  unfold Before
  infer_instance

/-- The catalog, by row id or in the query's own order. -/
def orderRows (host : Host) (options : QueryOptions) (rows : List CatalogRow) :
    List CatalogRow :=
  match options.sort with
  | none => rows
  | some sort => rows.insertionSort (Before host sort)

section Matching

variable (cel : Cel) (host : Host) (resolved : Resolved) (options : QueryOptions)
  (predicate : Ast)

/-- The record as the filter loads it. -/
def load (row : CatalogRow) : Except Unit DataRecord :=
  fromRow host row (needsAttributes options predicate) (needsContent options predicate)

/-- What `content` reads of a loaded record. -/
def contentOf (record : DataRecord) : Json :=
  if record.contentType = js "application/json" then record.attributes else record.content

/-- Reading one property while a row is evaluated. -/
def readField (row : CatalogRow) (name : JsString) : FieldRead :=
  if name = js "attributes" then
    match load host options predicate row with
    | .ok record => .value record.attributes
    | .error _ => .failed
  else if name = js "content" then
    if isTextContentType host row.contentType then
      match load host options predicate row with
      | .ok record => .value (contentOf record)
      | .error _ => .failed
    else .refused
  else if name = js "name" ∧ renameTarget resolved predicate row = some row.dataName then
    match nameLiteral predicate with
    | some literal => .value (.str literal)
    | none => .undefined
  else match Json.field (bareRecord host row).fields name with
    | some v => .value v
    | none => .undefined

/-- The row is of the model a reference resolved to. -/
def matchesModel (row : CatalogRow) (reference : JsString) : Bool :=
  match resolved.models reference with
  | some target => row.typeNormalized = target.modelType ∧ row.modelId = target.modelId
  | none => false

def rowEnv (row : CatalogRow) : Env where
  field := readField host resolved options predicate row
  latestRun := fun workflow =>
    match (resolved.latestRuns workflow).getD none with
    | some runId => .str runId
    | none => .null
  model := matchesModel resolved row

/-- What comes of one row. -/
inductive Outcome where
  | matched (record : DataRecord)
  | violation
  | skipped

/-- `match === true`. -/
def isTrue : Json → Bool
  | .bool true => true
  | _ => false

/-- The rows still under a name that is forwarded are passed over. -/
def isForwarded (row : CatalogRow) : Bool :=
  nameLiteral predicate = some row.dataName ∧ (renameTarget resolved predicate row).isSome

/-- The loop's body, over one row. -/
def evaluateRow (row : CatalogRow) : Except QueryError Outcome :=
  if isForwarded resolved predicate row then return .skipped
  else
    let env := rowEnv host resolved options predicate row
    let run := cel (filterAst options predicate) env
    match run.result with
    | .ok v =>
      if run.readBinaryContent env then return .violation
      else if isTrue v then
        if needsHydration options predicate then return .matched (bareRecord host row)
        else match load host options predicate row with
          | .ok record => return .matched record
          | .error _ => throw .unreadable
      else return .skipped
    | .error _ =>
      if run.loadFailed env then throw .unreadable
      else if run.readBinaryContent env then return .violation
      else return .skipped

/-- What the loop collects. -/
structure Collected where
  results : List (CatalogRow × DataRecord)
  /-- The refused records, each with the matches before it. -/
  violations : List (DataRecord × ℕ)
  hitLimit : Bool

/-- The matches have reached the limit. -/
def limitReached (count : ℕ) : Bool :=
  match options.limit with
  | some limit => limit ≤ count
  | none => false

/-- The loop over the rows. -/
def matchRows : List CatalogRow → Collected → Except QueryError Collected
  | [], collected => return collected
  | row :: rows, collected => do
      match ← evaluateRow cel host resolved options predicate row with
      | .matched record =>
        let results := collected.results ++ [(row, record)]
        if limitReached options results.length then
          return { collected with results := results, hitLimit := true }
        else matchRows rows { collected with results := results }
      | .violation =>
        matchRows rows { collected with
          violations := collected.violations ++
            [(bareRecord host row, collected.results.length)] }
      | .skipped => matchRows rows collected

/-- The own rows whose file is absent are dropped when the service filters stale rows. -/
def isStale (row : CatalogRow) : Except Unit Bool :=
  if resolved.filterStaleRows ∧ row.ns = host.ns then do
    return !(← host.hasContentFile row)
  else return false

/-- Hydration: the kept records, and for each match the records kept before it. -/
def hydrateRows : List (CatalogRow × DataRecord) → ℕ →
    Except QueryError (List DataRecord × List ℕ)
  | [], kept => return ([], [kept])
  | (row, _) :: rest, kept =>
    match isStale host resolved row with
    | .error _ => throw .unreadable
    | .ok true => do
        let (records, keptBefore) ← hydrateRows rest kept
        return (records, kept :: keptBefore)
    | .ok false =>
      match fromRow host row true (needsContent options predicate) with
      | .error _ => throw .unreadable
      | .ok record => do
          let (records, keptBefore) ← hydrateRows rest (kept + 1)
          return (record :: records, kept :: keptBefore)

/-- What a pass over the catalog returns. -/
structure MatchResult where
  records : List DataRecord
  violations : List (DataRecord × ℕ)
  hitLimit : Bool

def hydrate (collected : Collected) : Except QueryError MatchResult :=
  if needsHydration options predicate then do
    let (records, keptBefore) ← hydrateRows host resolved options predicate collected.results 0
    return {
      records := records
      violations := collected.violations.map (fun violation =>
        (violation.1, keptBefore.getD violation.2 0))
      hitLimit := collected.hitLimit }
  else return {
    records := collected.results.map Prod.snd
    violations := collected.violations
    hitLimit := collected.hitLimit }

/-- A projection calls a model function. -/
def selectCallsModel : Bool :=
  match options.select with
  | some select =>
    match collectModelReferences select with
    | .ok references => references ≠ []
    | .error _ => true
  | none => false

/-- The workflows whose latest run the query reads. -/
def latestRunWorkflows : Except QueryError (List JsString) := do
  let workflows ← collectLatestRunWorkflows predicate
  match options.select with
  | some select => return (workflows ++ (← collectLatestRunWorkflows select)).dedup
  | none => return workflows

/-- The sort names a tag that cannot be quoted in a path. -/
def invalidSortKey : Bool :=
  match options.sort with
  | some sort => (sort.tagKey.getD []).any (fun u => u = unit '"' ∨ u = unit '\\')
  | none => false

/-- The checks a query passes before a row is read. -/
def checkQuery : Except QueryError Unit := do
  validateFieldReferences (collectRootIdentifiers predicate)
  let workflows ← latestRunWorkflows options predicate
  if workflows.any (fun workflow => (resolved.latestRuns workflow).isNone) then
    throw .latestRunUnavailable
  let references ← collectModelReferences predicate
  if selectCallsModel options then throw .modelInSelect
  if references.any (fun reference => (resolved.models reference).isNone) then
    throw .modelUnavailable

/-- The clauses a query reads the catalog under: none when its latest run has no run. -/
def whereClauses : Option (List Clause) :=
  match latestRunOf resolved predicate with
  | some none => none
  | some (some runId) =>
    some (implicitClauses options predicate ++ extractedClauses resolved predicate ++
      [.workflowRunId runId])
  | none => some (implicitClauses options predicate ++ extractedClauses resolved predicate)

/-- The rows that meet every clause, in the query's order. -/
def pushedRows (clauses : List Clause) (catalog : List CatalogRow) : List CatalogRow :=
  orderRows host options
    (catalog.filter (fun row => clauses.all (fun clause => clause.Holds row)))

/-- One pass of a query over the catalog, in row order. -/
def executeMatch (catalog : List CatalogRow) : Except QueryError MatchResult := do
  checkQuery resolved options predicate
  match whereClauses resolved options predicate with
  | none => return { records := [], violations := [], hitLimit := false }
  | some clauses =>
    if invalidSortKey options then throw .invalidSortKey
    let collected ← matchRows cel host resolved options predicate
      (pushedRows host options clauses catalog)
      { results := [], violations := [], hitLimit := false }
    hydrate host resolved options predicate collected

end Matching

end Query

end Swamp
