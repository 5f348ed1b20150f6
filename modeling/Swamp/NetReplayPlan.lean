import Mathlib.Data.Finset.Union
import Swamp.MapOverlay
import Swamp.Materialisation

/-!
# Planning a net replay

A fresh checkout replays the whole feed, most of whose writes a later commit
replaces.  The planner runs the feed's decisions without touching a file and
tells which writes, and which removals, the replay may leave out.

Paths compare case-folded and NFC-normalised, as case-insensitive or
normalising filesystems do; what the plan relies on of these two is
`UnicodeText`.  `replay` is the replay itself, over a filesystem that folds names
no further than that, with the rules a plan gives or with none.
-/

namespace Swamp

open Js MapOverlay

/-- `normalize("NFC")` and `toLowerCase()`.  A solidus neither composes with
what follows it nor ends a word that spans it, so both work segment by
segment. -/
structure UnicodeText where
  normalizeNFC : JsString → JsString
  toLowerCase : JsString → JsString
  split_normalizeNFC : ∀ s, split (normalizeNFC s) = (split s).map normalizeNFC
  split_toLowerCase : ∀ s, split (toLowerCase s) = (split s).map toLowerCase

/-- `foldKey`. -/
def UnicodeText.foldKey (text : UnicodeText) (key : JsString) : JsString :=
  text.toLowerCase (text.normalizeNFC key)

/-- A filesystem that folds the names of files, but never two that `foldKey`
tells apart. -/
structure FoldingFilesystem (text : UnicodeText) where
  fold : JsString → JsString
  finer : ∀ a b, fold a = fold b → text.foldKey a = text.foldKey b

/-- `idOf`. -/
def idOf (ns key : JsString) : JsString := ns ++ 0 :: key

/-- `splitId`: what stands before the first NUL, and what stands after it. -/
def splitId (id : JsString) : JsString × JsString :=
  (id.takeWhile (fun u => u ≠ 0), (id.dropWhile (fun u => u ≠ 0)).tail)

/-- The first segment of a key. -/
def topSegment (key : JsString) : JsString := (split key).headD []

/-- One commit of the feed. -/
structure NetReplayCommit where
  ns : JsString
  partition : JsString
  position : ℕ
  changes : List KeyChange

/-- A file of the compacted base: its ownership and, when present, its
content. -/
structure FileContent where
  content : PutContent
  access : Option FileAccess

/-- A seeded ownership, with the content of its file. -/
structure Seed where
  ns : JsString
  key : RecordKey
  ownership : FileOwnership
  content : FileContent

/-- What the planner knows of the keys. -/
structure PlannedKeys where
  ownership : Finmap (fun _ : JsString => FileOwnership)
  writes : Finmap (fun _ : JsString => List ℕ)
  keys : Finmap (fun _ : JsString => Finset RecordKey)

/-- The planner: the keys, and the highest position seen. -/
structure NetReplayPlanner where
  planned : PlannedKeys
  bound : ℕ

namespace PlannedKeys

/-- The keys of a namespace. -/
def keysOf (self : PlannedKeys) (ns : JsString) : Finset RecordKey := (self.keys.lookup ns).getD ∅

/-- The writes of a key, by its id. -/
def writesOf (self : PlannedKeys) (id : JsString) : List ℕ := (self.writes.lookup id).getD []

/-- The keys with one more. -/
def addKey (self : PlannedKeys) (ns : JsString) (key : RecordKey) : PlannedKeys :=
  { self with keys := self.keys.insert ns (insert key (self.keysOf ns)) }

/-- A write of a key. -/
def pushWrite (self : PlannedKeys) (id : JsString) (position : ℕ) : PlannedKeys :=
  { self with writes := self.writes.insert id (self.writesOf id ++ [position]) }

/-- An ownership that a decision sets, when it sets one. -/
def setOwnership (self : PlannedKeys) (id : JsString) (next : Option FileOwnership) :
    PlannedKeys :=
  match next with
  | some own => { self with ownership := self.ownership.insert id own }
  | none => self

/-- `seed`: a present file counts as a write at its mark. -/
def seed (ignored : JsString → JsString → Bool) (self : PlannedKeys) (s : Seed) : PlannedKeys :=
  if ignored s.ns s.key.value then self
  else
    let id := idOf s.ns s.key.value
    let owned := (self.addKey s.ns s.key).setOwnership id (some s.ownership)
    if s.ownership.present then owned.pushWrite id s.ownership.mark else owned

/-- One change of a commit. -/
def addChange (ignored : JsString → JsString → Bool) (ns partition : JsString) (position : ℕ)
    (self : PlannedKeys) (change : KeyChange) : PlannedKeys :=
  if ignored ns change.key.value then self
  else
    let id := idOf ns change.key.value
    let known := self.addKey ns change.key
    match decideFile (self.ownership.lookup id) partition position change.put.isSome with
    | .keep => known
    | .remove next => known.setOwnership id next
    | .write next => (known.setOwnership id (some next)).pushWrite id position

/-- The keys that fold to a spelling. -/
def spelled (text : UnicodeText) (keys : Finset RecordKey) (spelling : JsString) :
    Finset RecordKey :=
  keys.filter (fun key => text.foldKey key.value = spelling)

/-- The keys of a namespace another key spells the same. -/
def sameSpelling (text : UnicodeText) (keys : Finset RecordKey) : Finset RecordKey :=
  keys.filter (fun key => 2 ≤ (spelled text keys (text.foldKey key.value)).card)

/-- The keys that are a path prefix of this one, and this one when there is
any. -/
def prefixesOf (text : UnicodeText) (keys : Finset RecordKey) (key : RecordKey) :
    Finset RecordKey :=
  let segments := split (text.foldKey key.value)
  (Finset.range segments.length).biUnion (fun i =>
    if 1 ≤ i then
      let prefixes := spelled text keys (leading segments i)
      if prefixes = ∅ then ∅ else insert key prefixes
    else ∅)

/-- The ids of the keys whose file may decide another key's conflict, or have
its own decided. -/
def prefixed (text : UnicodeText) (self : PlannedKeys) : Finset JsString :=
  self.keys.keys.biUnion (fun ns =>
    let keys := self.keysOf ns
    (sameSpelling text keys ∪ keys.biUnion (prefixesOf text keys)).image
      (fun key => idOf ns key.value))

/-- The position of the put a key ends with, when its file is there. -/
def finalMark (self : PlannedKeys) (id : JsString) : Option ℕ :=
  match self.ownership.lookup id with
  | some own => if own.present then some own.mark else none
  | none => none

/-- The writes of a key that a later change replaces. -/
def replaced (self : PlannedKeys) (id : JsString) : List ℕ :=
  (self.writesOf id).filter (fun position => some position ≠ self.finalMark id)

/-- The written keys that may skip writes. -/
def eligibleWritten (text : UnicodeText) (directoryAbsent : JsString → JsString → Bool)
    (self : PlannedKeys) : Finset JsString :=
  self.writes.keys.filter (fun id =>
    id ∉ self.prefixed text ∧
      directoryAbsent (splitId id).1 (topSegment (splitId id).2) = true)

/-- The keys only ever removed: nothing of them is on disk. -/
def eligibleRemoved (text : UnicodeText) (directoryAbsent : JsString → JsString → Bool)
    (self : PlannedKeys) : Finset JsString :=
  self.keys.keys.biUnion (fun ns =>
    ((self.keysOf ns).filter (fun key =>
      idOf ns key.value ∉ self.writes.keys ∧ idOf ns key.value ∉ self.prefixed text ∧
        directoryAbsent ns (topSegment key.value) = true)).image (fun key => idOf ns key.value))

/-- A key and a position as one text. -/
def writeId (id : JsString) (position : ℕ) : JsString := id ++ 0 :: decimal position

end PlannedKeys

namespace NetReplayPlanner

/-- A planner that knows nothing. -/
def start : NetReplayPlanner := ⟨⟨∅, ∅, ∅⟩, 0⟩

/-- `seed`. -/
def seed (ignored : JsString → JsString → Bool) (self : NetReplayPlanner) (s : Seed) :
    NetReplayPlanner :=
  { self with planned := self.planned.seed ignored s }

/-- `add`. -/
def add (ignored : JsString → JsString → Bool) (self : NetReplayPlanner)
    (commit : NetReplayCommit) : NetReplayPlanner where
  bound := max self.bound commit.position
  planned :=
    commit.changes.foldl
      (PlannedKeys.addChange ignored commit.ns commit.partition commit.position) self.planned

end NetReplayPlanner

/-- A plan: what a replay up to `bound` may leave out, and how many writes are
replaceable, or kept because of a prefix or a directory that is there. -/
structure NetReplayPlan where
  bound : ℕ
  skipped : Finset JsString
  eligible : Finset JsString
  replaceable : ℕ
  keptForPrefix : ℕ
  keptForDirectory : ℕ

/-- `finish`. -/
def NetReplayPlanner.finish (text : UnicodeText) (self : NetReplayPlanner)
    (directoryAbsent : JsString → JsString → Bool) : NetReplayPlan :=
  let planned := self.planned
  let written := planned.eligibleWritten text directoryAbsent
  { bound := self.bound
    skipped := written.biUnion (fun id =>
      ((planned.replaced id).map (PlannedKeys.writeId id)).toFinset)
    eligible := written ∪ planned.eligibleRemoved text directoryAbsent
    replaceable := ∑ id ∈ planned.writes.keys, (planned.replaced id).length
    keptForPrefix :=
      ∑ id ∈ planned.writes.keys.filter (fun id => id ∈ planned.prefixed text),
        (planned.replaced id).length
    keptForDirectory :=
      ∑ id ∈ planned.writes.keys.filter (fun id =>
          id ∉ planned.prefixed text ∧
            directoryAbsent (splitId id).1 (topSegment (splitId id).2) = false),
        (planned.replaced id).length }

namespace NetReplayPlan

/-- `skipsWrite`. -/
def skipsWrite (plan : NetReplayPlan) (ns key : JsString) (position : ℕ) : Bool :=
  decide (position ≤ plan.bound) && decide (PlannedKeys.writeId (idOf ns key) position ∈ plan.skipped)

/-- `skipsRemoval`. -/
def skipsRemoval (plan : NetReplayPlan) (ns key : JsString) (position : ℕ) : Bool :=
  decide (position ≤ plan.bound) && decide (idOf ns key ∈ plan.eligible)

end NetReplayPlan

/-- What a replay leaves out. -/
structure SkipRules where
  skipsWrite : JsString → JsString → ℕ → Bool
  skipsRemoval : JsString → JsString → ℕ → Bool

/-- A replay that leaves out nothing. -/
def SkipRules.none : SkipRules := ⟨fun _ _ _ => false, fun _ _ _ => false⟩

/-- The rules of a plan. -/
def NetReplayPlan.rules (plan : NetReplayPlan) : SkipRules := ⟨plan.skipsWrite, plan.skipsRemoval⟩

/-- The files of each namespace, by the folded names of their path. -/
abbrev Disk := Finmap (fun _ : JsString × List JsString => FileContent)

/-- The files and the ownerships a replay keeps. -/
structure ReplayState where
  ownership : Finmap (fun _ : JsString => FileOwnership)
  disk : Disk

section Replay

variable {text : UnicodeText} (fs : FoldingFilesystem text)

/-- The path of a key, as the filesystem folds it. -/
def FoldingFilesystem.path (key : JsString) : List JsString := (split key).map fs.fold

/-- Whether a file is at a key's path. -/
def Disk.isPresentFile (disk : Disk) (ns key : JsString) : Bool :=
  (disk.lookup (ns, fs.path key)).isSome

/-- Whether a file is below a key's path. -/
def Disk.hasPresentFileUnder (disk : Disk) (ns key : JsString) : Bool :=
  decide (∃ file ∈ disk.keys, file.1 = ns ∧ fs.path key <+: file.2 ∧ fs.path key ≠ file.2)

/-- The conflict a key's path meets. -/
def Disk.conflict (disk : Disk) (ns key : JsString) : Option PathConflict :=
  lexicalConflict key (disk.isPresentFile fs ns) (disk.hasPresentFileUnder fs ns)

variable (rules : SkipRules)

/-- Load one file of the base.  One whose path meets a conflict is forgotten. -/
def loadSeed (st : ReplayState) (s : Seed) : ReplayState :=
  let owned := st.ownership.insert (idOf s.ns s.key.value) s.ownership
  if s.ownership.present then
    match st.disk.conflict fs s.ns s.key.value with
    | some _ => st
    | none =>
      { ownership := owned
        disk :=
          if rules.skipsWrite s.ns s.key.value s.ownership.mark then st.disk
          else st.disk.insert (s.ns, fs.path s.key.value) s.content }
  else { st with ownership := owned }

/-- Whether a conflict keeps a change from being made: a put meeting either is
skipped, and under a file a tombstone has nothing to remove. -/
def blocked (conflict : Option PathConflict) (isPut : Bool) : Bool :=
  match conflict with
  | some .underFile => true
  | some .directory => isPut
  | none => false

/-- Set an ownership that a decision sets. -/
def setNext (ownership : Finmap (fun _ : JsString => FileOwnership)) (id : JsString)
    (next : Option FileOwnership) : Finmap (fun _ : JsString => FileOwnership) :=
  match next with
  | some own => ownership.insert id own
  | none => ownership

/-- Replay one change. -/
def replayChange (ns partition : JsString) (position : ℕ) (st : ReplayState)
    (change : KeyChange) : ReplayState :=
  let key := change.key.value
  if blocked (st.disk.conflict fs ns key) change.put.isSome then st
  else
    match decideFile (st.ownership.lookup (idOf ns key)) partition position change.put.isSome,
      change.put with
    | .write next, some put =>
      { ownership := st.ownership.insert (idOf ns key) next
        disk :=
          if rules.skipsWrite ns key position then st.disk
          else st.disk.insert (ns, fs.path key) ⟨put.content, put.access⟩ }
    | .remove next, _ =>
      { ownership := setNext st.ownership (idOf ns key) next
        disk :=
          if rules.skipsRemoval ns key position then st.disk
          else st.disk.erase (ns, fs.path key) }
    | _, _ => st

/-- Replay one commit. -/
def replayCommit (st : ReplayState) (commit : NetReplayCommit) : ReplayState :=
  commit.changes.foldl (replayChange fs rules commit.ns commit.partition commit.position) st

/-- Load the base, then replay the feed. -/
def replay (disk : Disk) (seeds : List Seed) (feed : List NetReplayCommit) : ReplayState :=
  feed.foldl (replayCommit fs rules) (seeds.foldl (loadSeed fs rules) ⟨∅, disk⟩)

end Replay

end Swamp
