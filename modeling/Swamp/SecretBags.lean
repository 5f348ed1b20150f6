import Swamp.JsonText
import Swamp.SecretRegistry

/-!
# Bags of secrets

A bag issues sentinels into the registry of its run and resolves those it finds in a
text: an entry that holds its value gives it, any other gives what a load brought.
Recorded secrets in a text are put behind sentinels of their own, in the stretches
between the sentinels that are there already.
-/

namespace Swamp

open Js

namespace Secrets

/-- A stretch of a text between sentinels, or sentinel-shaped text. -/
structure TextSegment where
  text : JsString
  sentinel : Bool

/-- The pieces of a scan, with what is kept between two matches in one segment. -/
def segmentsOf : List (Pattern.Piece CodeUnit) → List TextSegment
  | [] => []
  | .matched run :: rest => ⟨run, true⟩ :: segmentsOf rest
  | .kept u :: rest =>
    match segmentsOf rest with
    | ⟨text, false⟩ :: more => ⟨u :: text, false⟩ :: more
    | more => ⟨[u], false⟩ :: more

def splitOnSentinels (text : JsString) : List TextSegment :=
  segmentsOf (sentinelShape.scan text)

/-- `VaultSecretBag`.  `loaded` is what a load brought; the bag it makes issues nothing. -/
structure VaultSecretBag where
  registry : SecretBagRegistry
  issued : List JsString
  /-- The sentinels of data, by whether the value is JSON and by the value. -/
  dataSentinels : OrderedMap (Bool × JsString) JsString
  counter : ℕ
  drawn : Option JsString
  loaded : Option (OrderedMap JsString JsString)
  held : ∀ key sentinel, dataSentinels.get key = some sentinel →
    (registry.entryOf sentinel).bind RegistryEntry.heldValue = some key.2

namespace VaultSecretBag

/-- A bag that has issued nothing. -/
def new (registry : SecretBagRegistry) : VaultSecretBag where
  registry := registry
  issued := []
  dataSentinels := OrderedMap.empty
  counter := 0
  drawn := none
  loaded := none
  held := nofun

theorem heldValue_register {registry next : SecretBagRegistry} {sentinel other : JsString}
    {entry : RegistryEntry} {value : JsString} (h : registry.register sentinel entry = some next)
    (hnew : registry.entryOf sentinel = none)
    (hheld : (registry.entryOf other).bind RegistryEntry.heldValue = some value) :
    (next.entryOf other).bind RegistryEntry.heldValue = some value := by
  rw [SecretBagRegistry.entryOf_register h]
  split
  · rename_i hsame
    rw [hsame, hnew] at hheld
    cases hheld
  · exact hheld

/-- The sentinel a bag issues next; `fresh` is the prefix it draws when it has none. -/
def nextSentinel (bag : VaultSecretBag) (fresh : JsString) : JsString :=
  sentinelText (bag.drawn.getD fresh) (decimal bag.counter)

/-- The registry a bag issues into, which knows the prefix of the bag. -/
def drawnRegistry (bag : VaultSecretBag) (fresh : JsString) : SecretBagRegistry :=
  match bag.drawn with
  | some _ => bag.registry
  | none => bag.registry.drawPrefix fresh

theorem entryOf_drawnRegistry (bag : VaultSecretBag) (fresh sentinel : JsString) :
    (bag.drawnRegistry fresh).entryOf sentinel = bag.registry.entryOf sentinel := by
  unfold drawnRegistry
  cases bag.drawn <;> rfl

/-- `issue`; none where it throws, for a bag made by a load and for a sentinel that was
issued before. -/
def issue (bag : VaultSecretBag) (fresh : JsString) (entry : RegistryEntry) :
    Option (JsString × VaultSecretBag) :=
  let sentinel := bag.nextSentinel fresh
  if bag.loaded.isSome then none
  else
    match h : (bag.drawnRegistry fresh).register sentinel entry with
    | none => none
    | some registry =>
      some
        (sentinel,
          { registry := registry
            issued := bag.issued ++ [sentinel]
            dataSentinels := bag.dataSentinels
            counter := bag.counter + 1
            drawn := some (bag.drawn.getD fresh)
            loaded := bag.loaded
            held := by
              intro key other hother
              apply heldValue_register h
              · cases hold : (bag.drawnRegistry fresh).entryOf sentinel with
                | none => rfl
                | some old =>
                  rw [SecretBagRegistry.register, hold] at h
                  split at h
                  · cases h
                  · cases h
              · rw [entryOf_drawnRegistry]
                exact bag.held key other hother })

/-- What issuing does: the sentinel was new, it is registered, and the rest stays. -/
theorem issue_spec {bag next : VaultSecretBag} {fresh sentinel : JsString} {entry : RegistryEntry}
    (h : bag.issue fresh entry = some (sentinel, next)) :
    sentinel = bag.nextSentinel fresh ∧ next.loaded = bag.loaded ∧
      next.dataSentinels = bag.dataSentinels ∧ next.counter = bag.counter + 1 ∧
      next.drawn = some (bag.drawn.getD fresh) ∧ bag.registry.entryOf sentinel = none ∧
      ∀ other, next.registry.entryOf other =
        if other = sentinel then some entry else bag.registry.entryOf other := by
  unfold issue at h
  dsimp only at h
  split at h
  · cases h
  · split at h
    · cases h
    · rename_i registry hregister
      obtain ⟨rfl, rfl⟩ := Prod.mk.inj (Option.some.inj h)
      refine ⟨rfl, rfl, rfl, rfl, rfl, ?_, ?_⟩
      · cases hold : bag.registry.entryOf (bag.nextSentinel fresh) with
        | none => rfl
        | some old =>
          rw [← bag.entryOf_drawnRegistry fresh] at hold
          rw [SecretBagRegistry.register, hold] at hregister
          split at hregister
          · cases hregister
          · cases hregister
      · intro other
        rw [SecretBagRegistry.entryOf_register hregister, entryOf_drawnRegistry]

/-- `addDataSecret`: one sentinel for each value. -/
def addDataSecret (bag : VaultSecretBag) (fresh value : JsString) (reference : SecretReference)
    (encoding : SecretEncoding) (jsonValue : Bool) : Option (JsString × VaultSecretBag) :=
  match bag.dataSentinels.get (jsonValue, value) with
  | some sentinel => some (sentinel, bag)
  | none =>
    match h : bag.issue fresh (.dataSecret value reference encoding jsonValue) with
    | none => none
    | some (sentinel, next) =>
      some
        (sentinel,
          { next with
            dataSentinels := next.dataSentinels.set (jsonValue, value) sentinel
            held := by
              intro key other hother
              rw [OrderedMap.get_set] at hother
              split at hother
              · rename_i hkey
                obtain rfl := Option.some.inj hother
                obtain ⟨-, -, -, -, -, -, hentry⟩ := issue_spec h
                rw [hkey, hentry, if_pos rfl]
                rfl
              · exact next.held key other hother })

/-- What an unloaded reference is refused with. -/
def notLoaded (reference : SecretReference) (location : JsString) : JsString :=
  js "The secret '" ++ reference.key ++ js "' in vault '" ++ reference.vaultName ++
    js "' (at " ++ location ++ js ") was not loaded before delivery"

/-- `loadedValueOf`. -/
def loadedValueOf (bag : VaultSecretBag) (sentinel : JsString) (reference : SecretReference)
    (location : JsString) : Except JsString JsString :=
  match bag.loaded.bind (fun values => values.get sentinel) with
  | some value => .ok value
  | none => .error (notLoaded reference location)

/-- A loaded value as its entry's encoding delivers it. -/
def encoded (encoding : SecretEncoding) (value : JsString) : JsString :=
  if encoding = .json then quoteUnits value else value

/-- `valueOf`, with what it throws. -/
def valueOf (bag : VaultSecretBag) (sentinel : JsString) : Except JsString (Option JsString) :=
  match bag.registry.entryOf sentinel with
  | none => .ok none
  | some (.shipped value _ _) => .ok (some value)
  | some (.dataSecret value _ _ _) => .ok (some value)
  | some (.vaultReference reference encoding location) =>
    (bag.loadedValueOf sentinel reference location).map (fun value =>
      some (encoded encoding value))
  | some (.dataReference reference encoding location _) =>
    (bag.loadedValueOf sentinel reference location).map (fun value =>
      some (encoded encoding value))

/-- What a piece of a text is resolved to. -/
def resolvePiece (bag : VaultSecretBag) : Pattern.Piece CodeUnit → Except JsString JsString
  | .kept u => .ok [u]
  | .matched sentinel => (bag.valueOf sentinel).map (fun value => value.getD sentinel)

/-- `resolveRaw`. -/
def resolveRaw (bag : VaultSecretBag) (text : JsString) : Except JsString JsString :=
  ((sentinelShape.scan text).mapM bag.resolvePiece).map List.flatten

/-- A secret recorded with where it came from. -/
structure RecordedSecret where
  value : JsString
  source : SecretReference

/-- The pieces of a scan with what stands between two matches together, empty at an
end where a match is. -/
def partsOf : List (Pattern.Piece CodeUnit) → List JsString
  | [] => [[]]
  | .matched _ :: rest => [] :: partsOf rest
  | .kept u :: rest =>
    match partsOf rest with
    | part :: more => (u :: part) :: more
    | [] => [[u]]

/-- `text.split(form)`. -/
def splitText (form text : JsString) : List JsString :=
  if h : form = [] then text.map (fun u => [u])
  else partsOf ((Pattern.literal form h).scan text)

/-- A part as a segment, unless it is empty. -/
def partSegment (part : JsString) : List TextSegment := if part = [] then [] else [⟨part, false⟩]

/-- The parts of a text with a sentinel between them. -/
def woven (sentinel : JsString) : List JsString → List TextSegment
  | [] => []
  | part :: parts =>
    partSegment part ++ parts.flatMap (fun part => ⟨sentinel, true⟩ :: partSegment part)

/-- One form of a secret put behind its sentinel in every segment. -/
def sentinelizeForm (fresh form : JsString) (source : SecretReference) (encoding : SecretEncoding) :
    List TextSegment → VaultSecretBag → Option (List TextSegment × VaultSecretBag)
  | [], bag => some ([], bag)
  | segment :: rest, bag =>
    if segment.sentinel ∨ ¬ form <:+: segment.text then do
      let (rest, bag) ← sentinelizeForm fresh form source encoding rest bag
      return (segment :: rest, bag)
    else do
      let (sentinel, bag) ← bag.addDataSecret fresh form source encoding false
      let (rest, bag) ← sentinelizeForm fresh form source encoding rest bag
      return (woven sentinel (splitText form segment.text) ++ rest, bag)

/-- The forms of a secret: as it is, and escaped as JSON where that is another text. -/
def formsOf (secret : RecordedSecret) : List (JsString × SecretReference × SecretEncoding) :=
  if quoteUnits secret.value = secret.value then [(secret.value, secret.source, .raw)]
  else [(secret.value, secret.source, .raw), (quoteUnits secret.value, secret.source, .json)]

/-- Forms put behind sentinels in turn. -/
def sentinelizeForms (fresh : JsString) :
    List (JsString × SecretReference × SecretEncoding) → List TextSegment → VaultSecretBag →
      Option (List TextSegment × VaultSecretBag)
  | [], segments, bag => some (segments, bag)
  | (form, source, encoding) :: forms, segments, bag => do
      let (segments, bag) ← sentinelizeForm fresh form source encoding segments bag
      sentinelizeForms fresh forms segments bag

/-- `sentinelizeText`; none where issuing throws. -/
def sentinelizeText (bag : VaultSecretBag) (fresh text : JsString)
    (secrets : List RecordedSecret) : Option (JsString × VaultSecretBag) := do
  let (segments, bag) ← sentinelizeForms fresh (secrets.flatMap formsOf) (splitOnSentinels text) bag
  return (segments.flatMap TextSegment.text, bag)

end VaultSecretBag

/-- A step to a value: the name of a field, or an index. -/
inductive DataStep where
  | key (name : JsString)
  | index (i : ℕ)

/-- `WrittenReference`. -/
structure WrittenReference where
  path : List DataStep
  occurrence : ℕ
  reference : SecretReference
  encoding : SecretEncoding
  dataOrigin : Bool
  jsonValue : Bool

/-- `vaultReferenceText`. -/
def vaultReferenceText (reference : SecretReference) : JsString :=
  js "$\x7b\x7b vault.get('" ++ reference.vaultName ++ js "', '" ++ reference.key ++
    js "') \x7d\x7d"

/-- `countOccurrences`, overlapping ones too. -/
def countOccurrences (text needle : JsString) : ℕ :=
  (List.range text.length).countP (fun i => decide (needle <+: text.drop i))

def unpersistable : JsString := js "A secret bag entry without a reference cannot be persisted"

def noEntry : JsString :=
  js ("A vault secret sentinel of this run has no entry, so its reference cannot " ++
    "be written")

/-- `referenceOf`, at a path after what is written so far. -/
def referenceOf (registry : SecretBagRegistry) (path : List DataStep) (out sentinel : JsString) :
    Except JsString WrittenReference :=
  match registry.entryOf sentinel with
  | none => .error noEntry
  | some entry =>
    match entry.reference, entry.encoding with
    | some reference, some encoding =>
      .ok
        { path := path
          occurrence := countOccurrences out (vaultReferenceText reference)
          reference := reference
          encoding := encoding
          dataOrigin := entry.dataOrigin
          jsonValue := entry.isJsonValue }
    | _, _ => .error unpersistable

/-- The segments of a text written out, a reference for each sentinel whose prefix the
registry drew. -/
def persistSegments (registry : SecretBagRegistry) (path : List DataStep) :
    JsString → List TextSegment → Except JsString (JsString × List WrittenReference)
  | out, [] => .ok (out, [])
  | out, segment :: rest =>
    if segment.sentinel ∧ registry.drewPrefixOf segment.text then do
      let written ← referenceOf registry path out segment.text
      let (out, more) ←
        persistSegments registry path (out ++ vaultReferenceText written.reference) rest
      return (out, written :: more)
    else persistSegments registry path (out ++ segment.text) rest

/-- `persistString`. -/
def persistString (registry : SecretBagRegistry) (text : JsString) (path : List DataStep) :
    Except JsString (JsString × List WrittenReference) :=
  persistSegments registry path [] (splitOnSentinels text)

mutual

/-- `walk`. -/
def persistValue (registry : SecretBagRegistry) (path : List DataStep) :
    Json → Except JsString (Json × List WrittenReference)
  | .str text => do
      let (text, written) ← persistString registry text path
      return (.str text, written)
  | .arr items => do
      let (items, written) ← persistItems registry path 0 items
      return (.arr items, written)
  | .obj fields => do
      let (fields, written) ← persistFields registry path fields
      return (.obj fields, written)
  | .null => .ok (.null, [])
  | .bool b => .ok (.bool b, [])
  | .num n => .ok (.num n, [])

def persistItems (registry : SecretBagRegistry) (path : List DataStep) :
    ℕ → List Json → Except JsString (List Json × List WrittenReference)
  | _, [] => .ok ([], [])
  | i, item :: items => do
      let (item, written) ← persistValue registry (path ++ [.index i]) item
      let (items, more) ← persistItems registry path (i + 1) items
      return (item :: items, written ++ more)

def persistFields (registry : SecretBagRegistry) (path : List DataStep) :
    List (JsString × Json) → Except JsString (List (JsString × Json) × List WrittenReference)
  | [] => .ok ([], [])
  | (name, value) :: fields => do
      let (value, written) ← persistValue registry (path ++ [.key name]) value
      let (fields, more) ← persistFields registry path fields
      return ((name, value) :: fields, written ++ more)

end

/-- `toPersistedForm`, of the sentinels of a run. -/
def toPersistedForm (registry : SecretBagRegistry) (data : Json) :
    Except JsString (Json × List WrittenReference) :=
  if registry.isEmpty then .ok (data, []) else persistValue registry [] data

/-- `SecretOccurrence`. -/
structure SecretOccurrence where
  sentinel : JsString
  start : ℕ
  stop : ℕ
  reference : Option SecretReference
  dataOrigin : Bool
  location : Option JsString

/-- A sentinel's occurrence at a place. -/
def occurrenceAt (sentinel : JsString) (start : ℕ) (entry : RegistryEntry) : SecretOccurrence where
  sentinel := sentinel
  start := start
  stop := start + sentinel.length
  reference := entry.reference
  dataOrigin := entry.dataOrigin
  location := entry.location

/-- The occurrences among pieces, of which the first stands at an index. -/
def occurrencesFrom (registry : SecretBagRegistry) :
    ℕ → List (Pattern.Piece CodeUnit) → List SecretOccurrence
  | _, [] => []
  | i, .kept _ :: rest => occurrencesFrom registry (i + 1) rest
  | i, .matched sentinel :: rest =>
    ((registry.entryOf sentinel).map (occurrenceAt sentinel i)).toList ++
      occurrencesFrom registry (i + sentinel.length) rest

/-- `occurrencesIn`. -/
def occurrencesIn (registry : SecretBagRegistry) (text : JsString) : List SecretOccurrence :=
  if SENTINEL_MARK <:+: text then occurrencesFrom registry 0 (sentinelShape.scan text) else []

end Secrets

end Swamp
