import Swamp.OrderedMap
import Swamp.SentinelShapes

/-!
# The registry of a run's sentinels

Every pass of a run issues its sentinels into one registry.  An entry holds a value, or
the reference it is loaded from; what is registered under a text has the shape of a
sentinel, and the registry knows its prefix.
-/

namespace Swamp

open Js Shell

namespace Secrets

structure SecretReference where
  vaultName : JsString
  key : JsString

inductive SecretEncoding where
  | raw
  | json
  | number
  | boolean
deriving DecidableEq

/-- `RegistryEntry`, without its sentinel: a value that was shipped, a reference to a
vault, or a secret read through data, by its value or by its reference. -/
inductive RegistryEntry where
  | shipped (value : JsString) (dataOrigin jsonValue : Bool)
  | vaultReference (reference : SecretReference) (encoding : SecretEncoding)
      (location : JsString)
  | dataSecret (value : JsString) (reference : SecretReference) (encoding : SecretEncoding)
      (jsonValue : Bool)
  | dataReference (reference : SecretReference) (encoding : SecretEncoding)
      (location : JsString) (jsonValue : Bool)

namespace RegistryEntry

def dataOrigin : RegistryEntry → Bool
  | shipped _ dataOrigin _ => dataOrigin
  | vaultReference _ _ _ => false
  | dataSecret _ _ _ _ => true
  | dataReference _ _ _ _ => true

/-- The reference of an issued entry. -/
def reference : RegistryEntry → Option SecretReference
  | shipped _ _ _ => none
  | vaultReference reference _ _ => some reference
  | dataSecret _ reference _ _ => some reference
  | dataReference reference _ _ _ => some reference

/-- The encoding of an issued entry. -/
def encoding : RegistryEntry → Option SecretEncoding
  | shipped _ _ _ => none
  | vaultReference _ encoding _ => some encoding
  | dataSecret _ _ encoding _ => some encoding
  | dataReference _ encoding _ _ => some encoding

def location : RegistryEntry → Option JsString
  | shipped _ _ _ => none
  | vaultReference _ _ location => some location
  | dataSecret _ _ _ _ => none
  | dataReference _ _ location _ => some location

/-- The value of an entry that holds one. -/
def heldValue : RegistryEntry → Option JsString
  | shipped value _ _ => some value
  | dataSecret value _ _ _ => some value
  | _ => none

/-- `isJsonValueEntry`. -/
def isJsonValue : RegistryEntry → Bool
  | shipped _ dataOrigin jsonValue => dataOrigin && jsonValue
  | vaultReference _ _ _ => false
  | dataSecret _ _ _ jsonValue => jsonValue
  | dataReference _ _ _ jsonValue => jsonValue

end RegistryEntry

/-- The thirty-two digits of a sentinel. -/
def sentinelPrefix (sentinel : JsString) : JsString := (sentinel.drop SENTINEL_MARK.length).take 32

/-- `SecretBagRegistry`. -/
structure SecretBagRegistry where
  entries : OrderedMap JsString RegistryEntry
  prefixes : List JsString
  shaped : ∀ sentinel, (entries.get sentinel).isSome →
    IsSentinel sentinel ∧ sentinelPrefix sentinel ∈ prefixes

namespace SecretBagRegistry

def empty : SecretBagRegistry where
  entries := OrderedMap.empty
  prefixes := []
  shaped := fun _ h => by cases h

def entryOf (registry : SecretBagRegistry) (sentinel : JsString) : Option RegistryEntry :=
  registry.entries.get sentinel

/-- Whether the set is empty. -/
def isEmpty (registry : SecretBagRegistry) : Bool := registry.entries.entries.isEmpty

/-- `drewPrefixOf`. -/
def drewPrefixOf (registry : SecretBagRegistry) (sentinel : JsString) : Bool :=
  decide (sentinelPattern sentinel = some sentinel.length) &&
    registry.prefixes.contains (sentinelPrefix sentinel)

def drawPrefix (registry : SecretBagRegistry) (drawn : JsString) : SecretBagRegistry where
  entries := registry.entries
  prefixes := if drawn ∈ registry.prefixes then registry.prefixes else registry.prefixes ++ [drawn]
  shaped := by
    intro sentinel h
    obtain ⟨hshape, hmem⟩ := registry.shaped sentinel h
    refine ⟨hshape, ?_⟩
    split
    · exact hmem
    · exact List.mem_append_left _ hmem

/-- `register`; none where it throws, for a text without the shape and for a sentinel
that is there already. -/
def register (registry : SecretBagRegistry) (sentinel : JsString) (entry : RegistryEntry) :
    Option SecretBagRegistry :=
  if hshape : sentinelPattern sentinel = some sentinel.length then
    if (registry.entryOf sentinel).isSome then none
    else
      some
        { entries := registry.entries.set sentinel entry
          prefixes := (registry.drawPrefix (sentinelPrefix sentinel)).prefixes
          shaped := by
            intro other hother
            by_cases hsame : other = sentinel
            · subst hsame
              refine ⟨hshape, ?_⟩
              unfold drawPrefix
              simp only
              split
              · assumption
              · exact List.mem_append_right _ (List.mem_singleton_self _)
            · rw [OrderedMap.get_set_ne _ _ hsame] at hother
              exact (registry.drawPrefix (sentinelPrefix sentinel)).shaped other hother }
  else none

variable {registry : SecretBagRegistry} {sentinel : JsString} {entry : RegistryEntry}

theorem isSentinel_of_entryOf (h : registry.entryOf sentinel = some entry) : IsSentinel sentinel :=
  (registry.shaped sentinel (by
    rw [show registry.entries.get sentinel = some entry from h]
    rfl)).1

theorem drewPrefixOf_of_entryOf (h : registry.entryOf sentinel = some entry) :
    registry.drewPrefixOf sentinel = true := by
  obtain ⟨hshape, hmem⟩ := registry.shaped sentinel (by
    rw [show registry.entries.get sentinel = some entry from h]
    rfl)
  have hexact : sentinelPattern sentinel = some sentinel.length := hshape
  rw [drewPrefixOf, decide_eq_true hexact, Bool.true_and, List.contains_iff_mem]
  exact hmem

theorem entryOf_register {next : SecretBagRegistry}
    (h : registry.register sentinel entry = some next) (other : JsString) :
    next.entryOf other = if other = sentinel then some entry else registry.entryOf other := by
  unfold register at h
  split at h
  · split at h
    · cases h
    · obtain rfl := Option.some.inj h
      exact OrderedMap.get_set _ _ _ _
  · cases h

end SecretBagRegistry

end Secrets

end Swamp
