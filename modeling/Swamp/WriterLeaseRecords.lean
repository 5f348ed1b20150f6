import Swamp.JsValue

/-!
# The records of the writer lease

Every fence has up to three records in the store: the fence record its holder
created, a heartbeat, and a mark that it was released.  Their keys are padded to
one width, so that only a key these functions write is read back as one.
-/

namespace Swamp

open Js

def WRITER_LEASE_PREFIX : JsString := js "writer/"

def FENCE_DIGITS : ℕ := 12

def MAX_FENCE : ℕ := 10 ^ FENCE_DIGITS - 1

/-- The kinds of record. -/
inductive LeaseKeyKind where
  | fence
  | heartbeat
  | released
deriving DecidableEq

/-- A kind as its keys spell it. -/
def LeaseKeyKind.text : LeaseKeyKind → JsString
  | .fence => js "fence"
  | .heartbeat => js "heartbeat"
  | .released => js "released"

/-- What the keys of a kind start with. -/
def LeaseKeyKind.stem (kind : LeaseKeyKind) : JsString :=
  WRITER_LEASE_PREFIX ++ (kind.text ++ [unit '-'])

/-- `requireFence`. -/
def isFence (fence : ℕ) : Bool := decide (1 ≤ fence ∧ fence ≤ MAX_FENCE)

/-- `padFence`, of a fence that `requireFence` admits. -/
def padFence (fence : ℕ) : JsString :=
  List.replicate (FENCE_DIGITS - (decimal fence).length) (unit '0') ++ decimal fence

/-- `fenceKey`, `heartbeatKey` and `releasedKey`, of a fence that
`requireFence` admits. -/
def leaseKey (kind : LeaseKeyKind) (fence : ℕ) : JsString := kind.stem ++ padFence fence

/-- Whether a text is a run of `FENCE_DIGITS` digits. -/
def isFenceText (text : JsString) : Bool :=
  decide (text.length = FENCE_DIGITS ∧ ∀ u ∈ text, 48 ≤ u.val ∧ u.val ≤ 57)

/-- The fence of a key of one kind. -/
def fenceOf (kind : LeaseKeyKind) (key : JsString) : Option ℕ :=
  let digits := key.drop kind.stem.length
  let fence := decimalValue digits
  if kind.stem <+: key ∧ isFenceText digits = true ∧ isFence fence = true then some fence else none

/-- `parseWriterLeaseKey`. -/
def parseWriterLeaseKey (key : JsString) : Option (LeaseKeyKind × ℕ) :=
  [LeaseKeyKind.fence, .heartbeat, .released].findSome?
    (fun kind => (fenceOf kind key).map (fun fence => (kind, fence)))

variable {fence : ℕ}

theorem decimal_length_le (h : isFence fence = true) : (decimal fence).length ≤ FENCE_DIGITS := by
  have hrange := of_decide_eq_true h
  have hpos : fence ≠ 0 := by omega
  have hlt : fence < 10 ^ FENCE_DIGITS := by
    have hmax : MAX_FENCE < 10 ^ FENCE_DIGITS := by decide
    omega
  unfold decimal
  rw [if_neg hpos, List.length_reverse, List.length_map]
  exact (Nat.digits_length_le_iff (by decide) fence).mpr hlt

/-- Zeros in front do not change a number. -/
theorem decimalValue_zeros (n : ℕ) (s : JsString) :
    decimalValue (List.replicate n (unit '0') ++ s) = decimalValue s := by
  have hzero : (unit '0').val - 48 = 0 := by decide
  unfold decimalValue digitsValue
  rw [List.map_append, List.map_replicate, hzero, List.reverse_append, List.reverse_replicate,
    Nat.ofDigits_append, Nat.ofDigits_replicate_zero]
  simp

theorem fenceOf_leaseKey (h : isFence fence = true) (kind : LeaseKeyKind) :
    fenceOf kind (leaseKey kind fence) = some fence := by
  have hvalue : decimalValue (padFence fence) = fence := by
    unfold padFence
    rw [decimalValue_zeros, decimalValue_decimal]
  have hlength : (padFence fence).length = FENCE_DIGITS := by
    have hle := decimal_length_le h
    unfold padFence
    rw [List.length_append, List.length_replicate]
    omega
  have htext : isFenceText (padFence fence) = true := by
    refine decide_eq_true ⟨hlength, ?_⟩
    intro u hu
    rcases List.mem_append.mp hu with hzero | hdigit
    · rw [List.eq_of_mem_replicate hzero]
      decide
    · exact digit_of_mem_decimal hdigit
  unfold fenceOf leaseKey
  simp only [List.drop_left, hvalue]
  rw [if_pos ⟨List.prefix_append _ _, htext, h⟩]

/-- No kind's keys start like another's. -/
theorem stem_inj {a b : LeaseKeyKind} {key : JsString} (ha : a.stem <+: key) (hb : b.stem <+: key) :
    a = b := by
  have happart : ∀ a b : LeaseKeyKind, a.stem <+: b.stem → a = b := by
    intro a b h
    cases a <;> cases b <;> first | rfl | exact absurd h (by decide)
  rcases List.prefix_or_prefix_of_prefix ha hb with h | h
  · exact happart a b h
  · exact (happart b a h).symm

/-- **A key reads back** as its kind and fence. -/
theorem parse_leaseKey (h : isFence fence = true) (kind : LeaseKeyKind) :
    parseWriterLeaseKey (leaseKey kind fence) = some (kind, fence) := by
  have hother : ∀ other, other ≠ kind → fenceOf other (leaseKey kind fence) = none := by
    intro other hne
    unfold fenceOf
    simp only
    rw [if_neg]
    intro hstem
    exact hne (stem_inj hstem.1 (List.prefix_append _ _))
  unfold parseWriterLeaseKey
  cases kind with
  | fence => simp [fenceOf_leaseKey h]
  | heartbeat => simp [hother .fence (by decide), fenceOf_leaseKey h]
  | released =>
    simp [hother .fence (by decide), hother .heartbeat (by decide), fenceOf_leaseKey h]

example : leaseKey .fence 7 = js "writer/fence-000000000007" := by decide

/-- What a process can tell of another: only `gone` ends a lease before its
TTL. -/
inductive ProcessVerdict where
  | gone
  | alive
  | unknown
deriving DecidableEq

/-- The identity of a process. -/
structure ProcessIdentity where
  host : JsString
  bootId : Option JsString
  startTime : Option JsString

/-- The holder of a lease. -/
structure WriterLeaseHolder where
  holder : JsString
  hostname : JsString
  pid : ℤ
  process : Option ProcessIdentity

/-- The record of a fence. -/
structure FenceRecord extends WriterLeaseHolder where
  fence : ℕ
  nonce : JsString
  ttlMs : ℤ
  acquiredAt : JsString

/-- What `decode` makes of a value in the store: the fields of an object, or
none for anything else. -/
abbrev LeaseValue := Option (List (JsString × Json))

/-- The integer a JSON value is, when it is a safe one. -/
def safeInt : Json → Option ℤ
  | .num n => if n.den = 1 ∧ n.num.natAbs ≤ maxSafeInteger then some n.num else none
  | _ => none

/-- The text a JSON value is. -/
def jsonText : Option Json → Option JsString
  | some (.str s) => some s
  | _ => none

/-- `encode` of an identity. -/
def ProcessIdentity.fields (identity : ProcessIdentity) : List (JsString × Json) :=
  [(js "host", .str identity.host)] ++
    (identity.bootId.map (fun id => (js "bootId", Json.str id))).toList ++
    (identity.startTime.map (fun time => (js "startTime", Json.str time))).toList

/-- `encode` of a fence record. -/
def FenceRecord.encode (record : FenceRecord) : LeaseValue :=
  some
    ([(js "holder", .str record.holder), (js "hostname", .str record.hostname),
      (js "pid", .num record.pid)] ++
      (record.process.map (fun identity => (js "process", Json.obj identity.fields))).toList ++
      [(js "fence", .num record.fence), (js "nonce", .str record.nonce),
       (js "ttlMs", .num record.ttlMs), (js "acquiredAt", .str record.acquiredAt)])

/-- `encode` of a heartbeat. -/
def encodeHeartbeat (record : FenceRecord) (renewedAt : JsString) : LeaseValue :=
  some [(js "fence", .num record.fence), (js "nonce", .str record.nonce),
    (js "renewedAt", .str renewedAt)]

/-- `encode` of the mark that a fence was released. -/
def encodeReleased (fence : ℕ) (releasedAt who : JsString) : LeaseValue :=
  some [(js "fence", .num fence), (js "releasedAt", .str releasedAt), (js "by", .str who)]

def MAX_IDENTITY_FIELD_LENGTH : ℕ := 1024

/-- `isField`. -/
def isField (text : JsString) : Bool :=
  decide (0 < text.length ∧ text.length ≤ MAX_IDENTITY_FIELD_LENGTH)

/-- A field of an identity that may be missing: `none` when it is malformed. -/
def identityField (value : Option Json) : Option (Option JsString) :=
  match value with
  | none => some none
  | some (.str text) => if isField text then some (some text) else none
  | some _ => none

/-- `parseProcessIdentity`. -/
def parseProcessIdentity (value : Option Json) : Option ProcessIdentity :=
  match value with
  | some (.obj fields) => do
      let host ← (jsonText (Json.field fields (js "host"))).filter isField
      let bootId ← identityField (Json.field fields (js "bootId"))
      let startTime ← identityField (Json.field fields (js "startTime"))
      pure ⟨host, bootId, startTime⟩
  | _ => none

/-- Whether a field is the number of a fence. -/
def namesFence (fields : List (JsString × Json)) (fence : ℕ) : Bool :=
  match Json.field fields (js "fence") with
  | some (.num n) => n == fence
  | _ => false

/-- What the lease's records say. -/
structure WriterLeaseRecords where
  fence : Option ℕ
  record : Option FenceRecord
  renewedAt : Option ℚ
  released : Bool

/-- How a process judges the lease. -/
inductive WriterLeaseVerdict where
  | free
  | held (holderUnknown : Bool)
  | released
  | processGone
  | ttl
  | unreadable

/-- The verdict's kind is `held`. -/
def WriterLeaseVerdict.isHeld : WriterLeaseVerdict → Bool
  | .held _ => true
  | _ => false

section Dates

variable (parseDate : JsString → Option ℚ)

/-- `parseFenceRecord`. -/
def parseFenceRecord (data : Option LeaseValue) (fence : ℕ) : Option FenceRecord := do
  let fields ← data.join
  if namesFence fields fence then
    let holder ← jsonText (Json.field fields (js "holder"))
    let hostname ← jsonText (Json.field fields (js "hostname"))
    let pid ← (Json.field fields (js "pid")).bind safeInt
    let nonce ← jsonText (Json.field fields (js "nonce"))
    let ttlMs ← (Json.field fields (js "ttlMs")).bind safeInt
    let acquiredAt ← (jsonText (Json.field fields (js "acquiredAt"))).filter
      (fun text => (parseDate text).isSome)
    pure
      { holder := holder, hostname := hostname, pid := pid
        process := parseProcessIdentity (Json.field fields (js "process"))
        fence := fence, nonce := nonce, ttlMs := ttlMs, acquiredAt := acquiredAt }
  else none

/-- `parseHeartbeat`: with no nonce to match, any heartbeat of the fence
counts. -/
def parseHeartbeat (data : Option LeaseValue) (fence : ℕ) (nonce : Option JsString) : Option ℚ := do
  let fields ← data.join
  let matching := nonce.all (fun n => jsonText (Json.field fields (js "nonce")) == some n)
  if namesFence fields fence && matching then
    let renewedAt ← jsonText (Json.field fields (js "renewedAt"))
    parseDate renewedAt
  else none

/-- `judgeWriterLease`.  A date that does not parse compares false with
everything, so its lease counts as held. -/
def judgeWriterLease (records : WriterLeaseRecords) (now : ℚ)
    (judgeHolder : FenceRecord → ProcessVerdict) (ttlMs skew : ℚ) : WriterLeaseVerdict :=
  if records.fence.isNone then .free
  else if records.released then .released
  else
    match records.record with
    | none =>
      match records.renewedAt with
      | some renewedAt => if now - renewedAt ≤ ttlMs + skew then .held true else .unreadable
      | none => .unreadable
    | some record =>
      if judgeHolder record = .gone then .processGone
      else
        match parseDate record.acquiredAt with
        | some acquiredAt =>
          let renewedAt := max acquiredAt (records.renewedAt.getD 0)
          if (record.ttlMs : ℚ) + skew < now - renewedAt then .ttl else .held false
        | none => .held false

end Dates

end Swamp
