import Swamp.WaitKeyClaims

/-!
# Wait keys exclude each other

Any number of claimants, settlers and collectors share the store, each operation at
any time.  While every create finds its generation taken or above all others of its
key, generations are made once, in order, each over a wait that is closed: settled,
or of a run that a collector selected.
-/

namespace Swamp.SignalWaits

open Js Interleaving

/-- What a party is left with. -/
inductive Answer where
  | claimed (request : WaitKeyRequest) (acquisition : WaitKeyAcquisition)
  | done

section

variable (codec : Codec) (runOf : JsString → JsString)

def claimant (request : WaitKeyRequest) (now : Instant) : Async Answer := do
  return .claimed request (← claimWaitKey codec request now)

def settler (outcome : WaitOutcome) : Async Answer := do
  let _ ← settle outcome
  return .done

/-- A collector selects runs, and removes what waits left of them. -/
def collector (runIds : List JsString) (now : Instant) : Async Answer := do
  let _ ← (Prog.perform (Op.select runIds) : Async Unit)
  let _ ← removeWaitRecordsOfRuns runIds now
  return .done

def registrar (registration : WaitRegistration) : Async Answer := do
  let _ ← register registration
  return .done

/-- One who stores a pending signal, or its lapse. -/
def sender (record : PendingRecord) : Async Answer := do
  let _ ← createPendingRecord record
  return .done

/-- Who shares the store.  A wait is of one run, and what is written for it says
so. -/
inductive Party : Async Answer → Prop
  | claimant (request : WaitKeyRequest) (now : Instant)
      (hrun : request.runId = runOf request.waitId) : Party (claimant codec request now)
  | settler (outcome : WaitOutcome) (hrun : outcome.runId = runOf outcome.waitId) :
      Party (settler outcome)
  | collector (runIds : List JsString) (now : Instant) : Party (collector runIds now)
  | registrar (registration : WaitRegistration)
      (hrun : registration.runId = runOf registration.waitId) : Party (registrar registration)
  | sender (record : PendingRecord) : Party (sender record)

/-- Any number of parties. -/
def machine : Machine Op Op.Res World Answer where
  exec := fun _ => exec codec
  starts := fun _ p => Party codec runOf p
  resume := fun _ => none

/-- A create of a key record finds its generation taken, or above all that the key
has. -/
def FreshCreate : Op → World → Prop
  | .putKeyRecord record, w =>
    (w.keyRecords record.under record.generation).isSome ∨
      ∀ generation, (w.keyRecords record.under generation).isSome →
        generation < record.generation
  | _, _ => True

/-- The runs whose creates are all so. -/
def freshMachine : Machine Op Op.Res World Answer := (machine codec runOf).restrict FreshCreate

end

/-- Nothing is stored, and nobody is there yet. -/
def initial : Config Op Op.Res World Answer := ⟨World.empty, []⟩

/-- A key record was created. -/
def World.Created (w : World) (record : WaitKeyRecord) : Prop := .keyRecord record ∈ w.written

section

variable (runOf : JsString → JsString)

/-- A wait is closed: it has an outcome, or a collector selected its run. -/
def Closed (w : World) (waitId : JsString) : Prop :=
  (w.outcomes waitId).isSome ∨ runOf waitId ∈ w.selected

/-- Generations are made once and the highest is stored; a claim with a generation
above it is of a wait that is closed. -/
structure KeysInv (w : World) : Prop where
  positive : ∀ r, w.Created r → 1 ≤ r.generation
  unique : ∀ r r', w.Created r → w.Created r' → r.under = r'.under →
    r.generation = r'.generation → r = r'
  stored : ∀ under generation r, w.keyRecords under generation = some r →
    w.Created r ∧ r.under = under ∧ r.generation = generation
  top : ∀ r, w.Created r → ∃ m, w.keyRecords r.under m.generation = some m ∧
    ∀ r', w.Created r' → r'.under = r.under → r'.generation ≤ m.generation
  closed : ∀ claim r, w.Created (.claim claim) → w.Created r → r.under = claim.under →
    claim.generation < r.generation → Closed runOf w claim.waitId
  claims : ∀ claim, w.Created (.claim claim) → claim.runId = runOf claim.waitId
  outcomes : ∀ waitId outcome, w.outcomes waitId = some outcome →
    outcome.waitId = waitId ∧ outcome.runId = runOf waitId
  registrations : ∀ waitId registration, w.registrations waitId = some registration →
    registration.waitId = waitId ∧ registration.runId = runOf waitId

/-- Records are only added to those created, and what is closed stays closed. -/
structure Later (w w' : World) : Prop where
  written : w.written ⊆ w'.written
  closed : ∀ waitId, Closed runOf w waitId → Closed runOf w' waitId
  selected : w.selected ⊆ w'.selected

/-- The discipline of key records. -/
def keysDiscipline : Discipline World where
  inv := KeysInv runOf
  later := Later runOf
  refl := fun _ => ⟨List.Subset.refl _, fun _ h => h, fun _ h => h⟩
  trans := fun hab hbc =>
    ⟨List.Subset.trans hab.written hbc.written, fun id h => hbc.closed id (hab.closed id h),
      fun _ h => hbc.selected (hab.selected h)⟩

end

variable {record r : WaitKeyRecord} {claim : WaitKeyClaim} {under : WaitKey} {generation : ℕ}

section

variable {codec : Codec} {runOf : JsString → JsString} {w w' : World}

theorem KeysInv.empty : KeysInv runOf World.empty where
  positive := fun r h => by cases h
  unique := fun r r' h => by cases h
  stored := fun under generation r h => by cases h
  top := fun r h => by cases h
  closed := fun claim r h => by cases h
  claims := fun claim h => by cases h
  outcomes := fun waitId outcome h => by cases h
  registrations := fun waitId registration h => by cases h

/-- A record may follow: it is the first of its key, or next after one that is no
claim of an open wait. -/
def Follows (runOf : JsString → JsString) (w : World) (record : WaitKeyRecord) : Prop :=
  record.generation = 1 ∨ ∃ before, w.Created before ∧ before.under = record.under ∧
    before.generation + 1 = record.generation ∧
    ∀ claim, before = .claim claim → Closed runOf w claim.waitId

theorem Follows.later (h : Follows runOf w record) (hle : Later runOf w w') :
    Follows runOf w' record := by
  rcases h with hfirst | ⟨before, hcreated, hunder, hnext, hclosed⟩
  · exact Or.inl hfirst
  · exact Or.inr ⟨before, hle.written hcreated, hunder, hnext,
      fun claim hclaim => hle.closed _ (hclosed claim hclaim)⟩

theorem KeysInv.keep (hinv : KeysInv runOf w) (hmem : ∀ r, w'.Created r ↔ w.Created r)
    (hkeys : w'.keyRecords = w.keyRecords)
    (hclosed : ∀ id, Closed runOf w id → Closed runOf w' id)
    (houtcomes : ∀ waitId outcome, w'.outcomes waitId = some outcome →
      outcome.waitId = waitId ∧ outcome.runId = runOf waitId)
    (hregistrations : ∀ waitId registration, w'.registrations waitId = some registration →
      registration.waitId = waitId ∧ registration.runId = runOf waitId) : KeysInv runOf w' where
  positive := fun r hr => hinv.positive r ((hmem r).mp hr)
  unique := fun r r' hr hr' => hinv.unique r r' ((hmem r).mp hr) ((hmem r').mp hr')
  stored := by
    intro under generation r hr
    rw [hkeys] at hr
    obtain ⟨hcreated, hrest⟩ := hinv.stored under generation r hr
    exact ⟨(hmem r).mpr hcreated, hrest⟩
  top := by
    intro r hr
    obtain ⟨m, hm, hmax⟩ := hinv.top r ((hmem r).mp hr)
    rw [hkeys]
    exact ⟨m, hm, fun r' hr' => hmax r' ((hmem r').mp hr')⟩
  closed := fun claim r hc hr hunder hlt =>
    hclosed _ (hinv.closed claim r ((hmem _).mp hc) ((hmem r).mp hr) hunder hlt)
  claims := fun claim hc => hinv.claims claim ((hmem _).mp hc)
  outcomes := houtcomes
  registrations := hregistrations

theorem created_note {written : Written} (hother : ∀ r, written ≠ .keyRecord r)
    (r : WaitKeyRecord) : (w.note written).Created r ↔ w.Created r := by
  unfold World.Created World.note
  rw [List.mem_append, List.mem_singleton]
  exact or_iff_left (fun heq => hother r heq.symm)

theorem KeysInv.above (hinv : KeysInv runOf w)
    (habove : ∀ generation, (w.keyRecords record.under generation).isSome →
      generation < record.generation) (hcreated : w.Created r) (hunder : r.under = record.under) :
    r.generation < record.generation := by
  obtain ⟨m, hm, hmax⟩ := hinv.top r hcreated
  rw [hunder] at hm
  have hlt := habove m.generation (by rw [hm]; rfl)
  have hle := hmax r hcreated rfl
  omega

/-- What precedes a record that is above all others is the highest. -/
theorem KeysInv.closed_below (hinv : KeysInv runOf w) (hfollows : Follows runOf w record)
    (habove : ∀ generation, (w.keyRecords record.under generation).isSome →
      generation < record.generation) (hcreated : w.Created (.claim claim))
    (hunder : claim.under = record.under) : Closed runOf w claim.waitId := by
  have hbelow : claim.generation < record.generation := hinv.above habove hcreated hunder
  rcases hfollows with hfirst | ⟨before, hbefore, hsame, hnext, hclosed⟩
  · have hpos : 1 ≤ claim.generation := hinv.positive _ hcreated
    omega
  · by_cases hlast : claim.generation = before.generation
    · have heq := hinv.unique before (.claim claim) hbefore hcreated
        (by rw [hsame]; exact hunder.symm) hlast.symm
      exact hclosed claim heq
    · refine hinv.closed claim before hcreated hbefore (by rw [hsame]; exact hunder.symm) ?_
      omega

/-- **Creating a key record** above all others of its key. -/
theorem KeysInv.put (hinv : KeysInv runOf w) (hpos : 1 ≤ record.generation)
    (hclaim : ∀ claim, record = .claim claim → claim.runId = runOf claim.waitId)
    (hfollows : Follows runOf w record)
    (habove : ∀ generation, (w.keyRecords record.under generation).isSome →
      generation < record.generation) :
    KeysInv runOf ((w.setKeyRecord record.under record.generation (some record)).note
      (.keyRecord record)) := by
  have hmem : ∀ r, ((w.setKeyRecord record.under record.generation (some record)).note
      (.keyRecord record)).Created r ↔ w.Created r ∨ r = record := by
    intro r
    unfold World.Created World.note World.setKeyRecord
    rw [List.mem_append, List.mem_singleton, Written.keyRecord.injEq]
  have hsame : ∀ id, Closed runOf ((w.setKeyRecord record.under record.generation
      (some record)).note (.keyRecord record)) id ↔ Closed runOf w id := fun _ => Iff.rfl
  constructor
  case positive =>
    intro r hr
    rcases (hmem r).mp hr with hold | rfl
    · exact hinv.positive r hold
    · exact hpos
  case unique =>
    intro r r' hr hr' hunder hgeneration
    rcases (hmem r).mp hr with hold | rfl
    · rcases (hmem r').mp hr' with hold' | rfl
      · exact hinv.unique r r' hold hold' hunder hgeneration
      · have hlt := hinv.above habove hold hunder
        omega
    · rcases (hmem r').mp hr' with hold' | rfl
      · have hlt := hinv.above habove hold' hunder.symm
        omega
      · rfl
  case stored =>
    intro under generation r hr
    unfold World.note World.setKeyRecord at hr
    simp only at hr
    split at hr
    · rename_i hhere
      obtain rfl := Option.some.inj hr
      exact ⟨(hmem _).mpr (Or.inr rfl), hhere.1.symm, hhere.2.symm⟩
    · obtain ⟨hcreated, hrest⟩ := hinv.stored under generation r hr
      exact ⟨(hmem _).mpr (Or.inl hcreated), hrest⟩
  case top =>
    intro r hr
    by_cases hunder : r.under = record.under
    · refine ⟨record, ?_, ?_⟩
      · unfold World.note World.setKeyRecord
        simp [hunder]
      · intro r' hr' hunder'
        rcases (hmem r').mp hr' with hold | rfl
        · exact Nat.le_of_lt (hinv.above habove hold (hunder'.trans hunder))
        · exact Nat.le_refl _
    · have hold : w.Created r := ((hmem r).mp hr).resolve_right (fun heq => hunder (heq ▸ rfl))
      obtain ⟨m, hm, hmax⟩ := hinv.top r hold
      refine ⟨m, ?_, ?_⟩
      · unfold World.note World.setKeyRecord
        simp only
        rw [if_neg (fun h => hunder h.1)]
        exact hm
      · intro r' hr' hunder'
        rcases (hmem r').mp hr' with hold' | rfl
        · exact hmax r' hold' hunder'
        · exact absurd hunder'.symm hunder
  case closed =>
    intro claim r hc hr hunder hlt
    rw [hsame]
    rcases (hmem _).mp hc with hold | hnew
    · rcases (hmem r).mp hr with hold' | rfl
      · exact hinv.closed claim r hold hold' hunder hlt
      · exact hinv.closed_below hfollows habove hold hunder.symm
    · rcases (hmem r).mp hr with hold' | rfl
      · have hbelow : r.generation < record.generation :=
          hinv.above habove hold' (by rw [hunder, ← hnew]; rfl)
        rw [← hnew] at hbelow
        exact absurd (Nat.lt_trans hlt hbelow) (Nat.lt_irrefl _)
      · rw [← hnew] at hlt
        exact absurd hlt (Nat.lt_irrefl _)
  case claims =>
    intro claim hc
    rcases (hmem _).mp hc with hold | hnew
    · exact hinv.claims claim hold
    · exact hclaim claim hnew.symm
  case outcomes => exact hinv.outcomes
  case registrations => exact hinv.registrations

/-- **Removing a key record** below one that was created. -/
theorem KeysInv.delete (hinv : KeysInv runOf w) {above : WaitKeyRecord} (habove : w.Created above)
    (hunder : above.under = under) (hlt : generation < above.generation) :
    KeysInv runOf (w.setKeyRecord under generation none) where
  positive := hinv.positive
  unique := hinv.unique
  stored := by
    intro u g r hr
    unfold World.setKeyRecord at hr
    simp only at hr
    split at hr
    · cases hr
    · exact hinv.stored u g r hr
  top := by
    intro r hr
    obtain ⟨m, hm, hmax⟩ := hinv.top r hr
    refine ⟨m, ?_, hmax⟩
    unfold World.setKeyRecord
    simp only
    rw [if_neg]
    · exact hm
    · intro h
      have hle := hmax above habove (hunder.trans h.1.symm)
      omega
  closed := hinv.closed
  claims := hinv.claims
  outcomes := hinv.outcomes
  registrations := hinv.registrations

end

variable {waitId : JsString}

section

variable {codec : Codec} {runOf : JsString → JsString} {t : ℕ}

/-- Judgement of a program whose creates are fresh. -/
abbrev Keeps (codec : Codec) (runOf : JsString → JsString) (t : ℕ) {α : Type}
    (Q : α → World → Prop) (p : Async α) (w : World) : Prop :=
  Safe (freshMachine codec runOf) (keysDiscipline runOf) t Q p w

theorem Later.refl (w : World) : Later runOf w w := (keysDiscipline runOf).refl w

/-- An operation that only reads. -/
theorem read_keeps {op : Op} {Q : op.Res → World → Prop} {w : World}
    (hread : ∀ w r w', exec codec op w r w' → w' = w)
    (h : ∀ w', Later runOf w w' → KeysInv runOf w' → ∀ r, exec codec op w' r w' →
      ∀ w'', Later runOf w' w'' → KeysInv runOf w'' → Q r w'') :
    Keeps codec runOf t Q (Prog.perform op) w := by
  apply Safe.perform
  intro w' hle hinv r w'' hexec
  have hsame := hread _ _ _ hexec.2
  subst hsame
  exact ⟨hinv, Later.refl _, h _ hle hinv r hexec.2⟩

/-- A program of which nothing is asked. -/
theorem pure_keeps {α : Type} {a : α} {w : World} :
    Keeps codec runOf t (fun _ _ => True) (pure a) w := fun _ _ _ => trivial

/-- What was read at an address of the store. -/
def KeyRead (under : WaitKey) (generation : ℕ) (stored : Stored WaitKeyRecord) (w : World) : Prop :=
  stored = .absent ∨ ∃ r, w.Created r ∧ r.under = under ∧ r.generation = generation ∧
    (stored = .found r ∨ stored = .unreadable)

theorem KeyRead.found {w : World} (h : KeyRead under generation (.found record) w) :
    w.Created record ∧ record.under = under ∧ record.generation = generation := by
  rcases h with habsent | ⟨r, hcreated, hunder, hgeneration, hread⟩
  · cases habsent
  · rcases hread with hfound | hunreadable
    · obtain rfl := Stored.found.inj hfound
      exact ⟨hcreated, hunder, hgeneration⟩
    · cases hunreadable

theorem findKeyRecord_keeps (under : WaitKey) (generation : ℕ) (w : World) :
    Keeps codec runOf t (KeyRead under generation) (findKeyRecord under generation) w := by
  refine read_keeps (fun _ _ _ h => h.2) ?_
  intro w' _ hinv r hexec w'' hle _
  obtain ⟨hr, -⟩ := hexec
  rw [hr]
  cases hstored : w'.keyRecords under generation with
  | none => exact Or.inl rfl
  | some record =>
    obtain ⟨hcreated, hunder, hgeneration⟩ := hinv.stored under generation record hstored
    refine Or.inr ⟨record, hle.written hcreated, hunder, hgeneration, ?_⟩
    unfold decode
    simp only
    split
    · exact Or.inl rfl
    · exact Or.inr rfl

/-- The highest record of a key was created under it. -/
def HighestRead (under : WaitKey) (highest : HighestKeyRecord) (w : World) : Prop :=
  ∀ record, highest = .found record → w.Created record ∧ record.under = under

theorem readHighestKey_keeps (under : WaitKey) (reads generation : ℕ) (w : World) :
    Keeps codec runOf t (HighestRead under) (readHighestKey under reads generation) w := by
  induction reads generalizing generation w with
  | zero =>
    intro w' _ _ record hrecord
    cases hrecord
  | succ reads ih =>
    refine Safe.bind (read_keeps (fun _ _ _ h => h.2) ?_)
    intro w' _ _ listed _ w'' _ _
    dsimp only
    split
    · intro _ _ _ record hrecord
      cases hrecord
    · refine Safe.bind (Safe.mono (findKeyRecord_keeps under _ w'') ?_)
      intro stored w₃ _ _ hread
      cases stored with
      | absent => exact ih _ w₃
      | unreadable =>
        intro _ _ _ record hrecord
        cases hrecord
      | found record =>
        intro w₄ hle hinv other hother
        cases hother
        obtain ⟨hcreated, hunder, -⟩ := (hread w₄ hle hinv).found
        exact ⟨hcreated, hunder⟩

theorem highestKeyRecord_keeps (under : WaitKey) (w : World) :
    Keeps codec runOf t (HighestRead under) (highestKeyRecord under) w :=
  readHighestKey_keeps under _ _ w

/-- **Creating a record** that may follow. -/
theorem createKeyRecord_keeps {w : World} (hpos : 1 ≤ record.generation)
    (hclaim : ∀ claim, record = .claim claim → claim.runId = runOf claim.waitId)
    (hfollows : Follows runOf w record) :
    Keeps codec runOf t (KeyRead record.under record.generation) (createKeyRecord record) w := by
  refine Safe.bind (Safe.perform ?_)
  intro w' hle hinv r w'' hexec
  obtain ⟨hfresh, hput⟩ := hexec
  unfold machine exec at hput
  simp only at hput
  split at hput
  · subst hput
    exact ⟨hinv, Later.refl _, fun w₃ _ _ => findKeyRecord_keeps _ _ w₃⟩
  · rename_i habsent
    subst hput
    have habove := hfresh.resolve_left habsent
    refine ⟨hinv.put hpos hclaim (hfollows.later hle) habove, ⟨?_, fun _ h => h, fun _ h => h⟩,
      fun w₃ _ _ => findKeyRecord_keeps _ _ w₃⟩
    exact List.subset_append_left _ _

/-- **Removing a record** below one that was created. -/
theorem removeKeyRecord_keeps {above : WaitKeyRecord} {w : World} (habove : w.Created above)
    (hunder : above.under = under) (hlt : generation < above.generation) :
    Keeps codec runOf t (fun _ _ => True) (removeKeyRecord under generation) w := by
  apply Safe.perform
  intro w' hle hinv r w'' hexec
  obtain rfl := hexec.2
  exact ⟨hinv.delete (hle.written habove) hunder hlt,
    ⟨List.Subset.refl _, fun _ h => h, fun _ h => h⟩, fun _ _ _ => trivial⟩

theorem readKeyRecords_keeps (listed : List (WaitKey × ℕ)) (w : World) :
    Keeps codec runOf t (fun records w => ∀ r ∈ records, w.Created r) (readKeyRecords listed) w := by
  induction listed generalizing w with
  | nil =>
    intro w' _ _ r hr
    cases hr
  | cons first rest ih =>
    refine Safe.bind (Safe.mono (findKeyRecord_keeps first.1 first.2 w) ?_)
    intro stored w' _ _ hread
    cases stored with
    | absent | unreadable => exact ih w'
    | found record =>
      refine Safe.bind (Safe.mono (ih w') ?_)
      intro records w₃ hle hinv hrecords w₄ hle' hinv' r hr
      rcases List.mem_cons.mp hr with rfl | hmem
      · exact (hread w₄ ((keysDiscipline runOf).trans hle hle') hinv').found.1
      · exact hrecords w₄ hle' hinv' r hmem

theorem listKeyRecords_keeps (w : World) :
    Keeps codec runOf t (fun records w => ∀ r ∈ records, w.Created r) listKeyRecords w :=
  Safe.bind (read_keeps (fun _ _ _ h => h.2) (fun _ _ _ listed _ w'' _ _ =>
    readKeyRecords_keeps listed w''))

/-- What is stored under a wait closes it. -/
def ClosedBy (runOf : JsString → JsString) (waitId : JsString) (stored : Stored WaitOutcome)
    (w : World) : Prop :=
  stored = .absent ∨ Closed runOf w waitId

theorem findOutcome_keeps (waitId : JsString) (w : World) :
    Keeps codec runOf t (fun stored w => ClosedBy runOf waitId stored w ∧
      ∀ outcome, stored = .found outcome → outcome.waitId = waitId ∧ outcome.runId = runOf waitId)
      (findOutcome waitId) w := by
  refine read_keeps (fun _ _ _ h => h.2) ?_
  intro w' _ hinv r hexec w'' hle _
  obtain ⟨hr, -⟩ := hexec
  rw [hr]
  cases hstored : w'.outcomes waitId with
  | none => exact ⟨Or.inl rfl, fun outcome h => by cases h⟩
  | some outcome =>
    have hclosed : Closed runOf w' waitId := Or.inl (by rw [hstored]; rfl)
    refine ⟨Or.inr (hle.closed _ hclosed), ?_⟩
    intro other hother
    unfold decode at hother
    simp only at hother
    split at hother
    · obtain rfl := Stored.found.inj hother
      exact hinv.outcomes waitId outcome hstored
    · cases hother

theorem KeysInv.putOutcome {w : World} (hinv : KeysInv runOf w) {outcome : WaitOutcome}
    (hrun : outcome.runId = runOf outcome.waitId) :
    KeysInv runOf ((w.setOutcome outcome.waitId (some outcome)).note (.outcome outcome)) ∧
      Later runOf w ((w.setOutcome outcome.waitId (some outcome)).note (.outcome outcome)) := by
  have hclosed : ∀ id, Closed runOf w id →
      Closed runOf ((w.setOutcome outcome.waitId (some outcome)).note (.outcome outcome)) id := by
    intro id h
    rcases h with hsome | hselected
    · apply Or.inl
      unfold World.note World.setOutcome
      simp only
      split
      · rfl
      · exact hsome
    · exact Or.inr hselected
  refine ⟨?_, ⟨List.subset_append_left _ _, hclosed, fun _ h => h⟩⟩
  refine hinv.keep (created_note (fun r h => by cases h)) rfl hclosed ?_ hinv.registrations
  intro id o ho
  unfold World.note World.setOutcome at ho
  simp only at ho
  split at ho
  · rename_i hid
    obtain rfl := Option.some.inj ho
    rw [hid]
    exact ⟨rfl, hrun⟩
  · exact hinv.outcomes id o ho

/-- **Settling a wait** closes it. -/
theorem settle_keeps {outcome : WaitOutcome} (hrun : outcome.runId = runOf outcome.waitId)
    (w : World) :
    Keeps codec runOf t (ClosedBy runOf outcome.waitId) (settle outcome) w := by
  refine Safe.bind (Safe.perform ?_)
  intro w' _ hinv r w'' hexec
  have hput := hexec.2
  have hfind : ∀ w₃, Keeps codec runOf t (ClosedBy runOf outcome.waitId)
      (findOutcome outcome.waitId) w₃ := fun w₃ =>
    Safe.mono (findOutcome_keeps outcome.waitId w₃)
      (fun _ w₄ _ hinv₄ h => (h w₄ (Later.refl _) hinv₄).1)
  unfold machine exec at hput
  simp only at hput
  split at hput
  · subst hput
    exact ⟨hinv, Later.refl _, fun w₃ _ _ => hfind w₃⟩
  · subst hput
    obtain ⟨hinv', hle⟩ := hinv.putOutcome hrun
    exact ⟨hinv', hle, fun w₃ _ _ => hfind w₃⟩

theorem readHighestPending_keeps (at_ : PendingSlot) (reads number : ℕ) (w : World) :
    Keeps codec runOf t (fun _ _ => True) (readHighestPending at_ reads number) w := by
  induction reads generalizing number w with
  | zero => exact pure_keeps
  | succ reads ih =>
    refine Safe.bind (read_keeps (fun _ _ _ h => h.2) ?_)
    intro w' _ _ listed _ w'' _ _
    dsimp only
    split
    · exact pure_keeps
    · refine Safe.bind (read_keeps (fun _ _ _ h => h.2) ?_)
      intro w₃ _ _ stored _ w₄ _ _
      cases stored with
      | absent => exact ih _ w₄
      | unreadable | found record => exact pure_keeps

theorem applicableOf_keeps {ref : EarlyWaitRef} (hrun : ref.runId = runOf ref.waitId)
    (slots : List ℕ) (w : World) :
    Keeps codec runOf t (fun found _ => ∀ outcome, found = some outcome →
      outcome.waitId = ref.waitId ∧ outcome.runId = runOf outcome.waitId)
      (applicableOf codec ref slots) w := by
  induction slots generalizing w with
  | nil =>
    intro w' _ _ outcome h
    cases h
  | cons slot rest ih =>
    refine Safe.bind (Safe.mono (readHighestPending_keeps _ _ _ w) ?_)
    intro highest w' _ _ _
    cases hfound : outcomeOfHighest codec ref highest with
    | none => exact ih w'
    | some outcome =>
      intro w'' _ _ other hother
      obtain rfl := Option.some.inj hother
      have hmade : outcome.waitId = ref.waitId ∧ outcome.runId = ref.runId := by
        unfold outcomeOfHighest at hfound
        split at hfound
        · unfold pendingOutcome at hfound
          split at hfound
          · cases hfound
          · split at hfound
            · cases hfound
            · split at hfound
              · cases hfound
              · obtain ⟨payload, -, rfl⟩ := Option.map_eq_some_iff.mp hfound
                exact ⟨rfl, rfl⟩
        · cases hfound
      rw [hmade.1, hmade.2]
      exact ⟨rfl, hrun⟩

theorem takePendingSignal_keeps {ref : EarlyWaitRef} (hrun : ref.runId = runOf ref.waitId)
    (w : World) :
    Keeps codec runOf t (ClosedBy runOf ref.waitId) (takePendingSignal codec ref) w := by
  refine Safe.bind (Safe.mono (applicableOf_keeps hrun _ w) ?_)
  intro found w' _ hinv hfound
  cases found with
  | none => exact fun _ _ _ => Or.inl rfl
  | some outcome =>
    obtain ⟨hwait, hout⟩ := hfound w' (Later.refl _) hinv outcome rfl
    rw [← hwait]
    exact settle_keeps hout w'

theorem ownOutcome_closed {stored : Stored WaitOutcome} {w : World}
    (h : ClosedBy runOf waitId stored w) : ClosedBy runOf waitId (ownOutcome claim stored) w := by
  rcases h with rfl | hclosed
  · exact Or.inl rfl
  · exact Or.inr hclosed

theorem takeForClaim_keeps (hrun : claim.runId = runOf claim.waitId) (w : World) :
    Keeps codec runOf t (ClosedBy runOf claim.waitId) (takeForClaim codec claim) w := by
  unfold takeForClaim
  cases claim.early with
  | none => exact fun _ _ _ => Or.inl rfl
  | some early =>
    refine Safe.bind (read_keeps (fun _ _ _ h => h.2) ?_)
    intro w' _ _ stored _ w'' _ _
    cases stored with
    | absent | unreadable => exact fun _ _ _ => Or.inl rfl
    | found registration =>
      dsimp only
      split
      · refine Safe.bind (Safe.mono (takePendingSignal_keeps hrun w'') ?_)
        intro taken w₃ _ _ htaken w₄ hle hinv
        exact ownOutcome_closed (htaken w₄ hle hinv)
      · exact fun _ _ _ => Or.inl rfl

theorem expire_keeps (hrun : claim.runId = runOf claim.waitId) (now : Instant) (w : World) :
    Keeps codec runOf t (ClosedBy runOf claim.waitId) (expire claim now) w := by
  unfold expire
  split
  · exact fun _ _ _ => Or.inl rfl
  · refine Safe.bind (Safe.mono (@settle_keeps codec runOf t (timedOutOutcome claim now) hrun w) ?_)
    intro stored w' _ _ hstored w'' hle hinv
    exact ownOutcome_closed (hstored w'' hle hinv)

theorem outcomeOfClaim_keeps (hrun : claim.runId = runOf claim.waitId) (now : Instant) (w : World) :
    Keeps codec runOf t (ClosedBy runOf claim.waitId) (outcomeOfClaim codec claim now) w := by
  refine Safe.bind (Safe.mono (findOutcome_keeps claim.waitId w) ?_)
  intro stored w' _ _ hstored
  cases hown : ownOutcome claim stored with
  | absent =>
    refine Safe.bind (Safe.mono (takeForClaim_keeps hrun w') ?_)
    intro taken w'' _ _ htaken
    cases taken with
    | absent => exact expire_keeps hrun now w''
    | found outcome | unreadable => exact htaken
  | found outcome | unreadable =>
    intro w'' hle hinv
    rw [← hown]
    exact ownOutcome_closed (hstored w'' hle hinv).1

theorem settleAbandoned_keeps (hrun : claim.runId = runOf claim.waitId) (now : Instant) (w : World)
    : Keeps codec runOf t (fun _ _ => True) (settleAbandoned claim now) w := by
  unfold settleAbandoned
  split
  · exact pure_keeps
  · refine Safe.bind (read_keeps (fun _ _ _ h => h.2) ?_)
    intro w' _ _ stored _ w'' _ _
    cases stored with
    | absent =>
      refine Safe.bind (Safe.mono
        (@settle_keeps codec runOf t (cancelledOutcome claim now) hrun w'') ?_)
      intro settled w₃ _ _ _
      cases settled with
      | absent | found outcome | unreadable => exact pure_keeps
    | found registration | unreadable => exact pure_keeps

/-- A record over which a claim may be made: none, or one created under the key
that is no claim of an open wait. -/
def Free (runOf : JsString → JsString) (under : WaitKey) (highest : Option WaitKeyRecord)
    (w : World) : Prop :=
  ∀ record, highest = some record → w.Created record ∧ record.under = under ∧
    ∀ claim, record = .claim claim → Closed runOf w claim.waitId

variable {highest : Option WaitKeyRecord}

theorem holderOf_keeps {w : World} (hinv : KeysInv runOf w)
    (hhighest : ∀ record, highest = some record → w.Created record ∧ record.under = under)
    (now : Instant) :
    Keeps codec runOf t (fun holder w => (∀ claim, holder = some claim → highest = some (.claim
      claim)) ∧ (holder = none → Free runOf under highest w)) (holderOf codec highest now) w := by
  unfold holderOf
  split
  · rename_i claim
    obtain ⟨hcreated, hunder⟩ := hhighest _ rfl
    refine Safe.bind (Safe.mono (outcomeOfClaim_keeps (hinv.claims claim hcreated) now w) ?_)
    intro stored w' hle _ hstored w'' hle' hinv'
    have hclosed := hstored w'' hle' hinv'
    refine ⟨?_, ?_⟩
    · intro other hother
      cases stored with
      | absent => rw [← Option.some.inj hother]
      | found outcome | unreadable => cases hother
    · intro hnone record hrecord
      obtain rfl := Option.some.inj hrecord
      refine ⟨hle'.written (hle.written hcreated), hunder, ?_⟩
      intro other hother
      obtain rfl := WaitKeyRecord.claim.inj hother
      rcases hclosed with rfl | hclosed
      · cases hnone
      · exact hclosed
  · rename_i hnotClaim
    intro w' hle _
    refine ⟨?_, ?_⟩
    · intro claim hclaim
      unfold decideKeyHolder at hclaim
      split at hclaim
      · exact absurd rfl (hnotClaim _)
      · cases hclaim
    · intro _ record hrecord
      obtain ⟨hcreated, hunder⟩ := hhighest record hrecord
      refine ⟨hle.written hcreated, hunder, ?_⟩
      intro claim hclaim
      rw [hclaim] at hrecord
      exact absurd hrecord (hnotClaim claim)

/-- A claim answered as acquired was created, for the wait that asked. -/
def AcquiredOk (request : WaitKeyRequest) (acquisition : WaitKeyAcquisition) (w : World) : Prop :=
  ∀ claim, acquisition = .acquired claim →
    w.Created (.claim claim) ∧ claim.under = request.under ∧ claim.waitId = request.waitId

variable {request : WaitKeyRequest}

theorem Free.follows {w : World} (h : Free runOf request.under highest w) (now : Instant) :
    Follows runOf w (.claim (claimOf request highest now)) := by
  cases highest with
  | none => exact Or.inl rfl
  | some record =>
    obtain ⟨hcreated, hunder, hclosed⟩ := h record rfl
    exact Or.inr ⟨record, hcreated, hunder, rfl, hclosed⟩

variable {now : Instant} {again : Async WaitKeyAcquisition}

theorem createClaim_keeps {w : World} (hrun : request.runId = runOf request.waitId)
    (hagain : ∀ w, Keeps codec runOf t (AcquiredOk request) again w)
    (hfree : Free runOf request.under highest w) :
    Keeps codec runOf t (AcquiredOk request) (createClaim request now again highest) w := by
  have hclaim : ∀ claim, WaitKeyRecord.claim (claimOf request highest now) = .claim claim →
      claim.runId = runOf claim.waitId := by
    intro claim heq
    obtain rfl := WaitKeyRecord.claim.inj heq
    exact hrun
  refine Safe.bind (Safe.mono (createKeyRecord_keeps (Nat.le_add_left 1 _) hclaim
    (hfree.follows now)) ?_)
  intro stored w' _ _ hstored
  cases stored with
  | absent | unreadable => exact hagain w'
  | found record =>
    cases record with
    | release release => exact hagain w'
    | claim claim =>
      dsimp only
      split
      · rename_i hwait
        intro w'' hle hinv other hother
        cases hother
        obtain ⟨hcreated, hunder, -⟩ := (hstored w'' hle hinv).found
        exact ⟨hcreated, hunder, hwait⟩
      · exact hagain w'

theorem refuseHeld_keeps (hclaim : claim.runId = runOf claim.waitId)
    (hagain : ∀ w, Keeps codec runOf t (AcquiredOk request) again w) (w : World) :
    Keeps codec runOf t (AcquiredOk request) (refuseHeld request now again claim) w := by
  refine Safe.bind (Safe.mono (highestKeyRecord_keeps request.under w) ?_)
  intro highest w' _ _ _
  cases highest with
  | none | unreadable generation => exact hagain w'
  | found still =>
    dsimp only
    split
    · exact hagain w'
    · split
      · intro _ _ _ other hother
        cases hother
      · refine Safe.bind (Safe.mono (settleAbandoned_keeps hclaim now w') ?_)
        intro settled w'' _ _ _
        cases settled with
        | true => exact hagain w''
        | false =>
          intro _ _ _ other hother
          cases hother

theorem claimOver_keeps {w : World} (hrun : request.runId = runOf request.waitId)
    (hagain : ∀ w, Keeps codec runOf t (AcquiredOk request) again w) (hinv : KeysInv runOf w)
    (hhighest : ∀ record, highest = some record → w.Created record ∧ record.under = request.under) :
    Keeps codec runOf t (AcquiredOk request) (claimOver codec request now again highest) w := by
  refine Safe.bind (Safe.mono (holderOf_keeps hinv hhighest now) ?_)
  intro holder w' hle hinv' hholder
  obtain ⟨hheld, hfree⟩ := hholder w' (Later.refl _) hinv'
  cases holder with
  | none => exact createClaim_keeps hrun hagain (hfree rfl)
  | some claim =>
    have hcreated := (hhighest _ (hheld claim rfl)).1
    exact refuseHeld_keeps (hinv.claims claim hcreated) hagain w'

/-- **Every attempt** at a key. -/
theorem claimAttempts_keeps (hrun : request.runId = runOf request.waitId) (attempts : ℕ) (w : World)
    : Keeps codec runOf t (AcquiredOk request) (claimAttempts codec request now attempts) w := by
  induction attempts generalizing w with
  | zero =>
    intro _ _ _ claim hclaim
    cases hclaim
  | succ attempts ih =>
    refine Safe.bind (Safe.mono (highestKeyRecord_keeps request.under w) ?_)
    intro highest w' _ hinv hhighest
    cases highest with
    | unreadable generation =>
      intro _ _ _ claim hclaim
      cases hclaim
    | none =>
      apply claimOver_keeps hrun ih hinv
      intro record hrecord
      cases hrecord
    | found record =>
      apply claimOver_keeps hrun ih hinv
      intro other hother
      obtain rfl := Option.some.inj hother
      exact hhighest w' (Later.refl _) hinv record rfl

/-- A floor of a key: a generation that was created under it. -/
def FloorOk (under : WaitKey) (floor : ℕ) (w : World) : Prop :=
  ∃ r, w.Created r ∧ r.under = under ∧ r.generation = floor

/-- Claims whose runs are selected. -/
def Selected (w : World) (selected : List WaitKeyRecord) : Prop :=
  ∀ claim, .claim claim ∈ selected → claim.runId ∈ w.selected

variable {selected : List WaitKeyRecord}

theorem supersede_keeps {highest : WaitKeyRecord} {w : World} (hinv : KeysInv runOf w)
    (hhighest : w.Created highest ∧ highest.under = under)
    (hcreated : ∀ r ∈ selected, w.Created r ∧ r.under = under) (hselected : Selected w selected) :
    Keeps codec runOf t (fun floor w => ∀ at_, floor = some at_ → FloorOk under at_.1 w)
      (supersede selected now highest) w := by
  obtain ⟨hmade, hunder⟩ := hhighest
  cases highest with
  | release release =>
    intro w' hle _ at_ hat
    obtain rfl := Option.some.inj hat
    exact ⟨_, hle.written hmade, hunder, rfl⟩
  | claim claim =>
    unfold supersede
    simp only
    split
    · rename_i hany
      obtain ⟨record, hrecord, hsame⟩ := List.any_eq_true.mp hany
      -- The selected record of the highest generation is the claim itself.
      have heq : record = .claim claim := by
        obtain ⟨hrecordMade, hrecordUnder⟩ := hcreated record hrecord
        exact hinv.unique _ _ hrecordMade hmade (hrecordUnder.trans hunder.symm)
          (of_decide_eq_true hsame)
      have hclosed : Closed runOf w claim.waitId := by
        apply Or.inr
        rw [← hinv.claims claim hmade]
        exact hselected claim (heq ▸ hrecord)
      have hfollows : Follows runOf w (.release ⟨claim.under, claim.generation + 1, now⟩) := by
        refine Or.inr ⟨.claim claim, hmade, rfl, rfl, ?_⟩
        intro other hother
        obtain rfl := WaitKeyRecord.claim.inj hother
        exact hclosed
      refine Safe.bind (Safe.mono (createKeyRecord_keeps (Nat.le_add_left 1 _)
        (fun claim h => by cases h) hfollows) ?_)
      intro stored w' _ _ hstored
      have hfloor : stored ≠ .absent → ∀ w'', Later runOf w' w'' → KeysInv runOf w'' →
          FloorOk under (claim.generation + 1) w'' := by
        intro hpresent w'' hle hinv''
        rcases hstored w'' hle hinv'' with habsent | ⟨r, hr, hrunder, hgeneration, -⟩
        · exact absurd habsent hpresent
        · exact ⟨r, hr, hrunder.trans hunder, hgeneration⟩
      cases stored with
      | absent =>
        intro w'' _ _ at_ hat
        cases hat
      | unreadable =>
        intro w'' hle hinv'' at_ hat
        obtain rfl := Option.some.inj hat
        exact hfloor (fun h => by cases h) w'' hle hinv''
      | found record =>
        cases record with
        | release release | claim other =>
          intro w'' hle hinv'' at_ hat
          obtain rfl := Option.some.inj hat
          exact hfloor (fun h => by cases h) w'' hle hinv''
    · intro w' hle _ at_ hat
      obtain rfl := Option.some.inj hat
      exact ⟨_, hle.written hmade, hunder, rfl⟩

theorem removeBelow_keeps {floor : ℕ} {w : World} (hfloor : FloorOk under floor w)
    (hunder : ∀ r ∈ selected, r.under = under) :
    Keeps codec runOf t (fun _ _ => True) (removeBelow floor selected) w := by
  induction selected generalizing w with
  | nil => exact pure_keeps
  | cons record rest ih =>
    obtain ⟨hrecord, hrest⟩ := List.forall_mem_cons.mp hunder
    unfold removeBelow
    split
    · exact ih hfloor hrest
    · rename_i hbelow
      obtain ⟨above, habove, haboveUnder, hgeneration⟩ := hfloor
      refine Safe.bind (Safe.mono (removeKeyRecord_keeps habove
        (haboveUnder.trans hrecord.symm) (by omega)) ?_)
      intro _ w' hle _ _
      refine Safe.bind (Safe.mono (ih ⟨above, hle.written habove, haboveUnder, hgeneration⟩
        hrest) ?_)
      intro counted w'' _ _ _
      exact pure_keeps

theorem collectSelected_keeps {w : World} (hcreated : ∀ r ∈ selected, w.Created r ∧ r.under = under)
    (hselected : Selected w selected) :
    Keeps codec runOf t (fun _ _ => True) (collectSelected now under selected) w := by
  refine Safe.bind (Safe.mono (highestKeyRecord_keeps under w) ?_)
  intro highest w' hle hinv hhighest
  cases highest with
  | none | unreadable generation => exact pure_keeps
  | found record =>
    refine Safe.bind (Safe.mono (supersede_keeps hinv (hhighest w' (Later.refl _) hinv record rfl)
      (fun r hr => ⟨hle.written (hcreated r hr).1, (hcreated r hr).2⟩)
      (fun claim hclaim => hle.selected (hselected claim hclaim))) ?_)
    intro floor w'' _ hinv'' hfloor
    cases floor with
    | none => exact pure_keeps
    | some at_ =>
      refine Safe.bind (Safe.mono (removeBelow_keeps (hfloor w'' (Later.refl _) hinv'' at_ rfl)
        (fun r hr => (hcreated r hr).2)) ?_)
      intro counted w₃ _ _ _
      exact pure_keeps

variable {runIds : List JsString}

theorem collectKeys_keeps {keys : List (WaitKey × List WaitKeyRecord)} {w : World}
    (hruns : ∀ runId ∈ runIds, runId ∈ w.selected)
    (hkeys : ∀ entry ∈ keys, ∀ r ∈ entry.2, w.Created r ∧ r.under = entry.1) :
    Keeps codec runOf t (fun _ _ => True) (collectKeys runIds now keys) w := by
  induction keys generalizing w with
  | nil => exact pure_keeps
  | cons entry rest ih =>
    obtain ⟨hentry, hrest⟩ := List.forall_mem_cons.mp hkeys
    unfold collectKeys
    split
    · exact ih hruns hrest
    · have hselected : Selected w (entry.2.filter (isSelected runIds)) := by
        intro claim hclaim
        have hchosen := (List.mem_filter.mp hclaim).2
        exact hruns _ (List.contains_iff_mem.mp hchosen)
      refine Safe.bind (Safe.mono (collectSelected_keeps
        (fun r hr => hentry r (List.mem_of_mem_filter hr)) hselected) ?_)
      intro first w' hle _ _
      refine Safe.bind (Safe.mono (ih (fun runId hrun => hle.selected (hruns runId hrun))
        (fun other hother r hr =>
          ⟨hle.written (hrest other hother r hr).1, (hrest other hother r hr).2⟩)) ?_)
      intro later w'' _ _ _
      exact pure_keeps

theorem byKey_under {records : List WaitKeyRecord} {entry : WaitKey × List WaitKeyRecord}
    (hentry : entry ∈ byKey records) (hr : r ∈ entry.2) : r ∈ records ∧ r.under = entry.1 := by
  obtain ⟨under, -, rfl⟩ := List.mem_map.mp hentry
  obtain ⟨hmem, hunder⟩ := List.mem_filter.mp hr
  exact ⟨hmem, of_decide_eq_true hunder⟩

theorem setPending_keeps {w : World} (hinv : KeysInv runOf w) (at_ : PendingSlot) (number : ℕ)
    (record : Option PendingRecord) :
    KeysInv runOf (w.setPending at_ number record) ∧
      Later runOf w (w.setPending at_ number record) :=
  ⟨hinv.keep (fun _ => Iff.rfl) rfl (fun _ h => h) hinv.outcomes hinv.registrations,
    ⟨List.Subset.refl _, fun _ h => h, fun _ h => h⟩⟩

theorem removeOrphans_keeps (orphaned : List PendingSlot) (listed : List (PendingSlot × ℕ))
    (w : World) :
    Keeps codec runOf t (fun _ _ => True) (removeOrphans orphaned listed) w := by
  induction listed generalizing w with
  | nil => exact pure_keeps
  | cons first rest ih =>
    unfold removeOrphans
    split
    · refine Safe.bind (Safe.perform ?_)
      intro w' _ hinv r w'' hexec
      obtain rfl := hexec.2
      obtain ⟨hinv', hle⟩ := setPending_keeps hinv first.1 first.2 none
      exact ⟨hinv', hle, fun w₃ _ _ => ih w₃⟩
    · exact ih w

theorem removeOrphaned_keeps (orphaned : List PendingSlot) (w : World) :
    Keeps codec runOf t (fun _ _ => True) (removeOrphaned orphaned) w := by
  unfold removeOrphaned
  split
  · exact pure_keeps
  · refine Safe.bind (read_keeps (fun _ _ _ h => h.2) ?_)
    intro w' _ _ listed _ w'' _ _
    exact removeOrphans_keeps orphaned listed w''

theorem releaseKeyClaims_keeps {w : World} (hruns : ∀ runId ∈ runIds, runId ∈ w.selected) :
    Keeps codec runOf t (fun _ _ => True) (releaseKeyClaims runIds now) w := by
  refine Safe.bind (Safe.mono (listKeyRecords_keeps w) ?_)
  intro records w' hle hinv hrecords
  have hcreated := hrecords w' (Later.refl _) hinv
  refine Safe.bind (Safe.mono (collectKeys_keeps
    (fun runId hrun => hle.selected (hruns runId hrun)) ?_) ?_)
  · intro entry hentry r hr
    obtain ⟨hmem, hunder⟩ := byKey_under hentry hr
    exact ⟨hcreated r hmem, hunder⟩
  · intro result w'' _ _ _
    refine Safe.bind (Safe.mono (removeOrphaned_keeps _ w'') ?_)
    intro _ w₃ _ _ _
    exact pure_keeps

theorem findRegistration_keeps (waitId : JsString) (w : World) :
    Keeps codec runOf t (fun stored _ => ∀ registration, stored = .found registration →
      registration.waitId = waitId ∧ registration.runId = runOf waitId)
      (findRegistration waitId) w := by
  refine read_keeps (fun _ _ _ h => h.2) ?_
  intro w' _ hinv r hexec w'' _ _ registration hfound
  obtain ⟨hr, -⟩ := hexec
  rw [hr] at hfound
  cases hstored : w'.registrations waitId with
  | none =>
    rw [hstored] at hfound
    cases hfound
  | some found =>
    rw [hstored] at hfound
    unfold decode at hfound
    simp only at hfound
    split at hfound
    · obtain rfl := Stored.found.inj hfound
      exact hinv.registrations waitId found hstored
    · cases hfound

theorem readRegistrations_keeps (listed : List JsString) (w : World) :
    Keeps codec runOf t (fun found _ => ∀ r ∈ found, r.runId = runOf r.waitId)
      (readRegistrations listed) w := by
  induction listed generalizing w with
  | nil =>
    intro _ _ _ r hr
    cases hr
  | cons waitId rest ih =>
    refine Safe.bind (Safe.mono (findRegistration_keeps waitId w) ?_)
    intro stored w' _ hinv hstored
    cases stored with
    | absent | unreadable => exact ih w'
    | found registration =>
      obtain ⟨hwait, hrun⟩ := hstored w' (Later.refl _) hinv registration rfl
      refine Safe.bind (Safe.mono (ih w') ?_)
      intro found w'' _ hinv'' hfound w₃ hle hinv₃
      refine List.forall_mem_cons.mpr ⟨?_, hfound w₃ hle hinv₃⟩
      rw [hrun, hwait]

theorem readOutcomes_keeps (listed : List JsString) (w : World) :
    Keeps codec runOf t (fun found _ => ∀ o ∈ found, o.runId = runOf o.waitId)
      (readOutcomes listed) w := by
  induction listed generalizing w with
  | nil =>
    intro _ _ _ o ho
    cases ho
  | cons waitId rest ih =>
    refine Safe.bind (Safe.mono (findOutcome_keeps waitId w) ?_)
    intro stored w' _ hinv hstored
    cases stored with
    | absent | unreadable => exact ih w'
    | found outcome =>
      obtain ⟨hwait, hrun⟩ := (hstored w' (Later.refl _) hinv).2 outcome rfl
      refine Safe.bind (Safe.mono (ih w') ?_)
      intro found w'' _ hinv'' hfound w₃ hle hinv₃
      refine List.forall_mem_cons.mpr ⟨?_, hfound w₃ hle hinv₃⟩
      rw [hrun, hwait]

theorem deleteRegistration_inv {w : World} (hinv : KeysInv runOf w) (waitId : JsString) :
    KeysInv runOf (w.setRegistration waitId none) ∧
      Later runOf w (w.setRegistration waitId none) := by
  refine ⟨hinv.keep (fun _ => Iff.rfl) rfl (fun _ h => h) hinv.outcomes ?_,
    ⟨List.Subset.refl _, fun _ h => h, fun _ h => h⟩⟩
  intro id registration hid
  unfold World.setRegistration at hid
  simp only at hid
  split at hid
  · cases hid
  · exact hinv.registrations id registration hid

theorem deleteOutcome_inv {w : World} (hinv : KeysInv runOf w)
    (hselected : runOf waitId ∈ w.selected) :
    KeysInv runOf (w.setOutcome waitId none) ∧ Later runOf w (w.setOutcome waitId none) := by
  have hclosed : ∀ id, Closed runOf w id → Closed runOf (w.setOutcome waitId none) id := by
    intro id h
    by_cases hid : id = waitId
    · rw [hid]
      exact Or.inr hselected
    · rcases h with hsome | hrun
      · apply Or.inl
        unfold World.setOutcome
        simp only
        rw [if_neg hid]
        exact hsome
      · exact Or.inr hrun
  refine ⟨hinv.keep (fun _ => Iff.rfl) rfl hclosed ?_ hinv.registrations,
    ⟨List.Subset.refl _, hclosed, fun _ h => h⟩⟩
  intro id outcome hid
  unfold World.setOutcome at hid
  simp only at hid
  split at hid
  · cases hid
  · exact hinv.outcomes id outcome hid

theorem removeWaitRecords_keeps {waitIds : List JsString} {w : World}
    (hselected : ∀ waitId ∈ waitIds, runOf waitId ∈ w.selected) :
    Keeps codec runOf t (fun _ _ => True) (removeWaitRecords waitIds) w := by
  induction waitIds generalizing w with
  | nil => exact pure_keeps
  | cons waitId rest ih =>
    obtain ⟨hfirst, hrest⟩ := List.forall_mem_cons.mp hselected
    refine Safe.bind (Safe.perform ?_)
    intro w₁ hle₁ hinv₁ r₁ w₂ hexec₁
    obtain rfl := hexec₁.2
    obtain ⟨hinv₂, hle₂⟩ := deleteRegistration_inv hinv₁ waitId
    refine ⟨hinv₂, hle₂, ?_⟩
    intro w₃ hle₃ hinv₃
    refine Safe.bind (Safe.perform ?_)
    intro w₄ hle₄ hinv₄ r₂ w₅ hexec₂
    obtain rfl := hexec₂.2
    have hsub : w.selected ⊆ w₄.selected := fun _ h =>
      hle₄.selected (hle₃.selected (hle₂.selected (hle₁.selected h)))
    obtain ⟨hinv₅, hle₅⟩ := deleteOutcome_inv hinv₄ (hsub hfirst)
    refine ⟨hinv₅, hle₅, ?_⟩
    intro w₆ hle₆ _
    exact ih (fun id hid => hle₆.selected (hle₅.selected (hsub (hrest id hid))))

theorem waitIdsOf_selected {registrations : List WaitRegistration} {outcomes : List WaitOutcome}
    {w : World} (hruns : ∀ runId ∈ runIds, runId ∈ w.selected)
    (hregistrations : ∀ r ∈ registrations, r.runId = runOf r.waitId)
    (houtcomes : ∀ o ∈ outcomes, o.runId = runOf o.waitId) :
    ∀ waitId ∈ waitIdsOf runIds registrations outcomes, runOf waitId ∈ w.selected := by
  intro waitId hwait
  rcases List.mem_append.mp (List.mem_eraseDups.mp hwait) with hmem | hmem
  · obtain ⟨r, hr, rfl⟩ := List.mem_map.mp hmem
    obtain ⟨hlisted, hrun⟩ := List.mem_filter.mp hr
    rw [← hregistrations r hlisted]
    exact hruns _ (List.contains_iff_mem.mp hrun)
  · obtain ⟨o, ho, rfl⟩ := List.mem_map.mp hmem
    obtain ⟨hlisted, hrun⟩ := List.mem_filter.mp ho
    rw [← houtcomes o hlisted]
    exact hruns _ (List.contains_iff_mem.mp hrun)

theorem removeWaitRecordsOfRuns_keeps {w : World} (hruns : ∀ runId ∈ runIds, runId ∈ w.selected) :
    Keeps codec runOf t (fun _ _ => True) (removeWaitRecordsOfRuns runIds now) w := by
  unfold removeWaitRecordsOfRuns
  split
  · exact pure_keeps
  · refine Safe.bind (Safe.mono (releaseKeyClaims_keeps hruns) ?_)
    intro _ w₁ hle₁ _ _
    refine Safe.bind (Safe.bind (read_keeps (fun _ _ _ h => h.2) ?_))
    intro w₂ hle₂ _ listed _ w₃ hle₃ _
    apply Safe.mono (readRegistrations_keeps listed w₃)
    intro registrations w₄ hle₄ hinv₄ hregistrations
    have hregistered := hregistrations w₄ (Later.refl _) hinv₄
    refine Safe.bind (Safe.bind (read_keeps (fun _ _ _ h => h.2) ?_))
    intro w₅ hle₅ _ settled _ w₆ hle₆ _
    apply Safe.mono (readOutcomes_keeps settled w₆)
    intro outcomes w₇ hle₇ hinv₇ houtcomes
    have hsub : ∀ runId ∈ runIds, runId ∈ w₇.selected := fun runId hrun =>
      hle₇.selected (hle₆.selected (hle₅.selected (hle₄.selected (hle₃.selected (hle₂.selected
        (hle₁.selected (hruns runId hrun)))))))
    refine Safe.bind (Safe.mono (removeWaitRecords_keeps (waitIdsOf_selected hsub hregistered
      (houtcomes w₇ (Later.refl _) hinv₇))) ?_)
    intro _ w₈ _ _ _
    exact pure_keeps

/-- What every party is left with. -/
def Answered (_ : ℕ) (answer : Answer) (w : World) : Prop :=
  ∀ request acquisition, answer = .claimed request acquisition → AcquiredOk request acquisition w

theorem done_answered {w : World} : Keeps codec runOf t (Answered t) (pure Answer.done) w := by
  intro w' _ _ request acquisition h
  cases h

theorem claimant_keeps (hrun : request.runId = runOf request.waitId) (w : World) :
    Keeps codec runOf t (Answered t) (claimant codec request now) w := by
  refine Safe.bind (Safe.mono (claimAttempts_keeps hrun _ w) ?_)
  intro acquisition w' _ _ hok w'' hle hinv request' acquisition' h
  cases h
  exact hok w'' hle hinv

theorem collector_keeps (w : World) :
    Keeps codec runOf t (Answered t) (collector runIds now) w := by
  refine Safe.bind (Safe.perform ?_)
  intro w' _ hinv r w'' hexec
  obtain rfl := hexec.2
  have hsub : w'.selected ⊆ (w'.select runIds).selected := fun _ h => Or.inl h
  have hclosed : ∀ id, Closed runOf w' id → Closed runOf (w'.select runIds) id :=
    fun id h => h.imp_right (fun hrun => hsub hrun)
  refine ⟨?_, ⟨List.Subset.refl _, hclosed, hsub⟩, ?_⟩
  · exact hinv.keep (fun _ => Iff.rfl) rfl hclosed hinv.outcomes hinv.registrations
  · intro w₃ hle _
    refine Safe.bind (Safe.mono (removeWaitRecordsOfRuns_keeps
      (fun runId hrun => hle.selected (Or.inr hrun))) ?_)
    intro _ w₄ _ _ _
    exact done_answered

theorem registrar_keeps {registration : WaitRegistration}
    (hrun : registration.runId = runOf registration.waitId) (w : World) :
    Keeps codec runOf t (Answered t) (registrar registration) w := by
  refine Safe.bind (Safe.perform ?_)
  intro w' _ hinv r w'' hexec
  have hput := hexec.2
  unfold machine exec at hput
  simp only at hput
  split at hput
  · subst hput
    exact ⟨hinv, Later.refl _, fun _ _ _ => done_answered⟩
  · subst hput
    refine ⟨?_, ⟨List.subset_append_left _ _, fun _ h => h, fun _ h => h⟩,
      fun _ _ _ => done_answered⟩
    refine hinv.keep (created_note (fun r h => by cases h)) rfl (fun _ h => h) hinv.outcomes ?_
    intro id other hid
    unfold World.note World.setRegistration at hid
    simp only at hid
    split at hid
    · rename_i heq
      obtain rfl := Option.some.inj hid
      rw [heq]
      exact ⟨rfl, hrun⟩
    · exact hinv.registrations id other hid

theorem sender_keeps {record : PendingRecord} (w : World) :
    Keeps codec runOf t (Answered t) (sender record) w := by
  refine Safe.bind (Safe.bind (Safe.perform ?_))
  intro w' _ hinv r w'' hexec
  have hread : ∀ w₃, Keeps codec runOf t (fun _ w => Keeps codec runOf t (Answered t)
      (pure Answer.done) w) (findPendingRecord record.at_ record.number) w₃ := fun _ =>
    read_keeps (fun _ _ _ h => h.2) (fun _ _ _ _ _ _ _ _ => done_answered)
  have hput := hexec.2
  unfold machine exec at hput
  simp only at hput
  split at hput
  · subst hput
    exact ⟨hinv, Later.refl _, fun w₃ _ _ => hread w₃⟩
  · subst hput
    refine ⟨?_, ⟨List.subset_append_left _ _, fun _ h => h, fun _ h => h⟩, fun w₃ _ _ => hread w₃⟩
    exact hinv.keep (created_note (fun r h => by cases h)) rfl (fun _ h => h) hinv.outcomes
      hinv.registrations

end

section

variable (codec : Codec) (runOf : JsString → JsString)

theorem keys_admits : Admits (freshMachine codec runOf) (keysDiscipline runOf) Answered where
  starts := by
    intro t w tasks p hstarts
    cases hstarts with
    | claimant request now hrun => exact claimant_keeps hrun w
    | settler outcome hrun =>
      refine Safe.bind (Safe.mono (settle_keeps hrun w) ?_)
      intro _ w' _ _ _
      exact done_answered
    | collector runIds now => exact collector_keeps w
    | registrar registration hrun => exact registrar_keeps hrun w
    | sender record => exact sender_keeps w
  resumes := by
    intro t w a p hresume
    cases hresume

theorem keys_initial : Sound (freshMachine codec runOf) (keysDiscipline runOf) Answered initial := by
  refine ⟨KeysInv.empty, ?_⟩
  intro t p hget
  cases hget

/-- A claimant is done, with a claim acquired. -/
def AcquiredBy (c : Config Op Op.Res World Answer) (t : ℕ) (request : WaitKeyRequest)
    (claim : WaitKeyClaim) : Prop :=
  c.tasks[t]? = some (.ret (.claimed request (.acquired claim)))

/-- The wait of a claim is open: it has no outcome, and no collector selected its
run. -/
def Open (w : World) (claim : WaitKeyClaim) : Prop :=
  w.outcomes claim.waitId = none ∧ claim.runId ∉ w.selected

/-- What is to hold of the waits that claimed keys: at most one under a key is
open, no generation of a key was acquired by two, and the highest generation of a
key never goes down. -/
structure Excludes (M : Machine Op Op.Res World Answer) (c : Config Op Op.Res World Answer) :
    Prop where
  alone : ∀ t u request request' claim claim', AcquiredBy c t request claim →
    AcquiredBy c u request' claim' → request.under = request'.under → Open c.shared claim →
    Open c.shared claim' → claim.waitId = claim'.waitId
  once : ∀ t u request request' claim claim', AcquiredBy c t request claim →
    AcquiredBy c u request' claim' → request.under = request'.under →
    claim.generation = claim'.generation → request.waitId = request'.waitId
  grows : ∀ c', Run M c c' → ∀ under generation,
    (c.shared.keyRecords under generation).isSome →
    ∃ above, generation ≤ above ∧ (c'.shared.keyRecords under above).isSome

variable {codec runOf}

theorem KeysInv.open_highest {w : World} (hinv : KeysInv runOf w)
    (hcreated : w.Created (.claim claim)) (hopen : Open w claim) (hr : w.Created r)
    (hunder : r.under = claim.under) : r.generation ≤ claim.generation := by
  by_contra hlt
  rcases hinv.closed claim r hcreated hr hunder (Nat.lt_of_not_le hlt) with hsome | hselected
  · rw [hopen.1] at hsome
    cases hsome
  · rw [← hinv.claims claim hcreated] at hselected
    exact hopen.2 hselected

/-- **Wait keys exclude each other** in every run in which each create of a key
record finds its generation taken, or above all that the key has. -/
theorem wait_keys_exclude {c : Config Op Op.Res World Answer}
    (hrun : Run (freshMachine codec runOf) initial c) : Excludes (freshMachine codec runOf) c := by
  have hsound := ((keys_initial codec runOf).run (keys_admits codec runOf) hrun).1
  have hinv : KeysInv runOf c.shared := hsound.inv
  have hacquired : ∀ {t request claim}, AcquiredBy c t request claim →
      AcquiredOk request (.acquired claim) c.shared := fun h => hsound.done h _ _ rfl
  constructor
  case alone =>
    intro t u request request' claim claim' ht hu hunder hopen hopen'
    obtain ⟨hcreated, hclaim, -⟩ := hacquired ht claim rfl
    obtain ⟨hcreated', hclaim', -⟩ := hacquired hu claim' rfl
    have hkeys : claim.under = claim'.under := hclaim.trans (hunder.trans hclaim'.symm)
    have hle : claim'.generation ≤ claim.generation :=
      hinv.open_highest hcreated hopen hcreated' hkeys.symm
    have hge : claim.generation ≤ claim'.generation :=
      hinv.open_highest hcreated' hopen' hcreated hkeys
    have hsame := hinv.unique _ _ hcreated hcreated' hkeys (Nat.le_antisymm hge hle)
    rw [WaitKeyRecord.claim.inj hsame]
  case once =>
    intro t u request request' claim claim' ht hu hunder hgeneration
    obtain ⟨hcreated, hclaim, hwait⟩ := hacquired ht claim rfl
    obtain ⟨hcreated', hclaim', hwait'⟩ := hacquired hu claim' rfl
    have hkeys : claim.under = claim'.under := hclaim.trans (hunder.trans hclaim'.symm)
    have hsame := hinv.unique _ _ hcreated hcreated' hkeys hgeneration
    rw [← hwait, ← hwait', WaitKeyRecord.claim.inj hsame]
  case grows =>
    intro c' hlater under generation hsome
    obtain ⟨hsound', hle⟩ := hsound.run (keys_admits codec runOf) hlater
    obtain ⟨r, hr⟩ := Option.isSome_iff_exists.mp hsome
    obtain ⟨hcreated, hunder, hgeneration⟩ := hinv.stored under generation r hr
    obtain ⟨m, hm, hmax⟩ := hsound'.inv.top r (hle.written hcreated)
    rw [hunder] at hm
    refine ⟨m.generation, ?_, by rw [hm]; rfl⟩
    rw [← hgeneration]
    exact hmax r (hle.written hcreated) rfl

end

/-- Everything is read, and every payload is taken as it is. -/
def readsAll : Codec :=
  ⟨fun _ => true, fun _ => true, fun _ => true, fun _ => true, fun _ payload => some payload⟩

/-- Each wait is a run of its own. -/
def runOfWait (waitId : JsString) : JsString := waitId

def sampleUnder : WaitKey := ⟨js "00000000-0000-4000-8000-000000000001", js "release"⟩

def waitA : JsString := js "00000000-0000-4000-8000-00000000000a"

def waitB : JsString := js "00000000-0000-4000-8000-00000000000b"

/-- A step that waits under the key, with a deadline in a second. -/
def sampleRequest (waitId : JsString) : WaitKeyRequest :=
  ⟨sampleUnder, waitId, waitId, js "job", js "step", 1000, none⟩

def firstClaim (waitId : JsString) : WaitKeyClaim := claimOf (sampleRequest waitId) none 0

/-- The claim of the first generation is stored. -/
def claimedBy (waitId : JsString) : World :=
  (World.empty.setKeyRecord sampleUnder 1 (some (.claim (firstClaim waitId)))).note
    (.keyRecord (.claim (firstClaim waitId)))

theorem listKey_none {w : World} (h : w.keyRecords = World.empty.keyRecords) :
    exec readsAll (.listKey sampleUnder) w ([] : List ℕ) w := by
  refine ⟨fun generation => ?_, rfl⟩
  rw [h]
  simp [World.empty]

/-- A claimant that found no generation, before it creates the first. -/
def creatingFirst (waitId : JsString) : Async Answer := do
  return .claimed (sampleRequest waitId)
    (← createClaim (sampleRequest waitId) 0 (claimAttempts readsAll (sampleRequest waitId) 0 7) none)

theorem creatingFirst_does {M : Machine Op Op.Res World Answer} {t : ℕ} {w w' : World}
    (hput : M.exec t (.putKeyRecord (.claim (firstClaim waitId))) w () w')
    (hget : M.exec t (.getKeyRecord sampleUnder 1) w' (.found (.claim (firstClaim waitId))) w') :
    Does M t (creatingFirst waitId) w
      (.claimed (sampleRequest waitId) (.acquired (firstClaim waitId))) w' := by
  have hmine : (firstClaim waitId).waitId = (sampleRequest waitId).waitId := rfl
  have hanswer : Does M t
      (ite ((firstClaim waitId).waitId = (sampleRequest waitId).waitId)
        (pure (.acquired (firstClaim waitId)))
        (claimAttempts readsAll (sampleRequest waitId) 0 7) : Async WaitKeyAcquisition)
      w' (.acquired (firstClaim waitId)) w' := by
    rw [if_pos hmine]
    exact Does.ret
  exact Does.bind (Does.call hput (Does.call hget hanswer)) Does.ret

theorem listKey_first {waitId : JsString} {w : World}
    (h : w.keyRecords = (claimedBy waitId).keyRecords) :
    exec readsAll (.listKey sampleUnder) w ([1] : List ℕ) w := by
  refine ⟨fun generation => ?_, rfl⟩
  rw [h]
  simp only [claimedBy, World.note, World.setKeyRecord, World.empty]
  by_cases hone : generation = 1 <;> simp [hone]

theorem getKey_first (waitId : JsString) :
    exec readsAll (.getKeyRecord sampleUnder 1) (claimedBy waitId)
      (.found (.claim (firstClaim waitId))) (claimedBy waitId) := ⟨rfl, rfl⟩

theorem highest_does (t : ℕ) (waitId : JsString) :
    Does (freshMachine readsAll runOfWait) t (highestKeyRecord sampleUnder) (claimedBy waitId)
      (.found (.claim (firstClaim waitId))) (claimedBy waitId) := by
  have hlist : (freshMachine readsAll runOfWait).exec t (.listKey sampleUnder) (claimedBy waitId)
      ([1] : List ℕ) (claimedBy waitId) := ⟨trivial, listKey_first rfl⟩
  have hget : (freshMachine readsAll runOfWait).exec t (.getKeyRecord sampleUnder 1)
      (claimedBy waitId) (.found (.claim (firstClaim waitId))) (claimedBy waitId) :=
    ⟨trivial, getKey_first waitId⟩
  exact Does.call hlist (Does.call hget Does.ret)

/-- A claimant that was slower finds the key held by the claim that was created. -/
theorem refused_does (t : ℕ) :
    Does (freshMachine readsAll runOfWait) t
      (claimAttempts readsAll (sampleRequest waitB) 0 7) (claimedBy waitA)
      (.held (firstClaim waitA)) (claimedBy waitA) := by
  have houtcome : (freshMachine readsAll runOfWait).exec t (.getOutcome waitA) (claimedBy waitA)
      (.absent : Stored WaitOutcome) (claimedBy waitA) := ⟨trivial, rfl, rfl⟩
  have hholder : Does (freshMachine readsAll runOfWait) t
      (holderOf readsAll (some (.claim (firstClaim waitA))) 0) (claimedBy waitA)
      (some (firstClaim waitA)) (claimedBy waitA) := Does.call houtcome Does.ret
  have hrefused : Does (freshMachine readsAll runOfWait) t
      (refuseHeld (sampleRequest waitB) 0 (claimAttempts readsAll (sampleRequest waitB) 0 6)
        (firstClaim waitA)) (claimedBy waitA) (.held (firstClaim waitA)) (claimedBy waitA) :=
    Does.bind (highest_does t waitA) Does.ret
  exact Does.bind (highest_does t waitA) (Does.bind hholder hrefused)

/-- It created nothing, and goes on to another attempt. -/
theorem creatingLate_does (t : ℕ) :
    Does (freshMachine readsAll runOfWait) t (creatingFirst waitB) (claimedBy waitA)
      (.claimed (sampleRequest waitB) (.held (firstClaim waitA))) (claimedBy waitA) := by
  have hput : (freshMachine readsAll runOfWait).exec t (.putKeyRecord (.claim (firstClaim waitB)))
      (claimedBy waitA) () (claimedBy waitA) := ⟨Or.inl rfl, rfl⟩
  have hget : (freshMachine readsAll runOfWait).exec t (.getKeyRecord sampleUnder 1)
      (claimedBy waitA) (.found (.claim (firstClaim waitA))) (claimedBy waitA) :=
    ⟨trivial, getKey_first waitA⟩
  have hanswer : Does (freshMachine readsAll runOfWait) t
      (ite ((firstClaim waitA).waitId = (sampleRequest waitB).waitId)
        (pure (.acquired (firstClaim waitA)))
        (claimAttempts readsAll (sampleRequest waitB) 0 7) : Async WaitKeyAcquisition)
      (claimedBy waitA) (.held (firstClaim waitA)) (claimedBy waitA) := by
    rw [if_neg (by decide)]
    exact refused_does t
  exact Does.bind (Does.call hput (Does.call hget hanswer)) Does.ret

/-- Two claimants find no generation of a key, in a run whose creates are all fresh:
the first acquires it, and the second finds it held. -/
theorem first_claim_of_key_excludes :
    ∃ c, Run (freshMachine readsAll runOfWait) initial c ∧
      AcquiredBy c 0 (sampleRequest waitA) (firstClaim waitA) ∧
      c.tasks[1]? = some (.ret (.claimed (sampleRequest waitB) (.held (firstClaim waitA)))) ∧
      Open c.shared (firstClaim waitA) ∧ Excludes (freshMachine readsAll runOfWait) c := by
  have hstart : Run (freshMachine readsAll runOfWait) initial
      ⟨World.empty, [claimant readsAll (sampleRequest waitA) 0,
        claimant readsAll (sampleRequest waitB) 0]⟩ :=
    ((Run.refl initial).tail (Step.start (Party.claimant _ _ rfl))).tail
      (Step.start (Party.claimant _ _ rfl))
  have hread : Run (freshMachine readsAll runOfWait) initial
      ⟨World.empty, [creatingFirst waitA, creatingFirst waitB]⟩ :=
    (hstart.act (t := 1) rfl _ ⟨trivial, listKey_none rfl⟩).act (t := 0) rfl _
      ⟨trivial, listKey_none rfl⟩
  have hput : (freshMachine readsAll runOfWait).exec 0 (.putKeyRecord (.claim (firstClaim waitA)))
      World.empty () (claimedBy waitA) := ⟨Or.inr (fun _ h => by cases h), rfl⟩
  have hfirst := hread.does (t := 0) rfl (creatingFirst_does hput ⟨trivial, rfl, rfl⟩)
  have hboth := hfirst.does (t := 1) rfl (creatingLate_does 1)
  exact ⟨_, hboth, rfl, rfl, ⟨rfl, fun h => h⟩, wait_keys_exclude hboth⟩

/-- The wait of the first claim is settled. -/
def settledFirst : World :=
  ((claimedBy waitB).setOutcome waitB (some (cancelledOutcome (firstClaim waitB) 0))).note
    (.outcome (cancelledOutcome (firstClaim waitB) 0))

def releaseOfB : WaitKeyRelease := ⟨sampleUnder, 2, 0⟩

/-- A collector superseded the claim of the wait's run. -/
def releasedFirst : World :=
  ((settledFirst.select [waitB]).setKeyRecord sampleUnder 2 (some (.release releaseOfB))).note
    (.keyRecord (.release releaseOfB))

theorem listKeyRecords_first {w : World} (h : w.keyRecords = (claimedBy waitB).keyRecords) :
    exec readsAll .listKeyRecords w ([(sampleUnder, 1)] : List (WaitKey × ℕ)) w := by
  refine ⟨fun at_ => ?_, rfl⟩
  obtain ⟨under, generation⟩ := at_
  rw [h]
  simp only [claimedBy, World.note, World.setKeyRecord, World.empty]
  by_cases hone : under = sampleUnder ∧ generation = 1 <;> simp [hone]

/-- A claimant found no generation and was slow; another acquired the first, its
wait was settled, and a collector superseded and removed its claim. -/
theorem first_collected :
    ∃ settling collecting, Run (machine readsAll runOfWait) initial
      ⟨releasedFirst.setKeyRecord sampleUnder 1 none,
        [creatingFirst waitA, .ret (.claimed (sampleRequest waitB) (.acquired (firstClaim waitB))),
          settling, collecting]⟩ := by
  have hA : Run (machine readsAll runOfWait) initial
      ⟨World.empty, [claimant readsAll (sampleRequest waitA) 0]⟩ :=
    (Run.refl initial).tail (Step.start (Party.claimant _ _ rfl))
  have hslow : Run (machine readsAll runOfWait) initial ⟨World.empty, [creatingFirst waitA]⟩ :=
    hA.act (t := 0) rfl _ (listKey_none rfl)
  have hB : Run (machine readsAll runOfWait) initial
      ⟨World.empty, [creatingFirst waitA, claimant readsAll (sampleRequest waitB) 0]⟩ :=
    hslow.tail (Step.start (Party.claimant _ _ rfl))
  have hquick : Run (machine readsAll runOfWait) initial
      ⟨World.empty, [creatingFirst waitA, creatingFirst waitB]⟩ :=
    hB.act (t := 1) rfl _ (listKey_none rfl)
  have hput : exec readsAll (.putKeyRecord (.claim (firstClaim waitB))) World.empty ()
      (claimedBy waitB) := rfl
  have hclaimed := hquick.does (t := 1) rfl (creatingFirst_does hput ⟨rfl, rfl⟩)
  have hsettler := hclaimed.tail
    (Step.start (Party.settler (cancelledOutcome (firstClaim waitB) 0) rfl))
  have hsettle : exec readsAll (.putOutcome (cancelledOutcome (firstClaim waitB) 0))
      (claimedBy waitB) () settledFirst := rfl
  have hsettled := (hsettler.act (t := 2) rfl () hsettle).act (t := 2) rfl _ ⟨rfl, rfl⟩
  have hcollector := hsettled.tail (Step.start (Party.collector [waitB] 0))
  have hselected : exec readsAll (.select [waitB]) settledFirst () (settledFirst.select [waitB]) :=
    rfl
  have hlisted := (hcollector.act (t := 3) rfl () hselected).act (t := 3) rfl _
    (listKeyRecords_first rfl)
  have hread := hlisted.act (t := 3) rfl _ ⟨rfl, rfl⟩
  have hhighest := (hread.act (t := 3) rfl _ (listKey_first rfl)).act (t := 3) rfl _ ⟨rfl, rfl⟩
  have hrelease : exec readsAll (.putKeyRecord (.release releaseOfB))
      (settledFirst.select [waitB]) () releasedFirst := rfl
  have hreleased := (hhighest.act (t := 3) rfl () hrelease).act (t := 3) rfl _ ⟨rfl, rfl⟩
  have hremove : exec readsAll (.deleteKeyRecord sampleUnder 1) releasedFirst ()
      (releasedFirst.setKeyRecord sampleUnder 1 none) := rfl
  exact ⟨_, _, hreleased.act (t := 3) rfl () hremove⟩

/-- What is stored when the slow claimant created the first generation again. -/
def reusedFirst : World :=
  ((releasedFirst.setKeyRecord sampleUnder 1 none).setKeyRecord sampleUnder 1
    (some (.claim (firstClaim waitA)))).note (.keyRecord (.claim (firstClaim waitA)))

theorem reusedFirst_put : exec readsAll (.putKeyRecord (.claim (firstClaim waitA)))
    (releasedFirst.setKeyRecord sampleUnder 1 none) () reusedFirst := by
  unfold exec
  have hfree : (releasedFirst.setKeyRecord sampleUnder 1 none).keyRecords sampleUnder 1 = none := by
    simp [World.setKeyRecord]
  change if ((releasedFirst.setKeyRecord sampleUnder 1 none).keyRecords sampleUnder 1).isSome
    then _ else _
  rw [hfree]
  rfl

theorem reusedFirst_get : exec readsAll (.getKeyRecord sampleUnder 1) reusedFirst
    (.found (.claim (firstClaim waitA))) reusedFirst := by
  have hstored : reusedFirst.keyRecords sampleUnder 1 = some (.claim (firstClaim waitA)) := by
    simp [reusedFirst, World.note, World.setKeyRecord]
  refine ⟨?_, rfl⟩
  rw [hstored]
  rfl

/-- **A removed generation is acquired again**, by the slow claimant. -/
theorem removed_generation_reused :
    ¬ ∀ c, Run (machine readsAll runOfWait) initial c → Excludes (machine readsAll runOfWait) c := by
  intro hexcludes
  obtain ⟨settling, collecting, hrun⟩ := first_collected
  have hdoes : Does (machine readsAll runOfWait) 0 (creatingFirst waitA)
      (releasedFirst.setKeyRecord sampleUnder 1 none)
      (.claimed (sampleRequest waitA) (.acquired (firstClaim waitA))) reusedFirst :=
    creatingFirst_does reusedFirst_put reusedFirst_get
  have hagain := Run.does hrun rfl hdoes
  have hfirst : ∀ waitId, (firstClaim waitId).generation = 1 := fun _ => rfl
  have hunder : ∀ waitId, (sampleRequest waitId).under = sampleUnder := fun _ => rfl
  have hsame : waitA = waitB :=
    (hexcludes _ hagain).once 0 1 (sampleRequest waitA) (sampleRequest waitB) (firstClaim waitA)
      (firstClaim waitB) rfl rfl ((hunder _).trans (hunder _).symm)
      ((hfirst _).trans (hfirst _).symm)
  exact absurd hsame (by decide)

end Swamp.SignalWaits
