import Mathlib.Data.List.Perm.Basic
import Mathlib.Data.List.Range
import Mathlib.Data.List.Nodup
import Mathlib.Order.Nat
import Mathlib.Order.Lattice

/-!
# Confirming commits by group

Callers wait for the head of a replica to cover their commits.  One sync runs at
a time; it answers for everyone who waited when it started, and its head may
cover some who came later.

A sync settles, the group handles that in a microtask of its own, and is free for
the next sync in another: callers come between any two of these.

Numbers are those of a linear order, and `NaN`.
-/

namespace Swamp

namespace ReplicationGroupCommit

/-- A number of the language. -/
inductive Num (α : Type) where
  | nan
  | num (x : α)
deriving DecidableEq

/-- What a sync settles with. -/
inductive SyncResult (α : Type) where
  | resolved (published : Option (Num α))
  | rejected
deriving DecidableEq

/-- `Waiter`. -/
structure Waiter (α : Type) where
  caller : ℕ
  mark : Num α

/-- How far a sync is. -/
inductive Phase (α : Type) where
  | running
  | settled (result : SyncResult α)
  | handled
deriving DecidableEq

/-- A sync, with the callers it covers. -/
structure Sync (α : Type) where
  id : ℕ
  covered : List (Waiter α)
  phase : Phase α

/-- What happens in a run. -/
inductive Event (α : Type) where
  | called (caller : ℕ) (mark : Num α)
  | started (sync : ℕ) (covered : List ℕ)
  | settled (sync : ℕ) (result : SyncResult α)
  | handled (sync : ℕ) (result : SyncResult α)
  | resolved (caller sync : ℕ)
  | rejected (caller sync : ℕ)
deriving DecidableEq

/-- `ReplicationGroupCommit`, the syncs that have not ended, and what happened so
far. -/
structure World (α : Type) where
  waiting : List (Waiter α)
  syncing : Bool
  pending : List (Sync α)
  events : List (Event α)
  calls : ℕ
  starts : ℕ

/-- A new group. -/
def World.start (α : Type) : World α := ⟨[], false, [], [], 0, 0⟩

section

variable {α : Type} [LinearOrder α]

/-- `mark <= published`. -/
def Num.le : Num α → Num α → Bool
  | .num x, .num y => x ≤ y
  | _, _ => false

/-- `mark > published`. -/
def Num.gt : Num α → Num α → Bool
  | .num x, .num y => y < x
  | _, _ => false

/-- `#next`; `throws` when calling the sync throws. -/
def World.next (throws : Bool) (world : World α) : World α :=
  if world.syncing || world.waiting.isEmpty then world
  else
    { world with
      syncing := true
      waiting := []
      pending := world.pending ++
        [⟨world.starts, world.waiting, if throws then .settled .rejected else .running⟩]
      starts := world.starts + 1
      events := world.events ++ [.started world.starts (world.waiting.map Waiter.caller)] ++
        if throws then [.settled world.starts .rejected] else [] }

/-- `confirm`. -/
def World.confirm (mark : Num α) (throws : Bool) (world : World α) : World α :=
  World.next throws
    { world with
      waiting := world.waiting ++ [⟨world.calls, mark⟩]
      calls := world.calls + 1
      events := world.events ++ [.called world.calls mark] }

/-- What the handler answers a covered caller. -/
def answer (sync : ℕ) (result : SyncResult α) (waiter : Waiter α) : Event α :=
  match result with
  | .resolved (some published) =>
    if waiter.mark.le published then .resolved waiter.caller sync
    else .rejected waiter.caller sync
  | _ => .rejected waiter.caller sync

/-- Whether a head covers a caller who came while the sync ran. -/
def happensToCover (result : SyncResult α) (waiter : Waiter α) : Bool :=
  match result with
  | .resolved (some published) => !waiter.mark.gt published
  | _ => false

/-- Replaces the phase of a sync. -/
def World.setPhase (world : World α) (sync : ℕ) (phase : Phase α) : World α :=
  { world with
    pending := world.pending.map (fun s => if s.id = sync then { s with phase := phase } else s) }

/-- The sync's promise settles. -/
def World.settle (sync : ℕ) (result : SyncResult α) (world : World α) : World α :=
  match world.pending.find? (fun s => s.id = sync) with
  | some ⟨_, _, .running⟩ =>
    { world.setPhase sync (.settled result) with
      events := world.events ++ [.settled sync result] }
  | _ => world

/-- The handlers given to `then`. -/
def World.handle (sync : ℕ) (world : World α) : World α :=
  match world.pending.find? (fun s => s.id = sync) with
  | some ⟨_, covered, .settled result⟩ =>
    { world.setPhase sync .handled with
      waiting := world.waiting.filter (fun waiter => !happensToCover result waiter)
      events := world.events ++ ([.handled sync result] ++ covered.map (answer sync result) ++
        (world.waiting.filter (happensToCover result)).map (fun waiter =>
          .resolved waiter.caller sync)) }
  | _ => world

/-- The handler given to `finally`. -/
def World.finish (sync : ℕ) (throws : Bool) (world : World α) : World α :=
  match world.pending.find? (fun s => s.id = sync) with
  | some ⟨_, _, .handled⟩ =>
    World.next throws
      { world with
        pending := world.pending.filter (fun s => s.id ≠ sync)
        syncing := false }
  | _ => world

/-- One step, of a caller or of a sync. -/
inductive Label (α : Type) where
  | confirm (mark : Num α) (throws : Bool)
  | settle (sync : ℕ) (result : SyncResult α)
  | handle (sync : ℕ)
  | finish (sync : ℕ) (throws : Bool)

/-- A step; one that cannot be taken changes nothing. -/
def World.step (world : World α) : Label α → World α
  | .confirm mark throws => world.confirm mark throws
  | .settle sync result => world.settle sync result
  | .handle sync => world.handle sync
  | .finish sync throws => world.finish sync throws

/-- A run of a new group. -/
def run (labels : List (Label α)) : World α := labels.foldl World.step (World.start α)

/-- The callers, as they came. -/
def callersOf (events : List (Event α)) : List ℕ :=
  events.filterMap (fun event =>
    match event with
    | .called caller _ => some caller
    | _ => none)

/-- The callers that were answered. -/
def settledOf (events : List (Event α)) : List ℕ :=
  events.filterMap (fun event =>
    match event with
    | .resolved caller _ => some caller
    | .rejected caller _ => some caller
    | _ => none)

/-- The callers a sync has still to answer. -/
def owed (pending : List (Sync α)) : List ℕ :=
  pending.flatMap (fun s => if s.phase = .handled then [] else s.covered.map Waiter.caller)

/-- A head that covers a mark, as far as `NaN` can be compared. -/
def Covers (mark head : Num α) : Prop := mark = .nan ∨ head = .nan ∨ mark.le head = true

omit [LinearOrder α] in
theorem callersOf_append (events more : List (Event α)) :
    callersOf (events ++ more) = callersOf events ++ callersOf more := List.filterMap_append

omit [LinearOrder α] in
theorem settledOf_append (events more : List (Event α)) :
    settledOf (events ++ more) = settledOf events ++ settledOf more := List.filterMap_append

variable {events : List (Event α)}

omit [LinearOrder α] in
/-- An event of a longer run happened before, or is one of the new ones. -/
theorem split_append {more before after : List (Event α)} {event : Event α}
    (h : events ++ more = before ++ event :: after) :
    (∃ rest, events = before ++ event :: rest) ∨
      ∃ pre, before = events ++ pre ∧ more = pre ++ event :: after := by
  rcases List.append_eq_append_iff.mp h with ⟨pre, hbefore, hmore⟩ | ⟨rest, hevents, hafter⟩
  · exact Or.inr ⟨pre, hbefore, hmore⟩
  · cases rest with
    | nil =>
      rw [List.append_nil] at hevents
      exact Or.inr ⟨[], by rw [hevents, List.append_nil], hafter.symm⟩
    | cons first rest =>
      obtain ⟨hfirst, -⟩ := List.cons.inj hafter
      exact Or.inl ⟨rest, hfirst ▸ hevents⟩

/-- What holds of the events alone, for so many syncs. -/
structure Log (events : List (Event α)) (starts : ℕ) : Prop where
  started : ∀ sync covered, .started sync covered ∈ events → sync < starts
  unique : ∀ sync covered covered', .started sync covered ∈ events →
    .started sync covered' ∈ events → covered = covered'
  handled : ∀ sync result, .handled sync result ∈ events → sync < starts
  waited : ∀ before sync covered after, events = before ++ .started sync covered :: after →
    ∀ caller, caller ∈ covered ↔ caller ∈ callersOf before ∧ caller ∉ settledOf before
  answered : ∀ sync covered result, .started sync covered ∈ events →
    .handled sync result ∈ events →
      ∀ caller ∈ covered, .resolved caller sync ∈ events ∨ .rejected caller sync ∈ events
  resolved : ∀ caller sync, .resolved caller sync ∈ events → ∃ mark head,
    [.called caller mark, .handled sync (.resolved (some head)),
      .resolved caller sync].Sublist events ∧ Covers mark head
  rejected : ∀ caller sync, .rejected caller sync ∈ events → ∃ mark covered,
    [.called caller mark, .started sync covered, .rejected caller sync].Sublist events

theorem log_start : Log ([] : List (Event α)) 0 := by
  constructor <;> simp

/-- A caller coming, or a sync settling. -/
def Event.quiet : Event α → Bool
  | .called _ _ => true
  | .settled _ _ => true
  | _ => false

variable {starts : ℕ}

theorem Log.append_quiet (h : Log events starts) {more : List (Event α)}
    (hquiet : ∀ event ∈ more, event.quiet = true) : Log (events ++ more) starts := by
  have hstarted : ∀ sync covered, Event.started sync covered ∈ events ++ more →
      Event.started sync covered ∈ events := by
    grind [Event.quiet]
  have hhandled : ∀ sync result, Event.handled sync result ∈ events ++ more →
      Event.handled sync result ∈ events := by
    grind [Event.quiet]
  constructor
  case started => exact fun sync covered hmem => h.started sync covered (hstarted _ _ hmem)
  case unique =>
    exact fun sync covered covered' hmem hmem' =>
      h.unique sync covered covered' (hstarted _ _ hmem) (hstarted _ _ hmem')
  case handled => exact fun sync result hmem => h.handled sync result (hhandled _ _ hmem)
  case waited =>
    intro before sync covered after hsplit
    rcases split_append hsplit with ⟨rest, hevents⟩ | ⟨pre, -, hmore⟩
    · exact h.waited before sync covered rest hevents
    · have hnew := hquiet (.started sync covered) (by simp [hmore])
      cases hnew
  case answered =>
    intro sync covered result hs hh caller hcaller
    exact (h.answered sync covered result (hstarted _ _ hs) (hhandled _ _ hh) caller hcaller).imp
      (List.mem_append_left more) (List.mem_append_left more)
  case resolved =>
    intro caller sync hmem
    have hold : Event.resolved caller sync ∈ events := by
      grind [Event.quiet]
    obtain ⟨mark, head, hsub, hcovers⟩ := h.resolved caller sync hold
    exact ⟨mark, head, hsub.trans (List.sublist_append_left events more), hcovers⟩
  case rejected =>
    intro caller sync hmem
    have hold : Event.rejected caller sync ∈ events := by
      grind [Event.quiet]
    obtain ⟨mark, covered, hsub⟩ := h.rejected caller sync hold
    exact ⟨mark, covered, hsub.trans (List.sublist_append_left events more)⟩

/-- A sync starts for everyone who waits. -/
theorem Log.append_started (h : Log events starts) {covered : List ℕ}
    (hcovered : ∀ caller, caller ∈ covered ↔ caller ∈ callersOf events ∧ caller ∉ settledOf events)
    : Log (events ++ [.started starts covered]) (starts + 1) := by
  have hhandled : ∀ sync result, Event.handled sync result ∈
      events ++ [Event.started starts covered] → Event.handled sync result ∈ events := by
    grind
  constructor
  case started =>
    intro sync other hmem
    have hold := h.started sync other
    grind
  case unique =>
    intro sync first second hfirst hsecond
    have hold := h.started sync first
    have hold' := h.started sync second
    have hunique := h.unique sync first second
    grind
  case handled => exact fun sync result hmem => (h.handled _ _ (hhandled _ _ hmem)).trans (by omega)
  case waited =>
    intro before sync other after hsplit
    rcases split_append hsplit with ⟨rest, hevents⟩ | ⟨pre, hbefore, hmore⟩
    · exact h.waited before sync other rest hevents
    · cases pre with
      | nil =>
        cases hmore
        rw [hbefore, List.append_nil]
        exact hcovered
      | cons first pre => simp at hmore
  case answered =>
    intro sync other result hs hh caller hcaller
    have hbound := h.handled sync result (hhandled _ _ hh)
    have hold : Event.started sync other ∈ events := by
      grind
    exact (h.answered sync other result hold (hhandled _ _ hh) caller hcaller).imp
      (List.mem_append_left _) (List.mem_append_left _)
  case resolved =>
    intro caller sync hmem
    have hold : Event.resolved caller sync ∈ events := by
      grind
    obtain ⟨mark, head, hsub, hcovers⟩ := h.resolved caller sync hold
    exact ⟨mark, head, hsub.trans (List.sublist_append_left events _), hcovers⟩
  case rejected =>
    intro caller sync hmem
    have hold : Event.rejected caller sync ∈ events := by
      grind
    obtain ⟨mark, other, hsub⟩ := h.rejected caller sync hold
    exact ⟨mark, other, hsub.trans (List.sublist_append_left events _)⟩

/-- What the handlers of a sync append. -/
def handledEvents (sync : ℕ) (result : SyncResult α) (covered late : List (Waiter α)) :
    List (Event α) :=
  [.handled sync result] ++ covered.map (answer sync result) ++
    late.map (fun waiter => .resolved waiter.caller sync)

theorem answer_cases (sync : ℕ) (result : SyncResult α) (waiter : Waiter α) :
    (∃ head, result = .resolved (some head) ∧ waiter.mark.le head = true ∧
      answer sync result waiter = .resolved waiter.caller sync) ∨
      answer sync result waiter = .rejected waiter.caller sync := by
  unfold answer
  split
  · split
    case isTrue hle => exact Or.inl ⟨_, rfl, hle, rfl⟩
    case isFalse => exact Or.inr rfl
  · exact Or.inr rfl

variable {result : SyncResult α}

theorem covers_of_happensToCover {waiter : Waiter α} (h : happensToCover result waiter = true) :
    ∃ head, result = .resolved (some head) ∧ Covers waiter.mark head := by
  unfold happensToCover at h
  split at h
  case h_1 head =>
    refine ⟨head, rfl, ?_⟩
    unfold Covers
    cases hmark : waiter.mark with
    | nan => exact Or.inl rfl
    | num x =>
      cases head with
      | nan => exact Or.inr (Or.inl rfl)
      | num y =>
        rw [hmark] at h
        simp only [Num.gt, Bool.not_eq_true', decide_eq_false_iff_not, not_lt] at h
        exact Or.inr (Or.inr (decide_eq_true h))
  case h_2 => cases h

variable {covered : List (Waiter α)} {sync : ℕ} {late : List (Waiter α)}

/-- The events of a handled sync. -/
theorem mem_handledEvents {event : Event α} (h : event ∈ handledEvents sync result covered late) :
    event = .handled sync result ∨
      (∃ waiter ∈ covered, ∃ head, result = .resolved (some head) ∧
        waiter.mark.le head = true ∧ event = .resolved waiter.caller sync) ∨
      (∃ waiter ∈ covered, event = .rejected waiter.caller sync) ∨
      ∃ waiter ∈ late, event = .resolved waiter.caller sync := by
  unfold handledEvents at h
  rcases List.mem_append.mp h with hfirst | hlate
  · rcases List.mem_append.mp hfirst with hhandled | hcovered
    · exact Or.inl (List.mem_singleton.mp hhandled)
    · obtain ⟨waiter, hwaiter, hevent⟩ := List.mem_map.mp hcovered
      rcases answer_cases sync result waiter with ⟨head, hresult, hle, hanswer⟩ | hanswer
      · exact Or.inr (Or.inl ⟨waiter, hwaiter, head, hresult, hle, hevent ▸ hanswer⟩)
      · exact Or.inr (Or.inr (Or.inl ⟨waiter, hwaiter, hevent ▸ hanswer⟩))
  · obtain ⟨waiter, hwaiter, hevent⟩ := List.mem_map.mp hlate
    exact Or.inr (Or.inr (Or.inr ⟨waiter, hwaiter, hevent.symm⟩))

theorem not_started_handledEvents {s : ℕ} {cov : List ℕ} :
    .started s cov ∉ handledEvents sync result covered late := by
  intro hmem
  obtain h | ⟨_, _, _, _, _, h⟩ | ⟨_, _, h⟩ | ⟨_, _, h⟩ := mem_handledEvents hmem
  all_goals cases h

theorem handled_of_mem_handledEvents {s : ℕ} {r : SyncResult α}
    (hmem : .handled s r ∈ handledEvents sync result covered late) : s = sync := by
  obtain h | ⟨_, _, _, _, _, h⟩ | ⟨_, _, h⟩ | ⟨_, _, h⟩ := mem_handledEvents hmem
  all_goals cases h
  rfl

/-- A sync's settlement is handled. -/
theorem Log.append_handled (h : Log events starts)
    (hstarted : .started sync (covered.map Waiter.caller) ∈ events)
    (hcovered : ∀ waiter ∈ covered, ∃ others,
      [.called waiter.caller waiter.mark, .started sync others].Sublist events)
    (hlate : ∀ waiter ∈ late, .called waiter.caller waiter.mark ∈ events ∧
      happensToCover result waiter = true) :
    Log (events ++ handledEvents sync result covered late) starts := by
  have honly : ∀ s cov, Event.started s cov ∈ events ++ handledEvents sync result covered late →
      Event.started s cov ∈ events := fun s cov hevent =>
    (List.mem_append.mp hevent).resolve_right not_started_handledEvents
  have hhandled : ∀ s r, Event.handled s r ∈ events ++ handledEvents sync result covered late →
      Event.handled s r ∈ events ∨ s = sync := fun s r hevent =>
    (List.mem_append.mp hevent).imp_right handled_of_mem_handledEvents
  constructor
  case started => exact fun s cov hevent => h.started s cov (honly s cov hevent)
  case unique =>
    exact fun s cov cov' hevent hevent' =>
      h.unique s cov cov' (honly s cov hevent) (honly s cov' hevent')
  case handled =>
    intro s r hevent
    rcases hhandled s r hevent with hold | hsync
    · exact h.handled s r hold
    · exact hsync ▸ h.started sync _ hstarted
  case waited =>
    intro before s cov after hsplit
    rcases split_append hsplit with ⟨rest, hevents⟩ | ⟨pre, hbefore, hmore⟩
    · exact h.waited before s cov rest hevents
    · have hnew : Event.started s cov ∈ handledEvents sync result covered late := by
        rw [hmore]
        exact List.mem_append_right pre List.mem_cons_self
      exact absurd hnew not_started_handledEvents
  case answered =>
    intro s cov r hs hh caller hcaller
    rcases hhandled s r hh with hold | hsync
    · exact (h.answered s cov r (honly s cov hs) hold caller hcaller).imp
        (List.mem_append_left _) (List.mem_append_left _)
    · -- it is the sync just handled
      rw [hsync] at hs ⊢
      rw [h.unique sync cov _ (honly sync cov hs) hstarted] at hcaller
      obtain ⟨waiter, hwaiter, hname⟩ := List.mem_map.mp hcaller
      have hevent : answer sync result waiter ∈ handledEvents sync result covered late :=
        List.mem_append_left _ (List.mem_append_right _ (List.mem_map_of_mem hwaiter))
      rcases answer_cases sync result waiter with ⟨head, -, -, hanswer⟩ | hanswer
      · rw [hanswer, hname] at hevent
        exact Or.inl (List.mem_append_right events hevent)
      · rw [hanswer, hname] at hevent
        exact Or.inr (List.mem_append_right events hevent)
  case resolved =>
    intro caller s hevent
    rcases List.mem_append.mp hevent with hold | hnew
    · obtain ⟨mark, head, hsub, hcovers⟩ := h.resolved caller s hold
      exact ⟨mark, head, hsub.trans (List.sublist_append_left events _), hcovers⟩
    · have horder : ∀ mark head, result = .resolved (some head) → s = sync →
          .called caller mark ∈ events →
          [Event.called caller mark, .handled s (.resolved (some head)), .resolved caller s].Sublist
            (events ++ handledEvents sync result covered late) := by
        intro mark head hresult hsync hcalled
        have hfirst : [Event.called caller mark].Sublist events :=
          List.singleton_sublist.mpr hcalled
        have hsecond : [Event.handled s (.resolved (some head)), .resolved caller s].Sublist
            (handledEvents sync result covered late) := by
          rw [← hresult, hsync]
          unfold handledEvents at hnew ⊢
          rw [List.append_assoc, List.singleton_append] at hnew ⊢
          cases hnew with
          | tail _ hnew => exact List.Sublist.cons_cons _ (List.singleton_sublist.mpr (hsync ▸ hnew))
        exact hfirst.append hsecond
      obtain heq | ⟨waiter, hwaiter, head, hresult, hle, heq⟩ | ⟨waiter, hwaiter, heq⟩ |
        ⟨waiter, hwaiter, heq⟩ := mem_handledEvents hnew
      · cases heq
      · cases heq
        obtain ⟨others, hsub⟩ := hcovered waiter hwaiter
        have hcalled := hsub.subset List.mem_cons_self
        exact ⟨waiter.mark, head, horder _ _ hresult rfl hcalled, Or.inr (Or.inr hle)⟩
      · cases heq
      · cases heq
        obtain ⟨hcalled, hcover⟩ := hlate waiter hwaiter
        obtain ⟨head, hresult, hcovers⟩ := covers_of_happensToCover hcover
        exact ⟨waiter.mark, head, horder _ _ hresult rfl hcalled, hcovers⟩
  case rejected =>
    intro caller s hevent
    rcases List.mem_append.mp hevent with hold | hnew
    · obtain ⟨mark, cov, hsub⟩ := h.rejected caller s hold
      exact ⟨mark, cov, hsub.trans (List.sublist_append_left events _)⟩
    · obtain heq | ⟨_, _, _, _, _, heq⟩ | ⟨waiter, hwaiter, heq⟩ | ⟨_, _, heq⟩ :=
        mem_handledEvents hnew
      · cases heq
      · cases heq
      · cases heq
        obtain ⟨others, hsub⟩ := hcovered waiter hwaiter
        exact ⟨waiter.mark, others, hsub.append (List.singleton_sublist.mpr hnew)⟩
      · cases heq

/-- What holds while `#next` is still to be called. -/
structure Core (world : World α) : Prop where
  log : Log world.events world.starts
  one : world.pending = [] ∧ world.syncing = false ∨
    ∃ sync, world.pending = [sync] ∧ world.syncing = true
  waiting : ∀ waiter ∈ world.waiting, .called waiter.caller waiter.mark ∈ world.events
  started : ∀ sync ∈ world.pending,
    .started sync.id (sync.covered.map Waiter.caller) ∈ world.events
  covered : ∀ sync ∈ world.pending, ∀ waiter ∈ sync.covered, ∃ others,
    [.called waiter.caller waiter.mark, .started sync.id others].Sublist world.events
  callers : callersOf world.events = List.range world.calls
  accounts : (settledOf world.events ++ owed world.pending ++
    world.waiting.map Waiter.caller).Perm (callersOf world.events)

/-- **What holds between any two steps**: no caller waits without a sync. -/
structure Inv (world : World α) : Prop where
  core : Core world
  served : world.pending = [] → world.waiting = []

theorem inv_start : Inv (World.start α) where
  core := by
    constructor
    case log => exact log_start
    case one => exact Or.inl ⟨rfl, rfl⟩
    case waiting => exact List.forall_mem_nil _
    case started => exact List.forall_mem_nil _
    case covered => exact List.forall_mem_nil _
    case callers => rfl
    case accounts => exact .nil
  served := fun _ => rfl

variable {world : World α}

theorem Core.settled_nodup (h : Core world) :
    (settledOf world.events ++ owed world.pending ++ world.waiting.map Waiter.caller).Nodup := by
  rw [h.accounts.nodup_iff, h.callers]
  exact List.nodup_range

/-- **`#next`** leaves no caller waiting without a sync. -/
theorem Core.next (h : Core world) (throws : Bool) : Inv (world.next throws) := by
  unfold World.next
  by_cases hbusy : (world.syncing || world.waiting.isEmpty) = true
  · rw [if_pos hbusy]
    refine ⟨h, ?_⟩
    intro hpending
    rcases h.one with ⟨-, hfree⟩ | ⟨sync, hone, -⟩
    · rw [hfree, Bool.false_or, List.isEmpty_iff] at hbusy
      exact hbusy
    · rw [hpending] at hone
      cases hone
  · rw [if_neg hbusy]
    rw [Bool.not_eq_true, Bool.or_eq_false_iff] at hbusy
    obtain ⟨hfree, -⟩ := hbusy
    have hidle : world.pending = [] := by
      rcases h.one with ⟨hidle, -⟩ | ⟨sync, -, hsyncing⟩
      · exact hidle
      · rw [hfree] at hsyncing
        cases hsyncing
    have hnodup := h.settled_nodup
    have haccounts := h.accounts
    rw [hidle] at hnodup haccounts
    -- who waits is who came and was not answered
    have hwho : ∀ caller, caller ∈ world.waiting.map Waiter.caller ↔
        caller ∈ callersOf world.events ∧ caller ∉ settledOf world.events := by
      intro caller
      have hmem := haccounts.mem_iff (a := caller)
      have hdisjoint := (List.nodup_append.mp hnodup).2.2
      simp only [owed, List.flatMap_nil, List.append_nil, List.mem_append] at hmem hdisjoint
      grind
    have hlog : Log (world.events ++ [.started world.starts (world.waiting.map Waiter.caller)] ++
        if throws then [.settled world.starts .rejected] else []) (world.starts + 1) := by
      apply (h.log.append_started hwho).append_quiet
      cases throws <;> simp [Event.quiet]
    have hquiet : callersOf (if throws then [.settled world.starts .rejected] else [] :
        List (Event α)) = [] ∧ settledOf (if throws then [.settled world.starts .rejected] else [] :
        List (Event α)) = [] := by
      cases throws <;> exact ⟨rfl, rfl⟩
    have howed : (if throws then .settled .rejected else .running : Phase α) ≠ .handled := by
      cases throws <;> nofun
    refine ⟨⟨hlog, ?_, ?_, ?_, ?_, ?_, ?_⟩, ?_⟩
    all_goals dsimp only
    · exact Or.inr ⟨_, by rw [hidle, List.nil_append], rfl⟩
    · exact List.forall_mem_nil _
    · intro sync hsync
      rw [hidle, List.nil_append, List.mem_singleton] at hsync
      subst hsync
      exact List.mem_append_left _ (List.mem_append_right _ List.mem_cons_self)
    · intro sync hsync waiter hwaiter
      rw [hidle, List.nil_append, List.mem_singleton] at hsync
      subst hsync
      have hcalled := List.singleton_sublist.mpr (h.waiting waiter hwaiter)
      exact ⟨_, (hcalled.append (List.Sublist.refl _)).trans (List.sublist_append_left _ _)⟩
    · rw [callersOf_append, callersOf_append, hquiet.1, List.append_nil]
      exact (List.append_nil _).trans h.callers
    · rw [settledOf_append, settledOf_append, callersOf_append, callersOf_append, hquiet.1,
        hquiet.2, hidle, List.nil_append]
      simpa [owed, howed, callersOf, settledOf] using haccounts
    · intro hpending
      simp [hidle] at hpending

theorem Inv.confirm (h : Inv world) (mark : Num α) (throws : Bool) :
    Inv (world.confirm mark throws) := by
  unfold World.confirm
  refine Core.next ?_ throws
  refine ⟨?_, h.core.one, ?_, ?_, ?_, ?_, ?_⟩
  all_goals dsimp only
  · exact h.core.log.append_quiet (by simp [Event.quiet])
  · intro waiter hwaiter
    rcases List.mem_append.mp hwaiter with hold | hnew
    · exact List.mem_append_left _ (h.core.waiting waiter hold)
    · rw [List.mem_singleton.mp hnew]
      exact List.mem_append_right _ List.mem_cons_self
  · intro sync hsync
    exact List.mem_append_left _ (h.core.started sync hsync)
  · intro sync hsync waiter hwaiter
    obtain ⟨others, hsub⟩ := h.core.covered sync hsync waiter hwaiter
    exact ⟨others, hsub.trans (List.sublist_append_left _ _)⟩
  · rw [callersOf_append, h.core.callers, List.range_succ]
    rfl
  · rw [settledOf_append, callersOf_append, List.map_append, ← List.append_assoc]
    simpa [settledOf, callersOf] using h.core.accounts.append_right [world.calls]

/-- The sync a step is about is the one that runs. -/
theorem Core.find_spec (h : Core world) {id : ℕ} {sync : Sync α}
    (hfind : world.pending.find? (fun s => s.id = id) = some sync) :
    sync.id = id ∧ world.pending = [sync] ∧ world.syncing = true := by
  have hid := List.find?_some hfind
  have hmem := List.mem_of_find?_eq_some hfind
  rcases h.one with ⟨hidle, -⟩ | ⟨other, hone, hsyncing⟩
  · rw [hidle] at hmem
    cases hmem
  · rw [hone, List.mem_singleton] at hmem
    exact ⟨of_decide_eq_true hid, hmem ▸ hone, hsyncing⟩

theorem Inv.settle (h : Inv world) (id : ℕ) (result : SyncResult α) :
    Inv (world.settle id result) := by
  unfold World.settle
  split
  case h_2 => exact h
  case h_1 syncId covered hfind =>
    obtain ⟨hid, hone, hsyncing⟩ := h.core.find_spec hfind
    dsimp only at hid
    subst hid
    have hpending : (world.setPhase syncId (.settled result)).pending =
        [⟨syncId, covered, .settled result⟩] := by
      unfold World.setPhase
      rw [hone]
      simp
    have hstarted := h.core.started _ (List.mem_of_find?_eq_some hfind)
    have hcovered := h.core.covered _ (List.mem_of_find?_eq_some hfind)
    have haccounts := h.core.accounts
    rw [hone] at haccounts
    refine ⟨⟨?_, ?_, ?_, ?_, ?_, ?_, ?_⟩, ?_⟩
    all_goals dsimp only
    · exact h.core.log.append_quiet (by simp [Event.quiet])
    · exact Or.inr ⟨_, hpending, hsyncing⟩
    · intro waiter hwaiter
      exact List.mem_append_left _ (h.core.waiting waiter hwaiter)
    · intro sync hsync
      rw [hpending, List.mem_singleton] at hsync
      rw [hsync]
      exact List.mem_append_left _ hstarted
    · intro sync hsync waiter hwaiter
      rw [hpending, List.mem_singleton] at hsync
      rw [hsync] at hwaiter ⊢
      obtain ⟨others, hsub⟩ := hcovered waiter hwaiter
      exact ⟨others, hsub.trans (List.sublist_append_left _ _)⟩
    · rw [callersOf_append]
      exact (List.append_nil _).trans h.core.callers
    · rw [hpending, settledOf_append, callersOf_append]
      simpa [owed, settledOf, callersOf, World.setPhase] using haccounts
    · intro hnone
      rw [hpending] at hnone
      cases hnone

theorem settledOf_handledEvents (sync : ℕ) (result : SyncResult α)
    (covered late : List (Waiter α)) :
    settledOf (handledEvents sync result covered late) =
      covered.map Waiter.caller ++ late.map Waiter.caller := by
  have hanswers : settledOf (covered.map (answer sync result)) = covered.map Waiter.caller := by
    induction covered with
    | nil => rfl
    | cons waiter rest ih =>
      rcases answer_cases sync result waiter with ⟨head, -, -, hanswer⟩ | hanswer
      · simpa [settledOf, hanswer] using ih
      · simpa [settledOf, hanswer] using ih
  have hlates : settledOf (late.map (fun waiter => Event.resolved waiter.caller sync) :
      List (Event α)) = late.map Waiter.caller := by
    induction late with
    | nil => rfl
    | cons waiter rest ih => simp [settledOf]
  unfold handledEvents
  rw [settledOf_append, settledOf_append, hanswers, hlates]
  rfl

theorem callersOf_handledEvents (sync : ℕ) (result : SyncResult α)
    (covered late : List (Waiter α)) :
    callersOf (handledEvents sync result covered late) = [] := by
  rw [callersOf, List.filterMap_eq_nil_iff]
  intro event hevent
  obtain h | ⟨_, _, _, _, _, h⟩ | ⟨_, _, h⟩ | ⟨_, _, h⟩ := mem_handledEvents hevent
  all_goals rw [h]

/-- **The handler of a settled write runs.** -/
theorem Inv.handle (h : Inv world) (id : ℕ) : Inv (world.handle id) := by
  unfold World.handle
  split
  case h_2 => exact h
  case h_1 syncId covered result hfind =>
    obtain ⟨hid, hone, hsyncing⟩ := h.core.find_spec hfind
    dsimp only at hid
    subst hid
    have hpending : (world.setPhase syncId .handled).pending = [⟨syncId, covered, .handled⟩] := by
      unfold World.setPhase
      rw [hone]
      simp
    have hstarted := h.core.started _ (List.mem_of_find?_eq_some hfind)
    have hcovered := h.core.covered _ (List.mem_of_find?_eq_some hfind)
    have haccounts := h.core.accounts
    rw [hone] at haccounts
    have hsplit := List.filter_append_perm (happensToCover result) world.waiting
    refine ⟨⟨?_, ?_, ?_, ?_, ?_, ?_, ?_⟩, ?_⟩
    all_goals dsimp only
    · apply h.core.log.append_handled hstarted hcovered
      intro waiter hwaiter
      obtain ⟨hmem, hcover⟩ := List.mem_filter.mp hwaiter
      exact ⟨h.core.waiting waiter hmem, hcover⟩
    · exact Or.inr ⟨_, hpending, hsyncing⟩
    · intro waiter hwaiter
      exact List.mem_append_left _ (h.core.waiting waiter (List.mem_filter.mp hwaiter).1)
    · intro sync hsync
      rw [hpending, List.mem_singleton] at hsync
      rw [hsync]
      exact List.mem_append_left _ hstarted
    · intro sync hsync waiter hwaiter
      rw [hpending, List.mem_singleton] at hsync
      rw [hsync] at hwaiter ⊢
      obtain ⟨others, hsub⟩ := hcovered waiter hwaiter
      exact ⟨others, hsub.trans (List.sublist_append_left _ _)⟩
    · rw [callersOf_append]
      exact (congrArg _ (callersOf_handledEvents syncId result covered _)).trans
        ((List.append_nil _).trans h.core.callers)
    · have hcallers := callersOf_handledEvents syncId result covered
        (world.waiting.filter (happensToCover result))
      have hsettled := settledOf_handledEvents syncId result covered
        (world.waiting.filter (happensToCover result))
      have hmap := hsplit.map Waiter.caller
      rw [List.map_append] at hmap
      unfold handledEvents at hcallers hsettled
      rw [hpending, settledOf_append, callersOf_append, hcallers, hsettled, List.append_nil]
      refine List.Perm.trans ?_ haccounts
      simp only [owed, List.flatMap_cons, List.flatMap_nil, List.append_nil, if_true, reduceCtorEq,
        if_false, List.append_assoc]
      exact (hmap.append_left _).append_left _
    · intro hnone
      rw [hpending] at hnone
      cases hnone

theorem Inv.finish (h : Inv world) (id : ℕ) (throws : Bool) : Inv (world.finish id throws) := by
  unfold World.finish
  split
  case h_2 => exact h
  case h_1 syncId covered hfind =>
    obtain ⟨hid, hone, hsyncing⟩ := h.core.find_spec hfind
    have hpending : world.pending.filter (fun s => s.id ≠ id) = [] := by
      rw [hone]
      simpa using hid
    have haccounts := h.core.accounts
    rw [hone] at haccounts
    refine Core.next ?_ throws
    refine ⟨h.core.log, ?_, h.core.waiting, ?_, ?_, h.core.callers, ?_⟩
    all_goals dsimp only
    · exact Or.inl ⟨hpending, rfl⟩
    · rw [hpending]
      exact List.forall_mem_nil _
    · rw [hpending]
      exact List.forall_mem_nil _
    · rw [hpending]
      simpa [owed] using haccounts

/-- **One step.** -/
theorem Inv.step (h : Inv world) (label : Label α) : Inv (world.step label) := by
  cases label with
  | confirm mark throws => exact h.confirm mark throws
  | settle sync result => exact h.settle sync result
  | handle sync => exact h.handle sync
  | finish sync throws => exact h.finish sync throws

/-- **A whole run.** -/
theorem inv_run (labels : List (Label α)) : Inv (run labels) := by
  have hsteps : ∀ world : World α, Inv world → Inv (labels.foldl World.step world) := by
    induction labels with
    | nil => exact fun world h => h
    | cons label rest ih => exact fun world h => ih (world.step label) (h.step label)
  exact hsteps (World.start α) inv_start

/-- **Confirming by group.** At most one sync runs; a caller is answered once;
whoever waited when a sync started is answered by it; a head that resolves a
caller covers its mark and is handled after the call, `NaN` apart; a sync that
rejects a caller started after the call. -/
theorem replication_group_commit (labels : List (Label α)) :
    (run labels).pending.length ≤ 1 ∧
    (settledOf (run labels).events).Nodup ∧
    (∀ before sync covered after result,
      (run labels).events = before ++ .started sync covered :: after →
      .handled sync result ∈ (run labels).events →
      ∀ caller ∈ callersOf before, caller ∉ settledOf before →
        .resolved caller sync ∈ (run labels).events ∨
          .rejected caller sync ∈ (run labels).events) ∧
    (∀ caller sync, .resolved caller sync ∈ (run labels).events → ∃ mark head,
      [.called caller mark, .handled sync (.resolved (some head)),
        .resolved caller sync].Sublist (run labels).events ∧
      (mark = .nan ∨ head = .nan ∨ mark.le head = true)) ∧
    ∀ caller sync, .rejected caller sync ∈ (run labels).events → ∃ mark covered,
      [.called caller mark, .started sync covered,
        .rejected caller sync].Sublist (run labels).events := by
  have h := (inv_run labels).core
  refine ⟨?_, ?_, ?_, h.log.resolved, h.log.rejected⟩
  · rcases h.one with ⟨hidle, -⟩ | ⟨sync, hone, -⟩
    · rw [hidle]
      exact Nat.zero_le 1
    · rw [hone]
      exact le_rfl
  · exact (List.nodup_append.mp (List.nodup_append.mp h.settled_nodup).1).1
  · intro before sync covered after result hsplit hhandled caller hcame hopen
    have hstarted : .started sync covered ∈ (run labels).events := by
      rw [hsplit]
      exact List.mem_append_right before List.mem_cons_self
    have hcovered := (h.log.waited before sync covered after hsplit caller).mpr ⟨hcame, hopen⟩
    exact h.log.answered sync covered result hstarted hhandled caller hcovered

end

/-- A caller resolved by a sync that settled after the call with a head at or
above its mark. -/
def ResolvedByHead (events : List (Event ℕ)) : Prop :=
  ∀ caller sync, .resolved caller sync ∈ events → ∃ mark settled head,
    [.called caller mark, .settled settled (.resolved (some head))].Sublist events ∧
      mark.le head = true

/-- A head that is no number resolves a caller that came while the sync ran; and
one is resolved by a sync that had settled before it came. -/
theorem resolved_by_no_head :
    ¬ ResolvedByHead (run [.confirm (.num 1) false, .confirm (.num 5) false,
      .settle 0 (.resolved (some .nan)), .handle 0]).events ∧
    ¬ ResolvedByHead (run [.confirm (.num 1) false, .settle 0 (.resolved (some (.num 9))),
      .confirm (.num 5) false, .handle 0]).events := by
  constructor
  · intro h
    obtain ⟨mark, settled, head, hsub, hle⟩ := h 1 0 (by decide)
    have hevents : (run [.confirm (.num 1) false, .confirm (.num 5) false,
        .settle 0 (.resolved (some .nan)), .handle 0]).events =
          [.called 0 (.num (1 : ℕ)), .started 0 [0], .called 1 (.num 5),
            .settled 0 (.resolved (some .nan)), .handled 0 (.resolved (some .nan)),
            .rejected 0 0, .resolved 1 0] := by decide
    have hsettled := hsub.subset (List.mem_cons_of_mem _ List.mem_cons_self)
    rw [hevents] at hsettled
    simp only [List.mem_cons, List.not_mem_nil, reduceCtorEq, false_or, or_false,
      Event.settled.injEq, SyncResult.resolved.injEq, Option.some.injEq] at hsettled
    rw [hsettled.2] at hle
    cases mark <;> cases hle
  · intro h
    obtain ⟨mark, settled, head, hsub, hle⟩ := h 1 0 (by decide)
    have hevents : (run [.confirm (.num 1) false, .settle 0 (.resolved (some (.num 9))),
        .confirm (.num 5) false, .handle 0]).events =
          [.called 0 (.num (1 : ℕ)), .started 0 [0], .settled 0 (.resolved (some (.num 9))),
            .called 1 (.num 5), .handled 0 (.resolved (some (.num 9))),
            .resolved 0 0, .resolved 1 0] := by decide
    rw [hevents] at hsub
    -- the call comes after the settlement
    grind

end ReplicationGroupCommit

end Swamp
