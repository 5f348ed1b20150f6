import Swamp.TrackedSplices

/-!
# Scanning without the memo

`scanExpressions` remembers the positions and states of the walks it rejected, and a
later walk that comes to one of them is not walked on.  `plainExpressions` is the same
loop without that memo: a span ends at the first `}}` unless the walk comes to another,
only the text up to which parses.
-/

namespace Swamp

namespace ExpressionScanner

open Js LiteralMatch

section

variable (parsesAsCel : JsString → Bool)

/-- `scanExpressions` from `start` on, each walk on its own. -/
def plainFrom (value : JsString) : ℕ → ℕ → List ExpressionSpan
  | 0, _ => []
  | fuel + 1, start =>
    match indexOf value OPENER start with
    | none => []
    | some start =>
      let openAt := start + OPENER.length
      match indexOf value CLOSER (openAt + 1) with
      | none => []
      | some legacy =>
        let close := (chooseClose parsesAsCel value openAt legacy []).1
        let stop := close + CLOSER.length
        ⟨start, stop, slice value start stop, trim (slice value openAt close)⟩ ::
          plainFrom value fuel stop

def plainExpressions (value : JsString) : List ExpressionSpan :=
  plainFrom parsesAsCel value value.length 0

/-- Whether the walk on its own comes to a `}}` other than the first, and only the text up
to there parses. -/
def WalksTo (value : JsString) (openAt legacy walked : ℕ) : Prop :=
  (walkToClose value openAt []).1 = some walked ∧ walked ≠ legacy ∧
    parses parsesAsCel (slice value openAt legacy) = false ∧
    parses parsesAsCel (slice value openAt walked) = true

/-- Where an expression ends: at the first `}}`, unless the walk comes to another. -/
def EndsAt (value : JsString) (openAt legacy close : ℕ) : Prop :=
  WalksTo parsesAsCel value openAt legacy close ∨
    (¬ ∃ walked, WalksTo parsesAsCel value openAt legacy walked) ∧ close = legacy

/-- Where an expression may end whatever the memo left of its walk: a walk that is cut
off keeps the first `}}`. -/
def MayEndAt (value : JsString) (openAt legacy close : ℕ) : Prop :=
  close = legacy ∨ WalksTo parsesAsCel value openAt legacy close

/-- The spans stand from left to right: each starts at the first opener behind the one
before and ends where `ends` has it, and behind the last no opener has a closer. -/
def Stands (ends : ℕ → ℕ → ℕ → Prop) (value : JsString) : ℕ → List ExpressionSpan → Prop
  | start, [] => ∀ place, indexOf value OPENER start = some place →
      indexOf value CLOSER (place + OPENER.length + 1) = none
  | start, span :: rest =>
    indexOf value OPENER start = some span.start ∧
      (∃ legacy close, indexOf value CLOSER (span.start + OPENER.length + 1) = some legacy ∧
        ends (span.start + OPENER.length) legacy close ∧ span.stop = close + CLOSER.length ∧
        span.raw = slice value span.start span.stop ∧
        span.inner = trim (slice value (span.start + OPENER.length) close)) ∧
      Stands ends value span.stop rest

/-- Whether the memo cuts off a walk that comes to the end of its expression. -/
def MisledAt (value : JsString) (openAt legacy : ℕ) (rejected : List (ℕ × LexState)) : Prop :=
  (∃ visit ∈ (walkToClose value openAt []).2, visit ∈ rejected) ∧
    ∃ walked, WalksTo parsesAsCel value openAt legacy walked

/-- No walk of the scan from `start` on is cut off on its way to the end of its
expression. -/
def NeverMisledFrom (value : JsString) : ℕ → ℕ → List (ℕ × LexState) → Prop
  | 0, _, _ => True
  | fuel + 1, start, rejected =>
    match indexOf value OPENER start with
    | none => True
    | some start =>
      match indexOf value CLOSER (start + OPENER.length + 1) with
      | none => True
      | some legacy =>
        ¬ MisledAt parsesAsCel value (start + OPENER.length) legacy rejected ∧
          NeverMisledFrom value fuel
            ((chooseClose parsesAsCel value (start + OPENER.length) legacy rejected).1 +
              CLOSER.length)
            (chooseClose parsesAsCel value (start + OPENER.length) legacy rejected).2

def NeverMisled (value : JsString) : Prop := NeverMisledFrom parsesAsCel value value.length 0 []

end

variable {value : JsString} {openAt : ℕ} {rejected : List (ℕ × LexState)} {fuel : ℕ}

/-- **The memo leaves a walk alone, or cuts it off.** -/
theorem walkFrom_memo {pos : ℕ} {state : LexState} {visited : List (ℕ × LexState)} :
    ∃ more, (walkFrom value openAt [] fuel pos state visited).2 = visited ++ more ∧
      ((∀ visit ∈ more, visit ∉ rejected) →
        walkFrom value openAt rejected fuel pos state visited =
          walkFrom value openAt [] fuel pos state visited) ∧
      ((∃ visit ∈ more, visit ∈ rejected) →
        (walkFrom value openAt rejected fuel pos state visited).1 = none) := by
  induction fuel generalizing pos state visited with
  | zero => exact ⟨[], (List.append_nil _).symm, fun _ => rfl, fun _ => rfl⟩
  | succ fuel ih =>
    rw [walkFrom, walkFrom, if_neg (List.not_mem_nil : (pos, state) ∉ [])]
    by_cases hend : value.length ≤ pos
    · rw [if_pos hend, if_pos hend]
      exact ⟨[], (List.append_nil _).symm, fun _ => rfl, fun _ => rfl⟩
    rw [if_neg hend, if_neg hend]
    by_cases hclose : (state = .code ∨ state = .comment) ∧ openAt < pos ∧
        startsWith (value.drop pos) CLOSER = true
    · rw [if_pos hclose, if_pos hclose]
      refine ⟨[(pos, state)], rfl, ?_, ?_⟩
      · intro hfree
        rw [if_neg (hfree _ List.mem_cons_self)]
      · intro hmet
        obtain ⟨visit, hvisit, hmem⟩ := hmet
        rw [List.mem_singleton.mp hvisit] at hmem
        rw [if_pos hmem]
    · rw [if_neg hclose, if_neg hclose]
      cases hstep : lexStep value pos state with
      | none =>
        refine ⟨[(pos, state)], rfl, ?_, ?_⟩
        · intro hfree
          rw [if_neg (hfree _ List.mem_cons_self)]
        · intro _
          simp only
          split <;> rfl
      | some next =>
        obtain ⟨more, hmore, hfree, hmet⟩ := @ih next.1 next.2 (visited ++ [(pos, state)])
        refine ⟨(pos, state) :: more, ?_, ?_, ?_⟩
        · simp only [hmore, List.append_assoc, List.singleton_append]
        · intro hnone
          rw [if_neg (hnone _ List.mem_cons_self)]
          exact hfree (fun visit hvisit => hnone visit (List.mem_cons_of_mem _ hvisit))
        · intro hsome
          by_cases hhere : (pos, state) ∈ rejected
          · rw [if_pos hhere]
          · rw [if_neg hhere]
            obtain ⟨visit, hvisit, hmem⟩ := hsome
            rcases List.mem_cons.mp hvisit with rfl | hvisit
            · exact absurd hmem hhere
            · exact hmet ⟨visit, hvisit, hmem⟩

theorem walkToClose_memo (value : JsString) (openAt : ℕ) (rejected : List (ℕ × LexState)) :
    ((∀ visit ∈ (walkToClose value openAt []).2, visit ∉ rejected) →
      walkToClose value openAt rejected = walkToClose value openAt []) ∧
    ((∃ visit ∈ (walkToClose value openAt []).2, visit ∈ rejected) →
      (walkToClose value openAt rejected).1 = none) := by
  obtain ⟨more, hmore, hfree, hmet⟩ := @walkFrom_memo value openAt rejected
    (value.length - openAt) openAt .code []
  rw [List.nil_append] at hmore
  unfold walkToClose
  rw [hmore]
  exact ⟨hfree, hmet⟩

section

variable {parsesAsCel : JsString → Bool}

variable {legacy : ℕ}

theorem WalksTo.unique {walked walked' : ℕ} (h : WalksTo parsesAsCel value openAt legacy walked)
    (h' : WalksTo parsesAsCel value openAt legacy walked') : walked = walked' :=
  Option.some.inj (h.1.symm.trans h'.1)

/-- Where the walk of a scan ends an expression, whatever the memo left of it. -/
theorem chooseClose_eq :
    (chooseClose parsesAsCel value openAt legacy rejected).1 =
      match (walkToClose value openAt rejected).1 with
      | some walked =>
        if walked ≠ legacy ∧ parses parsesAsCel (slice value openAt legacy) = false ∧
          parses parsesAsCel (slice value openAt walked) = true then walked
        else legacy
      | none => legacy := by
  unfold chooseClose
  cases hwalk : walkToClose value openAt rejected with
  | mk walked visited =>
    cases walked with
    | none => rfl
    | some walked =>
      by_cases hsame : walked = legacy
      · simp [hsame]
      · cases hfirst : parses parsesAsCel (slice value openAt legacy) <;>
          cases hwalked : parses parsesAsCel (slice value openAt walked) <;>
            simp [hsame, hwalked]

/-- **Without the memo an expression ends where it should.** -/
theorem endsAt_chooseClose (value : JsString) (openAt legacy : ℕ) :
    EndsAt parsesAsCel value openAt legacy (chooseClose parsesAsCel value openAt legacy []).1 := by
  rw [chooseClose_eq, EndsAt]
  cases hwalk : (walkToClose value openAt []).1 with
  | none =>
    refine Or.inr ⟨?_, rfl⟩
    intro h
    obtain ⟨walked, hwalked⟩ := h
    rw [WalksTo, hwalk] at hwalked
    cases hwalked.1
  | some walked =>
    simp only
    split
    · rename_i h
      exact Or.inl ⟨hwalk, h⟩
    · rename_i h
      refine Or.inr ⟨?_, rfl⟩
      intro hother
      obtain ⟨other, hother⟩ := hother
      have hsame : walked = other := Option.some.inj (hwalk.symm.trans hother.1)
      exact h (hsame ▸ hother.2)

/-- An expression ends at one place only. -/
theorem EndsAt.unique {close close' : ℕ} (h : EndsAt parsesAsCel value openAt legacy close)
    (h' : EndsAt parsesAsCel value openAt legacy close') : close = close' := by
  rcases h with h | ⟨hnone, rfl⟩
  · rcases h' with h' | ⟨hnone', _⟩
    · exact h.unique h'
    · exact absurd ⟨_, h⟩ hnone'
  · rcases h' with h' | ⟨_, rfl⟩
    · exact absurd ⟨_, h'⟩ hnone
    · rfl

/-- **With the memo it ends elsewhere only where its walk is cut off.** -/
theorem chooseClose_memo_iff :
    (chooseClose parsesAsCel value openAt legacy rejected).1 =
        (chooseClose parsesAsCel value openAt legacy []).1 ↔
      ¬ MisledAt parsesAsCel value openAt legacy rejected := by
  obtain ⟨hfree, hmet⟩ := walkToClose_memo value openAt rejected
  by_cases hcut : ∃ visit ∈ (walkToClose value openAt []).2, visit ∈ rejected
  · have hlegacy : (chooseClose parsesAsCel value openAt legacy rejected).1 = legacy := by
      rw [chooseClose_eq, hmet hcut]
    rw [hlegacy]
    constructor
    · intro hsame hmisled
      obtain ⟨_, walked, hwalked⟩ := hmisled
      have hends := @endsAt_chooseClose parsesAsCel value openAt legacy
      rw [← hsame] at hends
      exact hwalked.2.1 (EndsAt.unique (Or.inl hwalked) hends)
    · intro hright
      refine EndsAt.unique (Or.inr ⟨fun hwalked => hright ⟨hcut, hwalked⟩, rfl⟩)
        (endsAt_chooseClose value openAt legacy)
  · have hsame := hfree (fun visit hvisit hmem => hcut ⟨visit, hvisit, hmem⟩)
    refine iff_of_true ?_ (fun hmisled => hcut hmisled.1)
    rw [chooseClose_eq, chooseClose_eq, hsame]

/-- Whatever the memo holds, an expression ends at the first `}}` or where it should. -/
theorem mayEndAt_chooseClose : MayEndAt parsesAsCel value openAt legacy
    (chooseClose parsesAsCel value openAt legacy rejected).1 := by
  obtain ⟨hfree, hmet⟩ := walkToClose_memo value openAt rejected
  by_cases hcut : ∃ visit ∈ (walkToClose value openAt []).2, visit ∈ rejected
  · apply Or.inl
    rw [chooseClose_eq, hmet hcut]
  · have hsame := hfree (fun visit hvisit hmem => hcut ⟨visit, hvisit, hmem⟩)
    have hends := @endsAt_chooseClose parsesAsCel value openAt legacy
    rw [chooseClose_eq, ← hsame, ← chooseClose_eq] at hends
    rcases hends with hwalked | ⟨-, hlegacy⟩
    · exact Or.inr hwalked
    · exact Or.inl hlegacy

/-- **The scans agree as long as no walk is cut off on its way to the end of its
expression.** -/
theorem scanFrom_eq_plain_iff {start : ℕ} :
    scanFrom parsesAsCel value fuel start rejected = plainFrom parsesAsCel value fuel start ↔
      NeverMisledFrom parsesAsCel value fuel start rejected := by
  induction fuel generalizing start rejected with
  | zero => exact iff_of_true rfl trivial
  | succ fuel ih =>
    rw [scanFrom, plainFrom, NeverMisledFrom]
    cases indexOf value OPENER start with
    | none => exact iff_of_true rfl trivial
    | some place =>
      cases hclose : indexOf value CLOSER (place + OPENER.length + 1) with
      | none => simp only [hclose]
      | some legacy =>
        simp only [hclose]
        rw [← chooseClose_memo_iff, List.cons.injEq, ExpressionSpan.mk.injEq]
        constructor
        · intro h
          obtain ⟨⟨_, hstop, _⟩, hrest⟩ := h
          have hsame := Nat.add_right_cancel hstop
          rw [← hsame] at hrest
          exact ⟨hsame, ih.mp hrest⟩
        · intro h
          obtain ⟨hsame, hrest⟩ := h
          rw [← hsame]
          exact ⟨⟨rfl, rfl, rfl, rfl⟩, ih.mpr hrest⟩

/-- **The scan finds the spans where they may stand**, and where they should stand as
long as no walk is cut off. -/
theorem scanFrom_stands {start : ℕ} (h : value.length ≤ start + fuel) :
    Stands (MayEndAt parsesAsCel value) value start
        (scanFrom parsesAsCel value fuel start rejected) ∧
      (NeverMisledFrom parsesAsCel value fuel start rejected →
        Stands (EndsAt parsesAsCel value) value start
          (scanFrom parsesAsCel value fuel start rejected)) := by
  induction fuel generalizing start rejected with
  | zero =>
    have hnone : ∀ place, indexOf value OPENER start = some place →
        indexOf value CLOSER (place + OPENER.length + 1) = none := by
      intro place hplace
      have hwithin := indexOf_within (by decide) hplace
      rw [opener_length] at hwithin
      omega
    exact ⟨hnone, fun _ => hnone⟩
  | succ fuel ih =>
    rw [scanFrom, NeverMisledFrom]
    cases hopen : indexOf value OPENER start with
    | none =>
      simp [Stands, hopen]
    | some place =>
      obtain ⟨hle, hplace⟩ := indexOf_within (by decide) hopen
      cases hclose : indexOf value CLOSER (place + OPENER.length + 1) with
      | none =>
        simp only [Stands, hopen, hclose]
        refine ⟨fun other hother => ?_, fun _ other hother => ?_⟩
        · rw [← Option.some.inj hother]
          exact hclose
        · rw [← Option.some.inj hother]
          exact hclose
      | some legacy =>
        simp only [hclose]
        obtain ⟨hafter, hlegacy⟩ := indexOf_within (by decide) hclose
        have hbetween := (@chooseClose_within parsesAsCel value (place + OPENER.length) legacy
          rejected (by omega) hlegacy).1
        obtain ⟨hmay, hshould⟩ := @ih
          (chooseClose parsesAsCel value (place + OPENER.length) legacy rejected).2
          ((chooseClose parsesAsCel value (place + OPENER.length) legacy rejected).1 +
            CLOSER.length) (by omega)
        refine ⟨⟨hopen, ⟨legacy, _, hclose, mayEndAt_chooseClose, rfl, rfl, rfl⟩, hmay⟩, ?_⟩
        intro hnever
        have hends := @endsAt_chooseClose parsesAsCel value (place + OPENER.length) legacy
        rw [← chooseClose_memo_iff.mpr hnever.1] at hends
        exact ⟨hopen, ⟨legacy, _, hclose, hends, rfl, rfl, rfl⟩, hshould hnever.2⟩

/-- A text without an opener has no span in either scan. -/
theorem plainExpressions_none (h : includes value OPENER = false) :
    plainExpressions parsesAsCel value = [] := by
  have hnone : indexOf value OPENER 0 = none := by simpa [includes] using h
  unfold plainExpressions
  cases value.length with
  | zero => rfl
  | succ fuel => rw [plainFrom, hnone]

theorem scanExpressions_eq_plain_iff :
    scanExpressions parsesAsCel value = plainExpressions parsesAsCel value ↔
      NeverMisled parsesAsCel value := by
  unfold scanExpressions NeverMisled
  split
  · exact scanFrom_eq_plain_iff
  · rename_i h
    have hnone : includes value OPENER = false := by simpa using h
    have hopen : indexOf value OPENER 0 = none := by simpa [includes] using hnone
    rw [plainExpressions_none hnone]
    apply iff_of_true rfl
    cases value.length with
    | zero => trivial
    | succ fuel =>
      rw [NeverMisledFrom, hopen]
      trivial

/-- **A text holds an expression exactly when the scan finds a span.** -/
theorem containsExpression_iff_span :
    Provenance.containsExpression value = true ↔ scanExpressions parsesAsCel value ≠ [] := by
  unfold Provenance.containsExpression scanExpressions includes
  cases hopen : indexOf value OPENER 0 with
  | none => simp
  | some start =>
    obtain ⟨_, hplace⟩ := indexOf_within (by decide) hopen
    rw [opener_length] at hplace
    simp only [Option.isSome_some, if_true]
    cases hlength : value.length with
    | zero => omega
    | succ fuel =>
      rw [scanFrom, hopen]
      cases hclose : indexOf value CLOSER (start + OPENER.length + 1) <;> simp [hclose]

/-- What the scan does on every text: its spans stand where they may, one after the
other; it ends, and finds a span where the text holds an expression. -/
structure ScansInOrder (parsesAsCel : JsString → Bool) (value : JsString) : Prop where
  stands : Stands (MayEndAt parsesAsCel value) value 0 (scanExpressions parsesAsCel value)
  laid : Laid value 0 (scanExpressions parsesAsCel value)
  ends : ∀ more, scanFrom parsesAsCel value (value.length + more) 0 [] =
    scanFrom parsesAsCel value value.length 0 []
  found : Provenance.containsExpression value = true ↔ scanExpressions parsesAsCel value ≠ []

/-- What a scan without the memo does: the spans are those of the plain scan, each where
it should stand. -/
structure ScansPlainly (parsesAsCel : JsString → Bool) (value : JsString) : Prop extends
    ScansInOrder parsesAsCel value where
  plain : scanExpressions parsesAsCel value = plainExpressions parsesAsCel value
  should : Stands (EndsAt parsesAsCel value) value 0 (scanExpressions parsesAsCel value)

theorem scanExpressions_stands :
    Stands (MayEndAt parsesAsCel value) value 0 (scanExpressions parsesAsCel value) ∧
      (NeverMisled parsesAsCel value →
        Stands (EndsAt parsesAsCel value) value 0 (scanExpressions parsesAsCel value)) := by
  unfold scanExpressions NeverMisled
  split
  · exact scanFrom_stands (by omega)
  · rename_i h
    have hopen : indexOf value OPENER 0 = none := by simpa [includes] using h
    simp [Stands, hopen]

/-- **The scan finds its spans in order, and does what the plain scan does exactly when
no walk is cut off on its way to the end of its expression.** -/
theorem scansPlainly_iff (parsesAsCel : JsString → Bool) (value : JsString) :
    ScansInOrder parsesAsCel value ∧
      (ScansPlainly parsesAsCel value ↔ NeverMisled parsesAsCel value) := by
  obtain ⟨hmay, hshould⟩ := @scanExpressions_stands value parsesAsCel
  have horder : ScansInOrder parsesAsCel value :=
    ⟨hmay, scanExpressions_laid value, fun more => scanFrom_fuel (by omega) more,
      containsExpression_iff_span⟩
  refine ⟨horder, ⟨fun h => scanExpressions_eq_plain_iff.mp h.plain, fun h => ?_⟩⟩
  exact ⟨horder, scanExpressions_eq_plain_iff.mpr h, hshould h⟩

/-- A comment behind a triple quote that two openers share: the first walk is rejected
behind the comment's end, and the second comes there on its way to the last `}}`. -/
def quotedTwice : JsString := js "$\x7b\x7b ''' \x7d\x7d $\x7b\x7b // '''\n \"\x7d\x7d\" \x7d\x7d"

/-- The memo ends an expression at another `}}`. -/
theorem memo_moves_boundary :
    ¬ ∀ (parsesAsCel : JsString → Bool) (value : JsString), ScansPlainly parsesAsCel value := by
  intro h
  have hplain := (h (fun text => text = js "// '''\n \"\x7d\x7d\"") quotedTwice).plain
  exact absurd (congrArg (List.map ExpressionSpan.stop) hplain) (by decide)

end

end ExpressionScanner

end Swamp
