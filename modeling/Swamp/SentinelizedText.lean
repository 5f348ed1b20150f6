import Swamp.SentinelDelivery

/-!
# Putting secrets behind sentinels and back

What a text is cut into while its secrets are put behind sentinels is traced to the
pieces of its scan: a literal is kept text, sentinel-shaped text is a match, and an
issued sentinel stands for a form of a secret.
-/

namespace Swamp

open Js Shell

namespace Secrets

/-- No match starts in a text that two underscores follow. -/
def Quiet (text : JsString) : Prop :=
  ∀ front rest, text = front ++ rest → rest ≠ [] → sentinelPattern (rest ++ underscores) = none

variable {text : JsString}

theorem Quiet.suffix {front : JsString} (h : Quiet (front ++ text)) : Quiet text :=
  fun before rest heq hne => h (front ++ before) rest (by rw [heq, List.append_assoc]) hne

theorem Quiet.tail {u : CodeUnit} (h : Quiet (u :: text)) : Quiet text :=
  fun front rest heq hne => h (u :: front) rest (by rw [heq, List.cons_append]) hne

variable {sentinel : JsString}

/-- A quiet text is kept before a sentinel. -/
theorem Quiet.scan (h : Quiet text) (hsentinel : IsSentinel sentinel) (rest : JsString) :
    sentinelShape.scan (text ++ (sentinel ++ rest)) =
      text.map .kept ++ sentinelShape.scan (sentinel ++ rest) := by
  induction text with
  | nil => rfl
  | cons u text ih =>
    have hnone : sentinelPattern (u :: text ++ (sentinel ++ rest)) = none := by
      rw [sentinelPattern_before (List.cons_ne_nil _ _) hsentinel]
      exact h [] _ rfl (List.cons_ne_nil _ _)
    rw [List.cons_append] at hnone ⊢
    rw [sentinelShape.scan_keep hnone, ih h.tail, List.map_cons, List.cons_append]

variable {pieces : List (Pattern.Piece CodeUnit)}

/-- A text is quiet when a scan keeps it before something that starts as a sentinel does. -/
theorem quiet_of_scan {after : JsString} (hafter : ∀ rest, rest ≠ [] →
      sentinelPattern (rest ++ after) = sentinelPattern (rest ++ underscores))
    (h : sentinelShape.scan (text ++ after) = text.map .kept ++ pieces) : Quiet text := by
  induction text with
  | nil =>
    intro front rest heq hne
    exact absurd (List.append_eq_nil_iff.mp heq.symm).2 hne
  | cons u text ih =>
    rw [List.cons_append, List.map_cons, List.cons_append] at h
    cases hmatch : sentinelPattern (u :: (text ++ after)) with
    | some n =>
      rw [sentinelShape.scan_match hmatch] at h
      cases h
    | none =>
      rw [sentinelShape.scan_keep hmatch] at h
      intro front rest heq hne
      cases front with
      | nil =>
        obtain rfl : u :: text = rest := heq
        rw [← hafter _ hne, List.cons_append, hmatch]
      | cons v front => exact ih (List.cons.inj h).2 front rest (List.cons.inj heq).2 hne

variable {more : List (Pattern.Piece CodeUnit)}

/-- What a scan finds before some pieces is a scan of the front. -/
theorem scan_before (h : sentinelShape.scan text = pieces ++ more) :
    sentinelShape.scan (pieces.flatMap Pattern.Piece.text) = pieces := by
  induction pieces generalizing text with
  | nil => rfl
  | cons piece pieces ih =>
    obtain ⟨after, rfl, hafter, hpiece⟩ := sentinelShape.scan_cons h
    have hrest := ih hafter
    obtain ⟨last, rfl, -⟩ := sentinelShape.scan_after hafter
    rw [List.flatMap_cons]
    cases piece with
    | kept u =>
      have hnone : sentinelPattern (u :: pieces.flatMap Pattern.Piece.text) = none := by
        cases hown : sentinelPattern (u :: pieces.flatMap Pattern.Piece.text) with
        | none => rfl
        | some n =>
          have hlonger := sentinelPattern_append hown last
          rw [show sentinelPattern (u :: pieces.flatMap Pattern.Piece.text ++ last) = none
            from hpiece] at hlonger
          cases hlonger
      exact (sentinelShape.scan_keep hnone).trans (by rw [hrest])
    | matched run =>
      have hrun : sentinelPattern run = some run.length :=
        sentinelPattern_of_append hpiece.1 le_rfl
      exact (sentinelShape.scan_matched (sentinelPattern_append hrun _) hpiece.2).trans
        (by rw [hrest])

variable {whole : JsString}

theorem quiet_of_not_runsInto {front : JsString}
    (h : sentinelShape.scan whole = pieces ++ (text.map .kept ++ more))
    (hfront : pieces.flatMap Pattern.Piece.text = front) (hruns : ¬ RunsInto (front ++ text)) :
    Quiet text := by
  rw [RunsInto, not_not, Pattern.Seam] at hruns
  have hkept : (text.map Pattern.Piece.kept).flatMap Pattern.Piece.text = text := by
    rw [List.flatMap_map]
    simp [Pattern.Piece.text]
  have hbefore : sentinelShape.scan (front ++ text) = pieces ++ text.map .kept := by
    have hsplit : sentinelShape.scan whole = (pieces ++ text.map .kept) ++ more := by
      rw [h, List.append_assoc]
    have hscan := scan_before hsplit
    rwa [List.flatMap_append, hfront, hkept] at hscan
  rw [hbefore, List.append_assoc, List.append_assoc] at hruns
  obtain ⟨after, hafter, hscan⟩ := sentinelShape.scan_after hruns
  rw [hfront, List.append_cancel_left_eq] at hafter
  rw [← hafter] at hscan
  exact quiet_of_scan (fun rest hne => rfl) hscan

theorem quiet_before_match {run : JsString}
    (h : sentinelShape.scan whole = pieces ++ (text.map .kept ++ .matched run :: more)) :
    Quiet text := by
  obtain ⟨after, rfl, hscan⟩ := sentinelShape.scan_after h
  obtain ⟨last, rfl, hlast⟩ := sentinelShape.scan_after hscan
  obtain ⟨rest, rfl, -, hmatch⟩ := sentinelShape.scan_cons hlast
  have hkept : (text.map Pattern.Piece.kept).flatMap Pattern.Piece.text = text := by
    rw [List.flatMap_map]
    simp [Pattern.Piece.text]
  have hrun : IsSentinel run := sentinelPattern_of_append hmatch.1 le_rfl
  rw [hkept] at hscan
  exact quiet_of_scan (fun other hne => sentinelPattern_before hne hrun rest) hscan

/-- What a segment is traced to: kept text, sentinel-shaped text of the first text, or a
sentinel issued for a form. -/
inductive Trace where
  | literal (text : JsString)
  | found (run : JsString)
  | issued (sentinel form : JsString)

namespace Trace

/-- The segment. -/
def segment : Trace → TextSegment
  | literal text => ⟨text, false⟩
  | found run => ⟨run, true⟩
  | issued sentinel _ => ⟨sentinel, true⟩

/-- The pieces of the first text it stands for. -/
def source : Trace → List (Pattern.Piece CodeUnit)
  | literal text => text.map .kept
  | found run => [.matched run]
  | issued _ form => form.map .kept

/-- The pieces it is scanned as. -/
def scanned : Trace → List (Pattern.Piece CodeUnit)
  | literal text => text.map .kept
  | found run => [.matched run]
  | issued sentinel _ => [.matched sentinel]

def isLiteral : Trace → Bool
  | literal _ => true
  | _ => false

/-- A literal has no literal after it, and runs into nothing. -/
def Joins : Trace → Trace → Prop
  | literal text, next => next.isLiteral = false ∧ Quiet text
  | _, _ => True

end Trace

theorem segmentsOf_traced (pieces : List (Pattern.Piece CodeUnit)) :
    ∃ traces : List Trace, traces.map Trace.segment = segmentsOf pieces ∧
      traces.flatMap Trace.source = pieces ∧
      traces.IsChain (fun trace next => trace.isLiteral = true → next.isLiteral = false) ∧
      ∀ trace ∈ traces, ∀ sentinel form, trace ≠ .issued sentinel form := by
  induction pieces with
  | nil => exact ⟨[], rfl, rfl, List.isChain_nil, nofun⟩
  | cons piece rest ih =>
    obtain ⟨traces, hsegments, hsource, hchain, hfound⟩ := ih
    cases piece with
    | matched run =>
      refine ⟨.found run :: traces, ?_, ?_, ?_, ?_⟩
      · rw [List.map_cons, hsegments]
        rfl
      · rw [List.flatMap_cons, hsource]
        rfl
      · cases traces with
        | nil => exact List.isChain_singleton _
        | cons next traces => exact List.isChain_cons_cons.mpr ⟨nofun, hchain⟩
      · intro trace htrace sentinel form heq
        rcases List.mem_cons.mp htrace with rfl | htrace
        · cases heq
        · exact hfound trace htrace sentinel form heq
    | kept u =>
      cases traces with
      | nil =>
        refine ⟨[.literal [u]], ?_, ?_, List.isChain_singleton _, ?_⟩
        · rw [segmentsOf, ← hsegments]
          rfl
        · rw [← hsource]
          rfl
        · intro trace htrace sentinel form heq
          rw [List.mem_singleton.mp htrace] at heq
          cases heq
      | cons first traces =>
        have hrest : ∀ trace ∈ traces, ∀ sentinel form, trace ≠ .issued sentinel form :=
          fun trace htrace => hfound trace (List.mem_cons_of_mem _ htrace)
        cases first with
        | literal text =>
          refine ⟨.literal (u :: text) :: traces, ?_, ?_, ?_, ?_⟩
          · rw [segmentsOf, ← hsegments]
            rfl
          · rw [← hsource]
            rfl
          · cases traces with
            | nil => exact List.isChain_singleton _
            | cons next traces =>
              obtain ⟨hnext, hchain⟩ := List.isChain_cons_cons.mp hchain
              exact List.isChain_cons_cons.mpr ⟨hnext, hchain⟩
          · intro trace htrace sentinel form heq
            rcases List.mem_cons.mp htrace with rfl | htrace
            · cases heq
            · exact hrest trace htrace sentinel form heq
        | found run =>
          refine ⟨.literal [u] :: .found run :: traces, ?_, ?_, ?_, ?_⟩
          · rw [segmentsOf, ← hsegments]
            rfl
          · rw [← hsource]
            rfl
          · exact List.isChain_cons_cons.mpr ⟨fun _ => rfl, hchain⟩
          · intro trace htrace sentinel form heq
            rcases List.mem_cons.mp htrace with rfl | htrace
            · cases heq
            · exact hfound trace htrace sentinel form heq
        | issued sentinel form => exact absurd rfl (hfound _ List.mem_cons_self sentinel form)

variable {traces : List Trace}

/-- The segments of a scan join: what stands before sentinel-shaped text is quiet. -/
theorem joins_of_scan (hscan : sentinelShape.scan text = pieces ++ traces.flatMap Trace.source)
    (hchain : traces.IsChain (fun trace next => trace.isLiteral = true → next.isLiteral = false))
    (hfound : ∀ trace ∈ traces, ∀ sentinel form, trace ≠ .issued sentinel form) :
    traces.IsChain Trace.Joins := by
  induction traces generalizing pieces with
  | nil => exact List.isChain_nil
  | cons trace traces ih =>
    rw [List.isChain_cons] at hchain ⊢
    rw [List.flatMap_cons] at hscan
    have hrest : sentinelShape.scan text =
        (pieces ++ trace.source) ++ traces.flatMap Trace.source := by
      rw [hscan, List.append_assoc]
    refine ⟨?_, ih hrest hchain.2
      (fun other hother => hfound other (List.mem_cons_of_mem _ hother))⟩
    intro next hnext
    cases trace with
    | found run | issued sentinel form => trivial
    | literal kept =>
      refine ⟨hchain.1 next hnext rfl, ?_⟩
      obtain ⟨rest, rfl⟩ : ∃ rest, traces = next :: rest := by
        cases traces with
        | nil => cases hnext
        | cons first rest =>
          obtain rfl := Option.some.inj hnext
          exact ⟨rest, rfl⟩
      cases next with
      | literal other => exact absurd (hchain.1 _ hnext rfl) (by simp [Trace.isLiteral])
      | issued sentinel form =>
        exact absurd rfl (hfound _ (List.mem_cons_of_mem _ List.mem_cons_self) sentinel form)
      | found run => exact quiet_before_match hscan

/-- A part as a trace, unless it is empty. -/
def partTrace (part : JsString) : List Trace := if part = [] then [] else [.literal part]

/-- The parts of a text with a sentinel issued for the form between them. -/
def wovenTrace (sentinel form : JsString) : List JsString → List Trace
  | [] => []
  | part :: parts =>
    partTrace part ++ parts.flatMap (fun part => .issued sentinel form :: partTrace part)

theorem partTrace_segment (part : JsString) :
    (partTrace part).map Trace.segment = VaultSecretBag.partSegment part := by
  unfold partTrace VaultSecretBag.partSegment
  split <;> rfl

theorem partTrace_source (part : JsString) :
    (partTrace part).flatMap Trace.source = part.map .kept := by
  unfold partTrace
  split
  · rename_i h
    rw [h]
    rfl
  · simp [Trace.source]

theorem wovenTrace_segment (sentinel form : JsString) (parts : List JsString) :
    (wovenTrace sentinel form parts).map Trace.segment = VaultSecretBag.woven sentinel parts := by
  cases parts with
  | nil => rfl
  | cons part parts =>
    rw [wovenTrace, VaultSecretBag.woven, List.map_append, partTrace_segment, List.map_flatMap]
    congr 1
    apply List.flatMap_congr
    intro part _
    rw [List.map_cons, partTrace_segment]
    rfl

theorem wovenTrace_source (sentinel form : JsString) (parts : List JsString) :
    (wovenTrace sentinel form parts).flatMap Trace.source =
      (form.intercalate parts).map .kept := by
  cases parts with
  | nil => rfl
  | cons part parts =>
    rw [wovenTrace, List.flatMap_append, partTrace_source]
    induction parts generalizing part with
    | nil => simp
    | cons next parts ih =>
      rw [List.intercalate_cons_cons, List.flatMap_cons, List.flatMap_append, List.map_append,
        List.map_append, ← ih, List.flatMap_cons, partTrace_source]
      simp [Trace.source, List.append_assoc]

theorem partsOf_ne_nil (pieces : List (Pattern.Piece CodeUnit)) :
    VaultSecretBag.partsOf pieces ≠ [] := by
  cases pieces with
  | nil => exact List.cons_ne_nil _ _
  | cons piece rest =>
    cases piece with
    | matched run => exact List.cons_ne_nil _ _
    | kept u =>
      rw [VaultSecretBag.partsOf]
      split <;> exact List.cons_ne_nil _ _

variable {form : JsString}

theorem partsOf_intercalate (h : ∀ run, .matched run ∈ pieces → run = form) :
    form.intercalate (VaultSecretBag.partsOf pieces) = pieces.flatMap Pattern.Piece.text := by
  induction pieces with
  | nil => rfl
  | cons piece rest ih =>
    have hrest := ih (fun run hrun => h run (List.mem_cons_of_mem _ hrun))
    obtain ⟨part, parts, hparts⟩ := List.exists_cons_of_ne_nil (partsOf_ne_nil rest)
    rw [List.flatMap_cons, ← hrest]
    cases piece with
    | matched run =>
      rw [VaultSecretBag.partsOf, hparts, List.intercalate_cons_cons, List.nil_append,
        h run List.mem_cons_self]
      rfl
    | kept u =>
      rw [VaultSecretBag.partsOf, hparts]
      cases parts with
      | nil => simp [Pattern.Piece.text]
      | cons next parts => simp [List.intercalate_cons_cons, Pattern.Piece.text]

/-- The parts of a text are of it. -/
theorem splitText_intercalate (form text : JsString) :
    form.intercalate (VaultSecretBag.splitText form text) = text := by
  unfold VaultSecretBag.splitText
  split
  · rename_i h
    subst h
    induction text with
    | nil => rfl
    | cons u text ih =>
      cases text with
      | nil => rfl
      | cons v text =>
        rw [List.map_cons, List.map_cons, List.intercalate_cons_cons]
        exact congrArg (List.cons u) ih
  · rename_i hne
    rw [partsOf_intercalate, Pattern.scan_text]
    intro run hrun
    obtain ⟨front, rest, -, -, hmatch⟩ := Pattern.mem_scan_matched _ hrun
    obtain ⟨hlead, hlength⟩ := Pattern.literal_match.mp hmatch
    exact (List.IsPrefix.eq_of_length
      (List.prefix_of_prefix_length_le hlead (List.prefix_append run rest) hlength.le)
        hlength).symm

theorem wovenTrace_cons_cons (sentinel form part next : JsString) (parts : List JsString) :
    wovenTrace sentinel form (part :: next :: parts) =
      partTrace part ++ .issued sentinel form :: wovenTrace sentinel form (next :: parts) := by
  rw [wovenTrace, wovenTrace, List.flatMap_cons, List.cons_append]

/-- **A woven text joins** where no form of it stands after a text that runs into a
sentinel. -/
theorem wovenTrace_joins
    (hruns : ∀ before after, whole = before ++ form ++ after → ¬ RunsInto before)
    {parts : List JsString}
    (hscan : sentinelShape.scan whole = pieces ++ ((form.intercalate parts).map .kept ++ more))
    {rest : List Trace} (hrest : rest.IsChain Trace.Joins)
    (hnext : ∀ next ∈ rest.head?, next.isLiteral = false ∧ Quiet (form.intercalate parts)) :
    (wovenTrace sentinel form parts ++ rest).IsChain Trace.Joins := by
  cases parts with
  | nil => exact hrest
  | cons part parts =>
    induction parts generalizing part pieces with
    | nil =>
      rw [List.intercalate_singleton] at hnext
      rw [wovenTrace, List.flatMap_nil, List.append_nil, partTrace]
      split
      · exact hrest
      · exact List.isChain_cons.mpr ⟨fun next hmem => hnext next hmem, hrest⟩
    | cons next parts ih =>
      rw [List.intercalate_cons_cons] at hscan hnext
      have hafter : (Trace.issued sentinel form ::
          (wovenTrace sentinel form (next :: parts) ++ rest)).IsChain Trace.Joins := by
        have hsplit : sentinelShape.scan whole = pieces ++ part.map .kept ++ form.map .kept ++
            ((form.intercalate (next :: parts)).map .kept ++ more) := by
          rw [hscan]
          simp [List.append_assoc]
        exact List.isChain_cons.mpr ⟨fun _ _ => trivial, ih next hsplit
          (fun other hmem => ⟨(hnext other hmem).1, (hnext other hmem).2.suffix⟩)⟩
      rw [wovenTrace_cons_cons, List.append_assoc, List.cons_append, partTrace]
      split
      · exact hafter
      · refine List.isChain_cons.mpr ⟨fun other hmem => ?_, hafter⟩
        obtain rfl := Option.some.inj hmem
        refine ⟨rfl, ?_⟩
        have hsplit : sentinelShape.scan whole = pieces ++ (part.map .kept ++
            (form.map .kept ++ ((form.intercalate (next :: parts)).map .kept ++ more))) := by
          rw [hscan]
          simp [List.append_assoc]
        refine quiet_of_not_runsInto hsplit rfl (hruns _
          (((form.intercalate (next :: parts)).map Pattern.Piece.kept ++ more).flatMap
            Pattern.Piece.text) ?_)
        have htext := sentinelShape.scan_text whole
        rw [hsplit] at htext
        rw [← htext]
        simp [List.flatMap_append, List.flatMap_map, Pattern.Piece.text, List.append_assoc]

variable {bag : VaultSecretBag} {value fresh : JsString}

namespace VaultSecretBag

/-- A bag that issues: no load made it, and what it issues next is new. -/
structure Ready (bag : VaultSecretBag) (fresh : JsString) : Prop where
  loaded : bag.loaded = none
  secret : IsSentinelSecret (bag.drawn.getD fresh)
  unused : ∀ n, bag.counter ≤ n →
    bag.registry.entryOf (sentinelText (bag.drawn.getD fresh) (decimal n)) = none

/-- What is registered stays registered. -/
def Extends (bag next : VaultSecretBag) : Prop :=
  ∀ sentinel entry, bag.registry.entryOf sentinel = some entry →
    next.registry.entryOf sentinel = some entry

/-- A sentinel of a bag holds a value. -/
def Holds (bag : VaultSecretBag) (sentinel value : JsString) : Prop :=
  (bag.registry.entryOf sentinel).bind RegistryEntry.heldValue = some value

variable {next : VaultSecretBag}

theorem Holds.extends (h : bag.Holds sentinel value) (hnext : bag.Extends next) :
    next.Holds sentinel value := by
  obtain ⟨entry, hentry, hvalue⟩ := Option.bind_eq_some_iff.mp h
  rw [Holds, hnext sentinel entry hentry]
  exact hvalue

theorem isSentinelNumber_decimal (n : ℕ) : IsSentinelNumber (decimal n) := by
  refine ⟨decimal_ne_nil n, fun u hu => ?_⟩
  cases hdigit : isDigitUnit u with
  | true => rfl
  | false => exact absurd hu (not_mem_decimal hdigit n)

theorem sentinelText_injective {secret digits digits' : JsString}
    (h : sentinelText secret digits = sentinelText secret digits') : digits = digits' := by
  simp only [sentinelText, List.append_cancel_left_eq, List.cons.injEq, true_and] at h
  exact List.append_cancel_right h

/-- A bag that issues issues. -/
theorem Ready.issue (h : bag.Ready fresh) (entry : RegistryEntry) :
    ∃ sentinel next, bag.issue fresh entry = some (sentinel, next) := by
  have hshape : Shell.sentinelPattern (bag.nextSentinel fresh) =
      some (bag.nextSentinel fresh).length :=
    isSentinel_iff.mpr ⟨_, _, h.secret, isSentinelNumber_decimal _, rfl⟩
  have hnew : (bag.drawnRegistry fresh).entryOf (bag.nextSentinel fresh) = none := by
    rw [entryOf_drawnRegistry]
    exact h.unused bag.counter le_rfl
  have hregister : ∃ registry,
      (bag.drawnRegistry fresh).register (bag.nextSentinel fresh) entry = some registry := by
    rw [SecretBagRegistry.register, dif_pos hshape, hnew]
    exact ⟨_, rfl⟩
  obtain ⟨registry, hregistry⟩ := hregister
  unfold VaultSecretBag.issue
  dsimp only
  rw [h.loaded]
  simp only [Option.isSome_none, Bool.false_eq_true, if_false]
  split
  · rename_i hnone
    rw [hregistry] at hnone
    cases hnone
  · exact ⟨_, _, rfl⟩

/-- **A secret read through data is put behind a sentinel that holds it.** -/
theorem Ready.addDataSecret (h : bag.Ready fresh) (value : JsString) (reference : SecretReference)
    (encoding : SecretEncoding) (json : Bool) :
    ∃ sentinel next, bag.addDataSecret fresh value reference encoding json =
        some (sentinel, next) ∧ next.Ready fresh ∧ bag.Extends next ∧
      next.Holds sentinel value := by
  unfold VaultSecretBag.addDataSecret
  split
  · rename_i sentinel hsentinel
    exact ⟨sentinel, bag, rfl, h, fun _ _ hentry => hentry, bag.held _ _ hsentinel⟩
  · obtain ⟨sentinel, next, hissue⟩ := h.issue (.dataSecret value reference encoding json)
    split
    · rename_i hnone
      rw [hissue] at hnone
      cases hnone
    · rename_i sentinel' next' hissue'
      rw [hissue'] at hissue
      obtain ⟨rfl, rfl⟩ := Prod.mk.inj (Option.some.inj hissue)
      obtain ⟨hsentinel, hloaded, -, hcounter, hdrawn, hnew, hentry⟩ := issue_spec hissue'
      refine ⟨sentinel', _, rfl, ?_, ?_, ?_⟩
      · refine ⟨hloaded.trans h.loaded, ?_, ?_⟩
        · rw [hdrawn]
          exact h.secret
        · intro n hn
          rw [hcounter] at hn
          rw [hentry, hdrawn, Option.getD_some, if_neg, h.unused n (by omega)]
          intro hsame
          rw [hsentinel, nextSentinel] at hsame
          have := decimal_injective (sentinelText_injective hsame)
          omega
      · intro other entry hother
        rw [hentry, if_neg, hother]
        intro hsame
        rw [hsame, hnew] at hother
        cases hother
      · rw [Holds, hentry, if_pos rfl]
        rfl

theorem Extends.refl (bag : VaultSecretBag) : bag.Extends bag := fun _ _ h => h

theorem Extends.trans {last : VaultSecretBag} (h : bag.Extends next) (h' : next.Extends last) :
    bag.Extends last :=
  fun sentinel entry hentry => h' sentinel entry (h sentinel entry hentry)

/-- The sentinels issued in a trace hold the forms they stand for. -/
def HoldsAll (bag : VaultSecretBag) (traces : List Trace) : Prop :=
  ∀ sentinel form, .issued sentinel form ∈ traces → bag.Holds sentinel form

theorem HoldsAll.extends (h : bag.HoldsAll traces) (hnext : bag.Extends next) :
    next.HoldsAll traces :=
  fun sentinel form hmem => (h sentinel form hmem).extends hnext

theorem HoldsAll.tail {trace : Trace} (h : bag.HoldsAll (trace :: traces)) : bag.HoldsAll traces :=
  fun sentinel form hmem => h sentinel form (List.mem_cons_of_mem _ hmem)

theorem mem_wovenTrace {other : JsString} {parts : List JsString}
    (h : .issued other value ∈ wovenTrace sentinel form parts) :
    other = sentinel ∧ value = form := by
  have hpart : ∀ part, .issued other value ∉ partTrace part := by
    intro part hmem
    unfold partTrace at hmem
    split at hmem
    · cases hmem
    · cases List.mem_singleton.mp hmem
  cases parts with
  | nil => cases h
  | cons part parts =>
    rcases List.mem_append.mp h with hfirst | hrest
    · exact absurd hfirst (hpart part)
    · obtain ⟨next, -, hmem⟩ := List.mem_flatMap.mp hrest
      rcases List.mem_cons.mp hmem with heq | hmem
      · exact Trace.issued.inj heq
      · exact absurd hmem (hpart next)

/-- What sentinelizing leaves of a trace. -/
structure Retraced (bag next : VaultSecretBag) (fresh : JsString) (traces traces' : List Trace) :
    Prop where
  source : traces'.flatMap Trace.source = traces.flatMap Trace.source
  joins : traces'.IsChain Trace.Joins
  ready : next.Ready fresh
  grows : bag.Extends next
  holds : next.HoldsAll traces'
  head : ∀ first' ∈ traces'.head?, ∃ first ∈ traces.head?, first.isLiteral = false → first' = first

/-- A segment that stays. -/
theorem Retraced.cons {trace : Trace} {rest rest' : List Trace}
    (h : bag.Retraced next fresh rest rest') (hjoins : (trace :: rest).IsChain Trace.Joins)
    (hholds : bag.HoldsAll (trace :: rest)) :
    bag.Retraced next fresh (trace :: rest) (trace :: rest') where
  source := by rw [List.flatMap_cons, List.flatMap_cons, h.source]
  joins := by
    refine List.isChain_cons.mpr ⟨fun first' hmem => ?_, h.joins⟩
    obtain ⟨first, hfirst, hsame⟩ := h.head first' hmem
    have hjoin := (List.isChain_cons.mp hjoins).1 first hfirst
    cases trace with
    | literal text =>
      rw [hsame hjoin.1]
      exact hjoin
    | found run | issued sentinel form => trivial
  ready := h.ready
  grows := h.grows
  holds := by
    intro sentinel form hmem
    rcases List.mem_cons.mp hmem with heq | hmem
    · exact (hholds sentinel form (by rw [heq]; exact List.mem_cons_self)).extends h.grows
    · exact h.holds sentinel form hmem
  head := fun first' hmem => ⟨trace, rfl, fun _ => (Option.some.inj hmem).symm⟩

/-- **One form put behind its sentinel** leaves segments that stand for the same pieces. -/
theorem sentinelizeForm_traced
    (hruns : ∀ before after, whole = before ++ form ++ after → ¬ RunsInto before)
    (source : SecretReference) (encoding : SecretEncoding)
    (hscan : sentinelShape.scan whole = pieces ++ traces.flatMap Trace.source)
    (hjoins : traces.IsChain Trace.Joins) (hready : bag.Ready fresh) (hholds : bag.HoldsAll traces)
    :
    ∃ traces' next, sentinelizeForm fresh form source encoding (traces.map Trace.segment) bag =
        some (traces'.map Trace.segment, next) ∧ bag.Retraced next fresh traces traces' := by
  induction traces generalizing pieces bag with
  | nil =>
    exact ⟨[], bag, rfl, rfl, hjoins, hready, Extends.refl bag, hholds, nofun⟩
  | cons trace rest ih =>
    have hafter : sentinelShape.scan whole =
        (pieces ++ trace.source) ++ rest.flatMap Trace.source := by
      rw [hscan, List.flatMap_cons, List.append_assoc]
    have hchain := (List.isChain_cons.mp hjoins).2
    rw [List.map_cons, sentinelizeForm]
    split
    · obtain ⟨rest', next, hrest, hretraced⟩ := ih hafter hchain hready hholds.tail
      exact ⟨trace :: rest', next, by rw [hrest]; rfl, hretraced.cons hjoins hholds⟩
    · rename_i hsegment
      obtain ⟨sentinel, middle, hadd, hmiddle, hextends, hheld⟩ :=
        hready.addDataSecret form source encoding false
      obtain ⟨rest', next, hrest, hretraced⟩ :=
        ih hafter hchain hmiddle (hholds.tail.extends hextends)
      cases trace with
      | found run | issued other value => exact absurd (Or.inl rfl) hsegment
      | literal text =>
        have htext := splitText_intercalate form text
        refine ⟨wovenTrace sentinel form (splitText form text) ++ rest', next, ?_, ?_⟩
        · rw [hadd, Option.bind_eq_bind, Option.bind_some]
          dsimp only
          rw [hrest, List.map_append, wovenTrace_segment]
          rfl
        · refine ⟨?_, ?_, hretraced.ready, hextends.trans hretraced.grows, ?_, ?_⟩
          · rw [List.flatMap_append, wovenTrace_source, htext, hretraced.source,
              List.flatMap_cons]
            rfl
          · have hsplit : sentinelShape.scan whole =
                pieces ++ ((form.intercalate (splitText form text)).map .kept ++
                  rest.flatMap Trace.source) := by
              rw [hscan, htext, List.flatMap_cons]
              rfl
            apply wovenTrace_joins hruns hsplit hretraced.joins
            intro first' hmem
            obtain ⟨first, hfirst, hsame⟩ := hretraced.head first' hmem
            have hjoin := (List.isChain_cons.mp hjoins).1 first hfirst
            rw [hsame hjoin.1, htext]
            exact hjoin
          · intro other value hmem
            rcases List.mem_append.mp hmem with hwoven | hmem
            · obtain ⟨rfl, rfl⟩ := mem_wovenTrace hwoven
              exact hheld.extends hretraced.grows
            · exact hretraced.holds other value hmem
          · exact fun first' _ => ⟨.literal text, rfl, fun hliteral => nomatch hliteral⟩

theorem sentinelizeForms_traced {forms : List (JsString × SecretReference × SecretEncoding)}
    (hruns : ∀ form ∈ forms, ∀ before after, whole = before ++ form.1 ++ after → ¬ RunsInto before)
    (hscan : sentinelShape.scan whole = traces.flatMap Trace.source)
    (hjoins : traces.IsChain Trace.Joins) (hready : bag.Ready fresh) (hholds : bag.HoldsAll traces)
    :
    ∃ traces' next, sentinelizeForms fresh forms (traces.map Trace.segment) bag =
        some (traces'.map Trace.segment, next) ∧
      sentinelShape.scan whole = traces'.flatMap Trace.source ∧
      traces'.IsChain Trace.Joins ∧ next.HoldsAll traces' := by
  induction forms generalizing traces bag with
  | nil => exact ⟨traces, bag, rfl, hscan, hjoins, hholds⟩
  | cons form forms ih =>
    obtain ⟨traces', middle, hform, hretraced⟩ := sentinelizeForm_traced
      (hruns form List.mem_cons_self) form.2.1 form.2.2
      (show _ = [] ++ traces.flatMap Trace.source from hscan) hjoins hready hholds
    obtain ⟨last, next, hforms, hlast⟩ := ih
      (fun other hother => hruns other (List.mem_cons_of_mem _ hother))
      (hscan.trans hretraced.source.symm) hretraced.joins hretraced.ready hretraced.holds
    refine ⟨last, next, ?_, hlast⟩
    rw [sentinelizeForms, hform]
    exact hforms

theorem Holds.isSentinel (h : bag.Holds sentinel value) : IsSentinel sentinel := by
  obtain ⟨entry, hentry, -⟩ := Option.bind_eq_some_iff.mp h
  exact SecretBagRegistry.isSentinel_of_entryOf hentry

theorem Holds.valueOf (h : bag.Holds sentinel value) : bag.valueOf sentinel = .ok (some value) := by
  obtain ⟨entry, hentry, hvalue⟩ := Option.bind_eq_some_iff.mp h
  unfold VaultSecretBag.valueOf
  rw [hentry]
  cases entry with
  | shipped held path encoding
  | dataSecret held reference encoding json => exact congrArg Except.ok hvalue
  | vaultReference reference encoding location
  | dataReference reference encoding location json => cases hvalue

/-- **The segments are scanned as they were put together.** -/
theorem scan_traced (hscan : sentinelShape.scan whole = pieces ++ traces.flatMap Trace.source)
    (hjoins : traces.IsChain Trace.Joins) (hholds : bag.HoldsAll traces) :
    sentinelShape.scan (traces.flatMap (fun trace => trace.segment.text)) =
      traces.flatMap Trace.scanned := by
  induction traces generalizing pieces with
  | nil => rfl
  | cons trace rest ih =>
    have hafter : sentinelShape.scan whole =
        (pieces ++ trace.source) ++ rest.flatMap Trace.source := by
      rw [hscan, List.flatMap_cons, List.append_assoc]
    have hrest := ih hafter (List.isChain_cons.mp hjoins).2 hholds.tail
    -- what the scan of the first text matched is a sentinel by itself
    have hfound : ∀ pieces more run,
        sentinelShape.scan whole = pieces ++ Pattern.Piece.matched run :: more →
          IsSentinel run := by
      intro pieces more run hsplit
      obtain ⟨after, -, hafter⟩ := sentinelShape.scan_after hsplit
      obtain ⟨last, rfl, -, hmatch⟩ := sentinelShape.scan_cons hafter
      exact sentinelPattern_of_append hmatch.1 le_rfl
    rw [List.flatMap_cons, List.flatMap_cons, ← hrest]
    rw [List.flatMap_cons] at hscan
    cases trace with
    | found run => exact scan_sentinel (hfound _ _ _ hscan) _
    | issued sentinel form =>
      exact scan_sentinel (hholds sentinel form List.mem_cons_self).isSentinel _
    | literal text =>
      cases rest with
      | nil =>
        obtain ⟨after, -, hlast⟩ := sentinelShape.scan_after hscan
        have htext := sentinelShape.scan_text after
        rw [hlast, List.flatMap_nil, List.append_nil] at htext
        have hkept : (Trace.literal text).source.flatMap Pattern.Piece.text = text := by
          rw [Trace.source, List.flatMap_map]
          simp [Pattern.Piece.text]
        rw [hkept] at htext
        rw [← htext] at hlast
        rw [List.flatMap_nil, List.append_nil] at hlast ⊢
        rw [show (Trace.literal text).segment.text = text from rfl, hlast]
        exact (List.append_nil _).symm
      | cons next rest =>
        have hjoin := (List.isChain_cons_cons.mp hjoins).1
        cases next with
        | literal other => exact absurd hjoin.1 (by simp [Trace.isLiteral])
        | issued sentinel form =>
          exact hjoin.2.scan
            (hholds sentinel form (List.mem_cons_of_mem _ List.mem_cons_self)).isSentinel _
        | found run =>
          refine hjoin.2.scan (hfound (pieces ++ (Trace.literal text).source)
            (rest.flatMap Trace.source) run ?_) _
          rw [hafter, List.flatMap_cons]
          rfl

/-- What a sentinel holds. -/
def heldBy (bag : VaultSecretBag) (sentinel : JsString) : JsString :=
  ((bag.registry.entryOf sentinel).bind RegistryEntry.heldValue).getD []

/-- **Resolving a text whose secrets were put behind sentinels gives the text back**: no
form of a secret stands right after what runs into a sentinel, and the text holds no
sentinel of the bag. -/
theorem sentinelizeText_resolves {secrets : List RecordedSecret} (hready : bag.Ready fresh)
    (hruns : ∀ form ∈ secrets.flatMap formsOf, ∀ before after,
      text = before ++ form.1 ++ after → ¬ RunsInto before) :
    ∃ out next, bag.sentinelizeText fresh text secrets = some (out, next) ∧
      (Unissued next.registry text → next.resolveRaw out = .ok text) := by
  obtain ⟨first, hfirst, hsource, hchain, hnone⟩ := segmentsOf_traced (sentinelShape.scan text)
  have hjoins := joins_of_scan (show _ = [] ++ first.flatMap Trace.source from hsource.symm)
    hchain hnone
  obtain ⟨traces, next, hforms, hscan, hjoins, hholds⟩ := sentinelizeForms_traced hruns
    hsource.symm hjoins hready (fun sentinel form hmem => absurd rfl (hnone _ hmem sentinel form))
  refine ⟨(traces.map Trace.segment).flatMap TextSegment.text, next, ?_, fun hunissued => ?_⟩
  · rw [VaultSecretBag.sentinelizeText, splitOnSentinels, ← hfirst, hforms]
    rfl
  · have hscanned := scan_traced
      (show _ = [] ++ traces.flatMap Trace.source from hscan) hjoins hholds
    have hpiece : ∀ trace ∈ traces, (∀ piece ∈ trace.scanned,
        next.resolvePiece piece = .ok (pieceValue next.registry next.heldBy piece)) ∧
        trace.scanned.flatMap (pieceValue next.registry next.heldBy) =
          trace.source.flatMap Pattern.Piece.text := by
      intro trace htrace
      cases trace with
      | literal kept =>
        refine ⟨fun piece hpiece => ?_, ?_⟩
        · obtain ⟨u, -, rfl⟩ := List.mem_map.mp hpiece
          rfl
        · rw [Trace.scanned, Trace.source, List.flatMap_map, List.flatMap_map]
          rfl
      | found run =>
        have hrun : next.registry.entryOf run = none := by
          apply hunissued.entryOf
          rw [hscan]
          exact List.mem_flatMap.mpr ⟨_, htrace, List.mem_singleton_self _⟩
        refine ⟨fun piece hpiece => ?_, ?_⟩
        · obtain rfl := List.mem_singleton.mp hpiece
          rw [resolvePiece_unissued hrun, pieceValue, hrun]
          rfl
        · simp [Trace.scanned, Trace.source, pieceValue, hrun, Pattern.Piece.text]
      | issued sentinel form =>
        have hheld := hholds sentinel form htrace
        have hsome : (next.registry.entryOf sentinel).isSome := by
          obtain ⟨entry, hentry, -⟩ := Option.bind_eq_some_iff.mp hheld
          rw [hentry]
          rfl
        have hvalue : pieceValue next.registry next.heldBy (.matched sentinel) = form := by
          rw [pieceValue, if_pos hsome, heldBy, show _ = some form from hheld, Option.getD_some]
        refine ⟨fun piece hpiece => ?_, ?_⟩
        · obtain rfl := List.mem_singleton.mp hpiece
          rw [hvalue, resolvePiece, hheld.valueOf]
          rfl
        · rw [Trace.scanned, Trace.source, List.flatMap_singleton, hvalue, List.flatMap_map]
          simp [Pattern.Piece.text]
    have hall : ∀ piece ∈ traces.flatMap Trace.scanned,
        next.resolvePiece piece = .ok (pieceValue next.registry next.heldBy piece) := by
      intro piece hmem
      obtain ⟨trace, htrace, hin⟩ := List.mem_flatMap.mp hmem
      exact (hpiece trace htrace).1 piece hin
    have hflat : (traces.flatMap Trace.scanned).flatMap (pieceValue next.registry next.heldBy) =
        text := by
      rw [List.flatMap_assoc, List.flatMap_congr (fun trace htrace => (hpiece trace htrace).2),
        ← List.flatMap_assoc, ← hscan, sentinelShape.scan_text]
    have hout : (traces.map Trace.segment).flatMap TextSegment.text =
        traces.flatMap (fun trace => trace.segment.text) := List.flatMap_map ..
    rw [resolveRaw, hout, hscanned, mapM_resolved hall]
    exact congrArg Except.ok hflat

end VaultSecretBag

theorem mark_infix_of_isSentinel (h : IsSentinel sentinel) (hpart : sentinel <:+: text) :
    SENTINEL_MARK <:+: text := by
  obtain ⟨secret, digits, -, -, rfl⟩ := isSentinel_iff.mp h
  exact (List.prefix_append _ _).isInfix.trans hpart

theorem not_runsInto_of_no_mark (h : ¬ SENTINEL_MARK <:+: text) : ¬ RunsInto text := by
  have hquiet : Quiet text := by
    intro front rest heq hne
    cases hmatch : sentinelPattern (rest ++ underscores) with
    | none => rfl
    | some n =>
      obtain ⟨secret, digits, after, hsecret, -, hall, -⟩ := sentinelPattern_iff.mp hmatch
      have hlength := congrArg List.length hall
      have hunder : underscores.length = 2 := rfl
      have hmark : SENTINEL_MARK.length = 13 := rfl
      rw [List.length_append, List.length_append, length_sentinelText hsecret] at hlength
      have hlead : SENTINEL_MARK <+: rest := by
        refine List.prefix_of_prefix_length_le ?_ (List.prefix_append rest underscores) (by omega)
        rw [hall, sentinelText, List.append_assoc]
        exact List.prefix_append _ _
      rw [heq] at h
      exact absurd (hlead.isInfix.trans (List.suffix_append front rest).isInfix) h
  rw [RunsInto, not_not, Pattern.Seam]
  induction text with
  | nil => rfl
  | cons u text ih =>
    have hunder := hquiet [] _ rfl (List.cons_ne_nil u text)
    have hown : sentinelPattern (u :: text) = none := by
      cases hown : sentinelPattern (u :: text) with
      | none => rfl
      | some n =>
        rw [sentinelPattern_append hown] at hunder
        cases hunder
    rw [List.cons_append] at hunder ⊢
    rw [sentinelShape.scan_keep hunder, sentinelShape.scan_keep hown, List.cons_append,
      ih (fun hin => h (hin.trans (List.suffix_cons u text).isInfix)) hquiet.tail]

variable {registry : SecretBagRegistry}

theorem unissued_of_no_mark (h : ¬ SENTINEL_MARK <:+: text) : Unissued registry text := by
  intro sentinel hsome hpart
  obtain ⟨entry, hentry⟩ := Option.isSome_iff_exists.mp hsome
  exact h (mark_infix_of_isSentinel (SecretBagRegistry.isSentinel_of_entryOf hentry) hpart)

namespace VaultSecretBag

theorem ready_new (hsecret : IsSentinelSecret fresh) (hnew : fresh ∉ registry.prefixes) :
    (new registry).Ready fresh := by
  refine ⟨rfl, hsecret, fun n _ => ?_⟩
  cases hentry : (new registry).registry.entryOf (sentinelText fresh (decimal n)) with
  | none => exact hentry
  | some entry =>
    obtain ⟨-, hmem⟩ := registry.shaped (sentinelText fresh (decimal n)) (by
      rw [show registry.entries.get (sentinelText fresh (decimal n)) = some entry from hentry]
      rfl)
    have hsame : sentinelPrefix (sentinelText fresh (decimal n)) = fresh := by
      rw [sentinelPrefix, sentinelText, List.drop_left]
      exact List.take_left' hsecret.1
    exact absurd (hsame ▸ hmem) hnew

theorem isSome_of_valueOf (h : bag.valueOf sentinel = .ok (some value)) :
    (bag.registry.entryOf sentinel).isSome := by
  cases hentry : bag.registry.entryOf sentinel with
  | none =>
    rw [VaultSecretBag.valueOf, hentry] at h
    cases h
  | some entry => rfl

/-- **Sentinels are delivered one by one.**  Of a text put together of sentinels that have
values and literals that hold no sentinel, none of which runs into the sentinel after it,
resolving replaces each sentinel by its value, the occurrences are the sentinels, redacting
leaves none of them, and what is persisted has one reference for each that has one.  A
text whose secrets were put behind sentinels is resolved to itself. -/
theorem sentinel_delivery :
    (∀ (bag : VaultSecretBag) (parts : List (JsString × JsString)) (tail : JsString)
        (value : JsString → JsString), Apart parts →
      (∀ literal ∈ literals parts tail, Unissued bag.registry literal) →
      (∀ part ∈ parts, bag.valueOf part.2 = .ok (some (value part.2))) →
      bag.resolveRaw (assembled parts tail) =
          .ok (assembled (parts.map (fun part => (part.1, value part.2))) tail) ∧
        occurrencesIn bag.registry (assembled parts tail) = listed bag.registry 0 parts ∧
        (∀ redactor : SecretRedactor, bag.registry ∈ redactor.sentinels →
          ∀ sentinel, (bag.registry.entryOf sentinel).isSome →
            ¬ sentinel <:+: redactor.redact (assembled parts tail)) ∧
        ((∀ literal ∈ literals parts tail, Undrawn bag.registry literal) →
          (∀ part ∈ parts, (writtenAs bag.registry part.2).isSome) →
          ∃ written, toPersistedForm bag.registry (.str (assembled parts tail)) =
              .ok (.str (assembled
                (parts.map (fun part => (part.1, referenceText bag.registry part.2))) tail),
                  written) ∧
            written.map (fun reference => some reference.described) =
              parts.map (fun part => writtenAs bag.registry part.2))) ∧
    ∀ (bag : VaultSecretBag) (fresh text : JsString) (secrets : List RecordedSecret),
      bag.Ready fresh →
      (∀ form ∈ secrets.flatMap formsOf, ∀ before after, text = before ++ form.1 ++ after →
        ¬ RunsInto before) →
      ∃ out next, bag.sentinelizeText fresh text secrets = some (out, next) ∧
        (Unissued next.registry text → next.resolveRaw out = .ok text) := by
  refine ⟨?_, fun bag fresh text secrets hready hruns => sentinelizeText_resolves hready hruns⟩
  intro bag parts tail value hapart hliterals hvalue
  have hissued : ∀ part ∈ parts, (bag.registry.entryOf part.2).isSome :=
    fun part hpart => isSome_of_valueOf (hvalue part hpart)
  refine ⟨resolveRaw_assembled hapart hliterals hissued hvalue,
    occurrencesIn_assembled hapart hliterals, ?_, ?_⟩
  · intro redactor hregistry sentinel hsentinel
    exact redact_assembled hregistry hapart hliterals hissued hsentinel
  · intro hundrawn hwritten
    exact toPersistedForm_assembled hapart hundrawn hwritten

/-- A sentinel of a registry that another bag issued into. -/
def sampleSentinel : JsString := sentinelText (js "0123456789abcdef0123456789abcdef") (js "0")

def sampleReference : SecretReference where
  vaultName := js "v"
  key := js "k"

def sampleRegistry : SecretBagRegistry :=
  (SecretBagRegistry.empty.register sampleSentinel
    (.dataSecret (js "pw") sampleReference .raw false)).getD .empty

theorem sentinel_delivery_sample :
    (new sampleRegistry).resolveRaw (js "a " ++ sampleSentinel ++ js " b") = .ok (js "a pw b") ∧
    ∃ out next, (new sampleRegistry).sentinelizeText (js "ffffffffffffffffffffffffffffffff")
        (js "x pw y") [⟨js "pw", sampleReference⟩] = some (out, next) ∧
      next.resolveRaw out = .ok (js "x pw y") := by
  constructor
  · have hclear : ∀ literal ∈ literals [(js "a ", sampleSentinel)] (js " b"),
        ¬ SENTINEL_MARK <:+: literal := by
      intro literal hmem
      simp only [literals, List.map_cons, List.map_nil, List.cons_append, List.nil_append,
        List.mem_cons, List.not_mem_nil, or_false] at hmem
      rcases hmem with rfl | rfl
      · decide
      · decide
    have hapart : Apart [(js "a ", sampleSentinel)] := by
      refine ⟨fun part hpart => ?_, fun part hpart => ?_⟩
      · rw [List.mem_singleton.mp hpart]
        refine isSentinel_iff.mpr ⟨_, _, ⟨rfl, by decide⟩, ⟨by decide, fun u hu => ?_⟩, rfl⟩
        rw [List.mem_singleton.mp hu]
        decide
      · rw [List.mem_singleton.mp hpart]
        exact not_runsInto_of_no_mark (hclear _ List.mem_cons_self)
    exact (sentinel_delivery.1 (new sampleRegistry) [(js "a ", sampleSentinel)] (js " b")
      (fun _ => js "pw") hapart (fun literal hmem => unissued_of_no_mark (hclear literal hmem))
      (fun part hpart => by
        rw [List.mem_singleton.mp hpart]
        rfl)).1
  · have hclear : ¬ SENTINEL_MARK <:+: js "x pw y" := by decide
    obtain ⟨out, next, hout, hresolves⟩ := sentinel_delivery.2 (new sampleRegistry)
      (js "ffffffffffffffffffffffffffffffff") (js "x pw y") [⟨js "pw", sampleReference⟩]
      (ready_new ⟨rfl, by decide⟩ (by decide)) (fun form _ before after heq =>
        not_runsInto_of_no_mark (fun hin => hclear (hin.trans (by
          rw [heq, List.append_assoc]
          exact (List.prefix_append _ _).isInfix))))
    exact ⟨out, next, hout, hresolves (unissued_of_no_mark hclear)⟩

/-- Sentinel-shaped text takes the underscores of the sentinel after it, text with a
prefix of the run cannot be persisted, and two literals are a sentinel together. -/
theorem sentinel_swallowed :
    (new sampleRegistry).resolveRaw
        (js "__SWAMP_VSEC_ffffffffffffffffffffffffffffffff_1" ++ sampleSentinel) =
      .ok (js "__SWAMP_VSEC_ffffffffffffffffffffffffffffffff_1" ++ sampleSentinel) ∧
    toPersistedForm sampleRegistry
        (.str (js "__SWAMP_VSEC_0123456789abcdef0123456789abcdef_7__" ++ sampleSentinel)) =
      .error noEntry ∧
    (new sampleRegistry).resolveRaw
        (js "__SWAMP_VSEC_0123456789abcdef" ++ js "0123456789abcdef_0__") = .ok (js "pw") :=
  ⟨rfl, rfl, rfl⟩

end VaultSecretBag

end Secrets

end Swamp
