import Swamp.Masking
import Swamp.Redaction
import Swamp.SecretBags

/-!
# Delivering sentinels

A text put together of literals and sentinels is resolved, persisted, redacted and
listed sentinel by sentinel, where no literal's scan runs into the sentinel after it.
-/

namespace Swamp

open Js

namespace Secrets

/-- Literals with a sentinel after each, and what follows the last sentinel. -/
def assembled (parts : List (JsString × JsString)) (tail : JsString) : JsString :=
  parts.flatMap (fun part => part.1 ++ part.2) ++ tail

/-- The literals of such a text. -/
def literals (parts : List (JsString × JsString)) (tail : JsString) : List JsString :=
  parts.map Prod.fst ++ [tail]

/-- The sentinels are sentinels, and no literal runs into the one after it. -/
structure Apart (parts : List (JsString × JsString)) : Prop where
  sentinel : ∀ part ∈ parts, IsSentinel part.2
  literal : ∀ part ∈ parts, ¬ RunsInto part.1

variable {parts : List (JsString × JsString)}

theorem Apart.tail {part : JsString × JsString} (h : Apart (part :: parts)) : Apart parts where
  sentinel := fun other hother => h.sentinel other (List.mem_cons_of_mem _ hother)
  literal := fun other hother => h.literal other (List.mem_cons_of_mem _ hother)

theorem assembled_cons (part : JsString × JsString) (parts : List (JsString × JsString))
    (tail : JsString) :
    assembled (part :: parts) tail = part.1 ++ (part.2 ++ assembled parts tail) := by
  simp [assembled, List.append_assoc]

/-- **A scan finds the sentinels where they stand**, and in each literal what a scan of
the literal finds. -/
theorem scan_assembled (h : Apart parts) (tail : JsString) :
    sentinelShape.scan (assembled parts tail) =
      parts.flatMap (fun part => sentinelShape.scan part.1 ++ [.matched part.2]) ++
        sentinelShape.scan tail := by
  induction parts with
  | nil => rfl
  | cons part parts ih =>
    have hsentinel := h.sentinel part List.mem_cons_self
    have hseam := seam_sentinel (h.literal part List.mem_cons_self) hsentinel
      (assembled parts tail)
    rw [assembled_cons, hseam, scan_sentinel hsentinel, ih h.tail, List.flatMap_cons]
    simp [List.append_assoc]

/-- No literal holds an issued sentinel. -/
def Unissued (registry : SecretBagRegistry) (text : JsString) : Prop :=
  ∀ sentinel, (registry.entryOf sentinel).isSome → ¬ sentinel <:+: text

variable {registry : SecretBagRegistry}

theorem Unissued.entryOf {text run : JsString} (h : Unissued registry text)
    (hrun : .matched run ∈ sentinelShape.scan text) : registry.entryOf run = none := by
  obtain ⟨front, rest, rfl, -, -⟩ := sentinelShape.mem_scan_matched hrun
  cases hentry : registry.entryOf run with
  | none => rfl
  | some entry =>
    exact absurd ⟨front, rest, rfl⟩ (h run (by rw [hentry]; rfl))

variable {bag : VaultSecretBag}

theorem mapM_resolved {pieces : List (Pattern.Piece CodeUnit)}
    {value : Pattern.Piece CodeUnit → JsString}
    (h : ∀ piece ∈ pieces, bag.resolvePiece piece = .ok (value piece)) :
    pieces.mapM bag.resolvePiece = .ok (pieces.map value) := by
  induction pieces with
  | nil => rfl
  | cons piece rest ih =>
    rw [List.mapM_cons, h piece List.mem_cons_self,
      ih (fun other hother => h other (List.mem_cons_of_mem _ hother))]
    rfl

/-- What a piece is resolved to, where `value` says what the sentinels are. -/
def pieceValue (registry : SecretBagRegistry) (value : JsString → JsString) :
    Pattern.Piece CodeUnit → JsString
  | .kept u => [u]
  | .matched run => if (registry.entryOf run).isSome then value run else run

theorem resolvePiece_unissued {run : JsString} (h : bag.registry.entryOf run = none) :
    bag.resolvePiece (.matched run) = .ok run := by
  rw [VaultSecretBag.resolvePiece, VaultSecretBag.valueOf, h]
  rfl

theorem flatMap_unissued {text : JsString} (value : JsString → JsString)
    (h : Unissued registry text) :
    (sentinelShape.scan text).flatMap (pieceValue registry value) = text := by
  have hpieces : ∀ piece ∈ sentinelShape.scan text,
      pieceValue registry value piece = piece.text := by
    intro piece hpiece
    cases piece with
    | kept u => rfl
    | matched run =>
      rw [pieceValue, h.entryOf hpiece]
      rfl
  rw [List.flatMap_congr hpieces, sentinelShape.scan_text]

variable {tail : JsString}

/-- **Resolving replaces each sentinel by its value** and nothing else. -/
theorem resolveRaw_assembled {value : JsString → JsString} (hapart : Apart parts)
    (hliterals : ∀ literal ∈ literals parts tail, Unissued bag.registry literal)
    (hissued : ∀ part ∈ parts, (bag.registry.entryOf part.2).isSome)
    (hvalue : ∀ part ∈ parts, bag.valueOf part.2 = .ok (some (value part.2))) :
    bag.resolveRaw (assembled parts tail) =
      .ok (assembled (parts.map (fun part => (part.1, value part.2))) tail) := by
  have hliteral : ∀ literal ∈ literals parts tail, ∀ piece ∈ sentinelShape.scan literal,
      bag.resolvePiece piece = .ok (pieceValue bag.registry value piece) := by
    intro literal hmem piece hpiece
    cases piece with
    | kept u => rfl
    | matched run =>
      have hnone := (hliterals literal hmem).entryOf hpiece
      rw [resolvePiece_unissued hnone, pieceValue, hnone]
      rfl
  have hall : ∀ piece ∈ sentinelShape.scan (assembled parts tail),
      bag.resolvePiece piece = .ok (pieceValue bag.registry value piece) := by
    intro piece hpiece
    rw [scan_assembled hapart, List.mem_append, List.mem_flatMap] at hpiece
    rcases hpiece with ⟨part, hpart, hpiece⟩ | hpiece
    · rcases List.mem_append.mp hpiece with hinner | hsentinel
      · exact hliteral part.1 (List.mem_append_left _ (List.mem_map_of_mem hpart)) piece hinner
      · obtain rfl := List.mem_singleton.mp hsentinel
        rw [VaultSecretBag.resolvePiece, hvalue part hpart, pieceValue, if_pos (hissued part hpart)]
        rfl
    · exact hliteral tail (List.mem_append_right _ (List.mem_singleton_self _)) piece hpiece
  rw [VaultSecretBag.resolveRaw, mapM_resolved hall]
  have htail := flatMap_unissued value
    (hliterals tail (List.mem_append_right _ (List.mem_singleton_self _)))
  have hparts : ∀ part ∈ parts,
      (sentinelShape.scan part.1 ++ [Pattern.Piece.matched part.2]).flatMap
          (pieceValue bag.registry value) =
        part.1 ++ value part.2 := by
    intro part hpart
    rw [List.flatMap_append, flatMap_unissued value
      (hliterals part.1 (List.mem_append_left _ (List.mem_map_of_mem hpart)))]
    simp [pieceValue, hissued part hpart]
  have hflat : (sentinelShape.scan (assembled parts tail)).flatMap (pieceValue bag.registry value) =
      assembled (parts.map (fun part => (part.1, value part.2))) tail := by
    rw [scan_assembled hapart, List.flatMap_append, htail, List.flatMap_assoc,
      List.flatMap_congr hparts, assembled, List.flatMap_map]
  rw [← hflat]
  rfl

/-- The sentinels of a text put together, at their places. -/
def listed (registry : SecretBagRegistry) :
    ℕ → List (JsString × JsString) → List SecretOccurrence
  | _, [] => []
  | i, part :: parts =>
    ((registry.entryOf part.2).map (occurrenceAt part.2 (i + part.1.length))).toList ++
      listed registry (i + part.1.length + part.2.length) parts

theorem occurrencesFrom_append (registry : SecretBagRegistry)
    (pieces more : List (Pattern.Piece CodeUnit)) (i : ℕ) :
    occurrencesFrom registry i (pieces ++ more) =
      occurrencesFrom registry i pieces ++
        occurrencesFrom registry (i + (pieces.flatMap Pattern.Piece.text).length) more := by
  induction pieces generalizing i with
  | nil => rfl
  | cons piece rest ih =>
    cases piece with
    | kept u =>
      have hlength : i + ((Pattern.Piece.kept u :: rest).flatMap Pattern.Piece.text).length =
          i + 1 + (rest.flatMap Pattern.Piece.text).length := by
        rw [List.flatMap_cons, List.length_append, ← Nat.add_assoc]
        rfl
      rw [List.cons_append, occurrencesFrom, occurrencesFrom, ih, hlength]
    | matched run =>
      have hlength : i + ((Pattern.Piece.matched run :: rest).flatMap
          Pattern.Piece.text).length =
            i + run.length + (rest.flatMap Pattern.Piece.text).length := by
        rw [List.flatMap_cons, List.length_append, ← Nat.add_assoc]
        rfl
      rw [List.cons_append, occurrencesFrom, occurrencesFrom, ih, List.append_assoc, hlength]

theorem occurrencesFrom_unissued {text : JsString} (h : Unissued registry text) (i : ℕ) :
    occurrencesFrom registry i (sentinelShape.scan text) = [] := by
  have hpieces : ∀ pieces : List (Pattern.Piece CodeUnit),
      (∀ run, .matched run ∈ pieces → registry.entryOf run = none) → ∀ i,
        occurrencesFrom registry i pieces = [] := by
    intro pieces
    induction pieces with
    | nil => exact fun _ _ => rfl
    | cons piece rest ih =>
      intro hnone i
      have hrest := ih (fun run hrun => hnone run (List.mem_cons_of_mem _ hrun))
      cases piece with
      | kept u => rw [occurrencesFrom, hrest]
      | matched run =>
        rw [occurrencesFrom, hnone run List.mem_cons_self, hrest]
        rfl
  exact hpieces _ (fun run hrun => h.entryOf hrun) i

/-- **The occurrences are the sentinels**, each at its place. -/
theorem occurrencesIn_assembled (hapart : Apart parts)
    (hliterals : ∀ literal ∈ literals parts tail, Unissued registry literal) :
    occurrencesIn registry (assembled parts tail) = listed registry 0 parts := by
  have hscan : ∀ i, occurrencesFrom registry i (sentinelShape.scan (assembled parts tail)) =
      listed registry i parts := by
    intro i
    rw [scan_assembled hapart, occurrencesFrom_append,
      occurrencesFrom_unissued (hliterals tail (List.mem_append_right _
        (List.mem_singleton_self _))), List.append_nil]
    clear hapart
    induction parts generalizing i with
    | nil => rfl
    | cons part parts ih =>
      have hfirst := hliterals part.1 List.mem_cons_self
      rw [List.flatMap_cons, occurrencesFrom_append, occurrencesFrom_append,
        occurrencesFrom_unissued hfirst, List.nil_append, ih (fun literal hmem =>
          hliterals literal (List.mem_cons_of_mem _ hmem)), listed]
      simp [occurrencesFrom, List.flatMap_append, sentinelShape.scan_text, Pattern.Piece.text,
        Nat.add_assoc]
  unfold occurrencesIn
  split
  · exact hscan 0
  · rename_i hmark
    cases parts with
    | nil => rfl
    | cons part parts =>
      obtain ⟨secret, digits, -, -, heq⟩ :=
        isSentinel_iff.mp (hapart.sentinel part List.mem_cons_self)
      refine absurd ?_ hmark
      rw [assembled_cons, heq, sentinelText]
      exact ⟨part.1, secret ++ (unit '_' :: (digits ++ js "__")) ++ assembled parts tail, by
        simp only [List.append_assoc]⟩

/-- What a sentinel is written as: its entry's reference, encoding and marks. -/
def writtenAs (registry : SecretBagRegistry) (sentinel : JsString) :
    Option (SecretReference × SecretEncoding × Bool × Bool) := do
  let entry ← registry.entryOf sentinel
  let reference ← entry.reference
  let encoding ← entry.encoding
  return (reference, encoding, entry.dataOrigin, entry.isJsonValue)

/-- The text a sentinel is written as. -/
def referenceText (registry : SecretBagRegistry) (sentinel : JsString) : JsString :=
  ((writtenAs registry sentinel).map (fun written => vaultReferenceText written.1)).getD []

theorem referenceOf_writtenAs {sentinel : JsString} {reference : SecretReference}
    {encoding : SecretEncoding} {dataOrigin jsonValue : Bool}
    (h : writtenAs registry sentinel = some (reference, encoding, dataOrigin, jsonValue))
    (path : List DataStep) (out : JsString) :
    referenceOf registry path out sentinel =
      .ok ⟨path, countOccurrences out (vaultReferenceText reference), reference, encoding,
        dataOrigin, jsonValue⟩ := by
  obtain ⟨entry, hentry, h⟩ := Option.bind_eq_some_iff.mp h
  obtain ⟨reference', hreference, h⟩ := Option.bind_eq_some_iff.mp h
  obtain ⟨encoding', hencoding, h⟩ := Option.bind_eq_some_iff.mp h
  simp only [Option.pure_def, Option.some.injEq, Prod.mk.injEq] at h
  obtain ⟨rfl, rfl, rfl, rfl⟩ := h
  simp only [referenceOf, hentry, hreference, hencoding]

/-- What the pieces of a scan are written as, which is what their segments are. -/
def persistPieces (registry : SecretBagRegistry) (path : List DataStep) :
    JsString → List (Pattern.Piece CodeUnit) → Except JsString (JsString × List WrittenReference)
  | out, [] => .ok (out, [])
  | out, .kept u :: rest => persistPieces registry path (out ++ [u]) rest
  | out, .matched run :: rest =>
    if registry.drewPrefixOf run then do
      let written ← referenceOf registry path out run
      let (out, more) ←
        persistPieces registry path (out ++ vaultReferenceText written.reference) rest
      return (out, written :: more)
    else persistPieces registry path (out ++ run) rest

theorem persistSegments_eq (registry : SecretBagRegistry) (path : List DataStep)
    (pieces : List (Pattern.Piece CodeUnit)) (out : JsString) :
    persistSegments registry path out (segmentsOf pieces) =
      persistPieces registry path out pieces := by
  induction pieces generalizing out with
  | nil => rfl
  | cons piece rest ih =>
    cases piece with
    | matched run =>
      rw [segmentsOf, persistSegments, persistPieces]
      simp only [true_and, ih]
    | kept u =>
      rw [segmentsOf, persistPieces, ← ih]
      split
      · rename_i text more hmore
        rw [hmore, persistSegments, persistSegments]
        simp [List.append_assoc]
      · rw [persistSegments]
        simp

/-- No sentinel-shaped text of a literal has a prefix that the registry drew. -/
def Undrawn (registry : SecretBagRegistry) (text : JsString) : Prop :=
  ∀ run, run <:+: text → registry.drewPrefixOf run = false

theorem persistPieces_undrawn {path : List DataStep} {text : JsString} (h : Undrawn registry text)
    (more : List (Pattern.Piece CodeUnit)) (out : JsString) :
    persistPieces registry path out (sentinelShape.scan text ++ more) =
      persistPieces registry path (out ++ text) more := by
  have hpieces : ∀ pieces : List (Pattern.Piece CodeUnit),
      (∀ run, .matched run ∈ pieces → registry.drewPrefixOf run = false) → ∀ out,
        persistPieces registry path out (pieces ++ more) =
          persistPieces registry path (out ++ pieces.flatMap Pattern.Piece.text) more := by
    intro pieces
    induction pieces with
    | nil => simp
    | cons piece rest ih =>
      intro hdrawn out
      have hrest := ih (fun run hrun => hdrawn run (List.mem_cons_of_mem _ hrun))
      cases piece with
      | kept u =>
        rw [List.cons_append, persistPieces, hrest, List.flatMap_cons, List.append_assoc]
        rfl
      | matched run =>
        have hnot : ¬ registry.drewPrefixOf run = true := by
          rw [hdrawn run List.mem_cons_self]
          exact Bool.false_ne_true
        rw [List.cons_append, persistPieces, if_neg hnot, hrest, List.flatMap_cons,
          List.append_assoc]
        rfl
  have hrun : ∀ run, .matched run ∈ sentinelShape.scan text →
      registry.drewPrefixOf run = false := by
    intro run hrun
    obtain ⟨front, rest, rfl, -, -⟩ := sentinelShape.mem_scan_matched hrun
    exact h run ⟨front, rest, rfl⟩
  rw [hpieces _ hrun, sentinelShape.scan_text]

/-- What a reference was written as. -/
def WrittenReference.described (written : WrittenReference) :
    SecretReference × SecretEncoding × Bool × Bool :=
  (written.reference, written.encoding, written.dataOrigin, written.jsonValue)

/-- **The persisted form has one reference for each sentinel**, in its place. -/
theorem toPersistedForm_assembled (hapart : Apart parts)
    (hliterals : ∀ literal ∈ literals parts tail, Undrawn registry literal)
    (hissued : ∀ part ∈ parts, (writtenAs registry part.2).isSome) :
    ∃ written, toPersistedForm registry (.str (assembled parts tail)) =
        .ok (.str (assembled
          (parts.map (fun part => (part.1, referenceText registry part.2))) tail), written) ∧
      written.map (fun reference => some reference.described) =
        parts.map (fun part => writtenAs registry part.2) := by
  have hpieces : ∀ path out, ∃ written,
      persistPieces registry path out (sentinelShape.scan (assembled parts tail)) =
        .ok (out ++ assembled
          (parts.map (fun part => (part.1, referenceText registry part.2))) tail, written) ∧
      written.map (fun reference => some reference.described) =
        parts.map (fun part => writtenAs registry part.2) := by
    intro path
    rw [scan_assembled hapart]
    clear hapart
    induction parts with
    | nil =>
      intro out
      have htail := @persistPieces_undrawn registry path tail
        (hliterals tail (List.mem_append_right _ (List.mem_singleton_self _))) [] out
      rw [List.append_nil] at htail
      exact ⟨[], by rw [List.flatMap_nil, List.nil_append, htail]; rfl, rfl⟩
    | cons part parts ih =>
      intro out
      obtain ⟨⟨reference, encoding, dataOrigin, jsonValue⟩, hwritten⟩ :=
        Option.isSome_iff_exists.mp (hissued part List.mem_cons_self)
      have hdrew : registry.drewPrefixOf part.2 = true := by
        obtain ⟨entry, hentry, -⟩ := Option.bind_eq_some_iff.mp hwritten
        exact SecretBagRegistry.drewPrefixOf_of_entryOf hentry
      obtain ⟨more, hmore, hdescribed⟩ := ih
        (fun literal hmem => hliterals literal (List.mem_cons_of_mem _ hmem))
        (fun other hother => hissued other (List.mem_cons_of_mem _ hother))
        (out ++ part.1 ++ vaultReferenceText reference)
      refine ⟨⟨path, countOccurrences (out ++ part.1) (vaultReferenceText reference), reference,
        encoding, dataOrigin, jsonValue⟩ :: more, ?_, ?_⟩
      · rw [List.flatMap_cons, List.append_assoc, List.append_assoc,
          persistPieces_undrawn (hliterals part.1 List.mem_cons_self), List.singleton_append,
          persistPieces, if_pos hdrew, referenceOf_writtenAs hwritten]
        have htext : referenceText registry part.2 = vaultReferenceText reference := by
          rw [referenceText, hwritten]
          rfl
        simp only [List.map_cons, assembled_cons, htext]
        simp only [bind, Except.bind]
        rw [hmore]
        simp [List.append_assoc, pure, Except.pure]
      · rw [List.map_cons, List.map_cons, hdescribed, hwritten]
        rfl
  unfold toPersistedForm
  split
  · rename_i hempty
    cases parts with
    | nil => exact ⟨[], rfl, rfl⟩
    | cons part parts =>
      have hsome := hissued part List.mem_cons_self
      have hnone : registry.entryOf part.2 = none := by
        have hentries : registry.entries.entries = [] := List.isEmpty_iff.mp hempty
        rw [SecretBagRegistry.entryOf, OrderedMap.get, hentries]
        rfl
      rw [writtenAs, hnone] at hsome
      cases hsome
  · obtain ⟨written, hwritten, hdescribed⟩ := hpieces [] []
    refine ⟨written, ?_, hdescribed⟩
    rw [persistValue, persistString, splitOnSentinels, persistSegments_eq, hwritten]
    rfl

theorem maskForm_masked (form text : JsString) :
    Masked STARS (fun _ => True) text (maskForm form text) := by
  unfold maskForm
  split
  · induction text with
    | nil => exact .nil
    | cons u rest ih =>
      cases rest with
      | nil => exact .keep u .nil
      | cons v rest =>
        rw [List.map_cons, List.map_cons, List.intercalate_cons_cons, List.append_assoc]
        exact .keep u (.hide [] trivial ih)
  · exact Masked.of_scan _ (fun _ _ => trivial)

theorem infix_of_foldl {redactor : SecretRedactor} {part : JsString} (hfree : unit '*' ∉ part)
    {secrets : List JsString} {text : JsString}
    (h : part <:+: secrets.foldl redactor.maskSecret text) : part <:+: text := by
  induction secrets generalizing text with
  | nil => exact h
  | cons secret rest ih =>
    have hpart := (maskForm_masked secret _).infix_of_masked SecretRedactor.stars_ne_nil
      (SecretRedactor.free_iff.mpr hfree) (ih h)
    split at hpart
    · have hindent : ∀ (p : Pattern CodeUnit) (text : JsString),
          Masked STARS (fun _ => True) text (p.replaceAll (fun _ => STARS) text) :=
        fun p _ => Masked.of_scan p (fun _ _ => trivial)
      exact (hindent _ _).infix_of_masked SecretRedactor.stars_ne_nil
        (SecretRedactor.free_iff.mpr hfree) hpart
    · exact hpart

theorem replaceSentinels_masked (redactor : SecretRedactor) (text : JsString) :
    Masked STARS (fun _ => True) text (sentinelShape.replaceAll
      (fun sentinel => if redactor.isMaskedSentinel sentinel then STARS else sentinel) text) := by
  unfold Pattern.replaceAll
  induction text using sentinelShape.scan_induction with
  | nil => exact .nil
  | matched run rest hmatch hne ih =>
    rw [sentinelShape.scan_matched hmatch hne, List.flatMap_cons, Pattern.Piece.replaced]
    split
    · exact .hide run trivial ih
    · exact (Masked.refl run).append ih
  | kept u rest hnone ih =>
    rw [sentinelShape.scan_keep hnone, List.flatMap_cons]
    exact .keep u ih

/-- **No sentinel of a masked registry is left** of a text put together. -/
theorem redact_assembled {redactor : SecretRedactor} (hregistry : registry ∈ redactor.sentinels)
    (hapart : Apart parts) (hliterals : ∀ literal ∈ literals parts tail, Unissued registry literal)
    (hissued : ∀ part ∈ parts, (registry.entryOf part.2).isSome) {sentinel : JsString}
    (hsentinel : (registry.entryOf sentinel).isSome) :
    ¬ sentinel <:+: redactor.redact (assembled parts tail) := by
  intro hpart
  obtain ⟨entry, hentry⟩ := Option.isSome_iff_exists.mp hsentinel
  have hshape := SecretBagRegistry.isSentinel_of_entryOf hentry
  have hne := isSentinel_ne_nil hshape
  have hfree : unit '*' ∉ sentinel := by
    obtain ⟨secret, digits, hsecret, hnumber, rfl⟩ := isSentinel_iff.mp hshape
    exact star_not_mem_sentinel hsecret hnumber
  have hmasks : redactor.masksSentinels = true := by
    refine List.any_eq_true.mpr ⟨registry, hregistry, ?_⟩
    cases hentries : registry.entries.entries with
    | nil =>
      rw [SecretBagRegistry.entryOf, OrderedMap.get, hentries] at hentry
      cases hentry
    | cons first rest => simp [SecretBagRegistry.isEmpty, hentries]
  have hmasked : ∀ part ∈ parts, redactor.isMaskedSentinel part.2 = true := fun part hpart =>
    List.any_eq_true.mpr ⟨registry, hregistry, hissued part hpart⟩
  -- what the sentinels leave, literal by literal
  have hleft : ∀ literal ∈ literals parts tail, ¬ sentinel <:+: sentinelShape.replaceAll
      (fun sentinel => if redactor.isMaskedSentinel sentinel then STARS else sentinel)
        literal := by
    intro literal hmem hin
    exact hliterals literal hmem sentinel hsentinel
      ((replaceSentinels_masked redactor literal).infix_of_masked SecretRedactor.stars_ne_nil
        (SecretRedactor.free_iff.mpr hfree) hin)
  have hall : ¬ sentinel <:+: sentinelShape.replaceAll
      (fun sentinel => if redactor.isMaskedSentinel sentinel then STARS else sentinel)
        (assembled parts tail) := by
    rw [Pattern.replaceAll, scan_assembled hapart, List.flatMap_append, List.flatMap_assoc]
    clear hapart hissued hpart
    induction parts with
    | nil => exact hleft tail (List.mem_singleton_self _)
    | cons part parts ih =>
      rw [List.flatMap_cons, List.flatMap_append, List.append_assoc, List.append_assoc]
      intro hin
      have hstars : ([Pattern.Piece.matched part.2] : List (Pattern.Piece CodeUnit)).flatMap
          (Pattern.Piece.replaced (fun sentinel =>
            if redactor.isMaskedSentinel sentinel then STARS else sentinel)) = STARS := by
        simp [Pattern.Piece.replaced, hmasked part List.mem_cons_self]
      rw [hstars] at hin
      rcases Masked.free_infix_of_between SecretRedactor.stars_ne_nil
        (SecretRedactor.free_iff.mpr hfree) hne hin with hfront | hrest
      · exact hleft part.1 List.mem_cons_self hfront
      · exact ih (fun literal hmem => hliterals literal (List.mem_cons_of_mem _ hmem))
          (fun other hother => hmasked other (List.mem_cons_of_mem _ hother))
          (fun literal hmem => hleft literal (List.mem_cons_of_mem _ hmem)) hrest
  have hin := infix_of_foldl hfree hpart
  unfold SecretRedactor.maskSentinels at hin
  split at hin
  · exact hall hin
  · rename_i hmark
    refine hmark ⟨hmasks, ?_⟩
    obtain ⟨secret, digits, -, -, rfl⟩ := isSentinel_iff.mp hshape
    exact (List.prefix_append _ _).isInfix.trans hin

end Secrets

end Swamp
