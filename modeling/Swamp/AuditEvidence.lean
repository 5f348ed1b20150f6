import Swamp.AuditChain

/-!
# The audit chain shows tampering

Putting keys in order loses nothing of what is written of a value but the order
of its keys, and encoding a well-formed text loses nothing, so two events with
one digest are the same as written, but for what is not digested.
-/

namespace Swamp

open Js

section

variable {α : Type} {a b : List (JsString × α)}

theorem sorted_of_perm (h : a.Perm b) (hdistinct : (a.map Prod.fst).Nodup) :
    a.insertionSort (fun x y => x.1 ≤ y.1) = b.insertionSort (fun x y => x.1 ≤ y.1) := by
  have htotal : Std.Total (fun x y : JsString × α => x.1 ≤ y.1) := ⟨fun x y => le_total x.1 y.1⟩
  have htrans : IsTrans (JsString × α) (fun x y => x.1 ≤ y.1) := ⟨fun x y z => le_trans⟩
  have hsort := List.perm_insertionSort (fun x y : JsString × α => x.1 ≤ y.1)
  refine List.Perm.eq_of_pairwise ?_ (List.pairwise_insertionSort _ a)
    (List.pairwise_insertionSort _ b) (((hsort a).trans h).trans (hsort b).symm)
  intro x y hx hy hxy hyx
  have hxa := (hsort a).mem_iff.mp hx
  have hya := h.mem_iff.mpr ((hsort b).mem_iff.mp hy)
  exact List.inj_on_of_nodup_map hdistinct hxa hya (le_antisymm hxy hyx)

theorem lookup_of_perm (h : a.Perm b) (hdistinct : (a.map Prod.fst).Nodup) (name : JsString) :
    a.lookup name = b.lookup name := by
  induction h with
  | nil => rfl
  | cons x _ ih =>
    rw [List.map_cons, List.nodup_cons] at hdistinct
    rw [List.lookup_cons, List.lookup_cons, ih hdistinct.2]
  | swap x y l =>
    rw [List.map_cons, List.map_cons, List.nodup_cons, List.mem_cons, not_or] at hdistinct
    obtain ⟨⟨hne, -⟩, -⟩ := hdistinct
    rw [List.lookup_cons, List.lookup_cons, List.lookup_cons, List.lookup_cons]
    by_cases hx : name = x.1
    · have hy : (name == y.1) = false := beq_false_of_ne (fun hy => hne (hy.symm.trans hx))
      rw [hy]
    · rw [beq_false_of_ne hx]
  | trans h _ ih ih' =>
    rw [ih hdistinct, ih' ((h.map Prod.fst).nodup_iff.mp hdistinct)]

end

theorem assigned_perm (fields : Fields) : (assigned fields).Perm fields := by
  unfold assigned
  apply ((List.perm_insertionSort _ _).append_right _).trans
  have hnone : (fun f : JsString × JsonValue => (indexKey f.1).isNone) =
      fun f => !(indexKey f.1).isSome := by
    funext f
    cases indexKey f.1 <;> rfl
  rw [hnone]
  exact List.filter_append_perm _ fields

/-- The fields of a sorted object are those of its values sorted. -/
theorem sortKeys_fields_perm (fields : Fields) :
    (assigned ((sortFields fields).insertionSort (fun a b => a.1 ≤ b.1))).Perm
      (sortFields fields) :=
  (assigned_perm _).trans (List.perm_insertionSort _ _)

/-- The fields of an object as written, the keys in order at every depth. -/
def canonicalWritten (fields : Fields) : List (JsString × Json) :=
  fields.map (fun f => (f.1, f.2.written.canonical))

theorem canonicalFields_written (fields : Fields) :
    Json.canonicalFields (JsonValue.writtenFields fields) = canonicalWritten fields := by
  induction fields with
  | nil => rfl
  | cons f fields ih =>
    rw [JsonValue.writtenFields, Json.canonicalFields, ih]
    rfl

theorem canonical_written_obj (fields : Fields) :
    (JsonValue.obj fields).written.canonical =
      .obj ((canonicalWritten fields).insertionSort (fun a b => a.1 ≤ b.1)) := by
  rw [JsonValue.written, Json.canonical, canonicalFields_written]

@[simp] theorem canonicalWritten_keys (fields : Fields) :
    (canonicalWritten fields).map Prod.fst = fields.map Prod.fst := by
  unfold canonicalWritten
  rw [List.map_map]
  rfl

theorem lookup_canonicalWritten (fields : Fields) (name : JsString) :
    (canonicalWritten fields).lookup name =
      (fields.lookup name).map (fun value => value.written.canonical) := by
  induction fields with
  | nil => rfl
  | cons f fields ih =>
    unfold canonicalWritten at ih ⊢
    rw [List.map_cons, List.lookup_cons, List.lookup_cons, ih]
    cases name == f.1 <;> rfl

mutual

/-- **Putting keys in order loses nothing but their order** of what is written of
a value. -/
theorem canonical_sortKeys : ∀ {value : JsonValue}, isPlain value = true →
    (sortKeys value).written.canonical = value.written.canonical
  | .null, _ => rfl
  | .bool _, _ => rfl
  | .num _, _ => rfl
  | .nonFinite _, _ => rfl
  | .str _, _ => rfl
  | .arr items, h => by
      rw [isPlain] at h
      rw [sortKeys, JsonValue.written, JsonValue.written, Json.canonical, Json.canonical,
        canonicalItems_sortItems h]
  | .obj fields, h => by
      obtain ⟨hdistinct, hfields⟩ := Bool.and_eq_true_iff.mp h
      have hperm : (canonicalWritten
          (assigned ((sortFields fields).insertionSort (fun a b => a.1 ≤ b.1)))).Perm
          (canonicalWritten fields) := by
        rw [← canonicalWritten_sortFields hfields]
        exact (sortKeys_fields_perm fields).map _
      rw [sortKeys, canonical_written_obj, canonical_written_obj]
      refine congrArg Json.obj (sorted_of_perm hperm ?_)
      rw [(hperm.map Prod.fst).nodup_iff, canonicalWritten_keys]
      exact of_decide_eq_true hdistinct

theorem canonicalItems_sortItems : ∀ {items : List JsonValue}, isPlainItems items = true →
    Json.canonicalItems (JsonValue.writtenItems (sortItems items)) =
      Json.canonicalItems (JsonValue.writtenItems items)
  | [], _ => rfl
  | item :: items, h => by
      obtain ⟨hitem, hitems⟩ := Bool.and_eq_true_iff.mp h
      rw [sortItems, JsonValue.writtenItems, JsonValue.writtenItems, Json.canonicalItems,
        Json.canonicalItems, canonical_sortKeys hitem, canonicalItems_sortItems hitems]

theorem canonicalWritten_sortFields : ∀ {fields : Fields}, isPlainFields fields = true →
    canonicalWritten (sortFields fields) = canonicalWritten fields
  | [], _ => rfl
  | (key, value) :: fields, h => by
      obtain ⟨hvalue, hfields⟩ := Bool.and_eq_true_iff.mp h
      have hhead := canonical_sortKeys hvalue
      have htail := canonicalWritten_sortFields hfields
      unfold canonicalWritten at htail ⊢
      rw [sortFields, List.map_cons, List.map_cons, htail, hhead]

end

mutual

/-- What is read of a written value is written as it was. -/
theorem written_ofJson : ∀ value : Json, (JsonValue.ofJson value).written = value
  | .null => rfl
  | .bool _ => rfl
  | .num _ => rfl
  | .str _ => rfl
  | .arr items => by rw [JsonValue.ofJson, JsonValue.written, writtenItems_ofItems items]
  | .obj fields => by rw [JsonValue.ofJson, JsonValue.written, writtenFields_ofFields fields]

theorem writtenItems_ofItems : ∀ items : List Json,
    JsonValue.writtenItems (JsonValue.ofItems items) = items
  | [] => rfl
  | item :: items => by
      rw [JsonValue.ofItems, JsonValue.writtenItems, written_ofJson item,
        writtenItems_ofItems items]

theorem writtenFields_ofFields : ∀ fields : List (JsString × Json),
    JsonValue.writtenFields (JsonValue.ofFields fields) = fields
  | [] => rfl
  | (key, value) :: fields => by
      rw [JsonValue.ofFields, JsonValue.writtenFields, written_ofJson value,
        writtenFields_ofFields fields]

end

/-- A value, read of its text. -/
def reread (value : JsonValue) : JsonValue := .ofJson value.written

theorem reread_items (items : List JsonValue) :
    JsonValue.ofItems (JsonValue.writtenItems items) = items.map reread := by
  induction items with
  | nil => rfl
  | cons item items ih =>
    rw [JsonValue.writtenItems, JsonValue.ofItems, ih]
    rfl

theorem reread_fields (fields : Fields) :
    JsonValue.ofFields (JsonValue.writtenFields fields) = fields.map (Prod.map id reread) := by
  induction fields with
  | nil => rfl
  | cons f fields ih =>
    rw [JsonValue.writtenFields, JsonValue.ofFields, ih]
    rfl

section

variable (g : JsonValue → JsonValue)

/-- What is decided by the keys alone is decided alike of other values. -/
theorem filter_map_values (p : JsString → Bool) (fields : Fields) :
    (fields.map (Prod.map id g)).filter (fun f => p f.1) =
      (fields.filter (fun f => p f.1)).map (Prod.map id g) := by
  rw [List.filter_map]
  rfl

theorem lookup_map_values (fields : Fields) (name : JsString) :
    (fields.map (Prod.map id g)).lookup name = (fields.lookup name).map g := by
  induction fields with
  | nil => rfl
  | cons f fields ih =>
    rw [List.map_cons, List.lookup_cons, List.lookup_cons, ih]
    simp only [Prod.map, id_eq]
    cases name == f.1 <;> rfl

theorem insertionSort_map_values (r : JsString → JsString → Prop) [DecidableRel r]
    (fields : Fields) :
    (fields.map (Prod.map id g)).insertionSort (fun a b => r a.1 b.1) =
      (fields.insertionSort (fun a b => r a.1 b.1)).map (Prod.map id g) :=
  (List.map_insertionSort (fun a b : JsString × JsonValue => r a.1 b.1)
    (fun a b : JsString × JsonValue => r a.1 b.1) (Prod.map id g) fields
    (fun _ _ _ _ => Iff.rfl)).symm

theorem assigned_map (fields : Fields) :
    assigned (fields.map (Prod.map id g)) = (assigned fields).map (Prod.map id g) := by
  unfold assigned
  rw [List.map_append, filter_map_values g (fun key => (indexKey key).isSome),
    filter_map_values g (fun key => (indexKey key).isNone),
    insertionSort_map_values g (fun a b => (indexKey a).getD 0 ≤ (indexKey b).getD 0)]

theorem assigned_sorted_map (fields : Fields) :
    assigned ((fields.map (Prod.map id g)).insertionSort (fun a b => a.1 ≤ b.1)) =
      (assigned (fields.insertionSort (fun a b => a.1 ≤ b.1))).map (Prod.map id g) := by
  rw [insertionSort_map_values g (· ≤ ·), assigned_map]

end

mutual

/-- Putting keys in order does the same to a value and to what is read of its
text. -/
theorem sortKeys_reread : ∀ value : JsonValue, sortKeys (reread value) = reread (sortKeys value)
  | .null => rfl
  | .bool _ => rfl
  | .num _ => rfl
  | .nonFinite _ => rfl
  | .str _ => rfl
  | .arr items => by
      unfold reread
      rw [JsonValue.written, JsonValue.ofJson, reread_items, sortKeys, sortKeys,
        sortItems_reread items, JsonValue.written, JsonValue.ofJson, reread_items]
  | .obj fields => by
      unfold reread
      rw [JsonValue.written, JsonValue.ofJson, reread_fields, sortKeys, sortKeys,
        sortFields_reread fields, assigned_sorted_map, JsonValue.written, JsonValue.ofJson,
        reread_fields]

theorem sortItems_reread : ∀ items : List JsonValue,
    sortItems (items.map reread) = (sortItems items).map reread
  | [] => rfl
  | item :: items => by
      rw [List.map_cons, sortItems, sortItems, List.map_cons, sortKeys_reread item,
        sortItems_reread items]

theorem sortFields_reread : ∀ fields : Fields,
    sortFields (fields.map (Prod.map id reread)) = (sortFields fields).map (Prod.map id reread)
  | [] => rfl
  | (key, value) :: fields => by
      rw [sortFields, List.map_cons, List.map_cons, ← sortFields_reread fields]
      simp only [Prod.map, id_eq]
      rw [sortFields, sortKeys_reread value]

end

theorem scalarOf_isScalar (u : CodeUnit) : IsScalar (scalarOf u) := by
  unfold scalarOf
  split
  · exact ⟨by decide, by decide⟩
  · rename_i hsurrogate
    simp only [Bool.or_eq_true, not_or] at hsurrogate
    exact isScalar_unit hsurrogate.1 hsurrogate.2

theorem scalars_isScalar (s : JsString) : ∀ point ∈ scalars s, IsScalar point := by
  fun_induction scalars s with
  | case1 => exact List.forall_mem_nil _
  | case2 u => exact List.forall_mem_singleton.mpr (scalarOf_isScalar u)
  | case3 u v rest hpair ih =>
    obtain ⟨hu, hv⟩ := Bool.and_eq_true_iff.mp hpair
    exact List.forall_mem_cons.mpr ⟨(pointUnits_pair hu hv).1, ih⟩
  | case4 u v rest hpair ih => exact List.forall_mem_cons.mpr ⟨scalarOf_isScalar u, ih⟩

variable {s : JsString}

theorem pointUnits_scalars (h : isWellFormed s = true) : (scalars s).flatMap pointUnits = s := by
  have hunit : ∀ u : CodeUnit, (!isLeading u && !isTrailing u) = true →
      pointUnits (scalarOf u) = [u] := by
    intro u hu
    simp only [Bool.and_eq_true, Bool.not_eq_true'] at hu
    have hhigh : isHighSurrogate u = false := hu.1
    have hlow : isLowSurrogate u = false := hu.2
    have hscalar : scalarOf u = u.val := by
      unfold scalarOf
      rw [hhigh, hlow]
      rfl
    rw [hscalar, pointUnits_unit]
  fun_induction isWellFormed s with
  | case1 => rfl
  | case2 u => rw [scalars, List.flatMap_singleton, hunit u h]
  | case3 u v rest hpair ih =>
    obtain ⟨hu, hv⟩ := Bool.and_eq_true_iff.mp hpair
    have hpair' : (isHighSurrogate u && isLowSurrogate v) = true := hpair
    rw [scalars, if_pos hpair', List.flatMap_cons, (pointUnits_pair hu hv).2, ih h]
    rfl
  | case4 u v rest hpair ih =>
    obtain ⟨hu, hrest⟩ := Bool.and_eq_true_iff.mp h
    have hpair' : ¬ (isHighSurrogate u && isLowSurrogate v) = true := hpair
    rw [scalars, if_neg hpair', List.flatMap_cons, hunit u hu, ih hrest]
    rfl

theorem decodeTokens_points {points : List ℕ} (h : ∀ point ∈ points, IsScalar point) :
    decodeTokens ((points.flatMap utf8).map segmentToken) = some (points.flatMap pointUnits) := by
  induction points with
  | nil => rfl
  | cons point points ih =>
    rw [List.flatMap_cons, List.map_append, decodeTokens_utf8 (h point List.mem_cons_self),
      ih (fun p hp => h p (List.mem_cons_of_mem _ hp))]
    rfl

/-- **Encoding a well-formed text loses nothing.** -/
theorem textEncode_injective {t : JsString} (hs : isWellFormed s = true)
    (ht : isWellFormed t = true) (h : textEncode s = textEncode t) : s = t := by
  have hbytes : ∀ r : JsString, (textEncode r).map Fin.val = (scalars r).flatMap utf8 := by
    intro r
    unfold textEncode
    rw [List.map_map]
    conv_rhs => rw [← List.map_id ((scalars r).flatMap utf8)]
    apply List.map_congr_left
    intro b hb
    obtain ⟨point, hpoint, hb⟩ := List.mem_flatMap.mp hb
    exact Nat.mod_eq_of_lt (utf8_lt (scalars_isScalar r point hpoint).1 b hb)
  have hdecoded : ∀ {r : JsString}, isWellFormed r = true →
      decodeTokens (((textEncode r).map Fin.val).map segmentToken) = some r := by
    intro r hr
    rw [hbytes, decodeTokens_points (scalars_isScalar r), pointUnits_scalars hr]
  have hsame := hdecoded hs
  rw [h, hdecoded ht] at hsame
  exact (Option.some.inj hsame).symm

theorem lowerHex_injective {a b : ℕ} (ha : a < 16) (hb : b < 16) (h : lowerHex a = lowerHex b) :
    a = b := by
  have hdigit := digitOf_lowerHex ha
  rw [h, digitOf_lowerHex hb] at hdigit
  exact (Option.some.inj hdigit).symm

theorem bytesHex_injective : Function.Injective bytesHex := by
  intro a b h
  induction a generalizing b with
  | nil =>
    cases b with
    | nil => rfl
    | cons y b => cases h
  | cons x a ih =>
    cases b with
    | nil => cases h
    | cons y b =>
      have hx := x.isLt
      have hy := y.isLt
      unfold bytesHex at h
      rw [List.flatMap_cons, List.flatMap_cons] at h
      obtain ⟨hhigh, htail⟩ := List.cons.inj h
      obtain ⟨hlow, hrest⟩ := List.cons.inj htail
      have hhigh' := lowerHex_injective (by omega) (by omega) hhigh
      have hlow' := lowerHex_injective (by omega) (by omega) hlow
      have hxy : x = y := Fin.ext (by omega)
      rw [hxy, ih hrest]

/-- The text of a digest: lowercase hex. -/
def IsDigest (s : JsString) : Prop :=
  ∀ u ∈ s, (48 ≤ u.val ∧ u.val ≤ 57) ∨ (97 ≤ u.val ∧ u.val ≤ 102)

theorem chainSeed_isDigest : IsDigest CHAIN_SEED_DIGEST := by
  intro u hu
  rw [List.eq_of_mem_replicate hu]
  decide

theorem bytesHex_isDigest (bytes : List (Fin 256)) : IsDigest (bytesHex bytes) := by
  have hdigit : ∀ d : ℕ, d < 16 → (48 ≤ (lowerHex d).val ∧ (lowerHex d).val ≤ 57) ∨
      (97 ≤ (lowerHex d).val ∧ (lowerHex d).val ≤ 102) := by
    intro d hd
    interval_cases d <;> decide
  intro u hu
  obtain ⟨b, -, hb⟩ := List.mem_flatMap.mp hu
  have hlt := b.isLt
  simp only [List.mem_cons, List.not_mem_nil, or_false] at hb
  rcases hb with rfl | rfl
  · exact hdigit (b.val / 16) (by omega)
  · exact hdigit (b.val % 16) (by omega)

theorem IsDigest.wellFormed (h : IsDigest s) : isWellFormed s = true := by
  apply isWellFormed_of_units
  intro u hu
  have hrange := h u hu
  simp only [isLeading, isTrailing, Bool.and_eq_true, Bool.not_eq_true', Bool.and_eq_false_iff,
    decide_eq_false_iff_not]
  omega

theorem IsDigest.no_brace (h : IsDigest s) : unit '\x7b' ∉ s :=
  fun hmem => absurd (h _ hmem) (by decide)

section

variable {numberText : ℚ → JsString} {sha256 : List (Fin 256) → List (Fin 256)}

theorem computeDigest_isDigest (previous json : JsString) :
    IsDigest (computeDigest sha256 previous json) := bytesHex_isDigest _

variable (numberText) in
/-- The text of an event begins with a brace. -/
theorem canonicalize_brace (event : Fields) :
    ∃ rest, canonicalize numberText event = unit '\x7b' :: rest := by
  unfold canonicalize
  rw [sortKeys, JsonValue.written]
  generalize JsonValue.writtenFields (assigned _) = fields
  match fields with
  | [] => exact ⟨_, rfl⟩
  | (key, value) :: fields => exact ⟨_, rfl⟩

theorem digested_inj (number : NumberText numberText) {p q : JsString} (hp : IsDigest p)
    (hq : IsDigest q)
    (h : textEncode (p ++ canonicalize numberText a) = textEncode (q ++ canonicalize numberText b))
    : p = q ∧ canonicalize numberText a = canonicalize numberText b := by
  have hwell : ∀ {r : JsString} {event : Fields}, IsDigest r →
      isWellFormed (r ++ canonicalize numberText event) = true :=
    fun hr => isWellFormed_append hr.wellFormed (stringify_wellFormed number _)
  have htext := textEncode_injective (hwell hp) (hwell hq) h
  obtain ⟨restA, hA⟩ := canonicalize_brace numberText a
  obtain ⟨restB, hB⟩ := canonicalize_brace numberText b
  rw [hA, hB] at htext ⊢
  obtain ⟨hprevious, hrest⟩ := append_separator_inj hp.no_brace hq.no_brace htext
  exact ⟨hprevious, by rw [hrest]⟩

theorem computeDigest_inj (number : NumberText numberText) {p q : JsString} (hp : IsDigest p)
    (hq : IsDigest q) (hfree : sha256 (textEncode (p ++ canonicalize numberText a)) =
        sha256 (textEncode (q ++ canonicalize numberText b)) →
      textEncode (p ++ canonicalize numberText a) = textEncode (q ++ canonicalize numberText b))
    (h : computeDigest sha256 p (canonicalize numberText a) =
      computeDigest sha256 q (canonicalize numberText b)) :
    p = q ∧ canonicalize numberText a = canonicalize numberText b :=
  digested_inj number hp hq (hfree (bytesHex_injective h))

end

/-- The digest a stored event holds, empty when it holds none. -/
def digestOf (event : Fields) : JsString := (textOf event (js "digest")).getD []

/-- The digest a log ends in, which is the one it starts from when it is empty. -/
def lastDigest (start : JsString) (log : List Fields) : JsString :=
  (log.getLast?.map digestOf).getD start

section

variable (numberText : ℚ → JsString)

/-- A stored event, as a link of a chain. -/
def linkOf (event : Fields) : JsString × JsString := (digestOf event, canonicalize numberText event)

/-- The bytes that are digested when a log is verified. -/
def digestedBytes (start : JsString) (log : List Fields) : List (List (Fin 256)) :=
  (HashChain.hashed start (log.map (linkOf numberText))).map (fun p => textEncode (p.1 ++ p.2))

end

/-- Two stored events differ at most in what the chain does not digest, the
version and the sequence number, in the order of their keys, and in what is
written as `null`. -/
def SameEvent (a b : Fields) : Prop :=
  ∀ name, name ≠ js "version" → name ≠ js "sequence" →
    (a.lookup name).map (fun value => value.written.canonical) =
      (b.lookup name).map (fun value => value.written.canonical)

theorem lastDigest_links (numberText : ℚ → JsString) (start : JsString) (log : List Fields) :
    HashChain.lastDigest start (log.map (linkOf numberText)) = lastDigest start log := by
  rcases List.eq_nil_or_concat' log with rfl | ⟨log, event, rfl⟩
  · rfl
  · rw [List.map_append, List.map_singleton, HashChain.lastDigest_concat, lastDigest,
      List.getLast?_concat]
    rfl

section

variable {numberText : ℚ → JsString} {sha256 : List (Fin 256) → List (Fin 256)}

variable {start : JsString}

omit start in
theorem lookup_of_textOf {event : Fields} {name text : JsString}
    (h : textOf event name = some text) : event.lookup name = some (.str text) := by
  unfold textOf at h
  split at h
  · rename_i hlookup
    rw [hlookup, Option.some.inj h]
  · cases h

/-- **`verifyChain` accepts the chained logs.** -/
theorem verifyChain_valid {log : List Fields} (h : verifyChain numberText sha256 start log = .valid)
    :
    HashChain.Chained (computeDigest sha256) start (log.map (linkOf numberText)) ∧
      (∀ event ∈ log, IsDigest (digestOf event)) ∧
      ∀ event ∈ log, event.lookup (js "digest") = some (.str (digestOf event)) := by
  induction log generalizing start with
  | nil => exact ⟨trivial, List.forall_mem_nil _, List.forall_mem_nil _⟩
  | cons event log ih =>
    rw [verifyChain] at h
    split at h
    · cases h
    · rename_i hdigest
      have htext := not_not.mp hdigest
      have hexpected : digestOf event =
          computeDigest sha256 start (canonicalize numberText event) := by
        unfold digestOf
        rw [htext, Option.getD_some]
      obtain ⟨hchained, hdigests, hfields⟩ := ih h
      rw [← hexpected] at hchained htext
      have hfield := lookup_of_textOf htext
      refine ⟨⟨hexpected, hchained⟩, List.forall_mem_cons.mpr ⟨?_, hdigests⟩,
        List.forall_mem_cons.mpr ⟨hfield, hfields⟩⟩
      rw [hexpected]
      exact computeDigest_isDigest start _

theorem hashed_event {log : List Fields} (hstart : IsDigest start)
    (hlog : ∀ event ∈ log, IsDigest (digestOf event)) {p : JsString × JsString}
    (hp : p ∈ HashChain.hashed start (log.map (linkOf numberText))) :
    IsDigest p.1 ∧ ∃ event ∈ log, p.2 = canonicalize numberText event := by
  induction log generalizing start with
  | nil => cases hp
  | cons event log ih =>
    obtain ⟨hevent, hrest⟩ := List.forall_mem_cons.mp hlog
    rcases List.mem_cons.mp hp with rfl | hp
    · exact ⟨hstart, event, List.mem_cons_self, rfl⟩
    · obtain ⟨hdigest, other, hother, htext⟩ := ih hevent hrest hp
      exact ⟨hdigest, other, List.mem_cons_of_mem _ hother, htext⟩

/-- What of an event is digested. -/
def digestedFields (event : Fields) : Fields := event.filter (fun f => f.1 ∉ chainFields)

theorem isPlainFields_filter (p : JsString × JsonValue → Bool) (h : isPlainFields fields = true) :
    isPlainFields (fields.filter p) = true := by
  induction fields with
  | nil => rfl
  | cons f fields ih =>
    obtain ⟨hhead, hfields⟩ := Bool.and_eq_true_iff.mp h
    by_cases hp : p f = true
    · rw [List.filter_cons_of_pos hp]
      exact Bool.and_eq_true_iff.mpr ⟨hhead, ih hfields⟩
    · rw [List.filter_cons_of_neg hp]
      exact ih hfields

theorem isPlain_digestedFields {event : Fields} (h : isPlain (.obj event) = true) :
    isPlain (.obj (digestedFields event)) = true := by
  obtain ⟨hdistinct, hfields⟩ := Bool.and_eq_true_iff.mp h
  have hsublist : (digestedFields event).Sublist event := List.filter_sublist
  have hnodup := (of_decide_eq_true hdistinct).sublist (hsublist.map Prod.fst)
  exact Bool.and_eq_true_iff.mpr ⟨decide_eq_true hnodup, isPlainFields_filter _ hfields⟩

theorem lookup_digestedFields {event : Fields} {name : JsString} (h : name ∉ chainFields) :
    (digestedFields event).lookup name = event.lookup name := by
  induction event with
  | nil => rfl
  | cons f event ih =>
    unfold digestedFields at ih ⊢
    by_cases hf : f.1 ∈ chainFields
    · have hne : (name == f.1) = false := beq_false_of_ne (fun heq => h (heq ▸ hf))
      rw [List.filter_cons_of_neg (by simpa using hf), ih, List.lookup_cons, hne]
    · rw [List.filter_cons_of_pos (by simpa using hf), List.lookup_cons, List.lookup_cons, ih]

/-- **Events with one digest and one text are the same.** -/
theorem sameEvent_of_link (number : NumberText numberText) {a b : Fields}
    (ha : isPlain (.obj a) = true) (hb : isPlain (.obj b) = true)
    (hdigest : a.lookup (js "digest") = b.lookup (js "digest"))
    (htext : canonicalize numberText a = canonicalize numberText b) : SameEvent a b := by
  have hplainA := isPlain_digestedFields ha
  have hplainB := isPlain_digestedFields hb
  have hsorted : (sortKeys (.obj (digestedFields a))).written =
      (sortKeys (.obj (digestedFields b))).written := stringify_injective number htext
  have hcanonical : (JsonValue.obj (digestedFields a)).written.canonical =
      (JsonValue.obj (digestedFields b)).written.canonical := by
    rw [← canonical_sortKeys hplainA, ← canonical_sortKeys hplainB, hsorted]
  rw [canonical_written_obj, canonical_written_obj] at hcanonical
  have hfields := Json.obj.inj hcanonical
  have hlookup : ∀ {event : Fields}, isPlain (.obj event) = true → ∀ name,
      ((canonicalWritten event).insertionSort (fun x y => x.1 ≤ y.1)).lookup name =
        (event.lookup name).map (fun value => value.written.canonical) := by
    intro event hplain name
    have hdistinct := of_decide_eq_true (Bool.and_eq_true_iff.mp hplain).1
    rw [← lookup_canonicalWritten]
    refine (lookup_of_perm (List.perm_insertionSort _ _).symm ?_ name).symm
    rw [canonicalWritten_keys]
    exact hdistinct
  intro name hversion hsequence
  by_cases hname : name = js "digest"
  · rw [hname, hdigest]
  · have hchain : name ∉ chainFields := by
      simp only [chainFields, List.mem_cons, List.not_mem_nil, or_false, not_or]
      exact ⟨hversion, hsequence, hname⟩
    have hfield : ∀ event : Fields, event.lookup name = (digestedFields event).lookup name :=
      fun event => (lookup_digestedFields hchain).symm
    rw [hfield a, hfield b, ← hlookup hplainA, ← hlookup hplainB, hfields]

/-- **Two logs with one last digest hold the same events.** -/
theorem sameEvents_of_lastDigest (number : NumberText numberText) {a b : List Fields}
    (hstart : IsDigest start) (ha : verifyChain numberText sha256 start a = .valid)
    (hb : verifyChain numberText sha256 start b = .valid)
    (hplain : ∀ event ∈ a ++ b, isPlain (.obj event) = true)
    (hfree : ∀ x ∈ digestedBytes numberText start a, ∀ y ∈ digestedBytes numberText start b,
      sha256 x = sha256 y → x = y) (hleaves : ∀ event ∈ a ++ b, digestOf event ≠ start)
    (hlast : lastDigest start a = lastDigest start b) : List.Forall₂ SameEvent a b := by
  obtain ⟨hchainedA, hdigestsA, hfieldsA⟩ := verifyChain_valid ha
  obtain ⟨hchainedB, hdigestsB, hfieldsB⟩ := verifyChain_valid hb
  have hcollision : HashChain.CollisionFree (computeDigest sha256) start
      (a.map (linkOf numberText)) (b.map (linkOf numberText)) := by
    intro p hp q hq hdigest
    have hbytes := hfree _ (List.mem_map_of_mem hp) _ (List.mem_map_of_mem hq)
    obtain ⟨hpDigest, x, -, hpText⟩ := hashed_event hstart hdigestsA hp
    obtain ⟨hqDigest, y, -, hqText⟩ := hashed_event hstart hdigestsB hq
    rw [hpText, hqText] at hdigest hbytes
    obtain ⟨hprevious, htext⟩ := computeDigest_inj number hpDigest hqDigest hbytes hdigest
    exact Prod.ext hprevious (by rw [hpText, hqText, htext])
  have hleavesOf : ∀ {log : List Fields}, (∀ event ∈ log, digestOf event ≠ start) →
      HashChain.Leaves start (log.map (linkOf numberText)) := by
    intro log hlog link hlink
    obtain ⟨event, hevent, rfl⟩ := List.mem_map.mp hlink
    exact hlog event hevent
  have hlinks : a.map (linkOf numberText) = b.map (linkOf numberText) := by
    refine HashChain.eq_of_lastDigest_eq hchainedA hchainedB hcollision
      (hleavesOf (fun event hevent => hleaves event (List.mem_append_left _ hevent)))
      (hleavesOf (fun event hevent => hleaves event (List.mem_append_right _ hevent))) ?_
    rw [lastDigest_links, lastDigest_links, hlast]
  have hpairs : List.Forall₂ (fun x y => linkOf numberText x = linkOf numberText y) a b := by
    rw [← List.forall₂_map_right_iff (f := linkOf numberText) (R := fun x y => linkOf numberText x = y),
      ← List.forall₂_map_left_iff (f := linkOf numberText) (R := Eq), List.forall₂_eq_eq_eq, hlinks]
  obtain ⟨hlength, hsame⟩ := List.forall₂_iff_zip.mp hpairs
  refine List.forall₂_iff_zip.mpr ⟨hlength, ?_⟩
  intro x y hxy
  obtain ⟨hx, hy⟩ := List.of_mem_zip hxy
  obtain ⟨hdigest, htext⟩ := Prod.mk.inj (hsame hxy)
  refine sameEvent_of_link number (hplain x (List.mem_append_left _ hx))
    (hplain y (List.mem_append_right _ hy)) ?_ htext
  rw [hfieldsA x hx, hfieldsB y hy, hdigest]

theorem withField_digested (fields : List (JsString × Option JsonValue)) {name : JsString}
    (value : JsonValue) (hname : name ∈ chainFields) :
    digestedFields (definedFields (withField fields name value)) =
      digestedFields (definedFields fields) := by
  unfold digestedFields
  unfold withField
  split
  · rename_i hmem
    clear hmem
    induction fields with
    | nil => rfl
    | cons f fields ih =>
      unfold definedFields at ih ⊢
      rw [List.map_cons, List.filterMap_cons, List.filterMap_cons]
      by_cases hf : f.1 = name
      · rw [if_pos hf]
        simp only [Option.map_some]
        rw [List.filter_cons_of_neg (by simpa using hname), ih]
        cases f.2 with
        | none => rfl
        | some old =>
          simp only [Option.map_some]
          rw [List.filter_cons_of_neg (by simpa [hf] using hname)]
      · rw [if_neg hf]
        cases f.2 with
        | none => exact ih
        | some old =>
          simp only [Option.map_some, List.filter_cons, ih]
  · unfold definedFields
    rw [List.filterMap_append, List.filter_append]
    have hlast : (([(name, some value)] : List (JsString × Option JsonValue)).filterMap
        (fun f => f.2.map (fun v => (f.1, v)))).filter (fun f => f.1 ∉ chainFields) = [] := by
      simp [hname]
    rw [hlast, List.append_nil]

theorem lookup_withField (fields : List (JsString × Option JsonValue)) (name : JsString)
    (value : JsonValue) :
    (definedFields (withField fields name value)).lookup name = some value := by
  unfold withField
  split
  · rename_i hmem
    induction fields with
    | nil => cases hmem
    | cons f fields ih =>
      unfold definedFields at ih ⊢
      rw [List.map_cons, List.filterMap_cons]
      by_cases hf : f.1 = name
      · rw [if_pos hf]
        simp
      · rw [if_neg hf]
        have hrest : name ∈ fields.map Prod.fst :=
          (List.mem_cons.mp hmem).resolve_left (fun heq => hf heq.symm)
        cases f.2 with
        | none => exact ih hrest
        | some old =>
          simp only [Option.map_some]
          rw [List.lookup_cons, beq_false_of_ne (fun heq => hf heq.symm)]
          exact ih hrest
  · rename_i hmem
    unfold definedFields
    induction fields with
    | nil => simp
    | cons f fields ih =>
      rw [List.map_cons, List.mem_cons, not_or] at hmem
      rw [List.cons_append, List.filterMap_cons]
      cases f.2 with
      | none => exact ih hmem.2
      | some old =>
        simp only [Option.map_some]
        rw [List.lookup_cons, beq_false_of_ne hmem.1]
        exact ih hmem.2

theorem storedFields_eq_map (fields : List (JsString × Option JsonValue)) :
    storedFields fields = (definedFields fields).map (Prod.map id reread) := reread_fields _

theorem canonicalize_stored (fields : List (JsString × Option JsonValue)) :
    canonicalize numberText (storedFields fields) =
      canonicalize numberText (definedFields fields) := by
  have hobject : JsonValue.obj ((storedFields fields).filter (fun f => f.1 ∉ chainFields)) =
      reread (.obj ((definedFields fields).filter (fun f => f.1 ∉ chainFields))) := by
    rw [storedFields_eq_map, filter_map_values reread (fun key => key ∉ chainFields)]
    exact congrArg JsonValue.obj (reread_fields _).symm
  unfold canonicalize
  rw [hobject, sortKeys_reread]
  unfold reread
  rw [written_ofJson]

/-- A chained event has one text, before it is chained and as stored. -/
theorem canonicalize_chain (self : AuditChainState) (event : AuditEvent) :
    canonicalize numberText (storedFields (self.chain numberText sha256 event).2) =
      canonicalize numberText (definedFields event.fields) := by
  have hdigested : digestedFields (definedFields (self.chain numberText sha256 event).2) =
      digestedFields (definedFields event.fields) := by
    unfold AuditChainState.chain
    simp only
    rw [withField_digested _ _ (by decide), withField_digested _ _ (by decide),
      withField_digested _ _ (by decide)]
  rw [canonicalize_stored]
  exact congrArg (fun fields => stringify numberText (sortKeys (.obj fields)).written) hdigested

theorem textOf_chain (self : AuditChainState) (event : AuditEvent) :
    textOf (storedFields (self.chain numberText sha256 event).2) (js "digest") =
      some (self.chain numberText sha256 event).1.previousDigest := by
  have hlookup : (definedFields (self.chain numberText sha256 event).2).lookup (js "digest") =
      some (.str (self.chain numberText sha256 event).1.previousDigest) := lookup_withField _ _ _
  unfold textOf
  rw [storedFields_eq_map, lookup_map_values, hlookup]
  rfl

/-- **`verifyChain` accepts what the chain stored.** -/
theorem verifyChain_store (self : AuditChainState) (events : List AuditEvent) :
    verifyChain numberText sha256 self.previousDigest
      (self.store numberText sha256 events).2 = .valid := by
  induction events generalizing self with
  | nil => rfl
  | cons event events ih =>
    have hstored : (self.store numberText sha256 (event :: events)).2 =
        storedFields (self.chain numberText sha256 event).2 ::
          ((self.chain numberText sha256 event).1.store numberText sha256 events).2 := rfl
    have hexpected : computeDigest sha256 self.previousDigest (canonicalize numberText
        (storedFields (self.chain numberText sha256 event).2)) =
        (self.chain numberText sha256 event).1.previousDigest := by
      rw [canonicalize_chain]
      rfl
    rw [hstored, verifyChain]
    simp only [hexpected]
    rw [if_neg (not_not.mpr (textOf_chain self event))]
    exact ih _

/-- Chaining stops and resumes from its snapshot as if it had not stopped. -/
theorem store_append (self : AuditChainState) (first rest : List AuditEvent) :
    (self.store numberText sha256 (first ++ rest)).2 =
      (self.store numberText sha256 first).2 ++
        ((self.store numberText sha256 first).1.store numberText sha256 rest).2 := by
  induction first generalizing self with
  | nil => rfl
  | cons event first ih =>
    have hstored : ∀ events, (self.store numberText sha256 (event :: events)).2 =
        storedFields (self.chain numberText sha256 event).2 ::
          ((self.chain numberText sha256 event).1.store numberText sha256 events).2 :=
      fun _ => rfl
    have hafter : (self.store numberText sha256 (event :: first)).1 =
        ((self.chain numberText sha256 event).1.store numberText sha256 first).1 := rfl
    rw [List.cons_append, hstored, hstored, hafter, ih, List.cons_append]

/-- **The audit chain shows tampering.**  `verifyChain` accepts what the chain
stored, also when it stopped and resumed.  A log it accepts from the same start
that ends in the same digest has the same events as written, but for what is not
digested: the version and the sequence number.  Assumed of the digests met is that no two
digested texts have one digest, and that none is the start. -/
theorem audit_chain_shows_tampering (number : NumberText numberText) (self : AuditChainState) :
    (∀ first rest : List AuditEvent, verifyChain numberText sha256 self.previousDigest
      ((self.store numberText sha256 first).2 ++
        ((self.store numberText sha256 first).1.store numberText sha256 rest).2) = .valid) ∧
    ∀ (events : List AuditEvent) (stored log : List Fields), IsDigest self.previousDigest →
      (self.store numberText sha256 events).2 = stored →
      (∀ event ∈ stored ++ log, isPlain (.obj event) = true) →
      (∀ x ∈ digestedBytes numberText self.previousDigest stored,
        ∀ y ∈ digestedBytes numberText self.previousDigest log, sha256 x = sha256 y → x = y) →
      (∀ event ∈ stored ++ log, digestOf event ≠ self.previousDigest) →
      verifyChain numberText sha256 self.previousDigest log = .valid →
      lastDigest self.previousDigest stored = lastDigest self.previousDigest log →
        List.Forall₂ SameEvent stored log := by
  constructor
  · intro first rest
    rw [← store_append]
    exact verifyChain_store self _
  · intro events stored log hstart hstored hplain hfree hleaves hverify hlast
    have haccepted : verifyChain numberText sha256 self.previousDigest stored = .valid := by
      rw [← hstored]
      exact verifyChain_store self events
    exact sameEvents_of_lastDigest number hstart haccepted hverify hplain hfree hleaves hlast

end

/-- An event with a field that is an object and one that is `undefined`. -/
def loginEvent : AuditEvent where
  fields := [(js "id", some (.str (js "a"))), (js "action", some (.str (js "login"))),
    (js "client", none),
    (js "decision", some (.obj [(js "grantId", .null), (js "effect", .str (js "allow"))]))]
  distinct := by decide

/-- The bytes digested for `loginEvent` at the start of a chain. -/
def loginBytes : List (Fin 256) :=
  textEncode (CHAIN_SEED_DIGEST ++ js ("\x7b\"action\":\"login\",\"decision\":" ++
    "\x7b\"effect\":\"allow\",\"grantId\":null\x7d,\"id\":\"a\"\x7d"))

/-- SHA-256, as far as `loginBytes`. -/
def loginSha256 (bytes : List (Fin 256)) : List (Fin 256) :=
  if bytes = loginBytes then
    [133, 95, 224, 191, 180, 147, 173, 245, 18, 249, 62, 16, 254, 49, 72, 104, 217, 107,
     152, 120, 204, 33, 94, 10, 197, 234, 87, 157, 44, 105, 231, 77]
  else []

/-- `loginEvent` as it may be stored: its keys in another order, its number
another, and a number too large to be finite where it holds `null`. -/
def renumberedLogin : Fields :=
  [(js "sequence", .num 7), (js "action", .str (js "login")), (js "version", .num 1),
   (js "decision", .obj [(js "effect", .str (js "allow")),
     (js "grantId", .nonFinite (.infinity false))]),
   (js "digest", .str (bytesHex (loginSha256 loginBytes))), (js "id", .str (js "a"))]

/-- A log whose event is renumbered. -/
theorem audit_chain_shows_tampering_login :
    List.Forall₂ SameEvent
      (AuditChainState.initial.store ratioText loginSha256 [loginEvent]).2 [renumberedLogin] :=
  (audit_chain_shows_tampering ratioText_numberText AuditChainState.initial).2 [loginEvent] _
    [renumberedLogin] chainSeed_isDigest rfl (by decide +kernel) (by decide +kernel)
    (by decide +kernel) (by decide +kernel) (by decide +kernel)

/-- **A renumbered event is not reported.** -/
theorem renumbering_not_reported :
    ¬ ∀ (numberText : ℚ → JsString) (sha256 : List (Fin 256) → List (Fin 256)),
      NumberText numberText → Function.Injective sha256 →
        ∀ (self : AuditChainState) (events : List AuditEvent) (log : List Fields),
          verifyChain numberText sha256 self.previousDigest log = .valid →
          lastDigest self.previousDigest (self.store numberText sha256 events).2 =
            lastDigest self.previousDigest log →
          List.Forall₂ (fun a b => ∀ name, (a.lookup name).map sortKeys =
            (b.lookup name).map sortKeys) (self.store numberText sha256 events).2 log := by
  intro hclaim
  have hsame := hclaim ratioText id ratioText_numberText Function.injective_id
    AuditChainState.initial [⟨[(js "id", some (.str (js "a")))], by decide⟩]
    [[(js "id", .str (js "a")), (js "version", .num 1), (js "sequence", .num 7),
      (js "digest", .str (bytesHex
        (textEncode (CHAIN_SEED_DIGEST ++ js "\x7b\"id\":\"a\"\x7d"))))]]
    (by decide +kernel) (by decide +kernel)
  have hevent := (List.forall₂_cons.mp hsame).1 (js "sequence")
  exact absurd (JsonValue.num.inj (Option.some.inj hevent)) (by decide)

/-- **A number too large to be finite is not reported** where `null` stood. -/
theorem infinity_not_reported :
    ¬ ∀ (numberText : ℚ → JsString) (sha256 : List (Fin 256) → List (Fin 256)),
      NumberText numberText → Function.Injective sha256 →
        ∀ (self : AuditChainState) (events : List AuditEvent) (log : List Fields),
          verifyChain numberText sha256 self.previousDigest log = .valid →
          lastDigest self.previousDigest (self.store numberText sha256 events).2 =
            lastDigest self.previousDigest log →
          List.Forall₂ (fun a b => ∀ name, name ≠ js "version" → name ≠ js "sequence" →
            (a.lookup name).map sortKeys = (b.lookup name).map sortKeys)
            (self.store numberText sha256 events).2 log := by
  intro hclaim
  have hsame := hclaim ratioText id ratioText_numberText Function.injective_id
    AuditChainState.initial [⟨[(js "decision", some (.obj [(js "grantId", .null)]))], by decide⟩]
    [[(js "decision", .obj [(js "grantId", .nonFinite (.infinity false))]),
      (js "version", .num 1), (js "sequence", .num 1),
      (js "digest", .str (bytesHex (textEncode (CHAIN_SEED_DIGEST ++
        js ("\x7b\"decision\":" ++ "\x7b\"grantId\":null\x7d\x7d")))))]]
    (by decide +kernel) (by decide +kernel)
  have hevent := (List.forall₂_cons.mp hsame).1 (js "decision") (by decide) (by decide)
  cases Option.some.inj hevent

end Swamp
