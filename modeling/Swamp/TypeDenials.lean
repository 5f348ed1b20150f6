import Swamp.AccessDecisions
import Swamp.NormalizedTypes

/-!
# Denying a type in any spelling

A deny of models is read as a type path: its pattern and the model's type are both
brought to one spelling and compared without what stands before the name.  An allow is
compared as it is written.
-/

namespace Swamp

open Js

namespace Access

/-- A type's spelling without what stands before its name. -/
def bareName (normalized : JsString) : JsString := normalized.dropWhile isTypeLead

theorem bareName_slash (s : JsString) :
    bareName (s ++ js "/") = if bareName s = [] then [] else bareName s ++ js "/" := by
  have hslash : (js "/").dropWhile isTypeLead = [] := by decide
  rw [bareName, List.dropWhile_append, hslash, bareName]
  simp only [List.isEmpty_iff]

variable {s : JsString}

theorem endsWith_star_iff : endsWith s (js "*") = true ↔ ∃ front, s = front ++ js "*" := by
  rw [endsWith, List.isSuffixOf_iff_suffix]
  exact ⟨fun h => ⟨h.choose, h.choose_spec.symm⟩, fun h => ⟨h.choose, h.choose_spec.symm⟩⟩

theorem endsWith_star_of_not_mem (h : unit '*' ∉ s) : endsWith s (js "*") = false := by
  rw [← Bool.not_eq_true, endsWith_star_iff]
  intro hends
  obtain ⟨front, rfl⟩ := hends
  exact h (List.mem_append_right _ List.mem_cons_self)

theorem withoutStar_of_free (h : endsWith s (js "*") = false) : withoutStar s = s := by
  rw [withoutStar, h]
  rfl

theorem withoutStar_append (s : JsString) : withoutStar (s ++ js "*") = s := by
  rw [withoutStar, if_pos (endsWith_star_iff.mpr ⟨s, rfl⟩)]
  exact List.dropLast_concat

variable {u : CodeUnit}

theorem mem_replaceColons (h : u ∈ replaceColons s) : u = unit '/' ∨ u ∈ s := by
  induction s using replaceColons.induct with
  | case1 a b rest hpair ih =>
    rw [replaceColons, if_pos hpair] at h
    rcases List.mem_cons.mp h with rfl | h
    · exact Or.inl rfl
    · exact (ih h).imp_right (fun hmem => List.mem_cons_of_mem _ (List.mem_cons_of_mem _ hmem))
  | case2 a b rest hpair ih =>
    rw [replaceColons, if_neg hpair] at h
    rcases List.mem_cons.mp h with rfl | h
    · exact Or.inr List.mem_cons_self
    · exact (ih h).imp_right (List.mem_cons_of_mem _)
  | case3 s hshort =>
    rw [replaceColons] at h
    · exact Or.inr h
    · exact hshort

section

variable {toLowerCase : JsString → JsString}

theorem mem_normalize (h : u ∈ ModelType.normalize toLowerCase s) :
    u = unit '/' ∨ u ∈ toLowerCase s := by
  have hruns := (isInfix_stripSlashes _).subset h
  rcases mem_replaceRuns hruns with rfl | ⟨hmap, _⟩
  · exact Or.inl rfl
  obtain ⟨v, hv, rfl⟩ := List.mem_map.mp hmap
  split
  · exact Or.inl rfl
  · rcases mem_replaceRuns hv with rfl | ⟨hcolons, _⟩
    · exact Or.inl rfl
    · exact mem_replaceColons hcolons

theorem mem_trim (h : u ∈ trim s) : u ∈ s := by
  unfold trim at h
  rw [List.mem_reverse] at h
  have hfront := (List.dropWhile_suffix isBlank).subset h
  rw [List.mem_reverse] at hfront
  exact (List.dropWhile_suffix isBlank).subset hfront

/-- What is relied on of lowercasing besides: no text gains a `*`. -/
def KeepsStars (toLowerCase : JsString → JsString) : Prop :=
  ∀ s, unit '*' ∈ toLowerCase s → unit '*' ∈ s

theorem star_of_created (hstars : KeepsStars toLowerCase) {created : ModelType}
    (h : ModelType.create toLowerCase s = .ok created) (hfree : unit '*' ∉ s) :
    unit '*' ∉ created.normalized ∧ created.normalized ≠ [] := by
  unfold ModelType.create at h
  simp only at h
  split at h
  · cases h
  · split at h
    · cases h
    · rename_i hne
      cases h
      refine ⟨?_, hne⟩
      intro hstar
      rcases mem_normalize hstar with hslash | hlowered
      · exact absurd hslash (by decide)
      · exact hfree (mem_trim (hstars _ hlowered))

theorem normalizeModelTypeName_eq {created : ModelType}
    (h : ModelType.create toLowerCase s = .ok created) :
    normalizeModelTypeName toLowerCase s =
      if bareName created.normalized = [] then none else some (bareName created.normalized) := by
  rw [normalizeModelTypeName, h]
  rfl

theorem typePatternMatches_eq (canonical type : JsString) :
    typePatternMatchesIgnoringAt toLowerCase canonical type =
      if canonical = js "*" then true
      else if (bareName (withoutStar canonical)).contains (unit '/') then
        match normalizeModelTypeName toLowerCase type with
        | none => false
        | some name =>
          if endsWith canonical (js "*") then
            startsWith name (bareName (withoutStar canonical))
          else name = bareName (withoutStar canonical)
      else resourceSelectorMatches canonical type := rfl

variable {pattern type : JsString}

theorem deny_free (hstars : KeepsStars toLowerCase) (hpath : namesTypePath pattern = true)
    (hfree : unit '*' ∉ pattern) :
    denyMatchesType toLowerCase pattern type = true ↔
      ∃ created, ModelType.create toLowerCase pattern = .ok created ∧
        if unit '/' ∈ bareName created.normalized then
          normalizeModelTypeName toLowerCase type = some (bareName created.normalized)
        else created.normalized = type := by
  have hends := endsWith_star_of_not_mem hfree
  have hne : pattern ≠ js "*" := fun heq => hfree (heq ▸ List.mem_cons_self)
  unfold denyMatchesType canonicalTypePattern
  rw [if_neg hne, withoutStar_of_free hends]
  cases hcreate : ModelType.create toLowerCase pattern with
  | error error => simp
  | ok created =>
    obtain ⟨hcanonical, _⟩ := star_of_created hstars hcreate hfree
    have hends' := endsWith_star_of_not_mem hcanonical
    have hne' : created.normalized ≠ js "*" :=
      fun heq => hcanonical (heq ▸ List.mem_cons_self)
    simp only [hends, hpath, Bool.false_eq_true, if_false, if_true, Except.ok.injEq,
      exists_eq_left']
    rw [typePatternMatches_eq, if_neg hne', withoutStar_of_free hends', hends']
    simp only [List.contains_iff_mem]
    split
    · cases normalizeModelTypeName toLowerCase type <;> simp
    · rw [resourceSelectorMatches, if_neg hne', hends']
      simp

theorem deny_wild {body : JsString} (hpath : namesTypePath (body ++ js "*") = true)
    (hsep : endsInSeparator body = true) :
    denyMatchesType toLowerCase (body ++ js "*") type = true ↔
      ∃ created, ModelType.create toLowerCase body = .ok created ∧
        if bareName created.normalized = [] then created.normalized ++ js "/" <+: type
        else ∃ name, normalizeModelTypeName toLowerCase type = some name ∧
          bareName created.normalized ++ js "/" <+: name := by
  have hends : endsWith (body ++ js "*") (js "*") = true := endsWith_star_iff.mpr ⟨body, rfl⟩
  have hbody : body ≠ [] := by
    intro heq
    rw [heq] at hsep
    exact absurd hsep (by decide)
  have hne : body ++ js "*" ≠ js "*" := fun heq => hbody (List.append_left_eq_self.mp heq)
  unfold denyMatchesType canonicalTypePattern
  rw [if_neg hne, withoutStar_append]
  cases hcreate : ModelType.create toLowerCase body with
  | error error => simp
  | ok created =>
    have hcanonical : created.normalized ++ js "/*" = created.normalized ++ js "/" ++ js "*" := by
      rw [List.append_assoc]
      rfl
    have hends' := endsWith_star_iff.mpr ⟨created.normalized ++ js "/", hcanonical⟩
    have hne' : created.normalized ++ js "/*" ≠ js "*" := by
      rw [hcanonical]
      intro heq
      exact absurd (List.append_left_eq_self.mp heq)
        (List.append_ne_nil_of_right_ne_nil _ (by decide))
    simp only [hends, hsep, hpath, if_true, Except.ok.injEq, exists_eq_left']
    rw [typePatternMatches_eq, if_neg hne', hends', hcanonical, withoutStar_append,
      bareName_slash]
    simp only [List.contains_iff_mem, if_true]
    by_cases hnone : bareName created.normalized = []
    · simp only [hnone, if_true, List.not_mem_nil, if_false]
      have hdrop : (created.normalized ++ js "/" ++ js "*").dropLast =
          created.normalized ++ js "/" := List.dropLast_concat
      rw [resourceSelectorMatches, ← hcanonical, if_neg hne', if_pos hends', hcanonical, hdrop]
      exact List.isPrefixOf_iff_prefix
    · have hslash : unit '/' ∈ bareName created.normalized ++ js "/" :=
        List.mem_append_right _ List.mem_cons_self
      simp only [if_neg hnone, if_pos hslash]
      cases normalizeModelTypeName toLowerCase type with
      | none => simp
      | some name => simp [startsWith]

section

variable (toLowerCase : JsString → JsString)

/-- A selector's pattern that names a type path: its `*` at most at the end, and there behind
a separator. -/
structure SelectsPath (pattern : JsString) : Prop where
  path : namesTypePath pattern = true
  star : unit '*' ∉ withoutStar pattern
  separator : endsWith pattern (js "*") = true → endsInSeparator (withoutStar pattern) = true

/-- Whether the pattern's body, in one spelling, is the type's name, or leads it by whole
segments where the pattern has a wildcard. -/
def TypeCovered (pattern type : JsString) : Prop :=
  ∃ body name, normalizeModelTypeName toLowerCase (withoutStar pattern) = some body ∧
    normalizeModelTypeName toLowerCase type = some name ∧
    if endsWith pattern (js "*") then body ++ js "/" <+: name else body = name

/-- Where a deny covers a type as its spellings say.  A pattern of one segment finds a type
only as it is written or in its canonical form; a wildcard finds as well what begins as it is
written. -/
def SpelledOut (pattern type : JsString) : Prop :=
  if endsWith pattern (js "*") then
    (withoutStar pattern <+: type ∨
      ∃ created, ModelType.create toLowerCase (withoutStar pattern) = .ok created ∧
        bareName created.normalized = [] ∧ created.normalized ++ js "/" <+: type) →
      TypeCovered toLowerCase pattern type
  else
    normalizeModelTypeName toLowerCase pattern = normalizeModelTypeName toLowerCase type →
      type = pattern ∨ ∃ created, ModelType.create toLowerCase pattern = .ok created ∧
        (unit '/' ∈ bareName created.normalized ∨ created.normalized = type)

/-- A deny of models, asked about a model of a type whose name it does not match. -/
structure DeniesType (grant : Grant) (resource : Resource) (type : JsString) : Prop where
  deny : grant.effect = .deny
  grantKind : grant.resource.kind = .model
  kind : resource.kind = .model
  type : resource.textField (js "modelType") = some type
  unnamed : resourceSelectorMatches grant.resource.pattern resource.name = false

end

variable {grant : Grant} {resource : Resource}

theorem DeniesType.matches (h : DeniesType grant resource type) :
    grantMatchesResource toLowerCase grant resource = true ↔
      resourceSelectorMatches grant.resource.pattern type = true ∨
        denyMatchesType toLowerCase grant.resource.pattern type = true := by
  unfold grantMatchesResource
  simp [h.deny, h.grantKind, h.kind, h.type, h.unnamed]

theorem matches_free {name : JsString} (hends : endsWith pattern (js "*") = false)
    (hne : pattern ≠ js "*") : resourceSelectorMatches pattern name = true ↔ pattern = name := by
  rw [resourceSelectorMatches, if_neg hne, hends]
  simp

theorem matches_wild {body name : JsString} (hbody : body ≠ []) :
    resourceSelectorMatches (body ++ js "*") name = true ↔ body <+: name := by
  have hne : body ++ js "*" ≠ js "*" := fun heq => hbody (List.append_left_eq_self.mp heq)
  have hdrop : (body ++ js "*").dropLast = body := List.dropLast_concat
  rw [resourceSelectorMatches, if_neg hne, if_pos (endsWith_star_iff.mpr ⟨body, rfl⟩), hdrop]
  exact List.isPrefixOf_iff_prefix

/-- **A pattern without a wildcard** covers the types of its name, where it has more than one
segment or the type is written as it is. -/
theorem byType_free_iff (hlower : LowerCasing toLowerCase) (hstars : KeepsStars toLowerCase)
    (hpath : SelectsPath pattern) (hends : endsWith pattern (js "*") = false)
    (htype : normalizeModelTypeName toLowerCase type ≠ none) :
    ((resourceSelectorMatches pattern type = true ∨
        denyMatchesType toLowerCase pattern type = true) ↔
        TypeCovered toLowerCase pattern type) ↔
      SpelledOut toLowerCase pattern type := by
  have hfree : unit '*' ∉ pattern := by
    have hstar := hpath.star
    rwa [withoutStar_of_free hends] at hstar
  have hne : pattern ≠ js "*" := fun heq => hfree (heq ▸ List.mem_cons_self)
  have hcovered : TypeCovered toLowerCase pattern type ↔
      normalizeModelTypeName toLowerCase pattern = normalizeModelTypeName toLowerCase type := by
    rw [TypeCovered, withoutStar_of_free hends, hends]
    obtain ⟨name, hname⟩ := Option.ne_none_iff_exists'.mp htype
    rw [hname]
    simp [eq_comm]
  have hsound : (∃ created, ModelType.create toLowerCase pattern = .ok created ∧
      if unit '/' ∈ bareName created.normalized then
        normalizeModelTypeName toLowerCase type = some (bareName created.normalized)
      else created.normalized = type) →
      normalizeModelTypeName toLowerCase pattern = normalizeModelTypeName toLowerCase type := by
    intro hdeny
    obtain ⟨created, hcreate, hsaid⟩ := hdeny
    rw [normalizeModelTypeName_eq hcreate]
    split at hsaid
    · rename_i hslash
      rw [if_neg (List.ne_nil_of_mem hslash), hsaid]
    · rw [← hsaid, normalizeModelTypeName_eq (ModelType.create_normalized hlower hcreate)]
  rw [matches_free hends hne, deny_free hstars hpath.path hfree, hcovered, SpelledOut, hends]
  simp only [Bool.false_eq_true, if_false]
  constructor
  · intro hiff hsame
    rcases hiff.mpr hsame with heq | ⟨created, hcreate, hsaid⟩
    · exact Or.inl heq.symm
    · refine Or.inr ⟨created, hcreate, ?_⟩
      split at hsaid
      · rename_i hslash
        exact Or.inl hslash
      · exact Or.inr hsaid
  · intro hspelled
    constructor
    · intro hmatch
      rcases hmatch with rfl | hdeny
      · rfl
      · exact hsound hdeny
    · intro hsame
      rcases hspelled hsame with heq | ⟨created, hcreate, hsaid⟩
      · exact Or.inl heq.symm
      · refine Or.inr ⟨created, hcreate, ?_⟩
        split
        · rename_i hslash
          rw [← hsame, normalizeModelTypeName_eq hcreate, if_neg (List.ne_nil_of_mem hslash)]
        · rename_i hslash
          exact hsaid.resolve_left hslash

/-- **A wildcard behind a separator** covers the types below its body, and no others where no
type begins as it is written. -/
theorem byType_wild_iff (hpath : SelectsPath pattern) (hends : endsWith pattern (js "*") = true) :
    ((resourceSelectorMatches pattern type = true ∨
        denyMatchesType toLowerCase pattern type = true) ↔
        TypeCovered toLowerCase pattern type) ↔
      SpelledOut toLowerCase pattern type := by
  obtain ⟨body, rfl⟩ := endsWith_star_iff.mp hends
  have hsep := hpath.separator hends
  rw [withoutStar_append] at hsep
  have hbody : body ≠ [] := by
    intro heq
    rw [heq] at hsep
    exact absurd hsep (by decide)
  rw [matches_wild hbody, deny_wild hpath.path hsep, SpelledOut, if_pos hends,
    withoutStar_append]
  have hdeny : (∃ created, ModelType.create toLowerCase body = .ok created ∧
      if bareName created.normalized = [] then created.normalized ++ js "/" <+: type
      else ∃ name, normalizeModelTypeName toLowerCase type = some name ∧
        bareName created.normalized ++ js "/" <+: name) ↔
      (∃ created, ModelType.create toLowerCase body = .ok created ∧
        bareName created.normalized = [] ∧ created.normalized ++ js "/" <+: type) ∨
      TypeCovered toLowerCase (body ++ js "*") type := by
    rw [TypeCovered, withoutStar_append, hends]
    cases hcreate : ModelType.create toLowerCase body with
    | error error =>
      have hnone : normalizeModelTypeName toLowerCase body = none := by
        rw [normalizeModelTypeName, hcreate]
      simp [hnone]
    | ok created =>
      rw [normalizeModelTypeName_eq hcreate]
      by_cases hnone : bareName created.normalized = []
      · simp [hnone]
      · simp [hnone]
  rw [hdeny]
  constructor
  · exact fun hiff hwritten => hiff.mp (hwritten.imp_right Or.inl)
  · intro hspelled
    constructor
    · intro hmatch
      rcases hmatch with hwritten | hnameless | hcovered
      · exact hspelled (Or.inl hwritten)
      · exact hspelled (Or.inr hnameless)
      · exact hcovered
    · exact fun hcovered => Or.inr (Or.inr hcovered)

theorem byType_iff (hlower : LowerCasing toLowerCase) (hstars : KeepsStars toLowerCase)
    (hpath : SelectsPath pattern) (htype : normalizeModelTypeName toLowerCase type ≠ none) :
    ((resourceSelectorMatches pattern type = true ∨
        denyMatchesType toLowerCase pattern type = true) ↔
        TypeCovered toLowerCase pattern type) ↔
      SpelledOut toLowerCase pattern type := by
  cases hends : endsWith pattern (js "*") with
  | true => exact byType_wild_iff hpath hends
  | false => exact byType_free_iff hlower hstars hpath hends htype

theorem typeCovered_congr {pattern' type' : JsString}
    (hshape : endsWith pattern (js "*") = endsWith pattern' (js "*"))
    (hbody : normalizeModelTypeName toLowerCase (withoutStar pattern) =
      normalizeModelTypeName toLowerCase (withoutStar pattern'))
    (htype : normalizeModelTypeName toLowerCase type = normalizeModelTypeName toLowerCase type') :
    TypeCovered toLowerCase pattern type ↔ TypeCovered toLowerCase pattern' type' := by
  rw [TypeCovered, TypeCovered, hshape, hbody, htype]

/-- An allow matches as it is written. -/
theorem allow_matches_iff (hallow : grant.effect = .allow) :
    grantMatchesResource toLowerCase grant resource = true ↔
      grant.resource.kind = resource.kind ∧
        (resourceSelectorMatches grant.resource.pattern resource.name = true ∨
          resource.kind = .model ∧ ∃ type, resource.textField (js "modelType") = some type ∧
            resourceSelectorMatches grant.resource.pattern type = true) := by
  unfold grantMatchesResource
  by_cases hkind : grant.resource.kind = resource.kind
  · by_cases hname : resourceSelectorMatches grant.resource.pattern resource.name = true
    · simp [hkind, hname]
    · cases resource.textField (js "modelType") with
      | none => simp [hkind, hname]
      | some type => simp [hkind, hname, hallow]
  · simp [hkind]

theorem deny_of_allow
    (h : grantMatchesResource toLowerCase { grant with effect := .allow } resource = true) :
    grantMatchesResource toLowerCase { grant with effect := .deny } resource = true := by
  obtain ⟨hkind, hmatch⟩ := (allow_matches_iff rfl).mp h
  simp only at hkind hmatch
  unfold grantMatchesResource
  simp only [hkind, ne_eq, not_true_eq_false, if_false]
  rcases hmatch with hname | ⟨hmodel, type, htype, hmatch⟩
  · rw [if_pos hname]
  · split
    · rfl
    · rw [htype]
      simp only
      rw [if_pos ⟨hmodel, hmatch⟩]

/-- **Where denies of one type read alike**, whichever of two spellings the pattern and the
type have: exactly where each pattern spells each type out.  A deny matches no less than the
allow of its selector, and an allow as it is written. -/
theorem deny_types_iff (hlower : LowerCasing toLowerCase) (hstars : KeepsStars toLowerCase)
    {grant grant' : Grant} {resource resource' : Resource} {type type' : JsString}
    (hpath : SelectsPath grant.resource.pattern) (hpath' : SelectsPath grant'.resource.pattern)
    (hshape : endsWith grant.resource.pattern (js "*") = endsWith grant'.resource.pattern (js "*"))
    (hbody : normalizeModelTypeName toLowerCase (withoutStar grant.resource.pattern) =
      normalizeModelTypeName toLowerCase (withoutStar grant'.resource.pattern))
    (htype : normalizeModelTypeName toLowerCase type = normalizeModelTypeName toLowerCase type')
    (hname : normalizeModelTypeName toLowerCase type ≠ none)
    (h : DeniesType grant resource type) (h' : DeniesType grant resource' type')
    (k : DeniesType grant' resource type) (k' : DeniesType grant' resource' type') :
    (((grantMatchesResource toLowerCase grant resource = true ↔
          TypeCovered toLowerCase grant.resource.pattern type) ∧
        (grantMatchesResource toLowerCase grant resource' = true ↔
          TypeCovered toLowerCase grant.resource.pattern type) ∧
        (grantMatchesResource toLowerCase grant' resource = true ↔
          TypeCovered toLowerCase grant.resource.pattern type) ∧
        (grantMatchesResource toLowerCase grant' resource' = true ↔
          TypeCovered toLowerCase grant.resource.pattern type)) ↔
      SpelledOut toLowerCase grant.resource.pattern type ∧
        SpelledOut toLowerCase grant.resource.pattern type' ∧
        SpelledOut toLowerCase grant'.resource.pattern type ∧
        SpelledOut toLowerCase grant'.resource.pattern type') ∧
    (∀ (any : Grant) (asked : Resource),
      grantMatchesResource toLowerCase { any with effect := .allow } asked = true →
        grantMatchesResource toLowerCase { any with effect := .deny } asked = true) ∧
    ∀ (any : Grant) (asked : Resource), any.effect = .allow →
      (grantMatchesResource toLowerCase any asked = true ↔
        any.resource.kind = asked.kind ∧
          (resourceSelectorMatches any.resource.pattern asked.name = true ∨
            asked.kind = .model ∧ ∃ type, asked.textField (js "modelType") = some type ∧
              resourceSelectorMatches any.resource.pattern type = true)) := by
  refine ⟨?_, fun _ _ => deny_of_allow, fun _ _ => allow_matches_iff⟩
  have hname' : normalizeModelTypeName toLowerCase type' ≠ none := htype ▸ hname
  rw [h.matches, h'.matches, k.matches, k'.matches, ← byType_iff hlower hstars hpath hname,
    ← byType_iff hlower hstars hpath hname', ← byType_iff hlower hstars hpath' hname,
    ← byType_iff hlower hstars hpath' hname', typeCovered_congr rfl rfl htype.symm,
    typeCovered_congr hshape.symm hbody.symm rfl,
    typeCovered_congr hshape.symm hbody.symm htype.symm]

end

theorem latinLower_keepsStars : KeepsStars latinLower := by
  intro s hmem
  obtain ⟨u, hu, heq⟩ := List.mem_map.mp hmem
  split at heq
  · rename_i hupper
    have hval := congrArg Fin.val heq
    simp only [Fin.ofNat] at hval
    have hstar : (unit '*').val = 42 := by decide
    omega
  · exact heq ▸ hu

/-- A deny of models by a pattern. -/
def denyOf (pattern : JsString) : Grant :=
  ⟨js "g", ⟨.user, js "u"⟩, .deny, [.read], ⟨.model, pattern⟩, none, none, .active⟩

/-- A model of a type. -/
def modelOf (type : JsString) : Resource :=
  ⟨.model, js "web", OrderedMap.ofList [(js "modelType", .str type)], false, false, none⟩

theorem deny_types_two_segments :
    grantMatchesResource latinLower (denyOf (js "AWS::EC2")) (modelOf (js "@aws.ec2")) = true ↔
      TypeCovered latinLower (js "aws/ec2") (js "aws/ec2") := by
  have hspelled : ∀ pattern type created, endsWith pattern (js "*") = false →
      ModelType.create latinLower pattern = .ok created →
      unit '/' ∈ bareName created.normalized → SpelledOut latinLower pattern type := by
    intro pattern type created hends hcreate hslash
    rw [SpelledOut, hends]
    exact fun _ => Or.inr ⟨created, hcreate, Or.inl hslash⟩
  have hall := @deny_types_iff latinLower latinLower_lowerCasing latinLower_keepsStars
    (denyOf (js "aws/ec2")) (denyOf (js "AWS::EC2")) (modelOf (js "aws/ec2"))
    (modelOf (js "@aws.ec2")) (js "aws/ec2") (js "@aws.ec2")
    ⟨by decide, by decide, by decide⟩ ⟨by decide, by decide, by decide⟩ (by decide) (by decide)
    (by decide) (by decide) ⟨rfl, rfl, rfl, by decide, by decide⟩
    ⟨rfl, rfl, rfl, by decide, by decide⟩ ⟨rfl, rfl, rfl, by decide, by decide⟩
    ⟨rfl, rfl, rfl, by decide, by decide⟩
  have hlower := hspelled (js "aws/ec2") (js "aws/ec2") ⟨js "aws/ec2", js "aws/ec2"⟩ (by decide)
    (by decide) (by decide)
  have hlower' := hspelled (js "aws/ec2") (js "@aws.ec2") ⟨js "aws/ec2", js "aws/ec2"⟩ (by decide)
    (by decide) (by decide)
  have hupper := hspelled (js "AWS::EC2") (js "aws/ec2") ⟨js "AWS::EC2", js "aws/ec2"⟩ (by decide)
    (by decide) (by decide)
  have hupper' := hspelled (js "AWS::EC2") (js "@aws.ec2") ⟨js "AWS::EC2", js "aws/ec2"⟩ (by decide)
    (by decide) (by decide)
  exact (hall.1.mpr ⟨hlower, hlower', hupper, hupper'⟩).2.2.2

/-- A deny of one segment, written as a type path, misses the type with an `@`. -/
theorem one_segment_missed :
    SelectsPath (js "aws::") ∧
      normalizeModelTypeName latinLower (withoutStar (js "aws::")) =
        normalizeModelTypeName latinLower (js "@aws") ∧
      DeniesType (denyOf (js "aws::")) (modelOf (js "@aws")) (js "@aws") ∧
      TypeCovered latinLower (js "aws::") (js "@aws") ∧
      grantMatchesResource latinLower (denyOf (js "aws::")) (modelOf (js "@aws")) = false := by
  refine ⟨⟨by decide, by decide, by decide⟩, by decide, ⟨rfl, rfl, rfl, by decide, by decide⟩, ?_,
    by decide⟩
  exact ⟨js "aws", js "aws", by decide, by decide, by decide⟩

end Access

end Swamp
