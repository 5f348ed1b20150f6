import Swamp.JsText

/-!
# The text of a JSON value

`stringify` is `JSON.stringify` of a value: no blanks, fields in the order they
stand in, strings quoted with every unpaired surrogate escaped.  The text of a
number is `numberText` throughout, a parameter, of which `NumberText` is relied
on.
-/

namespace Js

/-- The first unit of a surrogate pair. -/
def isLeading (u : CodeUnit) : Bool := 0xD800 ≤ u.val && u.val ≤ 0xDBFF

/-- The second unit of a surrogate pair. -/
def isTrailing (u : CodeUnit) : Bool := 0xDC00 ≤ u.val && u.val ≤ 0xDFFF

/-- `s.isWellFormed()`. -/
def isWellFormed : JsString → Bool
  | [] => true
  | [u] => !isLeading u && !isTrailing u
  | u :: v :: rest =>
    if isLeading u && isTrailing v then isWellFormed rest
    else !isLeading u && !isTrailing u && isWellFormed (v :: rest)

variable {u : CodeUnit} {s : JsString}

theorem isWellFormed_cons (hu : (!isLeading u && !isTrailing u) = true) (hs : isWellFormed s = true)
    : isWellFormed (u :: s) = true := by
  cases s with
  | nil => exact hu
  | cons v rest =>
    have hlead : isLeading u = false := by simpa using (Bool.and_eq_true_iff.mp hu).1
    rw [isWellFormed, hlead, Bool.false_and, if_neg Bool.false_ne_true, hs, Bool.and_true]
    simpa [hlead] using hu

variable {t : JsString}

/-- Two well-formed texts make one. -/
theorem isWellFormed_append (hs : isWellFormed s = true) (ht : isWellFormed t = true) :
    isWellFormed (s ++ t) = true := by
  fun_induction isWellFormed s with
  | case1 => exact ht
  | case2 u => exact isWellFormed_cons hs ht
  | case3 u v rest hpair ih =>
    rw [List.cons_append, List.cons_append, isWellFormed, if_pos hpair]
    exact ih hs
  | case4 u v rest hpair ih =>
    obtain ⟨hu, hrest⟩ := Bool.and_eq_true_iff.mp hs
    exact isWellFormed_cons hu (ih hrest)

theorem isWellFormed_of_units (h : ∀ u ∈ s, (!isLeading u && !isTrailing u) = true) :
    isWellFormed s = true := by
  induction s with
  | nil => rfl
  | cons u s ih =>
    exact isWellFormed_cons (h u List.mem_cons_self)
      (ih (fun v hv => h v (List.mem_cons_of_mem _ hv)))

/-- A lowercase hex digit. -/
def lowerHex (d : ℕ) : CodeUnit := Fin.ofNat 65536 (if d < 10 then 48 + d else 87 + d)

/-- The letter a unit is escaped with, none for one that has no letter. -/
def escapeLetter (u : CodeUnit) : Option CodeUnit :=
  if u.val = 8 then some (unit 'b')
  else if u.val = 9 then some (unit 't')
  else if u.val = 10 then some (unit 'n')
  else if u.val = 12 then some (unit 'f')
  else if u.val = 13 then some (unit 'r')
  else if u = unit '"' ∨ u = unit '\\' then some u
  else none

/-- The four hex digits of a unit. -/
def hexDigits (u : CodeUnit) : JsString :=
  [lowerHex (u.val / 4096), lowerHex (u.val / 256 % 16), lowerHex (u.val / 16 % 16),
   lowerHex (u.val % 16)]

/-- One unit of a string in quotes, which pairs with none beside it. -/
def quoteUnit (u : CodeUnit) : JsString :=
  match escapeLetter u with
  | some letter => [unit '\\', letter]
  | none =>
    if u.val < 0x20 ∨ isLeading u = true ∨ isTrailing u = true then
      unit '\\' :: unit 'u' :: hexDigits u
    else [u]

/-- The units of a string in quotes: a surrogate pair stands as it is. -/
def quoteUnits : JsString → JsString
  | [] => []
  | [u] => quoteUnit u
  | u :: v :: rest =>
    if isLeading u && isTrailing v then u :: v :: quoteUnits rest
    else quoteUnit u ++ quoteUnits (v :: rest)

/-- `JSON.stringify` of a string. -/
def quote (s : JsString) : JsString := unit '"' :: (quoteUnits s ++ [unit '"'])

/-- The unit an escape letter stands for. -/
def letterUnit (letter : CodeUnit) : Option CodeUnit :=
  if letter = unit 'b' then some 8
  else if letter = unit 't' then some 9
  else if letter = unit 'n' then some 10
  else if letter = unit 'f' then some 12
  else if letter = unit 'r' then some 13
  else if letter = unit '"' ∨ letter = unit '\\' ∨ letter = unit '/' then some letter
  else none

/-- The unit four hex digits write. -/
def hexValue (a b c d : CodeUnit) : Option CodeUnit := do
  let a ← digitOf 16 a
  let b ← digitOf 16 b
  let c ← digitOf 16 c
  let d ← digitOf 16 d
  return Fin.ofNat 65536 (a * 4096 + b * 256 + c * 16 + d)

/-- The string up to the closing quote, and what stands behind it. -/
def unquoteUnits : JsString → Option (JsString × JsString)
  | [] => none
  | [u] => if u = unit '"' then some ([], []) else none
  | u :: v :: rest =>
    if u = unit '"' then some ([], v :: rest)
    else if u = unit '\\' then
      if v = unit 'u' then
        match rest with
        | a :: b :: c :: d :: rest =>
          (hexValue a b c d).bind (fun value =>
            (unquoteUnits rest).map (fun p => (value :: p.1, p.2)))
        | _ => none
      else
        (letterUnit v).bind (fun value =>
          (unquoteUnits rest).map (fun p => (value :: p.1, p.2)))
    else (unquoteUnits (v :: rest)).map (fun p => (u :: p.1, p.2))

theorem digitOf_lowerHex {d : ℕ} (h : d < 16) : digitOf 16 (lowerHex d) = some d := by
  interval_cases d <;> decide

theorem hexValue_hexDigits (u : CodeUnit) :
    hexValue (lowerHex (u.val / 4096)) (lowerHex (u.val / 256 % 16)) (lowerHex (u.val / 16 % 16))
      (lowerHex (u.val % 16)) = some u := by
  have hlt := u.isLt
  have hsum : u.val / 4096 * 4096 + u.val / 256 % 16 * 256 + u.val / 16 % 16 * 16 + u.val % 16 =
      u.val := by omega
  unfold hexValue
  rw [digitOf_lowerHex (by omega), digitOf_lowerHex (by omega), digitOf_lowerHex (by omega),
    digitOf_lowerHex (by omega)]
  simp only [Option.bind_eq_bind, Option.bind_some, Option.pure_def, hsum, Fin.ofNat_val_eq_self]

/-- A letter reads back as the unit it escapes. -/
theorem letterUnit_escapeLetter {letter : CodeUnit} (h : escapeLetter u = some letter) :
    letterUnit letter = some u ∧ letter ≠ unit 'u' := by
  have hval : ∀ n : ℕ, (hn : n < 65536) → u.val = n → u = ⟨n, hn⟩ := fun n hn hu => Fin.ext hu
  unfold escapeLetter at h
  split at h
  · rename_i hu
    cases h
    rw [hval 8 (by decide) hu]
    decide
  · split at h
    · rename_i hu
      cases h
      rw [hval 9 (by decide) hu]
      decide
    · split at h
      · rename_i hu
        cases h
        rw [hval 10 (by decide) hu]
        decide
      · split at h
        · rename_i hu
          cases h
          rw [hval 12 (by decide) hu]
          decide
        · split at h
          · rename_i hu
            cases h
            rw [hval 13 (by decide) hu]
            decide
          · split at h
            · rename_i hu
              cases h
              rcases hu with rfl | rfl
              · decide
              · decide
            · cases h

/-- The closing quote. -/
theorem unquoteUnits_close (s : JsString) :
    unquoteUnits (unit '"' :: s) = some ([], s) := by
  cases s with
  | nil => rfl
  | cons v rest =>
    rw [unquoteUnits.eq_def]
    exact if_pos rfl

/-- A unit that stands for itself. -/
theorem unquoteUnits_unit (hquote : u ≠ unit '"') (hslash : u ≠ unit '\\') (s : JsString)
    (hs : s ≠ []) : unquoteUnits (u :: s) = (unquoteUnits s).map (fun p => (u :: p.1, p.2)) := by
  cases s with
  | nil => exact absurd rfl hs
  | cons v rest =>
    rw [unquoteUnits.eq_def]
    exact (if_neg hquote).trans (if_neg hslash)

theorem unquoteUnits_letter {letter value : CodeUnit} (hvalue : letterUnit letter = some value)
    (hletter : letter ≠ unit 'u') (s : JsString) :
    unquoteUnits (unit '\\' :: letter :: s) =
      (unquoteUnits s).map (fun p => (value :: p.1, p.2)) := by
  rw [unquoteUnits.eq_def]
  refine (if_neg (by decide)).trans ((if_pos rfl).trans ((if_neg hletter).trans ?_))
  rw [hvalue, Option.bind_some]

theorem unquoteUnits_hex (u : CodeUnit) (s : JsString) :
    unquoteUnits (unit '\\' :: unit 'u' :: (hexDigits u ++ s)) =
      (unquoteUnits s).map (fun p => (u :: p.1, p.2)) := by
  unfold hexDigits
  simp only [List.cons_append, List.nil_append]
  rw [unquoteUnits.eq_def]
  refine (if_neg (by decide)).trans ((if_pos rfl).trans ((if_pos rfl).trans ?_))
  simp only [hexValue_hexDigits, Option.bind_some]

/-- A quoted unit reads back. -/
theorem unquoteUnits_quoteUnit (u : CodeUnit) (hs : s ≠ []) :
    unquoteUnits (quoteUnit u ++ s) = (unquoteUnits s).map (fun p => (u :: p.1, p.2)) := by
  unfold quoteUnit
  split
  · rename_i letter hletter
    obtain ⟨hvalue, hne⟩ := letterUnit_escapeLetter hletter
    exact unquoteUnits_letter hvalue hne s
  · rename_i hnone
    split
    · exact unquoteUnits_hex u s
    · have hplain : ¬ (u = unit '"' ∨ u = unit '\\') := by
        intro h
        rcases h with rfl | rfl
        · exact absurd hnone (by decide)
        · exact absurd hnone (by decide)
      exact unquoteUnits_unit (fun h => hplain (.inl h)) (fun h => hplain (.inr h)) s hs

/-- **A quoted string reads back, whatever stands behind it.** -/
theorem unquoteUnits_quoteUnits (s rest : JsString) :
    unquoteUnits (quoteUnits s ++ unit '"' :: rest) = some (s, rest) := by
  fun_induction quoteUnits s with
  | case1 => exact unquoteUnits_close rest
  | case2 u =>
    rw [unquoteUnits_quoteUnit u (List.cons_ne_nil _ _), unquoteUnits_close]
    rfl
  | case3 u v s hpair ih =>
    obtain ⟨hu, hv⟩ := Bool.and_eq_true_iff.mp hpair
    have hplain : ∀ w : CodeUnit, isLeading w = true ∨ isTrailing w = true →
        w ≠ unit '"' ∧ w ≠ unit '\\' := by
      intro w hw
      constructor
      · intro h
        rw [h] at hw
        exact absurd hw (by decide)
      · intro h
        rw [h] at hw
        exact absurd hw (by decide)
    rw [List.cons_append, List.cons_append,
      unquoteUnits_unit (hplain u (.inl hu)).1 (hplain u (.inl hu)).2 _ (List.cons_ne_nil _ _),
      unquoteUnits_unit (hplain v (.inr hv)).1 (hplain v (.inr hv)).2 _ (by simp), ih]
    rfl
  | case4 u v s hpair ih =>
    rw [List.append_assoc, unquoteUnits_quoteUnit u (by simp), ih]
    rfl

theorem quote_append_inj {a b : JsString} (h : quote a ++ s = quote b ++ t) : a = b ∧ s = t := by
  unfold quote at h
  rw [List.cons_append, List.cons_append, List.append_assoc, List.append_assoc] at h
  have hread := congrArg unquoteUnits (List.cons.inj h).2
  rw [List.singleton_append, List.singleton_append, unquoteUnits_quoteUnits,
    unquoteUnits_quoteUnits] at hread
  exact Prod.mk.inj (Option.some.inj hread)

theorem quoteUnit_wellFormed : isWellFormed (quoteUnit u) = true := by
  have hhex : ∀ d : ℕ,
      (!isLeading (lowerHex (d % 16)) && !isTrailing (lowerHex (d % 16))) = true := by
    intro d
    have hd : d % 16 < 16 := Nat.mod_lt _ (by decide)
    generalize d % 16 = e at hd
    interval_cases e <;> decide
  unfold quoteUnit
  split
  · rename_i letter hletter
    have hascii : letter.val < 0xD800 := by
      unfold escapeLetter at hletter
      split_ifs at hletter with h1 h2 h3 h4 h5 h6
      · cases hletter
        decide
      · cases hletter
        decide
      · cases hletter
        decide
      · cases hletter
        decide
      · cases hletter
        decide
      · cases hletter
        rcases h6 with rfl | rfl
        · decide
        · decide
    apply isWellFormed_of_units
    intro v hv
    rcases List.mem_cons.mp hv with rfl | hv
    · decide
    · rw [List.mem_singleton.mp hv]
      simp only [isLeading, isTrailing, Bool.and_eq_true, Bool.not_eq_true', Bool.and_eq_false_iff,
        decide_eq_false_iff_not]
      omega
  · split
    · apply isWellFormed_of_units
      intro v hv
      unfold hexDigits at hv
      have hfirst : u.val / 4096 = u.val / 4096 % 16 := by
        have := u.isLt
        omega
      rw [hfirst] at hv
      simp only [List.mem_cons, List.not_mem_nil, or_false] at hv
      rcases hv with rfl | rfl | rfl | rfl | rfl | rfl
      · decide
      · decide
      · exact hhex _
      · exact hhex _
      · exact hhex _
      · exact hhex _
    · rename_i hplain
      simp only [not_or, Bool.not_eq_true] at hplain
      simp [isWellFormed, hplain.2.1, hplain.2.2]

/-- A quoted string has no unpaired surrogate. -/
theorem quote_wellFormed (s : JsString) : isWellFormed (quote s) = true := by
  have hunits : isWellFormed (quoteUnits s) = true := by
    fun_induction quoteUnits s with
    | case1 => rfl
    | case2 u => exact quoteUnit_wellFormed
    | case3 u v s hpair ih =>
      rw [isWellFormed, if_pos hpair]
      exact ih
    | case4 u v s hpair ih => exact isWellFormed_append quoteUnit_wellFormed ih
  exact isWellFormed_cons (by decide) (isWellFormed_append hunits (by decide))

/-- A unit of the text of a number. -/
def isNumberUnit (u : CodeUnit) : Bool := isDigitUnit u || (js "+-.e").contains u

/-- What is relied on of the text of a number. -/
structure NumberText (numberText : ℚ → JsString) : Prop where
  injective : Function.Injective numberText
  units : ∀ n, ∀ u ∈ numberText n, isNumberUnit u = true
  nonempty : ∀ n, numberText n ≠ []

/-- The text of a number that is its decimal text for every integer, and a
quotient's two integers otherwise. -/
def ratioText (n : ℚ) : JsString :=
  (if n.num < 0 then [unit '-'] else []) ++
    (decimal n.num.natAbs ++ if n.den = 1 then [] else unit 'e' :: decimal n.den)

theorem not_mem_decimal (hu : isDigitUnit u = false) (n : ℕ) : u ∉ decimal n := by
  intro hmem
  have hdigit := digit_of_mem_decimal hmem
  simp [isDigitUnit, hdigit.1, hdigit.2] at hu

theorem decimal_ne_nil (n : ℕ) : decimal n ≠ [] := by
  rw [decimal_eq_map, decimalDigits]
  split
  · exact List.cons_ne_nil _ _
  · rename_i hn
    simp [Nat.digits_eq_nil_iff_eq_zero, hn]

/-- Two integers, the second left out when it is one, read back. -/
theorem decimal_quotient_inj {a b c d : ℕ}
    (h : (decimal a ++ if c = 1 then [] else unit 'e' :: decimal c) =
      decimal b ++ if d = 1 then [] else unit 'e' :: decimal d) : a = b ∧ c = d := by
  have hfree : ∀ n : ℕ, unit 'e' ∉ decimal n := not_mem_decimal (by decide)
  by_cases hc : c = 1
  · by_cases hd : d = 1
    · rw [if_pos hc, if_pos hd, List.append_nil, List.append_nil] at h
      exact ⟨decimal_injective h, hc.trans hd.symm⟩
    · rw [if_pos hc, if_neg hd, List.append_nil] at h
      exact absurd (h ▸ List.mem_append_right _ List.mem_cons_self) (hfree a)
  · by_cases hd : d = 1
    · rw [if_neg hc, if_pos hd, List.append_nil] at h
      exact absurd (h ▸ List.mem_append_right _ List.mem_cons_self) (hfree b)
    · rw [if_neg hc, if_neg hd] at h
      obtain ⟨hnum, hden⟩ := append_separator_inj (hfree a) (hfree b) h
      exact ⟨decimal_injective hnum, decimal_injective hden⟩

theorem ratioText_numberText : NumberText ratioText where
  injective := by
    have hhead : ∀ (n c : ℕ) (s : JsString),
        (decimal n ++ if c = 1 then [] else unit 'e' :: decimal c) ≠ unit '-' :: s := by
      intro n c s h
      cases hn : decimal n with
      | nil => exact absurd hn (decimal_ne_nil n)
      | cons u rest =>
        rw [hn] at h
        have hdash : unit '-' ∈ decimal n := by
          rw [hn, (List.cons.inj h).1]
          exact List.mem_cons_self
        exact not_mem_decimal (by decide) n hdash
    intro p q h
    unfold ratioText at h
    by_cases hp : p.num < 0
    · by_cases hq : q.num < 0
      · rw [if_pos hp, if_pos hq] at h
        obtain ⟨hnum, hden⟩ := decimal_quotient_inj (List.append_cancel_left h)
        exact Rat.ext (by omega) hden
      · rw [if_pos hp, if_neg hq] at h
        exact absurd h.symm (hhead _ _ _)
    · by_cases hq : q.num < 0
      · rw [if_neg hp, if_pos hq] at h
        exact absurd h (hhead _ _ _)
      · rw [if_neg hp, if_neg hq] at h
        obtain ⟨hnum, hden⟩ := decimal_quotient_inj (List.append_cancel_left h)
        exact Rat.ext (by omega) hden
  units := by
    have hdigit : ∀ (n : ℕ), ∀ u ∈ decimal n, isNumberUnit u = true := by
      intro n u hu
      have hrange := digit_of_mem_decimal hu
      simp [isNumberUnit, isDigitUnit, hrange.1, hrange.2]
    intro n u hu
    unfold ratioText at hu
    rcases List.mem_append.mp hu with hsign | hu
    · split at hsign
      · rw [List.mem_singleton.mp hsign]
        decide
      · cases hsign
    · rcases List.mem_append.mp hu with hnum | hu
      · exact hdigit _ u hnum
      · split at hu
        · cases hu
        · rcases List.mem_cons.mp hu with rfl | hden
          · decide
          · exact hdigit _ u hden
  nonempty := by
    intro n h
    unfold ratioText at h
    exact decimal_ne_nil _ (List.append_eq_nil_iff.mp (List.append_eq_nil_iff.mp h).2).1

section

variable (numberText : ℚ → JsString)

mutual

/-- `JSON.stringify`. -/
def stringify : Json → JsString
  | .null => js "null"
  | .bool true => js "true"
  | .bool false => js "false"
  | .num n => numberText n
  | .str s => quote s
  | .arr [] => js "[]"
  | .arr (item :: items) => unit '[' :: (stringify item ++ stringifyItems items)
  | .obj [] => js "{}"
  | .obj ((key, value) :: fields) =>
    unit '\x7b' :: (quote key ++ unit ':' :: (stringify value ++ stringifyFields fields))

/-- The items behind the first, and the closing bracket. -/
def stringifyItems : List Json → JsString
  | [] => js "]"
  | item :: items => unit ',' :: (stringify item ++ stringifyItems items)

/-- The fields behind the first, and the closing brace. -/
def stringifyFields : List (JsString × Json) → JsString
  | [] => [unit '\x7d']
  | (key, value) :: fields =>
    unit ',' :: (quote key ++ unit ':' :: (stringify value ++ stringifyFields fields))

end

end

/-- The kind of a value. -/
inductive Json.Kind where
  | null
  | bool
  | num
  | str
  | arr
  | obj
deriving DecidableEq

def Json.kind : Json → Json.Kind
  | .null => .null
  | .bool _ => .bool
  | .num _ => .num
  | .str _ => .str
  | .arr _ => .arr
  | .obj _ => .obj

/-- The kind of the value a text begins with. -/
def openingKind (u : CodeUnit) : Option Json.Kind :=
  if isNumberUnit u then some .num
  else if u = unit 'n' then some .null
  else if u = unit 't' ∨ u = unit 'f' then some .bool
  else if u = unit '"' then some .str
  else if u = unit '[' then some .arr
  else if u = unit '\x7b' then some .obj
  else none

/-- Whether a number may stand before a text: no unit of a number follows. -/
def NumberEnds (s : JsString) : Prop := ∀ u ∈ s.head?, isNumberUnit u = false

theorem ends_cons (h : isNumberUnit u = false) (s : JsString) : NumberEnds (u :: s) := by
  intro v hv
  cases hv
  exact h

theorem ends_nil : NumberEnds [] := nofun

section

variable {numberText : ℚ → JsString}

theorem stringifyItems_ends (items : List Json) (s : JsString) :
    NumberEnds (stringifyItems numberText items ++ s) := by
  cases items with
  | nil | cons item items => exact ends_cons (by decide) _

theorem stringifyFields_ends (fields : List (JsString × Json)) (s : JsString) :
    NumberEnds (stringifyFields numberText fields ++ s) := by
  match fields with
  | [] => exact ends_cons (by decide) _
  | (key, value) :: fields => exact ends_cons (by decide) _

variable (number : NumberText numberText)

include number

theorem stringify_opening (value : Json) :
    ∃ u rest, stringify numberText value = u :: rest ∧ openingKind u = some value.kind := by
  match value with
  | .null => exact ⟨_, _, rfl, by decide⟩
  | .bool true => exact ⟨_, _, rfl, by decide⟩
  | .bool false => exact ⟨_, _, rfl, by decide⟩
  | .num n =>
    cases htext : numberText n with
    | nil => exact absurd htext (number.nonempty n)
    | cons u rest =>
      refine ⟨u, rest, htext, ?_⟩
      have hu := number.units n u (htext ▸ List.mem_cons_self)
      exact if_pos hu
  | .str s => exact ⟨_, _, rfl, rfl⟩
  | .arr [] => exact ⟨_, _, rfl, rfl⟩
  | .arr (item :: items) => exact ⟨_, _, rfl, rfl⟩
  | .obj [] => exact ⟨_, _, rfl, rfl⟩
  | .obj ((key, value) :: fields) => exact ⟨_, _, rfl, rfl⟩

theorem kind_eq_of_append_eq {a b : Json}
    (h : stringify numberText a ++ s = stringify numberText b ++ t) : a.kind = b.kind := by
  obtain ⟨u, rest, hu, hkindA⟩ := stringify_opening number a
  obtain ⟨v, tail, hv, hkindB⟩ := stringify_opening number b
  rw [hu, hv] at h
  rw [(List.cons.inj h).1, hkindB] at hkindA
  exact (Option.some.inj hkindA).symm

/-- No value begins with a closing bracket or brace. -/
theorem ne_stringify_append (hu : openingKind u = none) (value : Json) (s t : JsString) :
    u :: s ≠ stringify numberText value ++ t := by
  obtain ⟨v, rest, hv, hkind⟩ := stringify_opening number value
  intro h
  rw [hv] at h
  rw [← (List.cons.inj h).1, hu] at hkind
  cases hkind

theorem numberText_append_inj {m n : ℚ} (hs : NumberEnds s) (ht : NumberEnds t)
    (h : numberText m ++ s = numberText n ++ t) : m = n ∧ s = t := by
  have htake : ∀ {q : ℚ} {r : JsString}, NumberEnds r →
      (numberText q ++ r).takeWhile isNumberUnit = numberText q := by
    intro q r hr
    rw [List.takeWhile_append_of_pos (number.units q)]
    cases r with
    | nil => simp
    | cons u r => simp [hr u rfl]
  have htext : numberText m = numberText n := by
    have htakes := congrArg (List.takeWhile isNumberUnit) h
    rwa [htake hs, htake ht] at htakes
  rw [htext] at h
  exact ⟨number.injective htext, List.append_cancel_left h⟩

end

section

variable {numberText : ℚ → JsString}

mutual

/-- **A text is of one value.**  Where it ends is decided by what it holds, a
number alone excepted. -/
theorem stringify_append_inj (number : NumberText numberText) :
    ∀ (a b : Json) (s t : JsString), NumberEnds s → NumberEnds t →
      stringify numberText a ++ s = stringify numberText b ++ t → a = b ∧ s = t
  | .null, b, s, t, hs, ht, h => by
      match b, kind_eq_of_append_eq number h with
      | .null, _ => exact ⟨rfl, List.append_cancel_left h⟩
  | .bool p, b, s, t, hs, ht, h => by
      match b, kind_eq_of_append_eq number h with
      | .bool q, _ =>
        cases p <;> cases q
        · exact ⟨rfl, List.append_cancel_left h⟩
        · exact absurd (List.cons.inj h).1 (by decide)
        · exact absurd (List.cons.inj h).1 (by decide)
        · exact ⟨rfl, List.append_cancel_left h⟩
  | .num m, b, s, t, hs, ht, h => by
      match b, kind_eq_of_append_eq number h with
      | .num n, _ =>
        obtain ⟨rfl, rfl⟩ := numberText_append_inj number hs ht h
        exact ⟨rfl, rfl⟩
  | .str p, b, s, t, hs, ht, h => by
      match b, kind_eq_of_append_eq number h with
      | .str q, _ =>
        obtain ⟨rfl, rfl⟩ := quote_append_inj h
        exact ⟨rfl, rfl⟩
  | .arr items, b, s, t, hs, ht, h => by
      match b, kind_eq_of_append_eq number h with
      | .arr others, _ =>
        match items, others with
        | [], [] => exact ⟨rfl, List.append_cancel_left h⟩
        | [], other :: others =>
          rw [stringify, stringify, List.cons_append, List.append_assoc] at h
          exact absurd (List.cons.inj h).2
            (ne_stringify_append number (by decide) other s _)
        | item :: items, [] =>
          rw [stringify, stringify, List.cons_append, List.append_assoc] at h
          exact absurd (List.cons.inj h).2.symm
            (ne_stringify_append number (by decide) item t _)
        | item :: items, other :: others =>
          rw [stringify, stringify, List.cons_append, List.cons_append, List.append_assoc,
            List.append_assoc] at h
          obtain ⟨hitem, htail⟩ := stringify_append_inj number item other _ _
            (stringifyItems_ends items s) (stringifyItems_ends others t) (List.cons.inj h).2
          obtain ⟨hitems, hrest⟩ := stringifyItems_append_inj number items others s t htail
          exact ⟨by rw [hitem, hitems], hrest⟩
  | .obj fields, b, s, t, hs, ht, h => by
      match b, kind_eq_of_append_eq number h with
      | .obj others, _ =>
        match fields, others with
        | [], [] => exact ⟨rfl, List.append_cancel_left h⟩
        | [], (key, value) :: others =>
          exact absurd (List.cons.inj (List.cons.inj h).2).1 (by decide)
        | (key, value) :: fields, [] =>
          exact absurd (List.cons.inj (List.cons.inj h).2).1 (by decide)
        | (key, value) :: fields, (key', value') :: others =>
          rw [stringify, stringify, List.cons_append, List.cons_append, List.append_assoc,
            List.append_assoc, List.cons_append, List.cons_append, List.append_assoc,
            List.append_assoc] at h
          obtain ⟨hkey, htail⟩ := quote_append_inj (List.cons.inj h).2
          obtain ⟨hvalue, htail⟩ := stringify_append_inj number value value' _ _
            (stringifyFields_ends fields s) (stringifyFields_ends others t)
            (List.cons.inj htail).2
          obtain ⟨hfields, hrest⟩ :=
            stringifyFields_append_inj number fields others s t htail
          exact ⟨by rw [hkey, hvalue, hfields], hrest⟩

theorem stringifyItems_append_inj (number : NumberText numberText) :
    ∀ (a b : List Json) (s t : JsString),
      stringifyItems numberText a ++ s = stringifyItems numberText b ++ t → a = b ∧ s = t
  | [], [], s, t, h => ⟨rfl, List.append_cancel_left h⟩
  | [], _ :: _, s, t, h => absurd (List.cons.inj h).1 (by decide)
  | _ :: _, [], s, t, h => absurd (List.cons.inj h).1 (by decide)
  | item :: items, other :: others, s, t, h => by
      rw [stringifyItems, stringifyItems, List.cons_append, List.cons_append, List.append_assoc,
        List.append_assoc] at h
      obtain ⟨hitem, htail⟩ := stringify_append_inj number item other _ _
        (stringifyItems_ends items s) (stringifyItems_ends others t) (List.cons.inj h).2
      obtain ⟨hitems, hrest⟩ := stringifyItems_append_inj number items others s t htail
      exact ⟨by rw [hitem, hitems], hrest⟩

theorem stringifyFields_append_inj (number : NumberText numberText) :
    ∀ (a b : List (JsString × Json)) (s t : JsString),
      stringifyFields numberText a ++ s = stringifyFields numberText b ++ t → a = b ∧ s = t
  | [], [], s, t, h => ⟨rfl, List.append_cancel_left h⟩
  | [], _ :: _, s, t, h => absurd (List.cons.inj h).1 (by decide)
  | _ :: _, [], s, t, h => absurd (List.cons.inj h).1 (by decide)
  | (key, value) :: fields, (key', value') :: others, s, t, h => by
      rw [stringifyFields, stringifyFields, List.cons_append, List.cons_append, List.append_assoc,
        List.append_assoc, List.cons_append, List.cons_append, List.append_assoc,
        List.append_assoc] at h
      obtain ⟨hkey, htail⟩ := quote_append_inj (List.cons.inj h).2
      obtain ⟨hvalue, htail⟩ := stringify_append_inj number value value' _ _
        (stringifyFields_ends fields s) (stringifyFields_ends others t) (List.cons.inj htail).2
      obtain ⟨hfields, hrest⟩ := stringifyFields_append_inj number fields others s t htail
      exact ⟨by rw [hkey, hvalue, hfields], hrest⟩

end

/-- **Two values with one text are one value.** -/
theorem stringify_injective (number : NumberText numberText) :
    Function.Injective (stringify numberText) := by
  intro a b h
  refine (stringify_append_inj number a b [] [] ends_nil ends_nil ?_).1
  rw [h]

theorem numberText_wellFormed (number : NumberText numberText) (n : ℚ) :
    isWellFormed (numberText n) = true := by
  apply isWellFormed_of_units
  intro u hu
  have hunit := number.units n u hu
  simp only [isNumberUnit, isDigitUnit, Bool.or_eq_true, Bool.and_eq_true, decide_eq_true_eq,
    List.contains_iff_mem] at hunit
  rcases hunit with hdigit | hother
  · simp only [isLeading, isTrailing, Bool.and_eq_true, Bool.not_eq_true', Bool.and_eq_false_iff,
      decide_eq_false_iff_not]
    omega
  · have hsigns : js "+-.e" = [unit '+', unit '-', unit '.', unit 'e'] := rfl
    rw [hsigns] at hother
    simp only [List.mem_cons, List.not_mem_nil, or_false] at hother
    rcases hother with rfl | rfl | rfl | rfl
    · rfl
    · rfl
    · rfl
    · rfl

mutual

/-- **The text of a value has no unpaired surrogate.** -/
theorem stringify_wellFormed (number : NumberText numberText) :
    ∀ value : Json, isWellFormed (stringify numberText value) = true
  | .null => rfl
  | .bool true => rfl
  | .bool false => rfl
  | .num n => numberText_wellFormed number n
  | .str s => quote_wellFormed s
  | .arr [] => rfl
  | .arr (item :: items) =>
    isWellFormed_cons (by decide)
      (isWellFormed_append (stringify_wellFormed number item)
        (stringifyItems_wellFormed number items))
  | .obj [] => rfl
  | .obj ((key, value) :: fields) =>
    isWellFormed_cons (by decide)
      (isWellFormed_append (quote_wellFormed key)
        (isWellFormed_cons (by decide)
          (isWellFormed_append (stringify_wellFormed number value)
            (stringifyFields_wellFormed number fields))))

theorem stringifyItems_wellFormed (number : NumberText numberText) :
    ∀ items : List Json, isWellFormed (stringifyItems numberText items) = true
  | [] => rfl
  | item :: items =>
    isWellFormed_cons (by decide)
      (isWellFormed_append (stringify_wellFormed number item)
        (stringifyItems_wellFormed number items))

theorem stringifyFields_wellFormed (number : NumberText numberText) :
    ∀ fields : List (JsString × Json), isWellFormed (stringifyFields numberText fields) = true
  | [] => rfl
  | (key, value) :: fields =>
    isWellFormed_cons (by decide)
      (isWellFormed_append (quote_wellFormed key)
        (isWellFormed_cons (by decide)
          (isWellFormed_append (stringify_wellFormed number value)
            (stringifyFields_wellFormed number fields))))

end

end

end Js
