import Tariff.Json.Reader
import Tariff.Json.Writer
import Tariff.Proofs.NumberReading
import Tariff.Proofs.WrittenDoubles

/-!
# JSON texts

`Json.Spells` relates a tree to the texts that it may be written as, with any blanks between its parts.
Every such text is read as the tree (`Json.read?_of_spells`), and both writers write one if the numbers of
the tree have the form of JSON (`Json.read?_pretty_and_compact`).
-/

namespace Tariff.Json

section Strings

lemma hexUnit?_control : ∀ n < 0x20, hexUnit? '0' '0' (hexDigit (n / 16)) (hexDigit (n % 16)) = some n := by
  decide

/-- A control character that is written by its number is no part of a surrogate pair. -/
lemma charactersOf_escaped {unit : ℕ} (h : unit < 0x20) (units : List StringUnit) :
    charactersOf (.escaped unit :: units) = (charactersOf units).map (Char.ofNat unit :: ·) := by
  have hhigh : isHighSurrogate unit = false := by
    simp only [isHighSurrogate, Bool.and_eq_false_iff, decide_eq_false_iff_not]
    omega
  have hlow : isLowSurrogate unit = false := by
    simp only [isLowSurrogate, Bool.and_eq_false_iff, decide_eq_false_iff_not]
    omega
  rcases units with _ | ⟨_ | low, units⟩ <;> simp [charactersOf, hhigh, hlow]

lemma readUnits?_shortEscape {letter c : Char} (hletter : letter ≠ 'u') (h : shortEscape? letter = some c)
    (s : List Char) : readUnits? ('\\' :: letter :: s) =
      (readUnits? s).map fun (units, rest) => (.char c :: units, rest) := by
  rw [readUnits?, h]
  · rcases readUnits? s with _ | _ <;> rfl
  · rintro _ _ _ _ _ rfl
    exact (hletter rfl).elim

lemma readUnits?_control {n : ℕ} (h : n < 0x20) (s : List Char) :
    readUnits? ('\\' :: 'u' :: '0' :: '0' :: hexDigit (n / 16) :: hexDigit (n % 16) :: s) =
      (readUnits? s).map fun (units, rest) => (.escaped n :: units, rest) := by
  rw [readUnits?, hexUnit?_control n h]
  rcases readUnits? s with _ | _ <;> rfl

lemma readUnits?_char {c : Char} (hquote : c ≠ '"') (hbackslash : c ≠ '\\') (h : ¬c.toNat < 0x20)
    (s : List Char) : readUnits? (c :: s) =
      (readUnits? s).map fun (units, rest) => (.char c :: units, rest) := by
  rw [readUnits?]
  · rw [if_neg (by simp [h, hbackslash])]
    rcases readUnits? s with _ | _ <;> rfl
  · exact hquote
  · exact fun _ _ _ _ _ heq => (hbackslash heq).elim
  · exact fun _ _ heq => (hbackslash heq).elim

/-- A written character is read as one unit, which stands for the character. -/
lemma exists_readUnits?_escape (c : Char) (s : List Char) : ∃ unit : StringUnit,
    (∀ units, charactersOf (unit :: units) = (charactersOf units).map (c :: ·)) ∧
    readUnits? (escape c ++ s) = (readUnits? s).map fun (units, rest) => (unit :: units, rest) := by
  have hshort {letter : Char} (hletter : letter ≠ 'u') (h : shortEscape? letter = some c) :
      ∃ unit : StringUnit,
        (∀ units, charactersOf (unit :: units) = (charactersOf units).map (c :: ·)) ∧
        readUnits? (['\\', letter] ++ s) =
          (readUnits? s).map fun (units, rest) => (unit :: units, rest) :=
    ⟨.char c, fun _ => rfl, readUnits?_shortEscape hletter h s⟩
  unfold escape
  split
  iterate 7 exact hshort (by decide) rfl
  next hquote hbackslash _ _ _ _ _ =>
  split_ifs with hcontrol
  · refine ⟨.escaped c.toNat, fun units => ?_, readUnits?_control hcontrol s⟩
    rw [charactersOf_escaped hcontrol, Char.ofNat_toNat]
  · exact ⟨.char c, fun _ => rfl, readUnits?_char hquote hbackslash hcontrol s⟩

lemma exists_readUnits?_flatMap_escape (s rest : List Char) : ∃ units : List StringUnit,
    charactersOf units = some s ∧ readUnits? (s.flatMap escape ++ '"' :: rest) = some (units, rest) := by
  induction s with
  | nil => exact ⟨[], rfl, rfl⟩
  | cons c s ih =>
    obtain ⟨units, hcharacters, hread⟩ := ih
    obtain ⟨unit, hunit, hescape⟩ := exists_readUnits?_escape c (s.flatMap escape ++ '"' :: rest)
    refine ⟨unit :: units, ?_, ?_⟩
    · rw [hunit, hcharacters, Option.map_some]
    · rw [List.flatMap_cons, List.append_assoc, hescape, hread, Option.map_some]

/-- A string in quotes is read as the string, and a surrogate that stands alone as no text. -/
theorem exists_readString?_quoted (s : Option String) (rest : List Char) : ∃ text : List Char,
    (quoted s).toList ++ rest = '"' :: text ∧ readString? text = some (s, rest) := by
  cases s with
  | none => exact ⟨"\\ud800\"".toList ++ rest, by simp [quoted], rfl⟩
  | some s =>
    obtain ⟨units, hcharacters, hread⟩ := exists_readUnits?_flatMap_escape s.toList rest
    refine ⟨s.toList.flatMap escape ++ '"' :: rest, by simp [quoted], ?_⟩
    rw [readString?, hread, Option.map_some]
    dsimp only
    rw [hcharacters, Option.map_some, String.ofList_toList]

end Strings

section Numbers

variable {n : Numeral} {s rest digits : List Char}

/-- The form of numbers in JSON: no plus in front, and no zero in front of other digits. -/
structure IsNumber (n : Numeral) : Prop extends n.OfDigits where
  sign : n.sign ≠ some .plus
  leading : n.whole.head? = some '0' → n.whole = ['0']

/-- What follows a number does not go on with it. -/
def EndsNumber (rest : List Char) : Prop :=
  ∀ c ∈ rest.head?, c.isDigit = false ∧ c ≠ '.' ∧ c ≠ 'e' ∧ c ≠ 'E'

lemma readDigits?_append (hne : digits ≠ []) (hdigits : ∀ c ∈ digits, c.isDigit = true)
    (hrest : ∀ c ∈ rest.head?, c.isDigit = false) : readDigits? (digits ++ rest) = some (digits, rest) := by
  have htake : rest.takeWhile Char.isDigit = [] := by
    cases rest with
    | nil => rfl
    | cons c rest => exact List.takeWhile_cons_of_neg (by simp [hrest c rfl])
  have hdrop : rest.dropWhile Char.isDigit = rest := by
    cases rest with
    | nil => rfl
    | cons c rest => exact List.dropWhile_cons_of_neg (by simp [hrest c rfl])
  rw [readDigits?, List.takeWhile_append_of_pos hdigits, List.dropWhile_append_of_pos hdigits, htake, hdrop,
    List.append_nil]
  cases digits with
  | nil => exact (hne rfl).elim
  | cons c digits => rfl

lemma readWhole?_append (h : IsNumber n) (hrest : ∀ c ∈ rest.head?, c.isDigit = false) :
    readWhole? (n.whole ++ rest) = some (n.whole, rest) := by
  have hleading : ¬(n.whole.head? = some '0' && n.whole ≠ ['0']) = true := by
    simpa using h.leading
  rw [readWhole?, readDigits?_append h.whole_ne_nil h.whole hrest]
  exact if_neg hleading

lemma readFraction?_append (hdigits : ∀ c ∈ digits, c.isDigit = true)
    (hrest : ∀ c ∈ rest.head?, c.isDigit = false ∧ c ≠ '.') :
    readFraction? ((if digits = [] then [] else '.' :: digits) ++ rest) = some (digits, rest) := by
  split_ifs with hnil
  · rw [hnil, List.nil_append]
    unfold readFraction?
    split
    · next s => exact ((hrest '.' rfl).2 rfl).elim
    · rfl
  · exact readDigits?_append hnil hdigits fun c hc => (hrest c hc).1

lemma read_sign_append {sign : Option Sign} (hne : digits ≠ []) (hdigits : ∀ c ∈ digits, c.isDigit = true)
    (rest : List Char) :
    Sign.read (((sign.map Sign.text).getD "").toList ++ (digits ++ rest)) = (sign, digits ++ rest) := by
  obtain ⟨c, tail, rfl⟩ := List.exists_cons_of_ne_nil hne
  have hcode := toNat_of_isDigit (hdigits c List.mem_cons_self)
  rcases sign with _ | _ | _
  · exact Sign.read_of_toNat (by omega) _
  · rfl
  · rfl

lemma readExponent?_append {exponent : Option Exponent}
    (hdigits : ∀ e ∈ exponent, e.digits ≠ [] ∧ ∀ c ∈ e.digits, c.isDigit = true) (hrest : EndsNumber rest) :
    readExponent? (((exponent.map Exponent.text).getD "").toList ++ rest) = some (exponent, rest) := by
  cases exponent with
  | none =>
    change readExponent? rest = _
    cases rest with
    | nil => rfl
    | cons c rest =>
      obtain ⟨-, -, he, hE⟩ := hrest c rfl
      exact if_neg (by simp [he, hE])
  | some e =>
    obtain ⟨hne, hdigits⟩ := hdigits e rfl
    have htext : ((some e).map Exponent.text |>.getD "").toList ++ rest =
        'e' :: (((e.sign.map Sign.text).getD "").toList ++ (e.digits ++ rest)) := by
      simp [Exponent.text]
    rw [htext, readExponent?, if_pos (by decide), read_sign_append hne hdigits]
    dsimp only
    rw [readDigits?_append hne hdigits fun c hc => (hrest c hc).1]
    rfl

lemma readUnsigned?_append (h : IsNumber n) (hrest : EndsNumber rest) (sign : Option Sign) :
    readUnsigned? sign (n.whole ++ ((if n.fraction = [] then [] else '.' :: n.fraction) ++
      (((n.exponent.map Exponent.text).getD "").toList ++ rest))) = some ({ n with sign }, rest) := by
  have hexponent : ∀ c ∈ (((n.exponent.map Exponent.text).getD "").toList ++ rest).head?,
      c.isDigit = false ∧ c ≠ '.' := by
    rcases n.exponent with _ | e
    · exact fun c hc => ⟨(hrest c hc).1, (hrest c hc).2.1⟩
    · simp [Exponent.text]
  have hfraction : ∀ c ∈ ((if n.fraction = [] then [] else '.' :: n.fraction) ++
      (((n.exponent.map Exponent.text).getD "").toList ++ rest)).head?, c.isDigit = false := by
    split_ifs
    · exact fun c hc => (hexponent c hc).1
    · simp
  rw [readUnsigned?, readWhole?_append h hfraction]
  change (readFraction? _ >>= fun p => _) = _
  rw [readFraction?_append h.fraction hexponent]
  change (readExponent? _ >>= fun p => _) = _
  rw [readExponent?_append h.exponent hrest]
  rfl

/-- A written number is read as it is. -/
theorem readNumeral?_append (h : IsNumber n) (hrest : EndsNumber rest) :
    readNumeral? (n.text.toList ++ rest) = some (n, rest) := by
  have htext : n.text.toList ++ rest = ((n.sign.map Sign.text).getD "").toList ++
      (n.whole ++ ((if n.fraction = [] then [] else '.' :: n.fraction) ++
        (((n.exponent.map Exponent.text).getD "").toList ++ rest))) := by
    unfold Numeral.text
    split_ifs <;> simp
  have hread := readUnsigned?_append h hrest n.sign
  have hplain : ∀ t, readNumeral? (n.whole ++ t) = readUnsigned? none (n.whole ++ t) := by
    obtain ⟨c, tail, hwhole⟩ := List.exists_cons_of_ne_nil h.whole_ne_nil
    have hminus : c ≠ '-' := by
      rintro rfl
      exact absurd (h.whole '-' (hwhole ▸ List.mem_cons_self)) (by decide)
    intro t
    rw [hwhole, List.cons_append]
    unfold readNumeral?
    split
    · next heq => exact (hminus (List.cons.inj heq).1).elim
    · rfl
  rw [htext, ← hread]
  rcases hsign : n.sign with _ | _ | _
  · exact hplain _
  · exact (h.sign hsign).elim
  · rfl

end Numbers

/-! ### Trees -/

def Blank (s : List Char) : Prop :=
  ∀ c ∈ s, isJsonBlank c = true

mutual

/-- The texts of a tree, with any blanks between its parts. -/
inductive Spells : Json → List Char → Prop
  | null : Spells .null "null".toList
  | boolean (b : Bool) : Spells (.boolean b) (if b then "true" else "false").toList
  | number {n : Numeral} (h : IsNumber n) : Spells (.number n) n.text.toList
  | string (s : Option String) : Spells (.string s) (quoted s).toList
  | emptyArray {gap : List Char} (hgap : Blank gap) : Spells (.array []) ('[' :: (gap ++ [']']))
  | array {items : List Json} {text : List Char} (h : SpellsItems items text) :
      Spells (.array items) ('[' :: text)
  | emptyObject {gap : List Char} (hgap : Blank gap) : Spells (.object []) ('\x7b' :: (gap ++ ['\x7d']))
  | object {members : List (Option String × Json)} {text : List Char} (h : SpellsMembers members text) :
      Spells (.object members) ('\x7b' :: text)

/-- The texts of items up to the bracket that closes them. -/
inductive SpellsItems : List Json → List Char → Prop
  | last {item : Json} {before text after : List Char} (hbefore : Blank before) (h : Spells item text)
      (hafter : Blank after) : SpellsItems [item] (before ++ (text ++ (after ++ [']'])))
  | more {item : Json} {items : List Json} {before text after rest : List Char} (hbefore : Blank before)
      (h : Spells item text) (hafter : Blank after) (hrest : SpellsItems items rest) :
      SpellsItems (item :: items) (before ++ (text ++ (after ++ ',' :: rest)))

/-- The texts of members up to the bracket that closes them. -/
inductive SpellsMembers : List (Option String × Json) → List Char → Prop
  | last {name : Option String} {value : Json} {before middle text after : List Char}
      (hbefore : Blank before) (hmiddle : Blank middle) (h : Spells value text) (hafter : Blank after) :
      SpellsMembers [(name, value)]
        (before ++ ((quoted name).toList ++ ':' :: (middle ++ (text ++ (after ++ ['\x7d'])))))
  | more {name : Option String} {value : Json} {members : List (Option String × Json)}
      {before middle text after rest : List Char} (hbefore : Blank before) (hmiddle : Blank middle)
      (h : Spells value text) (hafter : Blank after) (hrest : SpellsMembers members rest) :
      SpellsMembers ((name, value) :: members)
        (before ++ ((quoted name).toList ++ ':' :: (middle ++ (text ++ (after ++ ',' :: rest)))))

end

section Trees

variable {s t rest : List Char} {c : Char}

lemma skipBlanks_append (h : Blank s) (t : List Char) : skipBlanks (s ++ t) = skipBlanks t :=
  List.dropWhile_append_of_pos h

lemma skipBlanks_cons (h : isJsonBlank c = false) (s : List Char) : skipBlanks (c :: s) = c :: s :=
  List.dropWhile_cons_of_neg (by simp [h])

lemma readWord?_append (word rest : List Char) : readWord? word (word ++ rest) = some rest := by
  induction word with
  | nil => rfl
  | cons c word ih => rw [List.cons_append, readWord?, if_pos rfl, ih]

/-- What the readers do with a text, given fuel for all of it. -/
structure ReadsWith (fuel : ℕ) : Prop where
  value : ∀ {j s before} (rest), Spells j s → Blank before → EndsNumber rest →
    (before ++ s).length < fuel → readValue? fuel (before ++ (s ++ rest)) = some (j, rest)
  items : ∀ {items s} (rest), SpellsItems items s → s.length < fuel →
    readItems? fuel (s ++ rest) = some (items, rest)
  members : ∀ {members s} (rest), SpellsMembers members s → s.length < fuel →
    readMembers? fuel (s ++ rest) = some (members, rest)

variable {fuel : ℕ} {before : List Char}

lemma exists_text_cons {n : Numeral} (h : IsNumber n) (rest : List Char) :
    ∃ c s, n.text.toList ++ rest = c :: s ∧ 45 ≤ c.toNat ∧ c.toNat ≤ 57 := by
  obtain ⟨c, tail, hwhole⟩ := List.exists_cons_of_ne_nil h.whole_ne_nil
  have hcode := toNat_of_isDigit (h.whole c (hwhole ▸ List.mem_cons_self))
  have htext : n.text.toList = ((n.sign.map Sign.text).getD "").toList ++ (c :: tail ++
      ((if n.fraction = [] then "" else "." ++ String.ofList n.fraction) ++
        (n.exponent.map Exponent.text).getD "").toList) := by
    simp [Numeral.text, hwhole]
  rw [htext]
  rcases hsign : n.sign with _ | _ | _
  · exact ⟨c, _, rfl, by omega, hcode.2⟩
  · exact (h.sign hsign).elim
  · exact ⟨'-', _, rfl, by decide, by decide⟩

lemma isJsonBlank_of_toNat (h : 45 ≤ c.toNat) : isJsonBlank c = false := by
  simp only [isJsonBlank, Bool.or_eq_false_iff, decide_eq_false_iff_not]
  refine ⟨⟨⟨?_, ?_⟩, ?_⟩, ?_⟩ <;> rintro rfl <;> exact absurd h (by decide)

lemma readValue?_number {n : Numeral} (h : IsNumber n) (hbefore : Blank before) (hrest : EndsNumber rest) :
    readValue? (fuel + 1) (before ++ (n.text.toList ++ rest)) = some (.number n, rest) := by
  have hread := readNumeral?_append h hrest
  obtain ⟨c, s, htext, hlow, hhigh⟩ := exists_text_cons h rest
  rw [htext] at hread ⊢
  unfold readValue?
  rw [skipBlanks_append hbefore, skipBlanks_cons (isJsonBlank_of_toNat hlow)]
  dsimp only
  split
  case h_4 => exact absurd hlow (by decide)
  case h_7 => rw [hread, Option.map_some]
  all_goals exact absurd hhigh (by decide)

lemma readValue?_string (s : Option String) (hbefore : Blank before) (rest : List Char) :
    readValue? (fuel + 1) (before ++ ((quoted s).toList ++ rest)) = some (.string s, rest) := by
  obtain ⟨text, htext, hread⟩ := exists_readString?_quoted s rest
  unfold readValue?
  rw [skipBlanks_append hbefore, htext, skipBlanks_cons (by decide)]
  dsimp only
  rw [hread, Option.map_some]
  rfl

lemma readValue?_null (hbefore : Blank before) (rest : List Char) :
    readValue? (fuel + 1) (before ++ ("null".toList ++ rest)) = some (.null, rest) := by
  unfold readValue?
  rw [skipBlanks_append hbefore]
  change Option.map _ (readWord? "ull".toList ("ull".toList ++ rest)) = _
  rw [readWord?_append, Option.map_some]

lemma readValue?_boolean (b : Bool) (hbefore : Blank before) (rest : List Char) :
    readValue? (fuel + 1) (before ++ ((if b then "true" else "false").toList ++ rest)) =
      some (.boolean b, rest) := by
  unfold readValue?
  rw [skipBlanks_append hbefore]
  cases b with
  | true =>
    change Option.map _ (readWord? "rue".toList ("rue".toList ++ rest)) = _
    rw [readWord?_append, Option.map_some]
  | false =>
    change Option.map _ (readWord? "alse".toList ("alse".toList ++ rest)) = _
    rw [readWord?_append, Option.map_some]

/-- No text of a tree starts with a blank or with a bracket that closes one. -/
lemma Spells.exists_cons {j : Json} (h : Spells j s) :
    ∃ c t, s = c :: t ∧ isJsonBlank c = false ∧ c ≠ ']' ∧ c ≠ '\x7d' := by
  cases h with
  | null => exact ⟨'n', _, rfl, by decide, by decide, by decide⟩
  | boolean b => cases b <;> exact ⟨_, _, rfl, by decide, by decide, by decide⟩
  | number h =>
    obtain ⟨c, s, htext, hlow, hhigh⟩ := exists_text_cons h []
    rw [List.append_nil] at htext
    refine ⟨c, s, htext, isJsonBlank_of_toNat hlow, ?_, ?_⟩ <;> rintro rfl <;>
      exact absurd hhigh (by decide)
  | string s =>
    obtain ⟨text, htext, -⟩ := exists_readString?_quoted s []
    rw [List.append_nil] at htext
    exact ⟨'"', text, htext, by decide, by decide, by decide⟩
  | emptyArray | array => exact ⟨'[', _, rfl, by decide, by decide, by decide⟩
  | emptyObject | object => exact ⟨'\x7b', _, rfl, by decide, by decide, by decide⟩

lemma SpellsItems.skipBlanks_ne {items : List Json} (h : SpellsItems items s) (rest t : List Char) :
    skipBlanks (s ++ rest) ≠ ']' :: t := by
  have hitem {j : Json} {before text : List Char} (hbefore : Blank before) (hj : Spells j text)
      (after : List Char) : skipBlanks (before ++ (text ++ after)) ≠ ']' :: t := by
    obtain ⟨c, tail, rfl, hblank, hbracket, -⟩ := hj.exists_cons
    rw [skipBlanks_append hbefore, List.cons_append, skipBlanks_cons hblank]
    exact fun heq => hbracket (List.cons.inj heq).1
  cases h with
  | last hbefore hj hafter => simpa using hitem hbefore hj _
  | more hbefore hj hafter hrest => simpa using hitem hbefore hj _

lemma SpellsMembers.skipBlanks_eq {members : List (Option String × Json)} (h : SpellsMembers members s)
    (rest : List Char) : ∃ t, skipBlanks (s ++ rest) = '"' :: t := by
  have hmember {before : List Char} (hbefore : Blank before) (name : Option String) (after : List Char) :
      ∃ t, skipBlanks (before ++ ((quoted name).toList ++ after)) = '"' :: t := by
    obtain ⟨text, htext, -⟩ := exists_readString?_quoted name after
    rw [skipBlanks_append hbefore, htext, skipBlanks_cons (by decide)]
    exact ⟨text, rfl⟩
  cases h with
  | last hbefore _ _ _ => simpa using hmember hbefore _ _
  | more hbefore _ _ _ _ => simpa using hmember hbefore _ _

lemma readValue?_bracket (hbefore : Blank before) (s : List Char) :
    readValue? (fuel + 1) (before ++ '[' :: s) = match skipBlanks s with
      | ']' :: rest => some (.array [], rest)
      | _ => (readItems? fuel s).map fun (items, rest) => (.array items, rest) := by
  conv_lhs => unfold readValue?
  rw [skipBlanks_append hbefore, skipBlanks_cons (by decide)]
  rfl

lemma readValue?_brace (hbefore : Blank before) (s : List Char) :
    readValue? (fuel + 1) (before ++ '\x7b' :: s) = match skipBlanks s with
      | '\x7d' :: rest => some (.object [], rest)
      | _ => (readMembers? fuel s).map fun (members, rest) => (.object members, rest) := by
  conv_lhs => unfold readValue?
  rw [skipBlanks_append hbefore, skipBlanks_cons (by decide)]
  rfl

lemma ReadsWith.value_succ (ih : ReadsWith fuel) {j : Json} (rest : List Char) (h : Spells j s)
    (hbefore : Blank before) (hrest : EndsNumber rest) (hfuel : (before ++ s).length < fuel + 1) :
    readValue? (fuel + 1) (before ++ (s ++ rest)) = some (j, rest) := by
  cases h with
  | null => exact readValue?_null hbefore rest
  | boolean b => exact readValue?_boolean b hbefore rest
  | number h => exact readValue?_number h hbefore hrest
  | string s => exact readValue?_string s hbefore rest
  | emptyArray hgap =>
    rw [List.cons_append, readValue?_bracket hbefore, List.append_assoc, skipBlanks_append hgap,
      List.singleton_append, skipBlanks_cons (by decide)]
    rfl
  | @array items text h =>
    have hread := ih.items rest h (by simp at hfuel; omega)
    rw [List.cons_append, readValue?_bracket hbefore]
    split
    · next heq => exact (h.skipBlanks_ne rest _ heq).elim
    · rw [hread, Option.map_some]
  | emptyObject hgap =>
    rw [List.cons_append, readValue?_brace hbefore, List.append_assoc, skipBlanks_append hgap,
      List.singleton_append, skipBlanks_cons (by decide)]
    rfl
  | @object members text h =>
    have hread := ih.members rest h (by simp at hfuel; omega)
    obtain ⟨t, hquote⟩ := h.skipBlanks_eq rest
    rw [List.cons_append, readValue?_brace hbefore, hquote, hread]
    rfl

lemma endsNumber_append {after : List Char} (hafter : Blank after) (hc : c ∈ [',', ']', '\x7d'])
    (rest : List Char) : EndsNumber (after ++ c :: rest) := by
  intro d hd
  cases after with
  | nil =>
    obtain rfl : c = d := by simpa using hd
    simp only [List.mem_cons, List.not_mem_nil, or_false] at hc
    rcases hc with rfl | rfl | rfl <;> decide
  | cons d' after =>
    obtain rfl : d' = d := by simpa using hd
    have hblank := hafter d' List.mem_cons_self
    simp only [isJsonBlank, Bool.or_eq_true, decide_eq_true_eq] at hblank
    rcases hblank with ((rfl | rfl) | rfl) | rfl <;> decide

lemma ReadsWith.items_succ (ih : ReadsWith fuel) {items : List Json} (rest : List Char)
    (h : SpellsItems items s) (hfuel : s.length < fuel + 1) :
    readItems? (fuel + 1) (s ++ rest) = some (items, rest) := by
  cases h with
  | @last item before text after hbefore hitem hafter =>
    have hread := ih.value (after ++ ']' :: rest) hitem hbefore
      (endsNumber_append hafter (by simp) rest) (by simp at hfuel ⊢; omega)
    simp only [List.append_assoc, List.singleton_append]
    rw [readItems?, hread]
    simp only [Option.bind_eq_bind, Option.bind_some, skipBlanks_append hafter,
      skipBlanks_cons (show isJsonBlank ']' = false by decide)]
    rfl
  | @more item items before text after tail hbefore hitem hafter hitems =>
    have hread := ih.value (after ++ ',' :: (tail ++ rest)) hitem hbefore
      (endsNumber_append hafter (by simp) _) (by simp at hfuel ⊢; omega)
    have hreads := ih.items rest hitems (by simp at hfuel; omega)
    simp only [List.append_assoc, List.cons_append]
    rw [readItems?, hread]
    simp only [Option.bind_eq_bind, Option.bind_some, skipBlanks_append hafter,
      skipBlanks_cons (show isJsonBlank ',' = false by decide), hreads]
    rfl

lemma ReadsWith.members_succ (ih : ReadsWith fuel) {members : List (Option String × Json)}
    (rest : List Char) (h : SpellsMembers members s) (hfuel : s.length < fuel + 1) :
    readMembers? (fuel + 1) (s ++ rest) = some (members, rest) := by
  have hcolon : isJsonBlank ':' = false := by decide
  have hquote : isJsonBlank '"' = false := by decide
  cases h with
  | @last name value before middle text after hbefore hmiddle hvalue hafter =>
    have hread := ih.value (after ++ '\x7d' :: rest) hvalue hmiddle
      (endsNumber_append hafter (by simp) rest) (by simp at hfuel ⊢; omega)
    obtain ⟨word, hword, hname⟩ := exists_readString?_quoted name
      (':' :: (middle ++ (text ++ (after ++ '\x7d' :: rest))))
    simp only [List.append_assoc, List.cons_append, List.nil_append]
    rw [hword]
    unfold readMembers?
    simp only [skipBlanks_append hbefore, skipBlanks_cons hquote, hname, Option.bind_eq_bind,
      Option.bind_some, skipBlanks_cons hcolon, hread, skipBlanks_append hafter,
      skipBlanks_cons (show isJsonBlank '\x7d' = false by decide)]
    rfl
  | @more name value members before middle text after tail hbefore hmiddle hvalue hafter hmembers =>
    have hread := ih.value (after ++ ',' :: (tail ++ rest)) hvalue hmiddle
      (endsNumber_append hafter (by simp) _) (by simp at hfuel ⊢; omega)
    have hreads := ih.members rest hmembers (by simp at hfuel; omega)
    obtain ⟨word, hword, hname⟩ := exists_readString?_quoted name
      (':' :: (middle ++ (text ++ (after ++ ',' :: (tail ++ rest)))))
    simp only [List.append_assoc, List.cons_append]
    rw [hword]
    conv_lhs => unfold readMembers?
    simp only [skipBlanks_append hbefore, skipBlanks_cons hquote, hname, Option.bind_eq_bind,
      Option.bind_some, skipBlanks_cons hcolon, hread, skipBlanks_append hafter,
      skipBlanks_cons (show isJsonBlank ',' = false by decide), hreads]
    rfl

/-- Fuel for all of a text is enough, since a bracket is read before what it holds. -/
theorem readsWith (fuel : ℕ) : ReadsWith fuel := by
  induction fuel with
  | zero =>
    exact ⟨fun _ _ _ _ h => absurd h (Nat.not_lt_zero _), fun _ _ h => absurd h (Nat.not_lt_zero _),
      fun _ _ h => absurd h (Nat.not_lt_zero _)⟩
  | succ fuel ih => exact ⟨ih.value_succ, ih.items_succ, ih.members_succ⟩

/-- Every text of a tree is read as the tree. -/
theorem read?_of_spells {j : Json} {text : String} (h : Spells j text.toList) : read? text = some j := by
  have hread : readValue? (text.toList.length + 1) ([] ++ (text.toList ++ [])) = some (j, []) :=
    (readsWith (text.toList.length + 1)).value [] h nofun nofun (Nat.lt_succ_self _)
  rw [List.nil_append, List.append_nil] at hread
  rw [read?, hread]
  rfl

end Trees

section Written

variable {gap after : List Char}

lemma blank_nil : Blank [] :=
  nofun

lemma blank_newline (level : ℕ) : Blank (newline level).toList := by
  have htext : (newline level).toList = '\n' :: List.replicate (2 * level) ' ' := by simp [newline]
  rw [htext, Blank, List.forall_mem_cons]
  refine ⟨by decide, fun c hc => ?_⟩
  rw [(List.mem_replicate.mp hc).2]
  rfl

/-- A member as it is written, with a gap after the colon. -/
def SpellsMember (gap : List Char) (member : Option String × Json) (text : String) : Prop :=
  ∃ value, Spells member.2 value ∧ text.toList = (quoted member.1).toList ++ ':' :: (gap ++ value)

lemma spellsItems_intercalate (hgap : Blank gap) (hafter : Blank after) {items : List Json}
    {texts : List String} (h : List.Forall₂ (fun item text => Spells item text.toList) items texts)
    (hne : texts ≠ []) : SpellsItems items
      (gap ++ ((',' :: gap).intercalate (texts.map String.toList) ++ (after ++ [']']))) := by
  induction h with
  | nil => exact (hne rfl).elim
  | @cons item text items texts hitem hitems ih =>
    cases texts with
    | nil =>
      cases hitems
      rw [List.map_singleton, List.intercalate_singleton]
      exact .last hgap hitem hafter
    | cons second texts =>
      have hmore := SpellsItems.more hgap hitem blank_nil (ih (List.cons_ne_nil _ _))
      simpa [List.intercalate_cons_cons] using hmore

lemma spellsMembers_intercalate {middle : List Char} (hgap : Blank gap) (hmiddle : Blank middle)
    (hafter : Blank after) {members : List (Option String × Json)} {texts : List String}
    (h : List.Forall₂ (SpellsMember middle) members texts) (hne : texts ≠ []) : SpellsMembers members
      (gap ++ ((',' :: gap).intercalate (texts.map String.toList) ++ (after ++ ['\x7d']))) := by
  induction h with
  | nil => exact (hne rfl).elim
  | @cons member text members texts hmember hmembers ih =>
    obtain ⟨name, value⟩ := member
    obtain ⟨valueText, hvalue, htext⟩ := hmember
    cases texts with
    | nil =>
      cases hmembers
      rw [List.map_singleton, List.intercalate_singleton, htext]
      simpa using SpellsMembers.last hgap hmiddle hvalue hafter
    | cons second texts =>
      have hmore : SpellsMembers ((name, value) :: members) _ :=
        .more hgap hmiddle hvalue blank_nil (ih (List.cons_ne_nil _ _))
      simpa [List.intercalate_cons_cons, htext] using hmore

end Written

mutual

/-- Whether all numbers of a tree have the form that numbers have in JSON. -/
def NumbersWritten : Json → Prop
  | .number n => IsNumber n
  | .array items => NumbersWrittenItems items
  | .object members => NumbersWrittenMembers members
  | _ => True

def NumbersWrittenItems : List Json → Prop
  | [] => True
  | item :: items => item.NumbersWritten ∧ NumbersWrittenItems items

def NumbersWrittenMembers : List (Option String × Json) → Prop
  | [] => True
  | (_, value) :: members => value.NumbersWritten ∧ NumbersWrittenMembers members

end

section Brackets

variable {items : List Json} {members : List (Option String × Json)} {texts : List String}

lemma spells_items (h : List.Forall₂ (fun item text => Spells item text.toList) items texts) :
    Spells (.array items) ("[" ++ ",".intercalate texts ++ "]").toList := by
  by_cases hnil : texts = []
  · subst hnil
    cases h
    exact .emptyArray blank_nil
  · have hitems := spellsItems_intercalate blank_nil blank_nil h hnil
    simpa [String.toList_intercalate] using Spells.array hitems

lemma spells_members (h : List.Forall₂ (SpellsMember []) members texts) :
    Spells (.object members) ("\x7b" ++ ",".intercalate texts ++ "\x7d").toList := by
  by_cases hnil : texts = []
  · subst hnil
    cases h
    exact .emptyObject blank_nil
  · have hmembers := spellsMembers_intercalate blank_nil blank_nil blank_nil h hnil
    simpa [String.toList_intercalate] using Spells.object hmembers

lemma spells_bracketed_items (level : ℕ)
    (h : List.Forall₂ (fun item text => Spells item text.toList) items texts) :
    Spells (.array items) (bracketed "[" "]" level texts).toList := by
  unfold bracketed
  split_ifs with hnil
  · subst hnil
    cases h
    exact .emptyArray blank_nil
  · have hitems := spellsItems_intercalate (blank_newline (level + 1)) (blank_newline level) h hnil
    simpa [String.toList_intercalate] using Spells.array hitems

lemma spells_bracketed_members (level : ℕ) (h : List.Forall₂ (SpellsMember [' ']) members texts) :
    Spells (.object members) (bracketed "\x7b" "\x7d" level texts).toList := by
  unfold bracketed
  split_ifs with hnil
  · subst hnil
    cases h
    exact .emptyObject blank_nil
  · have hblank : Blank [' '] := List.forall_mem_singleton.mpr (by decide)
    have hmembers :=
      spellsMembers_intercalate (blank_newline (level + 1)) hblank (blank_newline level) h hnil
    simpa [String.toList_intercalate] using Spells.object hmembers

end Brackets

mutual

theorem spells_prettyAt (level : ℕ) : ∀ j : Json, j.NumbersWritten → Spells j (j.prettyAt level).toList
  | .null, _ => .null
  | .boolean b, _ => .boolean b
  | .number _, h => .number h
  | .string s, _ => .string s
  | .array items, h => spells_bracketed_items level (spells_prettyItems (level + 1) items h)
  | .object members, h => spells_bracketed_members level (spells_prettyMembers (level + 1) members h)

theorem spells_prettyItems (level : ℕ) : ∀ items : List Json, NumbersWrittenItems items →
    List.Forall₂ (fun item text => Spells item text.toList) items (prettyItems level items)
  | [], _ => .nil
  | item :: items, h => .cons (spells_prettyAt level item h.1) (spells_prettyItems level items h.2)

theorem spells_prettyMembers (level : ℕ) : ∀ members : List (Option String × Json),
    NumbersWrittenMembers members → List.Forall₂ (SpellsMember [' ']) members (prettyMembers level members)
  | [], _ => .nil
  | (name, value) :: members, h => .cons ⟨_, spells_prettyAt level value h.1, by simp⟩
      (spells_prettyMembers level members h.2)

end

mutual

theorem spells_compact : ∀ j : Json, j.NumbersWritten → Spells j j.compact.toList
  | .null, _ => .null
  | .boolean b, _ => .boolean b
  | .number _, h => .number h
  | .string s, _ => .string s
  | .array items, h => spells_items (spells_compactItems items h)
  | .object members, h => spells_members (spells_compactMembers members h)

theorem spells_compactItems : ∀ items : List Json, NumbersWrittenItems items →
    List.Forall₂ (fun item text => Spells item text.toList) items (compactItems items)
  | [], _ => .nil
  | item :: items, h => .cons (spells_compact item h.1) (spells_compactItems items h.2)

theorem spells_compactMembers : ∀ members : List (Option String × Json),
    NumbersWrittenMembers members → List.Forall₂ (SpellsMember []) members (compactMembers members)
  | [], _ => .nil
  | (name, value) :: members, h => .cons ⟨_, spells_compact value h.1, by simp⟩
      (spells_compactMembers members h.2)

end

/-- The reader undoes both writers. -/
theorem read?_pretty_and_compact {j : Json} (h : j.NumbersWritten) :
    read? j.pretty = some j ∧ read? j.compact = some j :=
  ⟨read?_of_spells (spells_prettyAt 0 j h), read?_of_spells (spells_compact j h)⟩

end Tariff.Json
