import Tariff.CommandLine.Run
import Tariff.Proofs.Pointers
import Tariff.Proofs.ReadValues
import Tariff.Proofs.UnresolvedNames
import Tariff.Proofs.WrittenDoubles

/-!
# Printed values

An evaluation prints a term and its value around an equals sign, which is also the form of an assignment.
A line that was printed can be given back: the name is cut off at the first equals sign, the blanks around
it go, and the text of the value is read as the value (`Invocation.valueAssignment?_printed`). Texts that
look like a value of another kind, or that have blanks at their ends, are left out (`Value.ReadsBack`).
-/

namespace Tariff

namespace Text

variable {s : List Char}

lemma dropWhile_isBlank_of_head? (h : s.head?.any isBlank = false) : s.dropWhile isBlank = s := by
  cases s with
  | nil => rfl
  | cons c s =>
    have hc : isBlank c = false := h
    exact List.dropWhile_cons_of_neg (by simp [hc])

/-- Blanks around a text that has none at its ends are all that is trimmed. -/
lemma trimBlanks_append {before after : List Char} (hbefore : ∀ c ∈ before, isBlank c = true)
    (hafter : ∀ c ∈ after, isBlank c = true) (hhead : s.head?.any isBlank = false)
    (hlast : s.getLast?.any isBlank = false) : trimBlanks (before ++ s ++ after) = s := by
  have hafter' : ∀ c ∈ after.reverse, isBlank c = true := fun c hc => hafter c (List.mem_reverse.mp hc)
  have hreverse : s.reverse.dropWhile isBlank = s.reverse :=
    dropWhile_isBlank_of_head? (by rwa [List.head?_reverse])
  rw [trimBlanks, List.append_assoc, List.dropWhile_append_of_pos hbefore]
  cases s with
  | nil =>
    rw [List.nil_append, List.dropWhile_eq_nil_iff.mpr hafter]
    rfl
  | cons c s =>
    have hfront : (c :: (s ++ after)).dropWhile isBlank = c :: (s ++ after) :=
      dropWhile_isBlank_of_head? hhead
    rw [List.cons_append, hfront, ← List.cons_append, List.reverse_append,
      List.dropWhile_append_of_pos hafter', hreverse, List.reverse_reverse]

lemma any_isBlank_ends (h : ∀ c ∈ s, isBlank c = false) :
    s.head?.any isBlank = false ∧ s.getLast?.any isBlank = false := by
  have hany (o : Option Char) (ho : ∀ c ∈ o, c ∈ s) : o.any isBlank = false := by
    cases o with
    | none => rfl
    | some c => exact h c (ho c rfl)
  exact ⟨hany _ fun c hc => List.mem_of_mem_head? hc, hany _ fun c hc => List.mem_of_getLast? hc⟩

end Text

section Numbers

variable {x : Float}

lemma Numeral.toList_text {n : Numeral} (h : n.exponent = none) :
    n.text.toList = ((n.sign.map Sign.text).getD "").toList ++ LexemeClass.numeral n.whole n.fraction := by
  unfold text LexemeClass.numeral
  rw [h]
  split_ifs <;> simp

lemma isNumberLiteral_numeral {whole fraction : List Char} (hne : whole ≠ [])
    (hwhole : ∀ c ∈ whole, c.isDigit = true) (hfraction : ∀ c ∈ fraction, c.isDigit = true) :
    isNumberLiteral (LexemeClass.numeral whole fraction) = true := by
  have hextent := LexemeClass.numberExtent_numeral_append hne hwhole hfraction [] nofun
  rw [List.append_nil] at hextent
  rw [isNumberLiteral, Bool.and_eq_true, decide_eq_true_eq, decide_eq_true_eq]
  exact ⟨List.append_ne_nil_of_left_ne_nil hne _, hextent⟩

/-- A numeral of digits without an exponent is read as the double nearest to it. -/
lemma Value.ofText_text {n : Numeral} (h : n.OfDigits) (hexponent : n.exponent = none)
    (hsign : n.sign = none ∨ n.sign = some .minus) : ofText n.text = .number n.nearest := by
  obtain ⟨sign, whole, fraction, exponent⟩ := n
  obtain ⟨hne, hwhole, hfraction, -⟩ := h
  obtain rfl : exponent = none := hexponent
  have hliteral : isNumberLiteral (LexemeClass.numeral whole fraction) = true :=
    isNumberLiteral_numeral hne hwhole hfraction
  have hplain : Sign.read (LexemeClass.numeral whole fraction) =
      (none, LexemeClass.numeral whole fraction) := Sign.read_numeral hne hwhole fraction
  have htext : (Numeral.text ⟨sign, whole, fraction, none⟩).toList =
      ((sign.map Sign.text).getD "").toList ++ LexemeClass.numeral whole fraction :=
    Numeral.toList_text rfl
  obtain rfl | rfl : sign = none ∨ sign = some .minus := hsign
  · have hunsigned : (unsigned (Numeral.text ⟨none, whole, fraction, none⟩)).toList =
        LexemeClass.numeral whole fraction := by
      rcases unsigned_cases (Numeral.text ⟨none, whole, fraction, none⟩) with hsame | hminus
      · rw [hsame]
        exact htext
      · have hsign := htext.symm.trans hminus
        rw [show ((none.map Sign.text).getD "").toList = [] from rfl, List.nil_append] at hsign
        rw [hsign] at hplain
        cases hplain
    exact ofText_of_readNumber? (hunsigned ▸ hliteral)
      (readNumber?_numeral hne hwhole hfraction (htext ▸ hplain))
  · have hunsigned : (unsigned (Numeral.text ⟨some .minus, whole, fraction, none⟩)).toList =
        LexemeClass.numeral whole fraction := by
      rw [unsigned, htext]
      exact String.toList_ofList
    exact ofText_of_readNumber? (hunsigned ▸ hliteral)
      (readNumber?_numeral hne hwhole hfraction (htext ▸ rfl))

namespace Value

lemma exponent_numeral_shownFormat (x : Float) : (shownFormat.numeral x).exponent = none := by
  unfold NumberFormat.numeral NumberFormat.layout
  dsimp only
  rw [if_pos (by rfl)]
  split_ifs <;> rfl

lemma ofDigits_shownFormat (x : Float) : (shownFormat.numeral x).OfDigits :=
  NumberFormat.ofDigits_numeral (fun _ hc => absurd hc List.not_mem_nil) x

lemma shownNumber_of_isFinite (h : x.isFinite = true) : shownNumber x = (shownFormat.numeral x).text := by
  rw [shownNumber, isNaN_of_isFinite h, isInf_of_isFinite h]
  rfl

/-- What is shown for a finite double is a number literal after at most one minus, and reads as the double. -/
theorem ofText_shownNumber (h : x.isFinite = true) : ofText (shownNumber x) = .number x := by
  have hsign : (shownFormat.numeral x).sign = none ∨ (shownFormat.numeral x).sign = some .minus := by
    rw [NumberFormat.sign_numeral]
    split_ifs <;> simp
  rw [shownNumber_of_isFinite h, ofText_text (ofDigits_shownFormat x) (exponent_numeral_shownFormat x) hsign,
    NumberFormat.nearest_numeral rfl h]

end Value

end Numbers

lemma isBlank_of_isIdentifier {name : String} (h : isIdentifier name.toList = true) :
    ∀ c ∈ name.toList, Text.isBlank c = false :=
  (TokenKind.spells_of_lexical (w := .identifier name) h).isBlank_eq_false

/-- The values that the text which shows them is read as: numbers that are finite, truth values, and texts
without blanks at their ends that are neither the name of a truth value nor a number. -/
def Value.ReadsBack : Value → Prop
  | .number x => x.isFinite = true
  | .boolean _ => True
  | .text s => s.toList.head?.any Text.isBlank = false ∧ s.toList.getLast?.any Text.isBlank = false ∧
      s ≠ "true" ∧ s ≠ "false" ∧ ¬isNumberLiteral (unsigned s).toList = true

instance : DecidablePred Value.ReadsBack
  | .number x => inferInstanceAs (Decidable (x.isFinite = true))
  | .boolean _ => inferInstanceAs (Decidable True)
  | .text s => inferInstanceAs (Decidable (s.toList.head?.any Text.isBlank = false ∧
      s.toList.getLast?.any Text.isBlank = false ∧ s ≠ "true" ∧ s ≠ "false" ∧
      ¬isNumberLiteral (unsigned s).toList = true))

namespace Value

lemma ReadsBack.ofText_shown {v : Value} (h : v.ReadsBack) : ofText v.shown = v := by
  cases v with
  | number x => exact ofText_shownNumber h
  | boolean b => exact ofText_booleanText b
  | text s =>
    obtain ⟨-, -, htrue, hfalse, hnumber⟩ := h
    rw [shown, ofText_eq, if_neg htrue, if_neg hfalse, if_neg hnumber]

lemma isBlank_of_mem_text {n : Numeral} (h : n.OfDigits) (hexponent : n.exponent = none) :
    ∀ c ∈ n.text.toList, Text.isBlank c = false := by
  rw [Numeral.toList_text hexponent, LexemeClass.numeral, List.forall_mem_append, List.forall_mem_append]
  have hdigit {c : Char} (hc : c.isDigit = true) : Text.isBlank c = false :=
    LexemeClass.isBlank_eq_false_of_isDigit hc
  refine ⟨?_, fun c hc => hdigit (h.whole c hc), ?_⟩
  · rcases n.sign with _ | _ | _
    · exact fun c hc => absurd hc List.not_mem_nil
    · exact List.forall_mem_singleton.mpr (by decide)
    · exact List.forall_mem_singleton.mpr (by decide)
  · split_ifs
    · exact fun c hc => absurd hc List.not_mem_nil
    · exact List.forall_mem_cons.mpr ⟨by decide, fun c hc => hdigit (h.fraction c hc)⟩

lemma ReadsBack.any_isBlank_ends {v : Value} (h : v.ReadsBack) :
    v.shown.toList.head?.any Text.isBlank = false ∧
      v.shown.toList.getLast?.any Text.isBlank = false := by
  cases v with
  | number x =>
    rw [shown, shownNumber_of_isFinite h]
    exact Text.any_isBlank_ends
      (isBlank_of_mem_text (ofDigits_shownFormat x) (exponent_numeral_shownFormat x))
  | boolean b =>
    have hname : isIdentifier (booleanText b).toList = true := by cases b <;> decide
    exact Text.any_isBlank_ends (isBlank_of_isIdentifier hname)
  | text s => exact ⟨h.1, h.2.1⟩

end Value

namespace Invocation

lemma cutAtEquals_eq {before after : List Char} (h : '=' ∉ before) :
    cutAtEquals (String.ofList (before ++ '=' :: after)) =
      (String.ofList before, some (String.ofList after)) := by
  have htake : (before ++ '=' :: after).takeWhile (· ≠ '=') = before := by
    rw [List.takeWhile_append_of_pos fun c hc => decide_eq_true (ne_of_mem_of_not_mem hc h),
      List.takeWhile_cons_of_neg (by decide), List.append_nil]
  rw [cutAtEquals, String.toList_ofList, htake, List.drop_left]

/-- The line that an evaluation prints for a name and a value is the assignment of the value to the name. -/
theorem valueAssignment?_printed {name : String} {value : Value} (hname : isIdentifier name.toList = true)
    (hvalue : value.ReadsBack) :
    valueAssignment? (name ++ " = " ++ value.shown) = some (name, value) ∧
    ∀ d table, Command.reportValues false d [name] (Command.seed table [(name, value)]) =
      .done (linesText [name ++ " = " ++ value.shown]) := by
  constructor
  · have hequals : '=' ∉ name.toList ++ [' '] := by
      rw [List.mem_append, not_or]
      exact ⟨not_mem_of_isIdentifier hname (by decide), by simp⟩
    have hline : name ++ " = " ++ value.shown =
        String.ofList ((name.toList ++ [' ']) ++ '=' :: ([' '] ++ value.shown.toList)) := by
      simp [← String.toList_inj]
    have hblank : ∀ c ∈ [' '], Text.isBlank c = true := List.forall_mem_singleton.mpr (by decide)
    have hnamed : Text.trim (String.ofList (name.toList ++ [' '])) = name := by
      obtain ⟨hhead, hlast⟩ := Text.any_isBlank_ends (isBlank_of_isIdentifier hname)
      rw [Text.trim, String.toList_ofList, ← List.nil_append (name.toList ++ [' ']), ← List.append_assoc]
      exact String.ofList_eq.mpr (Text.trimBlanks_append nofun hblank hhead hlast)
    have hshown : Text.trim (String.ofList ([' '] ++ value.shown.toList)) = value.shown := by
      obtain ⟨hhead, hlast⟩ := hvalue.any_isBlank_ends
      rw [Text.trim, String.toList_ofList, ← List.append_nil (_ ++ _)]
      exact String.ofList_eq.mpr (Text.trimBlanks_append hblank nofun hhead hlast)
    have hne : name ≠ "" := by
      rintro rfl
      cases hname
    rw [valueAssignment?, assignment?, hline, cutAtEquals_eq hequals]
    dsimp only
    rw [hnamed, hshown, if_neg hne, Option.map_some, hvalue.ofText_shown]
  · intro d table
    have hknown : (Command.seed table [(name, value)])[name]? = some value := by
      rw [Command.seed, List.foldl_cons, List.foldl_nil, Definitions.getElem?_insert_name, if_pos rfl]
    have hresolve : d.definitionOf.resolve [] name (Command.seed table [(name, value)]) =
        (.ok value, Command.seed table [(name, value)]) := by
      rw [Definitions.resolve, hknown]
    rw [Command.reportValues, Command.evaluateTerms, hresolve]
    rfl

/-- Zero keeps its minus, and a text may hold an equals sign. -/
theorem valueAssignment?_printed_minus_zero :
    isIdentifier "t".toList = true ∧ (Value.number (-0.0)).ReadsBack ∧ (Value.text "a = b").ReadsBack ∧
      valueAssignment? "t = -0" = some ("t", .number (-0.0)) ∧
      valueAssignment? "t = a = b" = some ("t", .text "a = b") := by
  have hname : isIdentifier "t".toList = true := by decide
  have hzero : (Value.number (-0.0)).ReadsBack := by decide
  have htext : (Value.text "a = b").ReadsBack := by decide
  have hshown : (Value.number (-0.0)).shown = "-0" := by decide +kernel
  have hline := (valueAssignment?_printed hname hzero).1
  rw [hshown] at hline
  exact ⟨hname, hzero, htext, hline, (valueAssignment?_printed hname htext).1⟩

end Invocation

end Tariff
