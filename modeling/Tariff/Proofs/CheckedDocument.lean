import Mathlib
import Tariff.Document.Source
import Tariff.Proofs.FullyDefined

/-!
# Evaluation of documents without errors

`Document.check` takes the injected names as known, and an injected name may have a definition as
well, which evaluation uses when no value was injected. So evaluation of a document without errors
can fail, but only on a circle through such a name (`evaluate_fails_iff_injected_cycle`).
-/

namespace Tariff

namespace Document

variable {d : Document} {table : Table} {name : String} {definition : Definition}

lemma mem_check {finding : Diagnostic} : finding ∈ d.check ↔ finding ∈ d.findings :=
  List.mem_mergeSort

/-- A definition is kept if it is the first one of its name and the name was not seen before. -/
lemma mem_firstOfEachName {seen : Names} {definitions : List Definition} :
    definition ∈ firstOfEachName seen definitions ↔
      definition.name.text ∉ seen ∧
        definitions.find? (·.name.text = definition.name.text) = some definition := by
  induction definitions generalizing seen with
  | nil => simp [firstOfEachName]
  | cons first rest ih =>
    by_cases hname : first.name.text = definition.name.text
    · rw [firstOfEachName, List.find?_cons_of_pos (by simpa using hname), Option.some_inj]
      split
      · next hseen =>
        have hmem := Std.ExtTreeSet.contains_iff_mem.mp hseen
        simp [ih, ← hname, hmem]
      · next hseen =>
        have hnew := mt Std.ExtTreeSet.contains_iff_mem.mpr hseen
        have hlater : definition ∉ firstOfEachName (seen.insert first.name.text) rest := by
          simp [ih, hname]
        rw [List.mem_cons, or_iff_left hlater, ← hname, eq_comm]
        simp [hnew]
    · have hne : definition ≠ first := by
        rintro rfl
        exact hname rfl
      rw [firstOfEachName, List.find?_cons_of_neg (by simpa using hname)]
      split
      · exact ih
      · rw [List.mem_cons, or_iff_right hne, ih]
        simp [hname]

lemma mem_effectiveDefinitions : definition ∈ d.effectiveDefinitions ↔
    d.definitions.reverse.find? (·.name.text = definition.name.text) = some definition := by
  simp [effectiveDefinitions, mem_firstOfEachName]

lemma exists_mem_effectiveDefinitions (h : name ∈ d.definitionOf) :
    ∃ definition ∈ d.effectiveDefinitions, definition.name.text = name := by
  obtain ⟨body, hbody⟩ := Definitions.exists_getElem?_of_mem h
  rw [definitionOf, Definitions.getElem?_ofList] at hbody
  obtain ⟨definition, hfind, -⟩ := Option.map_eq_some_iff.mp hbody
  have hname : definition.name.text = name := by simpa using List.find?_some hfind
  subst hname
  exact ⟨definition, mem_effectiveDefinitions.mpr hfind, rfl⟩

/-- A definition of a name that is not fully defined has an error: the name is its own use, or it is
called not fully defined. -/
lemma exists_error_of_not_mem {defined : Names} (h : definition.name.text ∉ defined) :
    ∃ finding ∈ definitionProblems defined definition, finding.isError := by
  have hnot : defined.contains definition.name.text = false :=
    Bool.eq_false_iff.mpr (mt Std.ExtTreeSet.contains_iff_mem.mp h)
  by_cases hself : ∃ word ∈ definition.body.names, word.text = definition.name.text
  · exact ⟨⟨.circularDefinition, definition.name⟩, by simpa [definitionProblems] using hself, rfl⟩
  · push Not at hself
    refine ⟨⟨.notFullyDefined, definition.name⟩, ?_, rfl⟩
    simpa [definitionProblems, hnot] using .inl hself

/-- A document without errors. Names that are not used are allowed. -/
def Passes (d : Document) : Prop :=
  ∀ finding ∈ d.check, ¬finding.isError

lemma Passes.mem_fullyDefined (h : d.Passes) (hname : name ∈ d.definitionOf) :
    name ∈ d.fullyDefined := by
  by_contra hnot
  obtain ⟨definition, heffective, rfl⟩ := exists_mem_effectiveDefinitions hname
  obtain ⟨finding, hfinding, herror⟩ := exists_error_of_not_mem hnot
  refine h finding (mem_check.mpr ?_) herror
  simp only [findings, List.mem_append, List.mem_flatMap]
  exact .inl (.inr ⟨definition, heffective, hfinding⟩)

/-- A circle of fully defined names passes through an injected name. -/
lemma exists_injectable_on_cycle (table : Table) : ∀ name ∈ d.fullyDefined,
    d.definitionOf.OnCycle table name → ∃ other ∈ d.injectableTerms.map (·.text),
      d.definitionOf.Reaches table name other ∧ d.definitionOf.Reaches table other name := by
  -- a use on the way round is on the circle too, so the induction can go on with that use
  apply fullyDefined_induction
  · intro name hname _
    exact ⟨name, hname, .refl, .refl⟩
  · intro name body hbody huses hcycle
    obtain ⟨use, hstep, hback⟩ := Relation.TransGen.head'_iff.mp hcycle
    have hcycle' : d.definitionOf.OnCycle table use := Relation.TransGen.tail' hback hstep
    obtain ⟨other, hother, hto, hfrom⟩ := huses use (hstep.mem_uses hbody) hcycle'
    exact ⟨other, hother, .head hstep hto, hfrom.trans hback⟩

lemma Passes.exists_injectable_of_cycle {other : String} (h : d.Passes)
    (hreach : d.definitionOf.Reaches table name other)
    (hcycle : d.definitionOf.OnCycle table other) :
    ∃ key ∈ d.injectableTerms.map (·.text),
      d.definitionOf.Reaches table name key ∧ d.definitionOf.OnCycle table key := by
  have hdefined := h.mem_fullyDefined hcycle.mem_definitions
  obtain ⟨key, hkey, hto, hfrom⟩ := exists_injectable_on_cycle table other hdefined hcycle
  have hround : d.definitionOf.OnCycle table key :=
    (Relation.TransGen.trans_right hfrom hcycle).trans_left hto
  exact ⟨key, hkey, hreach.trans hto, hround⟩

/-- Evaluation of a document without errors fails if and only if a circle is in reach that passes
through a name that is injected and defined but has no value. It cannot fail if there is a value for
every such name; all other injected names may lack one. -/
theorem evaluate_fails_iff_injected_cycle (d : Document) (h : d.Passes) (table : Table)
    (name : String) :
    ((∃ term, (d.evaluate name table).1 = .error (.circular term)) ↔
      ∃ key ∈ d.injectableTerms.map (·.text), key ∈ d.declaredTerms.map (·.text) ∧ key ∉ table ∧
        d.definitionOf.Reaches table name key ∧ d.definitionOf.OnCycle table key) ∧
    ((∀ key ∈ d.injectableTerms.map (·.text), key ∈ d.declaredTerms.map (·.text) → key ∈ table) →
      ∃ value, (d.evaluate name table).1 = .ok value) := by
  have hcircle (other : String) (hreach : d.definitionOf.Reaches table name other)
      (hcycle : d.definitionOf.OnCycle table other) : ∃ key ∈ d.injectableTerms.map (·.text),
        key ∈ d.declaredTerms.map (·.text) ∧ key ∉ table ∧
          d.definitionOf.Reaches table name key ∧ d.definitionOf.OnCycle table key := by
    obtain ⟨key, hkey, hto, hround⟩ := h.exists_injectable_of_cycle hreach hcycle
    exact ⟨key, hkey, mem_definitionOf.mp hround.mem_definitions, hround.not_mem_table, hto, hround⟩
  refine ⟨Definitions.exists_resolve_eq_error_iff.trans ⟨?_, ?_⟩, fun hsupplied => ?_⟩
  · rintro ⟨other, hreach, hcycle⟩
    exact hcircle other hreach hcycle
  · rintro ⟨key, -, -, -, hreach, hround⟩
    exact ⟨key, hreach, hround⟩
  · apply Definitions.exists_resolve_eq_ok_iff.mpr
    intro other hreach hcycle
    obtain ⟨key, hkey, hdeclared, hmissing, -⟩ := hcircle other hreach hcycle
    exact hmissing (hsupplied key hkey hdeclared)

end Document

lemma Definitions.recompute_of_single_name {definitions : Definitions} {table : Table}
    {resolving : List String} {name : String} {word : Terminal} (missing : name ∉ table)
    (defined : definitions[name]? = some (.single (.name word))) (hnew : name ∉ resolving) :
    definitions.recompute table resolving name =
      definitions.recompute table (name :: resolving) word.text := by
  rw [recompute_of_body missing defined hnew]
  rfl

namespace Document

/-- The injected name `a` is defined by a circle, and `c` mentions it in the branch that is not
taken. -/
def circleSource : String := "$g: a\na = b\nb = a\nc = if true then true else a end\n"

def circleDocument : Document where
  injectables := [⟨⟨"g", ⟨1, 1⟩⟩, [⟨"a", ⟨1, 4⟩⟩]⟩]
  definitions :=
    [⟨⟨"a", ⟨2, 0⟩⟩, .single (.name ⟨"b", ⟨2, 4⟩⟩)⟩, ⟨⟨"b", ⟨3, 0⟩⟩, .single (.name ⟨"a", ⟨3, 4⟩⟩)⟩,
      ⟨⟨"c", ⟨4, 0⟩⟩, .single (.conditional (.single (.boolean true ⟨4, 7⟩))
        (.single (.boolean true ⟨4, 17⟩)) (.single (.name ⟨"a", ⟨4, 27⟩⟩)))⟩]

lemma circleDocument_passes : circleDocument.Passes := by
  have hcheck : circleDocument.check = [] := by cbv
  intro finding hfinding
  rw [hcheck] at hfinding
  cases hfinding

lemma circleDocument_a :
    circleDocument.definitionOf["a"]? = some (.single (.name ⟨"b", ⟨2, 4⟩⟩)) := by decide

lemma circleDocument_b :
    circleDocument.definitionOf["b"]? = some (.single (.name ⟨"a", ⟨3, 4⟩⟩)) := by decide

lemma circleDocument_c : circleDocument.definitionOf["c"]? = some (.single (.conditional
    (.single (.boolean true ⟨4, 7⟩)) (.single (.boolean true ⟨4, 17⟩))
      (.single (.name ⟨"a", ⟨4, 27⟩⟩)))) := by decide

/-- No error is found in the circle, and evaluation without a value for `a` runs into it. -/
theorem circleSource_passes_and_fails : Document.ofSource circleSource = .ok circleDocument ∧
    circleDocument.Passes ∧ (circleDocument.evaluate "c" ∅).1 = .error (.circular "a") := by
  have hsource : Document.ofSource circleSource = .ok circleDocument := by cbv
  refine ⟨hsource, circleDocument_passes, ?_⟩
  have ha : circleDocument.definitionOf.recompute ∅ ["c"] "a" = .error (.circular "a") := by
    rw [Definitions.recompute_of_single_name (by simp) circleDocument_a (by simp),
      Definitions.recompute_of_single_name (by simp) circleDocument_b (by simp),
      Definitions.recompute_of_open (by simp) (Definitions.mem_of_getElem?_eq_some circleDocument_a)
        (by simp)]
  rw [evaluate, Definitions.resolve_fst_eq_recompute,
    Definitions.recompute_of_body (by simp) circleDocument_c (by simp)]
  simp only [Formula.single, Formula.evalM, ha]
  rfl

/-- Without a value for `a` the circle is met, and with one it is not. -/
theorem evaluate_circleDocument : circleDocument.Passes ∧
    (∃ term, (circleDocument.evaluate "c" ∅).1 = .error (.circular term)) ∧
    ∃ value, (circleDocument.evaluate "c" ((∅ : Table).insert "a" (.boolean false))).1 =
      .ok value := by
  have hca : circleDocument.definitionOf.RefersTo ∅ "c" "a" :=
    Definitions.refersTo_of_use (by simp) circleDocument_c (by decide)
  have hab : circleDocument.definitionOf.RefersTo ∅ "a" "b" :=
    Definitions.refersTo_of_use (by simp) circleDocument_a (by decide)
  have hba : circleDocument.definitionOf.RefersTo ∅ "b" "a" :=
    Definitions.refersTo_of_use (by simp) circleDocument_b (by decide)
  refine ⟨circleDocument_passes, ?_, ?_⟩
  · refine (evaluate_fails_iff_injected_cycle _ circleDocument_passes ∅ "c").1.mpr ?_
    exact ⟨"a", by decide, by decide, by simp, .single hca, .head hab (.single hba)⟩
  · refine (evaluate_fails_iff_injected_cycle _ circleDocument_passes _ "c").2 ?_
    intro key hkey _
    obtain rfl : key = "a" := by simpa [circleDocument, injectableTerms] using hkey
    simp

end Document

end Tariff
