import Tariff.Proofs.Completeness
import Tariff.Proofs.FullyDefined
import Tariff.Proofs.Recompute

/-!
# Documents at other places

`Document.relocated f` is a document with every place `l` in it moved to `f l`. The grammar, the
evaluation and the rules of the check are blind to places: tokens at other places are derived with the
document at other places (`DerivesDocument.relocated`), which evaluates to the same
(`evaluate_relocated`) and in which the same is found (`findings_relocated`). Only the order of what is
found depends on places, and stays if the move keeps the places of the findings in order
(`check_relocated`).
-/

namespace Tariff

def Token.relocated (f : Location → Location) (t : Token) : Token :=
  ⟨t.kind, t.text, f t.location⟩

def Terminal.relocated (f : Location → Location) (t : Terminal) : Terminal :=
  ⟨t.text, f t.location⟩

def Formula.relocated (f : Location → Location) : {l : Level} → Formula l → Formula l
  | _, .operand x => .operand (x.relocated f)
  | _, .link left op right => .link (left.relocated f) op (right.relocated f)
  | _, .plain x => .plain (x.relocated f)
  | _, .compare left op right => .compare (left.relocated f) op (right.relocated f)
  | _, .factor op x => .factor op (x.relocated f)
  | _, .number word => .number (word.relocated f)
  | _, .boolean value location => .boolean value (f location)
  | _, .parentheses x => .parentheses (x.relocated f)
  | _, .conditional condition yes no =>
    .conditional (condition.relocated f) (yes.relocated f) (no.relocated f)
  | _, .name word => .name (word.relocated f)

def Injectable.relocated (f : Location → Location) (i : Injectable) : Injectable :=
  ⟨i.group.relocated f, i.names.map (·.relocated f)⟩

def Definition.relocated (f : Location → Location) (d : Definition) : Definition :=
  ⟨d.name.relocated f, d.body.relocated f⟩

def Document.relocated (f : Location → Location) (d : Document) : Document :=
  ⟨d.injectables.map (·.relocated f), d.definitions.map (·.relocated f)⟩

def Diagnostic.relocated (f : Location → Location) (finding : Diagnostic) : Diagnostic :=
  ⟨finding.problem, finding.word.relocated f⟩

variable {f : Location → Location}

section Grammar

variable {ts : List Token}

theorem Derives.relocated (f : Location → Location) {l : Level} {x : Formula l} (h : Derives ts x) :
    Derives (ts.map (·.relocated f)) (x.relocated f) := by
  induction h with
  | operand hx ih => exact .operand ih
  | link hleft hop hright ihl ihr =>
    rw [List.map_append, List.map_cons]
    exact .link ihl hop ihr
  | plain hx ih => exact .plain ih
  | compare hleft hop hright ihl ihr =>
    rw [List.map_append, List.map_cons]
    exact .compare ihl hop ihr
  | bare hx ih => exact .bare ih
  | unary hop hx ih => exact .unary hop ih
  | number hkind => exact .number hkind
  | boolean htext => exact .boolean htext
  | parentheses hopening hx hclosing ih =>
    rw [List.map_cons, List.map_append]
    exact .parentheses hopening ih hclosing
  | conditional hif hcondition hthen hyes helse hno hend ihc ihy ihn =>
    simp only [List.map_append, List.map_cons]
    exact .conditional hif ihc hthen ihy helse ihn hend
  | name hkind hfree => exact .name hkind hfree

lemma DerivesEach.relocated {α : Type} {derives : List Token → α → Prop} {move : α → α}
    (hitem : ∀ ts x, derives ts x → derives (ts.map (·.relocated f)) (move x)) {xs : List α}
    (h : DerivesEach derives ts xs) :
    DerivesEach derives (ts.map (·.relocated f)) (xs.map move) := by
  induction h with
  | nil => exact .nil
  | cons hx hxs ih =>
    rw [List.map_append, List.map_cons]
    exact .cons (hitem _ _ hx) ih

lemma DerivesNext.relocated (ts : List Token) (name : Terminal) (h : DerivesNext ts name) :
    DerivesNext (ts.map (·.relocated f)) (name.relocated f) := by
  obtain ⟨hcomma, hname⟩ := h
  exact .next hcomma hname

lemma DerivesInjectable.relocated (ts : List Token) (i : Injectable) (h : DerivesInjectable ts i) :
    DerivesInjectable (ts.map (·.relocated f)) (i.relocated f) := by
  obtain ⟨hdollar, hgroup, hcolon, hfirst, hothers⟩ := h
  exact .group hdollar hgroup hcolon hfirst (hothers.relocated DerivesNext.relocated)

lemma DerivesDefinition.relocated (ts : List Token) (d : Definition) (h : DerivesDefinition ts d) :
    DerivesDefinition (ts.map (·.relocated f)) (d.relocated f) := by
  obtain ⟨hname, hsign, hbody⟩ := h
  exact .definition hname hsign (hbody.relocated f)

/-- The grammar does not depend on places. -/
theorem DerivesDocument.relocated (f : Location → Location) {d : Document}
    (h : DerivesDocument ts d) : DerivesDocument (ts.map (·.relocated f)) (d.relocated f) := by
  obtain ⟨hinjectables, hdefinitions⟩ := h
  rw [List.map_append]
  exact .document (hinjectables.relocated DerivesInjectable.relocated)
    (hdefinitions.relocated DerivesDefinition.relocated)

end Grammar

/-! ### Evaluation -/

lemma Formula.names_relocated (f : Location → Location) {l : Level} (x : Formula l) :
    (x.relocated f).names = x.names.map (·.relocated f) := by
  induction x with
  | operand x ih => exact ih
  | link left op right ihl ihr => simp only [relocated, names, ihl, ihr, List.map_append]
  | plain x ih => exact ih
  | compare left op right ihl ihr => simp only [relocated, names, ihl, ihr, List.map_append]
  | factor op x ih => exact ih
  | number word => rfl
  | boolean value location => rfl
  | parentheses x ih => exact ih
  | conditional condition yes no ihc ihy ihn =>
    simp only [relocated, names, ihc, ihy, ihn, List.map_append]
  | name word => rfl

lemma Formula.evalM_relocated {m : Type → Type} [Monad m] (lookup : String → m Value) {l : Level}
    (x : Formula l) : (x.relocated f).evalM lookup = x.evalM lookup := by
  induction x with
  | operand x ih => simp only [relocated, evalM, ih]
  | link left op right ihl ihr => simp only [relocated, evalM, ihl, ihr]
  | plain x ih => simp only [relocated, evalM, ih]
  | compare left op right ihl ihr => simp only [relocated, evalM, ihl, ihr]
  | factor op x ih => cases op <;> simp only [relocated, evalM, ih]
  | number word => rfl
  | boolean value location => rfl
  | parentheses x ih => simp only [relocated, evalM, ih]
  | conditional condition yes no ihc ihy ihn => simp only [relocated, evalM, ihc, ihy, ihn]
  | name word => rfl

namespace Definitions

variable {definitions : Definitions} {name : String}

/-- The definitions with every place `l` in the formulas moved to `f l`. -/
def relocated (f : Location → Location) (definitions : Definitions) : Definitions :=
  definitions.map fun _ body => body.relocated f

lemma getElem?_relocated (name : String) :
    (definitions.relocated f)[name]? = definitions[name]?.map (·.relocated f) :=
  Std.ExtTreeMap.getElem?_map

lemma mem_relocated : name ∈ definitions.relocated f ↔ name ∈ definitions :=
  Std.ExtTreeMap.mem_map

/-- Evaluation does not depend on places, whichever formulas are being evaluated. -/
theorem resolve_relocated (f : Location → Location) (definitions : Definitions)
    (resolving : List String) (name : String) :
    (definitions.relocated f).resolve resolving name = definitions.resolve resolving name := by
  -- As functions of the table: a formula is evaluated in the table that its earlier names have left.
  induction resolving using definitions.opening_induction generalizing name with
  | step resolving ih =>
    funext memo
    obtain ⟨v, entry⟩ | ⟨missing, undefined⟩ | ⟨missing, defined, hopen⟩ |
      ⟨body, missing, defined, hnew⟩ := definitions.meeting_cases memo resolving name
    · rw [resolve_of_entry entry, resolve_of_entry entry]
    · rw [resolve_of_free missing undefined, resolve_of_free missing (mt mem_relocated.mp undefined)]
    · rw [resolve_of_open missing defined hopen,
        resolve_of_open missing (mem_relocated.mpr defined) hopen]
    · have hbody : (definitions.relocated f)[name]? = some (body.relocated f) := by
        rw [getElem?_relocated, defined]
        rfl
      have hlookup := funext (ih name (mem_of_getElem?_eq_some defined) hnew)
      rw [resolve_of_body missing defined hnew, resolve_of_body missing hbody hnew, hlookup,
        Formula.evalM_relocated]

end Definitions

namespace Document

variable {d : Document}

lemma definitionOf_relocated (f : Location → Location) (d : Document) :
    (d.relocated f).definitionOf = d.definitionOf.relocated f := by
  apply Std.ExtTreeMap.ext_getElem?
  intro name
  rw [Definitions.getElem?_relocated]
  unfold definitionOf
  rw [Definitions.getElem?_ofList, Definitions.getElem?_ofList]
  unfold relocated
  rw [← List.map_reverse, List.find?_map, Option.map_map, Option.map_map]
  rfl

theorem evaluate_relocated (f : Location → Location) (d : Document) (name : String)
    (table : Table) : (d.relocated f).evaluate name table = d.evaluate name table := by
  unfold evaluate
  rw [definitionOf_relocated, Definitions.resolve_relocated]

/-! ### The check -/

lemma injectableTerms_relocated (f : Location → Location) (d : Document) :
    (d.relocated f).injectableTerms = d.injectableTerms.map (·.relocated f) := by
  unfold injectableTerms relocated
  rw [List.flatMap_map, List.map_flatMap]
  rfl

lemma declaredTerms_relocated (f : Location → Location) (d : Document) :
    (d.relocated f).declaredTerms = d.declaredTerms.map (·.relocated f) := by
  unfold declaredTerms relocated
  rw [List.map_map, List.map_map]
  rfl

lemma mentions_relocated (f : Location → Location) (d : Document) :
    (d.relocated f).mentions = d.mentions.map (·.relocated f) := by
  unfold mentions relocated
  rw [List.flatMap_map, List.map_flatMap]
  exact List.flatMap_congr fun e _ => e.body.names_relocated f

lemma map_text_relocated (words : List Terminal) :
    (words.map (·.relocated f)).map (·.text) = words.map (·.text) := by
  rw [List.map_map]
  rfl

lemma fullyDefined_relocated (f : Location → Location) (d : Document) :
    (d.relocated f).fullyDefined = d.fullyDefined := by
  have hreferences : (d.relocated f).references = d.references := by
    unfold references
    rw [definitionOf_relocated, Definitions.relocated, Std.ExtTreeMap.toList_map, List.map_map]
    apply List.map_congr_left
    rintro ⟨name, body⟩ -
    simp only [Function.comp_apply, Formula.names_relocated, map_text_relocated]
  unfold fullyDefined
  rw [hreferences, injectableTerms_relocated, map_text_relocated]

lemma repeated_relocated (words : List Terminal) :
    repeated (words.map (·.relocated f)) = (repeated words).map (·.relocated f) := by
  unfold repeated
  rw [List.filter_map]
  congr 1
  apply List.filter_congr
  intro w _
  simp only [Function.comp_apply, List.countP_map]
  rfl

lemma firstOfEachName_relocated (seen : Names) (definitions : List Definition) :
    firstOfEachName seen (definitions.map (·.relocated f)) =
      (firstOfEachName seen definitions).map (·.relocated f) := by
  induction definitions generalizing seen with
  | nil => rfl
  | cons e rest ih =>
    simp only [List.map_cons, firstOfEachName, ih]
    have hname : (e.relocated f).name.text = e.name.text := rfl
    rw [hname]
    split <;> rfl

lemma effectiveDefinitions_relocated (f : Location → Location) (d : Document) :
    (d.relocated f).effectiveDefinitions = d.effectiveDefinitions.map (·.relocated f) := by
  unfold effectiveDefinitions
  rw [← firstOfEachName_relocated, List.map_reverse]
  rfl

lemma definitionProblems_relocated (defined : Names) (e : Definition) :
    definitionProblems defined (e.relocated f) =
      (definitionProblems defined e).map (·.relocated f) := by
  have hsingle (problem : Problem) (c : Prop) [Decidable c] :
      (if c then [Diagnostic.mk problem (e.name.relocated f)] else []) =
        (if c then [Diagnostic.mk problem e.name] else []).map (·.relocated f) := by
    split <;> rfl
  unfold definitionProblems Definition.relocated
  rw [Formula.names_relocated, map_text_relocated]
  dsimp only
  rw [List.map_append, ← hsingle, ← hsingle]
  rfl

/-- The same is found at other places. -/
theorem findings_relocated (f : Location → Location) (d : Document) :
    (d.relocated f).findings = d.findings.map (·.relocated f) := by
  have hunused : (d.relocated f).unusedInjectables = d.unusedInjectables.map (·.relocated f) := by
    unfold unusedInjectables
    rw [mentions_relocated, map_text_relocated, injectableTerms_relocated, List.filter_map]
    rfl
  have hundeclared : (d.relocated f).undeclaredMentions =
      d.undeclaredMentions.map (·.relocated f) := by
    unfold undeclaredMentions
    rw [mentions_relocated, injectableTerms_relocated, declaredTerms_relocated, ← List.map_append,
      map_text_relocated, List.filter_map]
    rfl
  unfold findings
  rw [hunused, hundeclared, injectableTerms_relocated, declaredTerms_relocated, repeated_relocated,
    repeated_relocated, fullyDefined_relocated, effectiveDefinitions_relocated, List.flatMap_map]
  simp only [definitionProblems_relocated, List.map_append, List.map_map, List.map_flatMap]
  rfl

/-- A move that keeps the places of the findings in order keeps the findings in order. -/
theorem check_relocated (hf : ∀ a ∈ d.findings, ∀ b ∈ d.findings,
      a.location.notAfter b.location = (f a.location).notAfter (f b.location)) :
    (d.relocated f).check = d.check.map (·.relocated f) := by
  unfold check
  rw [findings_relocated]
  exact (List.map_mergeSort (f := Diagnostic.relocated f) hf).symm

end Document

end Tariff
