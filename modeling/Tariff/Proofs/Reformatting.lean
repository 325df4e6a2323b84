import Tariff.Proofs.Findings
import Tariff.Proofs.Relocation

/-!
# Reformatting a document

The text that a document from a source is printed as has the words of the source, in their order. So
what is read back from it is the document at other places, which go up as the old ones do, and no
evaluation and no finding can tell the two apart (`Document.text_keeps_meaning`).
-/

namespace Tariff

variable {f : Location → Location} {ts us : List Token}

/-- Tokens with the words of others are these at other places, if no two of these share a place. -/
lemma exists_relocated (hwords : us.map Token.word = ts.map Token.word)
    (hplaces : ts.Pairwise fun t u => t.location ≠ u.location) :
    ∃ f : Location → Location, us = ts.map (·.relocated f) := by
  induction ts generalizing us with
  | nil => exact ⟨id, List.map_eq_nil_iff.mp hwords⟩
  | cons t ts ih =>
    obtain ⟨u, us, rfl, hword, hwords⟩ := List.map_eq_cons_iff.mp hwords
    rw [List.pairwise_cons] at hplaces
    obtain ⟨f, rfl⟩ := ih hwords hplaces.2
    refine ⟨Function.update f t.location u.location, ?_⟩
    rw [List.map_cons]
    congr 1
    · obtain ⟨kind, text, location⟩ := u
      obtain ⟨rfl, rfl⟩ := Word.mk.inj hword
      simp only [Token.relocated, Function.update_self]
    · apply List.map_congr_left
      intro v hv
      simp only [Token.relocated, Function.update_of_ne (hplaces.1 v hv).symm]

/-- Places that go up before and after a move are in the same order. -/
lemma notAfter_eq_of_pairwise (hbefore : ts.Pairwise fun t u => t.location.Before u.location)
    (hmoved : (ts.map (·.relocated f)).Pairwise fun t u => t.location.Before u.location) :
    ∀ t ∈ ts, ∀ u ∈ ts,
      t.location.notAfter u.location = (f t.location).notAfter (f u.location) := by
  have hboth := hbefore.and (List.pairwise_map.mp hmoved)
  have hself : ∀ t ∈ ts, t.location.notAfter t.location =
      (f t.location).notAfter (f t.location) := by
    intro t _
    rw [Location.notAfter_self, Location.notAfter_self]
  exact List.Pairwise.forall_of_forall_of_flip hself
    (hboth.imp fun h => h.1.notAfter.trans (Location.Before.notAfter h.2).symm)
    (hboth.imp fun h => h.1.not_notAfter.trans (Location.Before.not_notAfter h.2).symm)

namespace Document

variable {d : Document}

/-- What is found in a document is about words that it keeps. -/
lemma token_mem_leaves_of_mem_findings {finding : Diagnostic} (h : finding ∈ d.findings) :
    finding.word.token .identifier ∈ d.leaves := by
  have hinjectable {w : Terminal} (hw : w ∈ d.injectableTerms) : w.token .identifier ∈ d.leaves :=
    d.injectableTerms_sublist_leaves.mem (List.mem_map_of_mem hw)
  have hdeclared {w : Terminal} (hw : w ∈ d.declaredTerms) : w.token .identifier ∈ d.leaves :=
    d.declaredTerms_sublist_leaves.mem (List.mem_map_of_mem hw)
  have hmention {w : Terminal} (hw : w ∈ d.mentions) : w.token .identifier ∈ d.leaves :=
    d.mentions_sublist_leaves.mem (List.mem_map_of_mem hw)
  unfold findings at h
  simp only [List.mem_append, List.mem_map, List.mem_flatMap] at h
  obtain (((⟨w, hw, rfl⟩ | ⟨w, hw, rfl⟩) | ⟨w, hw, rfl⟩) | ⟨e, he, h⟩) | ⟨w, hw, rfl⟩ := h
  · exact hinjectable (List.mem_of_mem_filter hw)
  · exact hinjectable (List.mem_of_mem_filter hw)
  · exact hdeclared (List.mem_of_mem_filter hw)
  · have hname : e.name ∈ d.declaredTerms :=
      List.mem_map_of_mem (List.mem_reverse.mp ((firstOfEachName_sublist _ _).mem he))
    rcases eq_of_mem_definitionProblems h with rfl | rfl
    · exact hdeclared hname
    · exact hdeclared hname
  · exact hmention (List.mem_of_mem_filter hw)

/-- What is read back from the text of a document is this document at other places, in the order of the
old ones. -/
theorem exists_relocated_of_text {source : String} (h : ofSource source = .ok d) :
    ∃ f : Location → Location, ofSource d.text = .ok (d.relocated f) ∧
      ∀ t ∈ d.leaves, ∀ u ∈ d.leaves,
        t.location.notAfter u.location = (f t.location).notAfter (f u.location) := by
  obtain ⟨tokens, htokens, hparse⟩ := exists_tokens_of_ofSource h
  have hlex : ∀ t ∈ tokens, t.word.Lexical := lexical_of_tokenizeFrom htokens
  have hderives := derives_of_ofTokens hparse
  have hrecorded := hderives.recorded hlex
  have hplaces := pairwise_before_of_tokenize htokens
  obtain ⟨printed, hprinted, hwords⟩ := tokenize_text (hderives.readable hlex)
  rw [← hrecorded.map_word] at hwords
  obtain ⟨f, rfl⟩ := exists_relocated hwords (hplaces.imp Location.Before.ne)
  have hreparse := ofTokens_of_derives (hderives.relocated f) (lexical_of_tokenizeFrom hprinted)
  refine ⟨f, ofSource_of_ofTokens hprinted hreparse, fun t ht u hu => ?_⟩
  have hsub := hrecorded.keeps.sublist
  exact notAfter_eq_of_pairwise hplaces (pairwise_before_of_tokenize hprinted) t (hsub.mem ht) u
    (hsub.mem hu)

/-- A document from a source is read back from its text as one that gives every name the same value or
failure and leaves the same table, and in which the same is found, in the same order. -/
theorem text_keeps_meaning {source : String} (h : ofSource source = .ok d) :
    ∃ e, ofSource d.text = .ok e ∧
      (∀ (name : String) (table : Table), e.evaluate name table = d.evaluate name table) ∧
      e.check.map (fun finding => (finding.severity, finding.message)) =
        d.check.map (fun finding => (finding.severity, finding.message)) := by
  obtain ⟨f, hread, horder⟩ := exists_relocated_of_text h
  refine ⟨d.relocated f, hread, evaluate_relocated f d, ?_⟩
  have hcheck : (d.relocated f).check = d.check.map (·.relocated f) := by
    apply check_relocated
    intro a ha b hb
    exact horder _ (token_mem_leaves_of_mem_findings ha) _ (token_mem_leaves_of_mem_findings hb)
  rw [hcheck, List.map_map]
  rfl

/-- A source on one line, with several findings about one word and one name injected twice. -/
def crowdedSource : String := "$g:b,b a=a*c a=a"

def crowdedDocument : Document where
  injectables := [⟨⟨"g", ⟨1, 1⟩⟩, [⟨"b", ⟨1, 3⟩⟩, ⟨"b", ⟨1, 5⟩⟩]⟩]
  definitions :=
    [⟨⟨"a", ⟨1, 7⟩⟩, .operand (.plain (.operand (.link (.operand (.factor none (.name ⟨"a", ⟨1, 9⟩⟩)))
        .multiply (.factor none (.name ⟨"c", ⟨1, 11⟩⟩)))))⟩,
      ⟨⟨"a", ⟨1, 13⟩⟩, .single (.name ⟨"a", ⟨1, 15⟩⟩)⟩]

theorem text_keeps_crowdedSource : ofSource crowdedSource = .ok crowdedDocument ∧
    ∃ e, ofSource crowdedDocument.text = .ok e ∧
      (∀ (name : String) (table : Table),
        e.evaluate name table = crowdedDocument.evaluate name table) ∧
      e.check.map (fun finding => (finding.severity, finding.message)) =
        [(.warning, "Injectable 'b' is unused."),
          (.error, "Injectable 'b' is declared several times."),
          (.warning, "Injectable 'b' is unused."),
          (.error, "Injectable 'b' is declared several times."),
          (.error, "Term 'a' is declared several times."),
          (.error, "Term 'c' is not declared."),
          (.error, "Term 'a' is declared several times."),
          (.error, "Term 'a' has a circular definition.")] := by
  have hsource : ofSource crowdedSource = .ok crowdedDocument := by cbv
  obtain ⟨e, hread, hevaluate, hcheck⟩ := text_keeps_meaning hsource
  refine ⟨hsource, e, hread, hevaluate, hcheck.trans ?_⟩
  cbv

end Document

end Tariff
