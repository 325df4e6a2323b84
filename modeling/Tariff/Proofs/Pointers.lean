import Tariff.Proofs.Reformatting

/-!
# Findings point at words

A finding quotes a name and gives a place. Whoever goes to that line and column in the source finds the
quoted name there, and it is a token of its own. The document uses this token as the finding says
(`Document.check_points_at_words`).
-/

namespace Tariff

/-- What stands behind the first line feeds. -/
def dropLines : ℕ → List Char → List Char
  | 0, s => s
  | n + 1, s => ((dropLines n s).dropWhile (· ≠ '\n')).tail

/-- What stands on a line from a column on. -/
def restOfLine (source : String) (place : Location) : List Char :=
  ((dropLines (place.line - 1) source.toList).takeWhile (· ≠ '\n')).drop place.column

lemma forall_ne_of_not_mem {s : List Char} {c : Char} (h : c ∉ s) : ∀ d ∈ s, decide (d ≠ c) = true :=
  fun _ hd => decide_eq_true (ne_of_mem_of_not_mem hd h)

/-- The line that a text ends on goes on with what stands behind the text. -/
lemma exists_dropLines (s t : List Char) : ∃ line : List Char, '\n' ∉ line ∧
    line.length = (Location.behind s).column ∧
    dropLines ((Location.behind s).line - 1) (s ++ t) = line ++ t := by
  induction s using List.reverseRecOn generalizing t with
  | nil => exact ⟨[], by simp, rfl, rfl⟩
  | append_singleton s c ih =>
    obtain ⟨line, hline, hlength, hdrop⟩ := ih (c :: t)
    rw [List.append_assoc, List.singleton_append, Location.behind_concat, Location.next]
    by_cases hc : c = '\n'
    · subst hc
      refine ⟨[], by simp, by simp, ?_⟩
      have hfeeds : (Location.behind s).line = (Location.behind s).line - 1 + 1 := by
        simp [Location.behind, Nat.add_comm]
      rw [if_pos rfl, Nat.add_sub_cancel, hfeeds, dropLines, hdrop,
        List.dropWhile_append_of_pos (forall_ne_of_not_mem hline),
        List.dropWhile_cons_of_neg (by simp)]
      rfl
    · rw [if_neg hc]
      exact ⟨line ++ [c], by simp [hline, Ne.symm hc], by simp [hlength], by simp [hdrop]⟩

lemma restOfLine_behind {source : String} {left right : List Char}
    (h : source.toList = left ++ right) :
    restOfLine source (.behind left) = right.takeWhile (· ≠ '\n') := by
  obtain ⟨line, hline, hlength, hdrop⟩ := exists_dropLines left right
  rw [restOfLine, h, hdrop, List.takeWhile_append_of_pos (forall_ne_of_not_mem hline), ← hlength,
    List.drop_left]

/-- The text between the first two apostrophes of a message. -/
def quoted (message : String) : String :=
  String.ofList ((message.toList.dropWhile (· ≠ '\x27')).tail.takeWhile (· ≠ '\x27'))

lemma quoted_of_split {message name : String} {before after : List Char}
    (h : message.toList = before ++ '\x27' :: (name.toList ++ '\x27' :: after))
    (hbefore : '\x27' ∉ before) (hname : '\x27' ∉ name.toList) : quoted message = name := by
  rw [quoted, h, List.dropWhile_append_of_pos (forall_ne_of_not_mem hbefore),
    List.dropWhile_cons_of_neg (by simp), List.tail_cons,
    List.takeWhile_append_of_pos (forall_ne_of_not_mem hname), List.takeWhile_cons_of_neg (by simp),
    List.append_nil, String.ofList_toList]

lemma Problem.exists_message (problem : Problem) (name : String) :
    ∃ subject ∈ ["Injectable ", "Term "], ∃ verdict : List Char,
      (problem.message name).toList =
        subject.toList ++ '\x27' :: (name.toList ++ '\x27' :: verdict) := by
  cases problem with
  | unusedInjectable =>
    exact ⟨"Injectable ", by simp, " is unused.".toList, by simp [message]⟩
  | duplicateInjectable =>
    exact ⟨"Injectable ", by simp, " is declared several times.".toList, by simp [message]⟩
  | duplicateTerm =>
    exact ⟨"Term ", by simp, " is declared several times.".toList, by simp [message]⟩
  | circularDefinition =>
    exact ⟨"Term ", by simp, " has a circular definition.".toList, by simp [message]⟩
  | notFullyDefined =>
    exact ⟨"Term ", by simp, " is not fully defined.".toList, by simp [message]⟩
  | notDeclared => exact ⟨"Term ", by simp, " is not declared.".toList, by simp [message]⟩

/-- A message quotes the name that it is about. -/
lemma Problem.quoted_message (problem : Problem) {name : String} (h : '\x27' ∉ name.toList) :
    quoted (problem.message name) = name := by
  have hsubjects : ∀ subject ∈ ["Injectable ", "Term "], '\x27' ∉ subject.toList := by decide
  obtain ⟨subject, hsubject, verdict, hmessage⟩ := problem.exists_message name
  exact quoted_of_split hmessage (hsubjects subject hsubject) h

lemma not_mem_of_isIdentifier {s : List Char} (h : isIdentifier s = true) {c : Char}
    (hc : LexemeClass.continuesIdentifier c = false) : c ∉ s := by
  intro hmem
  cases s with
  | nil => cases h
  | cons first s =>
    rw [isIdentifier, Bool.and_eq_true, List.all_eq_true] at h
    have hcontinues : LexemeClass.continuesIdentifier c = true := by
      rcases List.mem_cons.mp hmem with rfl | hmem
      · exact LexemeClass.continuesIdentifier_of_startsIdentifier h.1
      · exact h.2 c hmem
    rw [hc] at hcontinues
    cases hcontinues

/-- A name is written at a place of a source, and it is a whole token there. -/
structure StandsAt (source name : String) (place : Location) : Prop where
  written : name.toList <+: restOfLine source place
  whole : ∃ tokens, tokenize source = .ok tokens ∧ ⟨.identifier, name, place⟩ ∈ tokens

namespace Document

variable {d : Document} {source : String}

/-- A word of a document is one that a problem can be about: a name in a group, the name of a
definition, for the two problems of a formula the last one of this name, or a name in a formula. -/
def HasAs (d : Document) : Problem → Terminal → Prop
  | .unusedInjectable, word | .duplicateInjectable, word => ∃ i ∈ d.injectables, word ∈ i.names
  | .duplicateTerm, word => ∃ e ∈ d.definitions, e.name = word
  | .circularDefinition, word | .notFullyDefined, word => ∃ before e after,
      d.definitions = before ++ e :: after ∧ e.name = word ∧ word.text ∉ after.map (·.name.text)
  | .notDeclared, word => ∃ e ∈ d.definitions, word ∈ e.body.names

lemma exists_split_of_mem_effectiveDefinitions {e : Definition} (h : e ∈ d.effectiveDefinitions) :
    ∃ before after, d.definitions = before ++ e :: after ∧
      e.name.text ∉ after.map (·.name.text) := by
  obtain ⟨-, later, earlier, hsplit, hlater⟩ :=
    List.find?_eq_some_iff_append.mp (mem_effectiveDefinitions.mp h)
  refine ⟨earlier.reverse, later.reverse, ?_, ?_⟩
  · rw [← List.reverse_reverse d.definitions, hsplit]
    simp
  · intro hmem
    obtain ⟨x, hx, hname⟩ := List.mem_map.mp hmem
    have hnot := hlater x (List.mem_reverse.mp hx)
    simp [hname] at hnot

lemma hasAs_of_mem_findings {finding : Diagnostic} (h : finding ∈ d.findings) :
    d.HasAs finding.problem finding.word := by
  unfold findings at h
  simp only [List.mem_append, List.mem_map, List.mem_flatMap] at h
  obtain (((⟨w, hw, rfl⟩ | ⟨w, hw, rfl⟩) | ⟨w, hw, rfl⟩) | ⟨e, he, h⟩) | ⟨w, hw, rfl⟩ := h
  · exact List.mem_flatMap.mp (List.mem_of_mem_filter hw)
  · exact List.mem_flatMap.mp (List.mem_of_mem_filter hw)
  · exact List.mem_map.mp (List.mem_of_mem_filter hw)
  · obtain ⟨before, after, hsplit, hlast⟩ := exists_split_of_mem_effectiveDefinitions he
    rcases eq_of_mem_definitionProblems h with rfl | rfl
    · exact ⟨before, e, after, hsplit, rfl, hlast⟩
    · exact ⟨before, e, after, hsplit, rfl, hlast⟩
  · exact List.mem_flatMap.mp (List.mem_of_mem_filter hw)

lemma exists_split_of_mem_leaves (h : ofSource source = .ok d) {word : Terminal}
    (hword : word.token .identifier ∈ d.leaves) :
    ∃ tokens, tokenize source = .ok tokens ∧ ⟨.identifier, word.text, word.location⟩ ∈ tokens ∧
      isIdentifier word.text.toList = true ∧ ∃ left right : List Char,
        source.toList = left ++ (word.text.toList ++ right) ∧ word.location = .behind left := by
  obtain ⟨tokens, htokens, hparse⟩ := exists_tokens_of_ofSource h
  have hlex : ∀ t ∈ tokens, t.word.Lexical := lexical_of_tokenizeFrom htokens
  have hmem : word.token .identifier ∈ tokens :=
    (recorded_of_ofTokens htokens hparse).keeps.sublist.mem hword
  obtain ⟨left, right, hsplit, hplace, -⟩ := (tokenize_eq_ok_iff.mp htokens).exists_split _ hmem
  exact ⟨tokens, htokens, hmem, hlex _ hmem, left, right, hsplit, hplace⟩

/-- Where a finding points, the source has the name that it quotes, as a token of its own, and this
token is what the finding is about. -/
theorem check_points_at_words (h : ofSource source = .ok d) : ∀ finding ∈ d.check,
    StandsAt source (quoted finding.message) finding.location ∧
      d.HasAs finding.problem ⟨quoted finding.message, finding.location⟩ := by
  intro finding hfinding
  rw [mem_check] at hfinding
  obtain ⟨tokens, htokens, hmem, hname, left, right, hsplit, hplace⟩ :=
    exists_split_of_mem_leaves h (token_mem_leaves_of_mem_findings hfinding)
  have hquoted : quoted finding.message = finding.word.text :=
    finding.problem.quoted_message (not_mem_of_isIdentifier hname (by decide))
  rw [hquoted]
  refine ⟨⟨?_, tokens, htokens, hmem⟩, hasAs_of_mem_findings hfinding⟩
  have hline : '\n' ∉ finding.word.text.toList := not_mem_of_isIdentifier hname (by decide)
  rw [Diagnostic.location, hplace, restOfLine_behind hsplit,
    List.takeWhile_append_of_pos (forall_ne_of_not_mem hline)]
  exact List.prefix_append _ _

/-- The undeclared name of a crowded line is found where the finding points. -/
theorem check_points_at_crowdedSource : ofSource crowdedSource = .ok crowdedDocument ∧
    ⟨.notDeclared, ⟨"c", ⟨1, 11⟩⟩⟩ ∈ crowdedDocument.check ∧
    StandsAt crowdedSource "c" ⟨1, 11⟩ ∧ restOfLine crowdedSource ⟨1, 11⟩ = "c a=a".toList ∧
    ∃ e ∈ crowdedDocument.definitions, ⟨"c", ⟨1, 11⟩⟩ ∈ e.body.names := by
  have hsource : ofSource crowdedSource = .ok crowdedDocument := by cbv
  have hfinding : ⟨.notDeclared, ⟨"c", ⟨1, 11⟩⟩⟩ ∈ crowdedDocument.check :=
    List.contains_iff_mem.mp (by cbv)
  have hname : quoted (Problem.notDeclared.message "c") = "c" := by cbv
  obtain ⟨hstands, hrole⟩ := check_points_at_words hsource _ hfinding
  exact ⟨hsource, hfinding, hname ▸ hstands, by cbv, hname ▸ hrole⟩

end Document

end Tariff
