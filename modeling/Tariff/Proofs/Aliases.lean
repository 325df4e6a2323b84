import Tariff.Proofs.Continuation
import Tariff.Proofs.Locality
import Tariff.Proofs.SourcePlaces

/-!
# Other names for a name

A line `other = name` at the end of a source makes `other` stand for `name`: it has the same value, or
fails in the same way (`Document.alias_means_name`). Three names are excepted. A formula reads `true` and
`false` as truth values and `if` as the start of a conditional, also where a document declares them.
-/

namespace Tariff

/-- The source with a last line that makes one name stand for another. -/
def aliasedSource (source other name : String) : String :=
  source ++ "\n" ++ (other ++ " = " ++ name)

lemma Lexes.aliasLine {other name : String} (hother : isIdentifier other.toList = true)
    (hname : isIdentifier name.toList = true) :
    Lexes (other ++ " = " ++ name).toList [.identifier other, .symbol "=", .identifier name] [] := by
  have hend : TokenKind.identifier.EndsBefore [] := by simp [TokenKind.EndsBefore]
  have hsign := (Lexes.identifier name hname hend).after_spaced (w := .symbol "=") (by decide)
  have hline := hsign.identifier_append other hother (by decide)
  rw [String.append_assoc, String.toList_append, String.toList_append]
  exact hline

lemma booleanText_injective : Function.Injective booleanText := by
  decide

lemma mem_reservedWords_iff {name : String} :
    name ∈ reservedWords ↔ name = "if" ∨ ∃ value, name = booleanText value := by
  simp [reservedWords, booleanText, or_comm]

/-- The document with a definition added at its end. -/
def Document.define (d : Document) (e : Definition) : Document :=
  ⟨d.injectables, d.definitions ++ [e]⟩

lemma DerivesDocument.define {ts us : List Token} {d : Document} {e : Definition}
    (h : DerivesDocument ts d) (he : DerivesDefinition us e) :
    DerivesDocument (ts ++ us) (d.define e) := by
  obtain ⟨hinjectables, hdefinitions⟩ := h
  rw [List.append_assoc]
  exact .document hinjectables (hdefinitions.concat he)

lemma Derives.single {ts : List Token} {atom : Formula .atom} (h : Derives ts atom) :
    Derives ts (.single atom) :=
  .operand (.plain (.operand (.operand (.bare h))))

namespace Document

variable {d : Document} {source other name : String} {tokens : List Token}

/-- The last line of an aliased source is read as a definition, if its last word is an atom. -/
lemma exists_ofSource_aliased (htokens : tokenize source = .ok tokens)
    (hparse : ofTokens tokens = .ok d) (hother : isIdentifier other.toList = true)
    (hname : isIdentifier name.toList = true) (atom : Location → Formula .atom)
    (hatom : ∀ t : Token, t.word = .identifier name → Derives [t] (atom t.location)) :
    ∃ place place' : Location, ofSource (aliasedSource source other name) =
      .ok (d.define ⟨⟨other, place⟩, .single (atom place')⟩) := by
  obtain ⟨added, hwords, hrun⟩ := exists_tokenize_line htokens (Lexes.aliasLine hother hname)
  have hlex := lexical_of_tokenizeFrom hrun
  obtain ⟨t, added, rfl, ht, hwords⟩ := List.map_eq_cons_iff.mp hwords
  obtain ⟨sign, added, rfl, hsign, hwords⟩ := List.map_eq_cons_iff.mp hwords
  obtain ⟨u, rfl, hu⟩ := List.map_eq_singleton_iff.mp hwords
  have hdefinition : DerivesDefinition [t, sign, u] ⟨t.terminal, .single (atom u.location)⟩ :=
    .definition (congrArg Word.kind ht) (congrArg Word.text hsign) (hatom u hu).single
  obtain rfl : t.text = other := congrArg Word.text ht
  have hderives := (derives_of_ofTokens hparse).define hdefinition
  exact ⟨t.location, u.location, ofSource_of_ofTokens hrun (ofTokens_of_derives hderives hlex)⟩

end Document

lemma Formula.exists_last_word {l : Level} {f : Formula l} (h : f.Readable) :
    ∃ init w, f.words = init ++ [w] ∧ w ≠ .identifier "if" := by
  induction f with
  | operand x ih => exact ih h
  | link left op right ihl ihr =>
    obtain ⟨init, w, hwords, hw⟩ := ihr h.2
    exact ⟨left.words ++ .symbol op.symbol :: init, w, by simp [words, hwords], hw⟩
  | plain x ih => exact ih h
  | compare left op right ihl ihr =>
    obtain ⟨init, w, hwords, hw⟩ := ihr h.2
    exact ⟨left.words ++ .symbol op.symbol :: init, w, by simp [words, hwords], hw⟩
  | factor op x ih =>
    obtain ⟨init, w, hwords, hw⟩ := ih h
    cases op with
    | none => exact ⟨init, w, hwords, hw⟩
    | some op => exact ⟨.symbol op.symbol :: init, w, by simp [words, hwords], hw⟩
  | number word => exact ⟨[], .number word.text, rfl, by simp [Word.number, Word.identifier]⟩
  | boolean value location => exact ⟨[], _, rfl, by cases value <;> decide⟩
  | parentheses x ih => exact ⟨.symbol "(" :: x.words, .symbol ")", rfl, by decide⟩
  | conditional condition yes no ihc ihy ihn =>
    exact ⟨.identifier "if" :: (condition.words ++ .identifier "then" :: (yes.words ++
      .identifier "else" :: no.words)), .identifier "end", by simp [words], by decide⟩
  | name word =>
    refine ⟨[], .identifier word.text, rfl, fun hif => h.2 ?_⟩
    have htext : word.text = "if" := congrArg Word.text hif
    rw [htext]
    decide

lemma Injectable.sign_not_mem_words (i : Injectable) : .symbol "=" ∉ i.words := by
  obtain ⟨group, names⟩ := i
  cases names with
  | nil => simp [words, nameWords, Word.symbol, Word.identifier]
  | cons first others => simp [words, nameWords, Word.symbol, Word.identifier]

lemma Definitions.fst_enterValue (name : String) (run : Except EvalError Value × Table) :
    (enterValue name run).1 = run.1 := by
  rcases run with ⟨_ | _, _⟩ <;> rfl

namespace Document

variable {d : Document} {source other name : String} {tokens : List Token} {table : Table}

/-- No readable document ends with an `if` right behind a sign. -/
lemma words_ne_append_if (h : d.Readable) (init : List Word) :
    d.words ≠ init ++ [.symbol "=", .identifier "if"] := by
  intro hwords
  obtain ⟨injectables, definitions⟩ := d
  rcases List.eq_nil_or_concat definitions with rfl | ⟨before, e, rfl⟩
  · have hsign : .symbol "=" ∈ words ⟨injectables, []⟩ := by simp [hwords]
    rw [words, List.flatMap_nil, List.append_nil, List.mem_flatMap] at hsign
    obtain ⟨i, -, hi⟩ := hsign
    exact i.sign_not_mem_words hi
  · have he : e.Readable := h.2 e (by simp)
    obtain ⟨body, w, hbody, hw⟩ := Formula.exists_last_word he.2
    have hends : (injectables.flatMap (·.words) ++ (before.flatMap (·.words) ++
        .identifier e.name.text :: .symbol "=" :: body)) ++ [w] =
          (init ++ [.symbol "="]) ++ [.identifier "if"] := by
      simpa [words, Definition.words, hbody] using hwords
    obtain ⟨-, hlast⟩ := List.append_inj' hends rfl
    exact hw (List.singleton_inj.mp hlast)

lemma not_ofSource_aliased_if (htokens : tokenize source = .ok tokens)
    (hother : isIdentifier other.toList = true) (e : Document) :
    ofSource (aliasedSource source other "if") ≠ .ok e := by
  intro hread
  obtain ⟨all, hall, hparse⟩ := exists_tokens_of_ofSource hread
  have hif : isIdentifier "if".toList = true := by decide
  obtain ⟨added, hwords, hrun⟩ := exists_tokenize_line htokens (Lexes.aliasLine hother hif)
  obtain rfl := Except.ok.inj (hall.symm.trans hrun)
  apply words_ne_append_if (readable_of_ofTokens hall hparse)
    (tokens.map Token.word ++ [.identifier other])
  rw [← (recorded_of_ofTokens hall hparse).map_word, List.map_append, hwords]
  simp

lemma definitionOf_define (d : Document) (e : Definition) :
    (d.define e).definitionOf = d.definitionOf.insert e.name.text e.body := by
  simp only [definitionOf, define, Definitions.ofList, List.foldl_append, List.foldl_cons,
    List.foldl_nil]

/-- What is reached from a name is mentioned in a formula of the document. -/
lemma eq_or_mem_mentions_of_reaches (h : d.definitionOf.Reaches table name other) :
    other = name ∨ other ∈ d.mentions.map (·.text) := by
  obtain rfl | ⟨inner, -, -, body, hbody, huse⟩ := Relation.ReflTransGen.cases_tail h
  · exact .inl rfl
  · rw [definitionOf, Definitions.getElem?_ofList] at hbody
    obtain ⟨e, he, rfl⟩ := Option.map_eq_some_iff.mp hbody
    obtain ⟨word, hword, rfl⟩ := List.mem_map.mp huse
    have hmem := List.mem_reverse.mp (List.mem_of_find?_eq_some he)
    exact .inr (List.mem_map_of_mem (List.mem_flatMap.mpr ⟨e, hmem, hword⟩))

/-- A definition that is added at the end gives its name the value of its formula. -/
lemma evaluate_define {e : Definition} (htable : e.name.text ∉ table) :
    ((d.define e).evaluate e.name.text table).1 =
      (e.body.evalM ((d.define e).definitionOf.resolve [e.name.text]) table).1 := by
  have hbody : (d.define e).definitionOf[e.name.text]? = some e.body := by
    rw [definitionOf_define, Definitions.getElem?_insert_name, if_pos rfl]
  rw [evaluate, Definitions.resolve_of_body htable hbody (by simp), Definitions.fst_enterValue]

lemma evaluate_define_name {place place' : Location} (htable : other ∉ table)
    (hreach : ¬d.definitionOf.Reaches table name other) :
    ((d.define ⟨⟨other, place⟩, .single (.name ⟨name, place'⟩)⟩).evaluate other table).1 =
      (d.evaluate name table).1 := by
  have hagree : d.definitionOf.AgreeFrom
      (d.definitionOf.insert other (.single (.name ⟨name, place'⟩))) table table name := by
    intro inner hinner
    refine ⟨rfl, fun _ => ?_⟩
    rw [Definitions.getElem?_insert_name, if_neg]
    rintro rfl
    exact hreach hinner
  have hopen : ∀ inner, d.definitionOf.Reaches table name inner → (inner ∈ [] ↔ inner ∈ [other]) := by
    intro inner hinner
    suffices inner ≠ other by simpa
    rintro rfl
    exact hreach hinner
  have halike := Definitions.resolve_alike hagree hopen .refl
    (⟨fun _ _ => rfl, fun _ h => h⟩ : Definitions.Alike _ table table table)
  have hrun := evaluate_define (d := d) (e := ⟨⟨other, place⟩, .single (.name ⟨name, place'⟩)⟩) htable
  rw [definitionOf_define] at hrun
  rw [hrun, evaluate, halike.outcome]
  rfl

lemma not_mem_of_sublist_leaves (htokens : tokenize source = .ok tokens)
    (hparse : ofTokens tokens = .ok d) (hnew : ∀ t ∈ tokens, t.text ≠ other) {words : List Terminal}
    (hwords : (words.map (·.token .identifier)).Sublist d.leaves) : other ∉ words.map (·.text) := by
  have hsub := hwords.trans (recorded_of_ofTokens htokens hparse).keeps.sublist
  intro hmem
  obtain ⟨word, hword, rfl⟩ := List.mem_map.mp hmem
  exact hnew _ (hsub.mem (List.mem_map_of_mem hword)) rfl

/-- No name of a document reaches one that its source does not know. -/
lemma not_reaches_of_new (htokens : tokenize source = .ok tokens) (hparse : ofTokens tokens = .ok d)
    (hname : name ∈ d.declaredTerms.map (·.text) ∨ name ∈ d.injectableTerms.map (·.text))
    (hnew : ∀ t ∈ tokens, t.text ≠ other) (table : Table) :
    ¬d.definitionOf.Reaches table name other := by
  have hdeclared := not_mem_of_sublist_leaves htokens hparse hnew d.declaredTerms_sublist_leaves
  have hinjected := not_mem_of_sublist_leaves htokens hparse hnew d.injectableTerms_sublist_leaves
  have hmentioned := not_mem_of_sublist_leaves htokens hparse hnew d.mentions_sublist_leaves
  intro hreach
  rcases eq_or_mem_mentions_of_reaches hreach with rfl | hmem
  · exact hname.elim hdeclared hinjected
  · exact hmentioned hmem

lemma Readable.isIdentifier (h : d.Readable)
    (hname : name ∈ d.declaredTerms.map (·.text) ∨ name ∈ d.injectableTerms.map (·.text)) :
    Tariff.isIdentifier name.toList = true := by
  rcases hname with hname | hname
  · obtain ⟨word, hword, rfl⟩ := List.mem_map.mp hname
    obtain ⟨e, he, rfl⟩ := List.mem_map.mp hword
    exact (h.2 e he).1
  · obtain ⟨word, hword, rfl⟩ := List.mem_map.mp hname
    obtain ⟨i, hi, hword⟩ := List.mem_flatMap.mp hword
    exact (h.1 i hi).2.2 word hword

lemma exists_alias_of_booleanText (htokens : tokenize source = .ok tokens)
    (hparse : ofTokens tokens = .ok d) (hother : isIdentifier other.toList = true)
    (htable : other ∉ table) (value : Bool) :
    ∃ e, ofSource (aliasedSource source other (booleanText value)) = .ok e ∧
      (e.evaluate other table).1 = .ok (.boolean value) := by
  obtain ⟨place, place', hread⟩ := exists_ofSource_aliased htokens hparse hother
    (lexical_booleanText value) (.boolean value) fun t ht => .boolean (congrArg Word.text ht)
  exact ⟨_, hread, evaluate_define htable⟩

lemma exists_alias_of_free (htokens : tokenize source = .ok tokens)
    (hparse : ofTokens tokens = .ok d) (hother : isIdentifier other.toList = true)
    (hname : isIdentifier name.toList = true) (hfree : name ∉ reservedWords) (htable : other ∉ table)
    (hreach : ¬d.definitionOf.Reaches table name other) :
    ∃ e, ofSource (aliasedSource source other name) = .ok e ∧
      (e.evaluate other table).1 = (d.evaluate name table).1 := by
  have hatom (t : Token) (ht : t.word = .identifier name) :
      Derives [t] (.name ⟨name, t.location⟩) := by
    obtain ⟨kind, text, location⟩ := t
    cases ht
    exact .name rfl hfree
  obtain ⟨place, place', hread⟩ := exists_ofSource_aliased htokens hparse hother hname
    (fun place => .name ⟨name, place⟩) hatom
  exact ⟨_, hread, evaluate_define_name htable hreach⟩

/-- A line `other = name` at the end of a source that declares the name and knows nothing of the other one
can be read unless the name is `if`. The other name then has the value of the name, or fails as it
does, except that `true` and `false` are truth values in a formula. -/
theorem alias_means_name (htokens : tokenize source = .ok tokens) (hparse : ofTokens tokens = .ok d)
    (hname : name ∈ d.declaredTerms.map (·.text) ∨ name ∈ d.injectableTerms.map (·.text))
    (hother : isIdentifier other.toList = true) (hnew : ∀ t ∈ tokens, t.text ≠ other)
    (htable : other ∉ table) :
    ((∃ e, ofSource (aliasedSource source other name) = .ok e) ↔ name ≠ "if") ∧
      ∀ e, ofSource (aliasedSource source other name) = .ok e →
        (∀ value, name = booleanText value → (e.evaluate other table).1 = .ok (.boolean value)) ∧
        (name ∉ reservedWords → (e.evaluate other table).1 = (d.evaluate name table).1) := by
  have hreach := not_reaches_of_new htokens hparse hname hnew table
  by_cases hreserved : name ∈ reservedWords
  · rcases mem_reservedWords_iff.mp hreserved with rfl | ⟨value, rfl⟩
    · have hnone := not_ofSource_aliased_if htokens hother
      exact ⟨⟨fun ⟨e, he⟩ => (hnone e he).elim, fun h => (h rfl).elim⟩,
        fun e he => (hnone e he).elim⟩
    · obtain ⟨e, hread, hvalue⟩ := exists_alias_of_booleanText htokens hparse hother htable value
      have hif : booleanText value ≠ "if" := by cases value <;> decide
      refine ⟨⟨fun _ => hif, fun _ => ⟨e, hread⟩⟩, fun e' hread' => ⟨fun value' hvalue' => ?_,
        fun hfree => (hfree hreserved).elim⟩⟩
      obtain rfl := Except.ok.inj (hread.symm.trans hread')
      obtain rfl := booleanText_injective hvalue'
      exact hvalue
  · obtain ⟨e, hread, hvalue⟩ := exists_alias_of_free htokens hparse hother
      ((readable_of_ofTokens htokens hparse).isIdentifier hname) hreserved htable hreach
    have hif : name ≠ "if" := mt (fun h => mem_reservedWords_iff.mpr (.inl h)) hreserved
    refine ⟨⟨fun _ => hif, fun _ => ⟨e, hread⟩⟩, fun e' hread' => ⟨fun value hvalue' => ?_,
      fun _ => ?_⟩⟩
    · exact (hreserved (mem_reservedWords_iff.mpr (.inr ⟨value, hvalue'⟩))).elim
    · obtain rfl := Except.ok.inj (hread.symm.trans hread')
      exact hvalue

/-- Two declared names that a formula does not read as names, and one that it does. -/
def wordSource : String := "if = true\ntrue = false\nend = then"

def wordTokens : List Token :=
  [⟨.identifier, "if", ⟨1, 0⟩⟩, ⟨.symbol, "=", ⟨1, 3⟩⟩, ⟨.identifier, "true", ⟨1, 5⟩⟩,
    ⟨.identifier, "true", ⟨2, 0⟩⟩, ⟨.symbol, "=", ⟨2, 5⟩⟩, ⟨.identifier, "false", ⟨2, 7⟩⟩,
    ⟨.identifier, "end", ⟨3, 0⟩⟩, ⟨.symbol, "=", ⟨3, 4⟩⟩, ⟨.identifier, "then", ⟨3, 6⟩⟩]

def wordDocument : Document where
  injectables := []
  definitions := [⟨⟨"if", ⟨1, 0⟩⟩, .single (.boolean true ⟨1, 5⟩)⟩,
    ⟨⟨"true", ⟨2, 0⟩⟩, .single (.boolean false ⟨2, 7⟩)⟩,
    ⟨⟨"end", ⟨3, 0⟩⟩, .single (.name ⟨"then", ⟨3, 6⟩⟩)⟩]

lemma tokenize_wordSource : tokenize wordSource = .ok wordTokens := by cbv

lemma ofTokens_wordTokens : ofTokens wordTokens = .ok wordDocument := by cbv

lemma wordDocument_true :
    wordDocument.definitionOf["true"]? = some (.single (.boolean false ⟨2, 7⟩)) := by decide

lemma wordDocument_end :
    wordDocument.definitionOf["end"]? = some (.single (.name ⟨"then", ⟨3, 6⟩⟩)) := by decide

/-- Another name for `end` has its value. -/
theorem alias_means_end : "end" ∈ wordDocument.declaredTerms.map (·.text) ∧
    (∀ t ∈ wordTokens, t.text ≠ "z") ∧ "z" ∉ (∅ : Table) ∧
    ∃ e, ofSource (aliasedSource wordSource "z" "end") = .ok e ∧
      (e.evaluate "z" ∅).1 = .ok (.text "then") := by
  have hdeclared : "end" ∈ wordDocument.declaredTerms.map (·.text) := by decide
  have hnew : ∀ t ∈ wordTokens, t.text ≠ "z" := by decide
  have htable : "z" ∉ (∅ : Table) := by simp
  obtain ⟨hreads, hmeans⟩ := alias_means_name tokenize_wordSource ofTokens_wordTokens (.inl hdeclared)
    (by decide) hnew htable
  obtain ⟨e, hread⟩ := hreads.mpr (by decide)
  have hthen : wordDocument.definitionOf.Denotes ∅ "then" (.text "then") :=
    .free (by simp) (by decide)
  have hend : wordDocument.definitionOf.Denotes ∅ "end" (.text "then") :=
    .computed (fun _ => .text "then") (by simp) wordDocument_end (by simpa using hthen)
  refine ⟨hdeclared, hnew, htable, e, hread, ?_⟩
  rw [(hmeans e hread).2 (by decide), evaluate, Definitions.resolve_fst_eq_recompute,
    Definitions.recompute_eq_ok_iff]
  exact hend

/-- Another name for `true` does not have the value that is given to `true`, and another name for `if`
cannot be read. -/
theorem alias_differs_from_word : ofSource wordSource = .ok wordDocument ∧
    wordDocument.declaredTerms.map (·.text) = ["if", "true", "end"] ∧
    tokenize wordSource = .ok wordTokens ∧ (∀ t ∈ wordTokens, t.text ≠ "z") ∧
    (wordDocument.evaluate "true" ∅).1 = .ok (.boolean false) ∧
    (∃ e, ofSource (aliasedSource wordSource "z" "true") = .ok e ∧
      (e.evaluate "z" ∅).1 = .ok (.boolean true)) ∧
    ∀ e, ofSource (aliasedSource wordSource "z" "if") ≠ .ok e := by
  have hvalue : (wordDocument.evaluate "true" ∅).1 = .ok (.boolean false) := by
    rw [evaluate, Definitions.resolve_of_body (by simp) wordDocument_true (by simp)]
    rfl
  exact ⟨ofSource_of_ofTokens tokenize_wordSource ofTokens_wordTokens, rfl, tokenize_wordSource,
    by decide, hvalue,
    exists_alias_of_booleanText tokenize_wordSource ofTokens_wordTokens (by decide) (by simp) true,
    not_ofSource_aliased_if tokenize_wordSource (by decide)⟩

end Document

end Tariff
