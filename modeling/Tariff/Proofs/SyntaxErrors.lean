import Tariff.Proofs.LexicalErrors
import Tariff.Proofs.Reprinting
import Tariff.Proofs.StalledDocuments

/-!
# Where the errors of the parser are

Tokens that are left stand behind the longest beginning that is a document. Where something is
expected, the tokens before it are the beginning of a document, and no longer beginning is one, except
for an operator that no operand follows: such an operator is reported itself
(`Document.ofTokens_error_located`).
-/

namespace Tariff

/-- The tokens at the front of a source are all the tokens of another one. -/
lemma exists_tokenize_take {source : String} {tokens : List Token}
    (h : tokenize source = .ok tokens) (i : Nat) :
    ∃ source', tokenize source' = .ok (tokens.take i) := by
  suffices htake : ∀ i, ∃ s, s <+: source.toList ∧ tokenizeFrom .start s = .ok (tokens.take i) by
    obtain ⟨s, -, hs⟩ := htake i
    exact ⟨String.ofList s, by rw [tokenize, String.toList_ofList, hs]⟩
  refine tokenizeFrom_induction (motive := fun l s tokens =>
    ∀ i, ∃ s', s' <+: s ∧ tokenizeFrom l s' = .ok (tokens.take i)) ?_ ?_ h
  · intro l i
    exact ⟨[], List.nil_prefix, by rw [tokenizeFrom, if_pos rfl, List.take_nil]⟩
  · intro l kind lexeme rest tokens hkind hcut ih i
    have hlexeme {rest' : List Char} (hrest : rest' <+: rest) :=
      tokenizeFrom_lexeme l rest' hkind hcut fun k hk => hk.shortened hrest
    cases kind with
    | blank =>
      obtain ⟨s, hs, hrun⟩ := ih i
      refine ⟨lexeme ++ s, (List.prefix_append_right_inj lexeme).mpr hs, ?_⟩
      rw [hlexeme hs, hrun]
      rfl
    | token kind =>
      cases i with
      | zero => exact ⟨[], List.nil_prefix, by rw [tokenizeFrom, if_pos rfl, List.take_zero]⟩
      | succ i =>
        obtain ⟨s, hs, hrun⟩ := ih i
        refine ⟨lexeme ++ s, (List.prefix_append_right_inj lexeme).mpr hs, ?_⟩
        rw [hlexeme hs, hrun]
        rfl

lemma exists_lexes {words : List Word} (h : ∀ w ∈ words, w.Lexical) :
    ∃ line : String, Lexes line.toList words [] := by
  suffices hchars : ∃ s, Lexes s words [] by
    obtain ⟨s, hs⟩ := hchars
    exact ⟨String.ofList s, by rwa [String.toList_ofList]⟩
  induction words with
  | nil => exact ⟨[], .nil []⟩
  | cons w words ih =>
    rw [List.forall_mem_cons] at h
    obtain ⟨s, hs⟩ := ih h.2
    exact ⟨_, .after_spaced h.1 hs⟩

/-- The tokens at the front of a source and any words are the tokens of a source. -/
lemma exists_tokenize_take_append {source : String} {tokens : List Token}
    (h : tokenize source = .ok tokens) (i : Nat) {words : List Word} (hwords : ∀ w ∈ words, w.Lexical) :
    ∃ (source' : String) (added : List Token), added.map Token.word = words ∧
      tokenize source' = .ok (tokens.take i ++ added) := by
  obtain ⟨front, hfront⟩ := exists_tokenize_take h i
  obtain ⟨line, hline⟩ := exists_lexes hwords
  obtain ⟨added, hadded, hrun⟩ := exists_tokenize_line hfront hline
  exact ⟨_, added, hadded, hrun⟩

/-- A document starts with the tokens, at the places where they are. -/
def StartsDocument (ts : List Token) : Prop :=
  ∃ (source : String) (us : List Token) (d : Document),
    tokenize source = .ok (ts ++ us) ∧ Document.ofTokens (ts ++ us) = .ok d

/-- The tokens are those of a whole document. -/
def IsDocument (ts : List Token) : Prop :=
  ∃ d, Document.ofTokens ts = .ok d

/-- Of the beginnings of the tokens, the longest one for which `P` holds has `k` tokens. -/
def LongestBeginning (P : List Token → Prop) (tokens : List Token) (k : Nat) : Prop :=
  k ≤ tokens.length ∧ P (tokens.take k) ∧ ∀ j ≤ tokens.length, P (tokens.take j) → j ≤ k

/-- At `i` stands one of the operators that an operand follows, where an operand could stand instead, and
no operand follows it. -/
structure SignWithoutOperand (tokens : List Token) (i : Nat) : Prop where
  sign : ∃ t, tokens[i]? = some t ∧ t.text ∈ ["!", "-"]
  position : ∀ (os : List Token) (x : Formula .factor), Derives os x → (∀ t ∈ os, t.word.Lexical) →
    ∃ us : List Token, us.map Token.word = os.map Token.word ∧ StartsDocument (tokens.take i ++ us)
  alone : ∀ (os : List Token) (x : Formula .atom), Derives os x → os.head? ≠ tokens[i + 1]?

section Beginnings

variable {source : String} {tokens : List Token}

/-- What is derived with a document wherever it stands is the beginning of a document behind the front of
any source. -/
lemma exists_startsDocument (htokens : tokenize source = .ok tokens) {i : Nat} {os vs : List Token}
    {d : Document} (hd : DerivesDocument (tokens.take i ++ (os ++ vs)) d)
    (hos : ∀ t ∈ os, t.word.Lexical) (hvs : ∀ t ∈ vs, t.word.Lexical) :
    ∃ us : List Token, us.map Token.word = os.map Token.word ∧
      StartsDocument (tokens.take i ++ us) := by
  have hwords : ∀ w ∈ (os ++ vs).map Token.word, w.Lexical := by
    rw [List.forall_mem_map, List.forall_mem_append]
    exact ⟨hos, hvs⟩
  obtain ⟨source', added, hadded, hrun⟩ := exists_tokenize_take_append htokens i hwords
  rw [List.map_append] at hadded
  obtain ⟨us, ws, rfl, hus, hws⟩ := List.map_eq_append_iff.mp hadded
  have hlex : ∀ t ∈ tokens.take i ++ (os ++ vs), t.word.Lexical := by
    rw [List.forall_mem_append, List.forall_mem_append]
    exact ⟨fun t ht => lexical_of_tokenizeFrom htokens t (List.mem_of_mem_take ht), hos, hvs⟩
  have hsame : (tokens.take i ++ (us ++ ws)).map Token.word = d.words := by
    rw [← (hd.recorded hlex).map_word]
    simp only [List.map_append, hus, hws]
  obtain ⟨e, he, -⟩ := Document.exists_derives (hd.readable hlex) hsame
  have hparse := Document.ofTokens_of_derives he (lexical_of_tokenizeFrom hrun)
  rw [← List.append_assoc] at hrun hparse
  exact ⟨us, hus, source', ws, e, hrun, hparse⟩

lemma startsDocument_take (htokens : tokenize source = .ok tokens) {i : Nat} {vs : List Token}
    {d : Document} (hd : DerivesDocument (tokens.take i ++ vs) d) (hvs : ∀ t ∈ vs, t.word.Lexical) :
    StartsDocument (tokens.take i) := by
  have hnone : ∀ t ∈ ([] : List Token), t.word.Lexical := by simp
  obtain ⟨us, hus, hstarts⟩ := exists_startsDocument htokens hd hnone hvs
  rw [List.map_eq_nil_iff.mp hus, List.append_nil] at hstarts
  exact hstarts

end Beginnings

namespace Document

open FormulaParser

section Runs

variable {ts rest : List Token} {e : ParseError}

lemma ofTokens_of_fails (h : Parser.Fails formulaGrammar.run document ts e rest) :
    ofTokens ts = .error e := by
  rw [ofTokens, show document.reply ts = _ from h]

lemma ofTokens_of_accepts_cons {d : Document} {t : Token}
    (h : Parser.Accepts formulaGrammar.run document ts d (t :: rest)) :
    ofTokens ts = .error (.trailingInput t) := by
  rw [ofTokens, show document.reply ts = _ from h]

lemma not_declines_document : ¬Parser.Declines formulaGrammar.run document ts := by
  intro h
  obtain hgroups | ⟨_, _, -, hdefinitions⟩ := Parser.declines_seq.mp (Parser.declines_map.mp h)
  · exact Parser.not_declines_many hgroups
  · exact Parser.not_declines_many hdefinitions

/-- Tokens that are no document have some left behind a document, or are given up. -/
lemma exists_run_of_error (h : ofTokens ts = .error e) :
    (∃ d t rest, Parser.Accepts formulaGrammar.run document ts d (t :: rest) ∧ e = .trailingInput t) ∨
      ∃ rest, Parser.Fails formulaGrammar.run document ts e rest := by
  rcases hrun : document.reply ts with ⟨d | _ | e', rest⟩
  · cases rest with
    | nil =>
      rw [ofTokens, hrun] at h
      cases h
    | cons t rest =>
      rw [ofTokens_of_accepts_cons hrun] at h
      exact .inl ⟨d, t, rest, hrun, (Except.error.inj h).symm⟩
  · exact (not_declines_document (congrArg Reply.outcome hrun)).elim
  · rw [ofTokens_of_fails hrun] at h
    obtain rfl := Except.error.inj h
    exact .inr ⟨rest, hrun⟩

/-- Where the beginning of a document cannot go on, no document starts with the tokens. -/
lemma not_startsDocument {more : List Token} {need : Need} (h : StallsDocument ts need)
    (hmissing : ∀ us, need.Missing (more ++ us)) : ¬StartsDocument (ts ++ more) := by
  rintro ⟨source, us, d, hrun, hparse⟩
  have hlex := lexical_of_tokenizeFrom hrun
  rw [List.append_assoc] at hparse hlex
  obtain ⟨e, left, hfails⟩ :=
    exists_fails_document h (List.forall_mem_append.mp hlex).1 (hmissing us)
  rw [ofTokens_of_fails hfails] at hparse
  cases hparse

end Runs

section Places

variable {source : String} {tokens : List Token}

lemma getElem?_append_length (ts rest : List Token) : (ts ++ rest)[ts.length]? = rest.head? := by
  rw [List.getElem?_append_right (Nat.le_refl _), Nat.sub_self, List.head?_eq_getElem?]

/-- A beginning that reaches beyond the first part has the next token. -/
lemma exists_take_append {ts rest : List Token} {j : Nat} (hj : j ≤ (ts ++ rest).length)
    (hlt : ts.length < j) : ∃ (t : Token) (us vs : List Token),
      rest = t :: (us ++ vs) ∧ (ts ++ rest).take j = ts ++ t :: us := by
  obtain ⟨m, rfl⟩ := Nat.exists_eq_add_of_lt hlt
  cases rest with
  | nil =>
    rw [List.append_nil] at hj
    omega
  | cons t rest =>
    refine ⟨t, rest.take m, rest.drop m, by rw [List.take_append_drop], ?_⟩
    rw [Nat.add_assoc, List.take_length_add_append, List.take_succ_cons]

/-- Behind a document that the rest does not go on, no longer beginning is a document: the parser leaves
the next token there as well. -/
lemma le_of_isDocument {us vs rest : List Token} {d : Document}
    (hus : DerivesEach DerivesInjectable us d.injectables)
    (hvs : DerivesEach DerivesDefinition vs d.definitions)
    (hlex : ∀ t ∈ us ++ vs, t.word.Lexical) (hends : DocumentEnds d.injectables d.definitions vs rest)
    {j : Nat} (hj : j ≤ (us ++ vs ++ rest).length) (h : IsDocument ((us ++ vs ++ rest).take j)) :
    j ≤ (us ++ vs).length := by
  by_contra hlt
  obtain ⟨t, ws, left, rfl, htake⟩ := exists_take_append hj (Nat.lt_of_not_le hlt)
  have hshorter : t :: ws <+: t :: (ws ++ left) := List.prefix_append (t :: ws) left
  have hstill := accepts_document hus hvs hlex (hends.shortened hshorter)
  rw [← List.append_assoc] at hstill
  obtain ⟨e, he⟩ := h
  rw [htake, ofTokens_of_accepts_cons hstill] at he
  cases he

/-- The first token that is left stands behind the longest beginning that is a document. -/
lemma exists_longestBeginning_of_trailing (hlex : ∀ t ∈ tokens, t.word.Lexical) {t : Token}
    (h : ofTokens tokens = .error (.trailingInput t)) :
    ∃ i, tokens[i]? = some t ∧ LongestBeginning IsDocument tokens i := by
  obtain ⟨d, u, rest, haccepts, herror⟩ | ⟨rest, hfails⟩ := exists_run_of_error h
  · obtain rfl := ParseError.trailingInput.inj herror
    obtain ⟨us, vs, htokens, hus, hvs, hends⟩ := exists_documentEnds_of_accepts haccepts
    rw [← List.append_assoc] at htokens
    subst htokens
    have hlex' := (List.forall_mem_append.mp hlex).1
    have hdocument : IsDocument ((us ++ vs ++ t :: rest).take (us ++ vs).length) := by
      rw [List.take_left]
      exact ⟨_, ofTokens_of_derives (.document hus hvs) hlex'⟩
    exact ⟨(us ++ vs).length, getElem?_append_length _ _, by simp, hdocument,
      fun j hj => le_of_isDocument hus hvs hlex' hends hj⟩
  · obtain ⟨-, description, -, herror⟩ := documentStallsBefore_of_fails hfails
    cases herror

/-- What has to follow is seen to be missing from the first token, or from the one behind a sign that no
atom follows. -/
lemma missing_cases {need : Need} {rest : List Token} (h : need.Missing rest) :
    (∀ t rest', rest = t :: rest' → ∀ more, need.Missing (t :: more)) ∨
      need = .operand ∧ ∃ t rest', rest = t :: rest' ∧ t.text ∈ ["!", "-"] ∧ AtomMissing rest' := by
  cases need with
  | operand =>
    cases rest with
    | nil => exact .inl fun t rest' hrest => by cases hrest
    | cons t rest =>
      by_cases ht : t.text ∈ ["!", "-"]
      · rw [Need.Missing, if_pos ht] at h
        exact .inr ⟨rfl, t, rest, rfl, ht, h⟩
      · rw [Need.Missing, if_neg ht] at h
        refine .inl fun u rest' hrest more => ?_
        obtain ⟨rfl, rfl⟩ := List.cons.inj hrest
        rw [Need.Missing, if_neg ht]
        exact h
  | word text =>
    refine .inl fun t rest' hrest more => ?_
    subst hrest
    exact ⟨.cons (forall_head?_cons.mp h.1) more, forall_head?_cons.mpr (forall_head?_cons.mp h.2)⟩

/-- Behind the beginning of a document that cannot go on with the next token, no longer one is the
beginning of a document. -/
lemma le_of_startsDocument {ts rest : List Token} {need : Need} (h : StallsDocument ts need)
    (hmissing : ∀ t rest', rest = t :: rest' → ∀ more, need.Missing (t :: more)) {j : Nat}
    (hj : j ≤ (ts ++ rest).length) (hstarts : StartsDocument ((ts ++ rest).take j)) : j ≤ ts.length := by
  by_contra hlt
  obtain ⟨t, us, vs, rfl, htake⟩ := exists_take_append hj (Nat.lt_of_not_le hlt)
  rw [htake] at hstarts
  exact not_startsDocument h (fun more => hmissing t _ rfl _) hstarts

/-- Behind the beginning of a document and a sign that no atom follows, no longer one is the beginning of
a document. -/
lemma le_succ_of_startsDocument {ts rest : List Token} {t : Token} (h : StallsDocument ts .operand)
    (ht : t.text ∈ ["!", "-"]) (hmissing : AtomMissing rest) {j : Nat}
    (hj : j ≤ (ts ++ t :: rest).length) (hstarts : StartsDocument ((ts ++ t :: rest).take j)) :
    j ≤ ts.length + 1 := by
  by_contra hlt
  rw [List.append_cons] at hj hstarts
  obtain ⟨u, us, vs, rfl, htake⟩ := exists_take_append hj (by simpa using hlt)
  rw [htake, ← List.append_cons] at hstarts
  refine not_startsDocument h (fun more => ?_) hstarts
  rw [List.cons_append, Need.Missing, if_pos ht]
  exact forall_head?_cons.mpr (forall_head?_cons.mp hmissing)

lemma signWithoutOperand {ts rest : List Token} {t : Token}
    (htokens : tokenize source = .ok (ts ++ t :: rest)) (h : StallsDocument ts .operand)
    (ht : t.text ∈ ["!", "-"]) (hmissing : AtomMissing rest) :
    SignWithoutOperand (ts ++ t :: rest) ts.length where
  sign := ⟨t, getElem?_append_length _ _, ht⟩
  position os x hx hos := by
    obtain ⟨vs, d, hd, hvs⟩ := h.exists_derives (.operand hx)
    exact exists_startsDocument htokens (by rwa [List.take_left]) hos hvs
  alone os x hx hsame := by
    obtain ⟨u, us, rfl, hu⟩ := hx.exists_startsAtom
    have hnext : (ts ++ t :: rest)[ts.length + 1]? = rest.head? := by
      rw [List.getElem?_append_right (Nat.le_add_right _ 1), Nat.add_sub_cancel_left,
        List.getElem?_cons_succ, List.head?_eq_getElem?]
    rw [hnext] at hsame
    exact hmissing u hsame.symm hu

lemma startsDocument_of_stalls {ts rest : List Token} {need : Need}
    (htokens : tokenize source = .ok (ts ++ rest)) (h : StallsDocument ts need) :
    StartsDocument ((ts ++ rest).take ts.length) := by
  obtain ⟨os, hmeets, hos⟩ := h.exists_meets
  obtain ⟨vs, d, hd, hvs⟩ := h.exists_derives hmeets
  exact startsDocument_take htokens (by rwa [List.take_left]) (List.forall_mem_append.mpr ⟨hos, hvs⟩)

/-- Where an operand has to follow, a sign may come first. -/
lemma startsDocument_sign {ts rest : List Token} {t : Token}
    (htokens : tokenize source = .ok (ts ++ t :: rest)) (h : StallsDocument ts .operand)
    (ht : t.text ∈ ["!", "-"]) : StartsDocument ((ts ++ t :: rest).take (ts.length + 1)) := by
  obtain ⟨op, hop⟩ := exists_unary.mp ht
  let zero : Token := ⟨.number, "0", .start⟩
  have hzero : zero.word.Lexical := by decide
  have hoperand : Derives [t, zero] (.factor (some op) (.number zero.terminal)) :=
    .unary hop (.number rfl)
  obtain ⟨vs, d, hd, hvs⟩ := h.exists_derives (.operand hoperand)
  have hwhole : DerivesDocument ((ts ++ t :: rest).take (ts.length + 1) ++ zero :: vs) d := by
    rw [List.take_length_add_append, List.take_succ_cons, List.take_zero]
    simpa using hd
  exact startsDocument_take htokens hwhole (List.forall_mem_cons.mpr ⟨hzero, hvs⟩)

/-- Where something is expected, the tokens are the beginning of a document, and the longest one unless
there is a sign that no operand follows. -/
lemma exists_longestBeginning_of_expected (htokens : tokenize source = .ok tokens)
    {description : String} {found : Option Token}
    (h : ofTokens tokens = .error (.expected description found)) :
    description ≠ "a program" ∧ ∃ i ≤ tokens.length, tokens[i]? = found ∧
      StartsDocument (tokens.take i) ∧ ∃ k, LongestBeginning StartsDocument tokens k ∧
        (k = i ∨ k = i + 1 ∧ SignWithoutOperand tokens i) := by
  obtain ⟨d, t, rest, -, herror⟩ | ⟨rest, hfails⟩ := exists_run_of_error h
  · cases herror
  · obtain ⟨⟨ts, need, rfl, hstalls, hmissing⟩, description', hdescription, herror⟩ :=
      documentStallsBefore_of_fails hfails
    obtain ⟨rfl, rfl⟩ := ParseError.expected.inj herror
    have hstarts := startsDocument_of_stalls htokens hstalls
    refine ⟨hdescription, ts.length, by simp, getElem?_append_length _ _, hstarts, ?_⟩
    obtain hseen | ⟨rfl, t, rest, rfl, ht, hatom⟩ := missing_cases hmissing
    · exact ⟨ts.length, ⟨by simp, hstarts, fun j hj => le_of_startsDocument hstalls hseen hj⟩, .inl rfl⟩
    · have hsign := startsDocument_sign htokens hstalls ht
      refine ⟨ts.length + 1, ⟨by simp, hsign, fun j hj => ?_⟩,
        .inr ⟨rfl, signWithoutOperand htokens hstalls ht hatom⟩⟩
      exact le_succ_of_startsDocument hstalls ht hatom hj

/-- The parser says where it cannot go on. When tokens are left, the first of them stands behind the
longest beginning of the tokens that is a document. When something is expected, the tokens before the one
that was found, all of them at the end, are the beginning of a document. And no longer beginning of the
tokens is one, or only the one with the next token as well: then that is a sign in the place of an
operand, and no operand follows it. The parser never has to say that a program was expected. -/
theorem ofTokens_error_located (htokens : tokenize source = .ok tokens) :
    (∀ t, ofTokens tokens = .error (.trailingInput t) →
      ∃ i, tokens[i]? = some t ∧ LongestBeginning IsDocument tokens i) ∧
    ∀ description found, ofTokens tokens = .error (.expected description found) →
      description ≠ "a program" ∧ ∃ i ≤ tokens.length, tokens[i]? = found ∧
        StartsDocument (tokens.take i) ∧ ∃ k, LongestBeginning StartsDocument tokens k ∧
          (k = i ∨ k = i + 1 ∧ SignWithoutOperand tokens i) :=
  ⟨fun _ h => exists_longestBeginning_of_trailing (lexical_of_tokenizeFrom htokens) h,
    fun _ _ h => exists_longestBeginning_of_expected htokens h⟩

/-- A source in which no operand follows the first of two signs. -/
def signSource : String := "a = 2 * - - b"

def signTokens : List Token :=
  [⟨.identifier, "a", ⟨1, 0⟩⟩, ⟨.symbol, "=", ⟨1, 2⟩⟩, ⟨.number, "2", ⟨1, 4⟩⟩, ⟨.symbol, "*", ⟨1, 6⟩⟩,
    ⟨.symbol, "-", ⟨1, 8⟩⟩, ⟨.symbol, "-", ⟨1, 10⟩⟩, ⟨.identifier, "b", ⟨1, 12⟩⟩]

/-- The first sign is reported, though a document could start with it as well. -/
theorem ofTokens_signTokens_located :
    tokenize signSource = .ok signTokens ∧ ofTokens signTokens =
      .error (.expected "a factor after the operator" (some ⟨.symbol, "-", ⟨1, 8⟩⟩)) ∧
    ∃ i ≤ signTokens.length, signTokens[i]? = some ⟨.symbol, "-", ⟨1, 8⟩⟩ ∧
      StartsDocument (signTokens.take i) ∧ ∃ k, LongestBeginning StartsDocument signTokens k ∧
        (k = i ∨ k = i + 1 ∧ SignWithoutOperand signTokens i) := by
  have htokens : tokenize signSource = .ok signTokens := by cbv
  have hparse : ofTokens signTokens =
      .error (.expected "a factor after the operator" (some ⟨.symbol, "-", ⟨1, 8⟩⟩)) := by cbv
  exact ⟨htokens, hparse, ((ofTokens_error_located htokens).2 _ _ hparse).2⟩

end Places

end Document

end Tariff
