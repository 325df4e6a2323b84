import Tariff.Check
import Tariff.Document.Source
import Tariff.Proofs.Reprinting
import Tariff.Proofs.Tiling

/-!
# Where the words of a document stand

The words that a document keeps of its source stand at places that go up (`pairwise_before_leaves`).
The names in its groups, of its definitions and in its formulas are among them, each in source order.
-/

namespace Tariff

lemma Formula.names_sublist_leaves {l : Level} (f : Formula l) :
    (f.names.map (·.token .identifier)).Sublist f.leaves := by
  induction f with
  | operand x ih => exact ih
  | link left op right ihl ihr =>
    rw [names, List.map_append]
    exact ihl.append ihr
  | plain x ih => exact ih
  | compare left op right ihl ihr =>
    rw [names, List.map_append]
    exact ihl.append ihr
  | factor op x ih => exact ih
  | number word => exact List.nil_sublist _
  | boolean value location => exact List.nil_sublist _
  | parentheses x ih => exact ih
  | conditional condition yes no ihc ihy ihn =>
    rw [names, List.map_append, List.map_append, List.append_assoc]
    exact ihc.append (ihy.append ihn)
  | name word => exact List.Sublist.refl _

namespace Document

variable {source : String} {d : Document}

lemma exists_tokens_of_ofSource (h : ofSource source = .ok d) :
    ∃ tokens : List Token, tokenize source = .ok tokens ∧ ofTokens tokens = .ok d := by
  unfold ofSource at h
  cases htokens : tokenize source with
  | error e =>
    rw [htokens] at h
    cases h
  | ok tokens =>
    rw [htokens] at h
    change (ofTokens tokens).mapError SourceError.syntactic = .ok d at h
    cases hparse : ofTokens tokens with
    | error e =>
      rw [hparse] at h
      cases h
    | ok e =>
      rw [hparse] at h
      obtain rfl := Except.ok.inj h
      exact ⟨tokens, rfl, hparse⟩

lemma ofSource_of_ofTokens {tokens : List Token} (htokens : tokenize source = .ok tokens)
    (hparse : ofTokens tokens = .ok d) : ofSource source = .ok d := by
  unfold ofSource
  rw [htokens]
  change (ofTokens tokens).mapError SourceError.syntactic = .ok d
  rw [hparse]
  rfl

lemma recorded_of_ofTokens {tokens : List Token} (htokens : tokenize source = .ok tokens)
    (hparse : ofTokens tokens = .ok d) : Recorded tokens d.words d.leaves :=
  (derives_of_ofTokens hparse).recorded (lexical_of_tokenizeFrom htokens)

lemma readable_of_ofTokens {tokens : List Token} (htokens : tokenize source = .ok tokens)
    (hparse : ofTokens tokens = .ok d) : d.Readable :=
  (derives_of_ofTokens hparse).readable (lexical_of_tokenizeFrom htokens)

theorem pairwise_before_leaves (h : ofSource source = .ok d) :
    d.leaves.Pairwise fun t u => t.location.Before u.location := by
  obtain ⟨tokens, htokens, hparse⟩ := exists_tokens_of_ofSource h
  have hkeeps := (recorded_of_ofTokens htokens hparse).keeps
  exact (pairwise_before_of_tokenize htokens).sublist hkeeps.sublist

lemma injectableTerms_sublist_leaves (d : Document) :
    (d.injectableTerms.map (·.token .identifier)).Sublist d.leaves := by
  rw [injectableTerms, List.map_flatMap]
  have hgroups := List.Sublist.flatMap_right d.injectables
    (f := fun i => i.names.map (·.token .identifier)) (g := Injectable.leaves) fun i _ => by
      rw [Injectable.leaves, ← List.map_eq_flatMap]
      exact List.sublist_cons_self _ _
  exact hgroups.trans (List.sublist_append_left _ _)

lemma declaredTerms_sublist_leaves (d : Document) :
    (d.declaredTerms.map (·.token .identifier)).Sublist d.leaves := by
  rw [declaredTerms, List.map_map, List.map_eq_flatMap]
  have hnames := List.Sublist.flatMap_right d.definitions
    (f := fun e => [e.name.token .identifier]) (g := Definition.leaves) fun e _ =>
      List.singleton_sublist.mpr List.mem_cons_self
  exact hnames.trans (List.sublist_append_right _ _)

lemma mentions_sublist_leaves (d : Document) :
    (d.mentions.map (·.token .identifier)).Sublist d.leaves := by
  rw [mentions, List.map_flatMap]
  have hbodies := List.Sublist.flatMap_right d.definitions
    (f := fun e => e.body.names.map (·.token .identifier)) (g := Definition.leaves) fun e _ =>
      (e.body.names_sublist_leaves).trans (List.sublist_cons_self _ _)
  exact hbodies.trans (List.sublist_append_right _ _)

/-- Different words of a source stand at different places. -/
lemma pairwise_location_ne {words : List Terminal} (h : ofSource source = .ok d)
    (hwords : (words.map (·.token .identifier)).Sublist d.leaves) :
    words.Pairwise fun v w => v.location ≠ w.location := by
  have hplaces := (pairwise_before_leaves h).sublist hwords
  rw [List.pairwise_map] at hplaces
  exact hplaces.imp fun hbefore => hbefore.ne

end Document

end Tariff
