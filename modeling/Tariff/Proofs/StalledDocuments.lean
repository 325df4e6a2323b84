import Tariff.Proofs.FailedReading

/-!
# Documents that are not read to the end

The parser gives a document up in a formula that is not finished, which is the last thing of the
beginning of a document (`StallsDocument`). It gives up there whatever comes later
(`exists_fails_document`). Else it reads groups and definitions as long as there are any, and stops
behind the last one (`exists_documentEnds_of_accepts`).
-/

namespace Tariff

open Tariff.Parser

/-- The tokens are the beginning of a document, up to a place in a definition where the need has to be
met. -/
inductive StallsDocument : List Token → Need → Prop where
  | body {ts us vs : List Token} {injectables : List Injectable} {definitions : List Definition}
      {name sign : Token} {need : Need} (hinjectables : DerivesEach DerivesInjectable ts injectables)
      (hdefinitions : DerivesEach DerivesDefinition us definitions) (hname : name.kind = .identifier)
      (hsign : sign.text = "=") (hbody : Stalls (.chain .logic) vs need) :
    StallsDocument (ts ++ (us ++ name :: sign :: vs)) need

/-- The beginning of a document goes on with whatever meets its need. -/
theorem StallsDocument.exists_derives {ts os : List Token} {need : Need} (h : StallsDocument ts need)
    (hmeets : need.Meets os) : ∃ (vs : List Token) (d : Document),
      DerivesDocument (ts ++ (os ++ vs)) d ∧ ∀ v ∈ vs, v.word.Lexical := by
  obtain ⟨hinjectables, hdefinitions, hname, hsign, hbody⟩ := h
  obtain ⟨vs, f, hf, hvs⟩ := hbody.exists_derives hmeets
  have hall := hdefinitions.concat (.definition hname hsign hf)
  exact ⟨vs, _, by simpa using DerivesDocument.document hinjectables hall, hvs⟩

lemma StallsDocument.exists_meets {ts : List Token} {need : Need} (h : StallsDocument ts need) :
    ∃ os : List Token, need.Meets os ∧ ∀ t ∈ os, t.word.Lexical := by
  obtain ⟨-, -, -, -, hbody⟩ := h
  exact hbody.exists_meets

namespace FormulaParser

variable {ts rest : List Token} {e : ParseError}

/-- Where the beginning of a document cannot go on, the parser gives up. -/
theorem exists_fails_document {need : Need} (h : StallsDocument ts need)
    (hlex : ∀ t ∈ ts, t.word.Lexical) (hmissing : need.Missing rest) :
    ∃ e left, Fails formulaGrammar.run document (ts ++ rest) e left := by
  obtain @⟨ts, us, vs, injectables, definitions, name, sign, need, hinjectables, hdefinitions, hname,
    hsign, hbody⟩ := h
  simp only [List.forall_mem_append, List.forall_mem_cons] at hlex
  obtain ⟨hts, hus, hlexname, -, hvs⟩ := hlex
  have hstops := stopsAt_of_stalls (quiet_run formulaGrammar) (callsParse_run _) (callsStop_run _)
    hbody hvs hmissing (Nat.le_refl _)
  obtain ⟨e, left, hexpression⟩ := hstops.expect (quiet_run _) "an expression after the \"=\" symbol"
  have hdefinition : Fails formulaGrammar.run definition (name :: sign :: (vs ++ rest)) e left :=
    fails_map.mpr (fails_seq.mpr (.inr ⟨name.terminal, vs ++ rest,
      accepts_heading.mpr ⟨name, sign, rfl, hname, hsign, rfl⟩, hexpression⟩))
  have hmany : Fails formulaGrammar.run (.many definition)
      (us ++ name :: sign :: (vs ++ rest)) e left := by
    have hlast : Fails formulaGrammar.run (.many definition) (name :: sign :: (vs ++ rest)) e left :=
      fails_many.mpr (.inl hdefinition)
    have hend : (Level.chain .logic).EndsBefore (name :: sign :: (vs ++ rest)) :=
      .cons (text_not_mem_of_kind hlexname hname (by decide)) _
    rw [Fails, run_definitions_append hdefinitions hus fun _ => hend, hlast]
    rfl
  have hhead : ∀ t ∈ (name :: sign :: (vs ++ rest)).head?, t.text ∉ [",", "$"] :=
    forall_head?_cons.mpr (text_not_mem_of_kind hlexname hname (by decide))
  obtain ⟨hnames, hgroups⟩ := front_definitions hdefinitions hus hhead
  have hinjectables' : Accepts formulaGrammar.run (.many injectable) _ injectables _ :=
    accepts_injectables hinjectables hts (fun _ => hnames) hgroups
  refine ⟨e, left, fails_map.mpr (fails_seq.mpr (.inr ⟨injectables, _, ?_, hmany⟩))⟩
  simpa using hinjectables'

lemma not_fails_injectable {call : (rule : Rule) → List Token → Reply rule.Tree} (ts : List Token)
    (e : ParseError) (rest : List Token) : ¬Fails call injectable ts e rest := by
  have hnext : ∀ ts e rest, ¬Fails call ((Parser.literal ",").skipLeft identifier) ts e rest := by
    simp [fails_skipLeft, identifier, not_fails_literal, not_fails_token]
  intro h
  obtain hfront | ⟨_, _, -, hmany⟩ := fails_seq.mp (fails_map.mp h)
  · simp [identifier, fails_seq, fails_skip, fails_skipLeft, not_fails_literal,
      not_fails_token] at hfront
  · exact not_fails_many hnext _ _ _ hmany

/-- Why the parser gives a document up. -/
structure DocumentStallsBefore (ts : List Token) (e : ParseError) (rest : List Token) : Prop where
  stalls : ∃ (us : List Token) (need : Need),
    ts = us ++ rest ∧ StallsDocument us need ∧ need.Missing rest
  error : ∃ description, description ≠ "a program" ∧ e = .expected description rest.head?

lemma documentStallsBefore_of_fails_definitions {us vs : List Token} {injectables : List Injectable}
    {definitions : List Definition} (hinjectables : DerivesEach DerivesInjectable us injectables)
    (hdefinitions : DerivesEach DerivesDefinition vs definitions)
    (h : Fails formulaGrammar.run (.many definition) ts e rest) :
    DocumentStallsBefore (us ++ (vs ++ ts)) e rest := by
  induction hn : ts.length using Nat.strongRecOn generalizing vs definitions ts with
  | _ n ih =>
    obtain hdefinition | ⟨d, mid, hdefinition, hlt, hmany⟩ := fails_many.mp h
    · obtain hheading | ⟨name, mid, hheading, hbody⟩ := fails_seq.mp (fails_map.mp hdefinition)
      · obtain hname | ⟨_, _, -, hsign⟩ := fails_skip.mp hheading
        · exact (not_fails_token hname).elim
        · exact (not_fails_literal hsign).elim
      · obtain ⟨t, sign, rfl, hname, hsign, -⟩ := accepts_heading.mp hheading
        obtain ⟨hstalls, hmissing, hdescription⟩ :=
          (explains_expression mid).expect (quiet_run _) (by decide) hbody
        exact ⟨⟨_, _, by simp, .body hinjectables hdefinitions hname hsign hstalls, hmissing⟩,
          _, hdescription, rfl⟩
    · obtain ⟨ws, rfl, hd⟩ := takes_definition hdefinition
      have hrest := ih mid.length (hn ▸ hlt) (hdefinitions.concat hd) hmany rfl
      simpa using hrest

theorem documentStallsBefore_of_fails (h : Fails formulaGrammar.run document ts e rest) :
    DocumentStallsBefore ts e rest := by
  obtain hgroups | ⟨injectables, mid, hgroups, hdefinitions⟩ := fails_seq.mp (fails_map.mp h)
  · exact (not_fails_many not_fails_injectable _ _ _ hgroups).elim
  · obtain ⟨us, rfl, hus⟩ := takes_many (fun _ _ _ h => takes_injectable h) hgroups
    exact documentStallsBefore_of_fails_definitions hus .nil hdefinitions

lemma DocumentEnds.shortened {injectables : List Injectable} {definitions : List Definition}
    {us rest' : List Token} (h : DocumentEnds injectables definitions us rest) (hrest : rest' <+: rest) :
    DocumentEnds injectables definitions us rest' := by
  have hlonger : us ++ rest' <+: us ++ rest := (List.prefix_append_right_inj us).mpr hrest
  refine ⟨fun hne hfront => h.names hne (hfront.extended hlonger),
    fun hfront => h.groups (hfront.extended hlonger), fun hne t ht => h.body hne t ?_,
    fun hfront => h.headings (hfront.extended hrest)⟩
  obtain ⟨more, rfl⟩ := hrest
  cases rest' with
  | nil => cases ht
  | cons u rest' => exact ht

lemma ends_of_accepts_injectable {call : (rule : Rule) → List Token → Reply rule.Tree}
    (ts : List Token) (i : Injectable) (rest : List Token) (h : Accepts call injectable ts i rest) :
    ¬Front nextFront rest ∧ rest.length < ts.length := by
  constructor
  · obtain ⟨⟨_, others⟩, hparts, -⟩ := accepts_map.mp h
    obtain ⟨mid, -, hothers⟩ := accepts_seq.mp hparts
    have hnext (ts : List Token) (name : Terminal) (rest : List Token)
        (h : Accepts call ((Parser.literal ",").skipLeft identifier) ts name rest) :
        True ∧ rest.length < ts.length := by
      obtain ⟨_, rfl, -, -⟩ := takes_next h
      exact ⟨trivial, by simp⟩
    exact declines_next.mp (ends_of_accepts_many hnext hothers).2
  · obtain ⟨us, rfl, hi⟩ := takes_injectable h
    have hpos := List.length_pos_iff.mpr (front_injectable hi []).1
    rw [List.length_append]
    omega

lemma ends_of_accepts_definition (ts : List Token) (d : Definition) (rest : List Token)
    (h : Accepts formulaGrammar.run definition ts d rest) :
    (Level.chain .logic).EndsBefore rest ∧ rest.length < ts.length := by
  constructor
  · obtain ⟨_, hparts, -⟩ := accepts_map.mp h
    obtain ⟨mid, -, hbody⟩ := accepts_seq.mp hparts
    exact endsBefore_of_accepts (l := .chain .logic) callsDerive_run callsEnd_run
      (accepts_expect.mp hbody)
  · obtain ⟨us, rfl, hd⟩ := takes_definition h
    obtain ⟨hname, hsign, hbody⟩ := hd
    simp only [List.cons_append, List.length_cons, List.length_append]
    omega

/-- What a document leaves behind does not go on it. -/
theorem exists_documentEnds_of_accepts {d : Document}
    (h : Accepts formulaGrammar.run document ts d rest) : ∃ us vs : List Token,
      ts = us ++ (vs ++ rest) ∧ DerivesEach DerivesInjectable us d.injectables ∧
        DerivesEach DerivesDefinition vs d.definitions ∧
        DocumentEnds d.injectables d.definitions vs rest := by
  obtain ⟨⟨injectables, definitions⟩, hparts, rfl⟩ := accepts_map.mp h
  obtain ⟨mid, hinjectables, hdefinitions⟩ := accepts_seq.mp hparts
  obtain ⟨us, rfl, hus⟩ := takes_many (fun _ _ _ h => takes_injectable h) hinjectables
  obtain ⟨vs, rfl, hvs⟩ := takes_many (fun _ _ _ h => takes_definition h) hdefinitions
  obtain ⟨hnames, hgroups⟩ := ends_of_accepts_many ends_of_accepts_injectable hinjectables
  obtain ⟨hbody, hheadings⟩ := ends_of_accepts_many ends_of_accepts_definition hdefinitions
  exact ⟨us, vs, rfl, hus, hvs, fun hne => hnames.resolve_left fun hnone => hne hnone.1,
    declines_injectable.mp hgroups, fun hne => hbody.resolve_left fun hnone => hne hnone.1,
    declines_definition.mp hheadings⟩

end FormulaParser

end Tariff
