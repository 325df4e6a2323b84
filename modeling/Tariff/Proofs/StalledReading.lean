import Tariff.Proofs.StalledFormulas

/-!
# The parser stops where a formula is not finished

Where a formula is not finished and what has to follow is missing, the parser gives up, or does not match
if there is nothing of the formula yet (`StopsAt`). It does so whatever comes later
(`stopsAt_of_stalls`).
-/

namespace Tariff

open Tariff.Parser

lemma Opens.exists_first {ts : List Token} {text : String} (h : Opens ts text) :
    ∃ (t : Token) (us : List Token), ts = t :: us ∧ t.text ∈ ["(", "if"] := by
  cases h with
  | parentheses hopening => exact ⟨_, _, rfl, by simp [hopening]⟩
  | condition hif => exact ⟨_, _, rfl, by simp [hif]⟩
  | yes hif => exact ⟨_, _, rfl, by simp [hif]⟩
  | no hif => exact ⟨_, _, rfl, by simp [hif]⟩

lemma Stalls.exists_first {ts : List Token} {need : Need} (h : Stalls .atom ts need) :
    ∃ (t : Token) (us : List Token), ts = t :: us ∧ t.text ∈ ["(", "if"] := by
  cases h with
  | inside hopen =>
    obtain ⟨t, us, rfl, ht⟩ := hopen.exists_first
    exact ⟨t, _, rfl, ht⟩
  | word hopen =>
    obtain ⟨t, us, rfl, ht⟩ := hopen.exists_first
    exact ⟨t, _, rfl, ht⟩

namespace FormulaParser

variable {call : (rule : Rule) → List Token → Reply rule.Tree} {n : Nat}

/-- The parser gives up behind the first tokens. If there are none it does not match. -/
structure StopsAt (call : (rule : Rule) → List Token → Reply rule.Tree) {α : Type} (p : FormulaParser α)
    (ts rest : List Token) : Prop where
  start : ts = [] → Declines call p rest
  later : ts ≠ [] → ∃ e left, Fails call p (ts ++ rest) e left

namespace StopsAt

variable {α β : Type} {p : FormulaParser α} {q : FormulaParser β} {ts rest : List Token}

lemma of_fails (hne : ts ≠ []) (h : ∃ e left, Fails call p (ts ++ rest) e left) :
    StopsAt call p ts rest where
  start hts := (hne hts).elim
  later _ := h

lemma map (h : StopsAt call p ts rest) (f : α → β) : StopsAt call (.map f p) ts rest where
  start hts := declines_map.mpr (h.start hts)
  later hts := by
    obtain ⟨e, left, hfails⟩ := h.later hts
    exact ⟨e, left, fails_map.mpr hfails⟩

lemma seq (h : StopsAt call p ts rest) (q : FormulaParser β) : StopsAt call (.seq p q) ts rest where
  start hts := declines_seq.mpr (.inl (h.start hts))
  later hts := by
    obtain ⟨e, left, hfails⟩ := h.later hts
    exact ⟨e, left, fails_seq.mpr (.inl hfails)⟩

/-- What has to follow does not. -/
lemma expect (hquiet : Quiet call) (h : StopsAt call p ts rest) (description : String) :
    ∃ e left, Fails call (.expect description p) (ts ++ rest) e left := by
  by_cases hts : ts = []
  · subst hts
    exact ⟨_, _, (fails_expect hquiet).mpr (.inr ⟨h.start rfl, rfl, rfl⟩)⟩
  · obtain ⟨e, left, hfails⟩ := h.later hts
    exact ⟨e, left, (fails_expect hquiet).mpr (.inl hfails)⟩

end StopsAt

section Missing

variable {t : Token} {ts : List Token}

lemma declines_atom : Declines call atom ts ↔ AtomMissing ts := by
  unfold atom
  simp only [declines_or, declines_boolean, declines_parentheses,
    declines_conditional, declines_map, number, identifier, declines_token]
  cases ts with
  | nil => simp [AtomMissing]
  | cons t ts =>
    simp only [AtomMissing, forall_head?_cons, Token.StartsAtom]
    cases t.kind <;> simp
    tauto

lemma exists_unary : t.text ∈ ["!", "-"] ↔ ∃ op : Unary, t.text = op.symbol := by
  constructor
  · intro h
    rcases List.mem_pair.mp h with htext | htext
    · exact ⟨.not, htext⟩
    · exact ⟨.negate, htext⟩
  · rintro ⟨op, hop⟩
    rw [hop]
    cases op <;> decide

lemma declines_factor : Declines call factor ts ↔ Need.operand.Missing ts := by
  have hsplit : Declines call factor ts ↔ ∃ (op : Option Unary) (mid : List Token),
      Accepts call (.optional unary) ts op mid ∧ AtomMissing mid := by
    rw [factor, declines_map, declines_seq, or_iff_right not_declines_optional]
    simp only [declines_atom]
  rw [hsplit]
  constructor
  · rintro ⟨op, mid, hop, hmissing⟩
    cases op with
    | none =>
      obtain ⟨hunary, rfl⟩ := accepts_optional_none.mp hop
      rw [declines_unary] at hunary
      cases ts with
      | nil => trivial
      | cons t ts =>
        rw [forall_head?_cons] at hunary
        rw [Need.Missing, if_neg hunary]
        exact forall_head?_cons.mp hmissing
    | some op =>
      obtain ⟨t, rfl, htext⟩ := accepts_unary.mp (accepts_optional_some.mp hop)
      rw [Need.Missing, if_pos (exists_unary.mpr ⟨op, htext⟩)]
      exact hmissing
  · intro h
    cases ts with
    | nil =>
      have hunary : Declines call unary [] := declines_unary.mpr (by simp)
      exact ⟨none, [], accepts_optional_none.mpr ⟨hunary, rfl⟩, by simp [AtomMissing]⟩
    | cons t ts =>
      by_cases ht : t.text ∈ ["!", "-"]
      · rw [Need.Missing, if_pos ht] at h
        obtain ⟨op, hop⟩ := exists_unary.mp ht
        exact ⟨some op, ts, accepts_optional_some.mpr (accepts_unary.mpr ⟨t, rfl, hop⟩), h⟩
      · rw [Need.Missing, if_neg ht] at h
        refine ⟨none, t :: ts, accepts_optional_none.mpr ⟨?_, rfl⟩, forall_head?_cons.mpr h⟩
        exact declines_unary.mpr (forall_head?_cons.mpr ht)

end Missing

/-- Where the links after a chain are given up, so is the chain. -/
lemma exists_fails_chain (hparse : CallsParse call n) {c : Chain} : ∀ {left : Formula (.chain c)}
    {ts : List Token}, Derives ts left → (∀ t ∈ ts, t.word.Lexical) → ∀ {rest : List Token},
      c.operand.EndsBefore rest → (ts ++ rest).length ≤ n →
      (∃ e left', Fails call (.many (link c)) rest e left') →
      ∃ e left', Fails call (ofLevel (.chain c)) (ts ++ rest) e left'
  | .operand x, ts, .operand hx, hlex, rest, hend, hlen, ⟨e, left', hlinks⟩ => by
    have hfirst := (reads_of_derives hparse hx hlex).accepts hend hlen
    rw [ofLevel_chain]
    exact ⟨e, left', fails_map.mpr (fails_seq.mpr (.inr ⟨_, _, hfirst, hlinks⟩))⟩
  | .link left op right, _, @Derives.link _ ts us t _ _ _ hleft hop hright, hlex, rest, hend, hlen,
      ⟨e, left', hlinks⟩ => by
    rw [List.forall_mem_append, List.forall_mem_cons] at hlex
    rw [List.append_assoc, List.cons_append] at hlen ⊢
    have hshort : (us ++ rest).length ≤ n := by
      simp only [List.length_append, List.length_cons] at hlen ⊢
      omega
    have hoperand := (reads_of_derives hparse hright hlex.2.2).accepts hend hshort
    refine exists_fails_chain hparse hleft hlex.1 (.connective hop _) hlen ⟨e, left', ?_⟩
    refine fails_many.mpr (.inr ⟨_, _, accepts_link hop hoperand, ?_, hlinks⟩)
    simp only [List.length_append, List.length_cons]
    omega

section Atoms

variable {ts more : List Token}

/-- The formula inside an atom, or the word after it, is not there. -/
def InnerFails (call : (rule : Rule) → List Token → Reply rule.Tree) (text : String)
    (ts : List Token) : Prop :=
  ∀ description description', ∃ e left,
    Fails call ((expected description).skip (keyword description' text)) ts e left

lemma fails_atom {t : Token} {e : ParseError} {left : List Token} (hkind : t.kind ≠ .number)
    (htext : t.text ∉ ["true", "false"])
    (h : Fails call (parentheses <|> conditional <|> .map .name identifier) (t :: ts) e left) :
    Fails call atom (t :: ts) e left := by
  have hnumber : Declines call (.map Formula.number number) (t :: ts) :=
    declines_number.mpr (forall_head?_cons.mpr hkind)
  have hboolean : Declines call boolean (t :: ts) :=
    declines_boolean.mpr (forall_head?_cons.mpr htext)
  exact fails_or.mpr (.inr ⟨hnumber, fails_or.mpr (.inr ⟨hboolean, h⟩)⟩)

lemma fails_atom_conditional {t : Token} {e : ParseError} {left : List Token} (hlex : t.word.Lexical)
    (hif : t.text = "if") (h : Fails call conditional (t :: ts) e left) :
    Fails call atom (t :: ts) e left := by
  have hparentheses : Declines call parentheses (t :: ts) :=
    declines_parentheses.mpr (forall_head?_cons.mpr (by rw [hif]; decide))
  exact fails_atom (kind_ne_of_text hlex hif (by decide)) (by rw [hif]; decide)
    (fails_or.mpr (.inr ⟨hparentheses, fails_or.mpr (.inl h)⟩))

/-- An atom is given up where the formula inside it or the word after that is not there. -/
lemma exists_fails_atom (hparse : CallsParse call n) {text : String} (hopen : Opens ts text)
    (hlex : ∀ t ∈ ts, t.word.Lexical) (hlen : (ts ++ more).length ≤ n)
    (hinner : InnerFails call text more) : ∃ e left, Fails call atom (ts ++ more) e left := by
  cases hopen with
  | @parentheses opening hopening =>
    obtain ⟨e, left, hfails⟩ := hinner _ _
    have hfirst : Accepts call (.literal "(") (opening :: more) opening.terminal more :=
      accepts_literal.mpr ⟨opening, rfl, hopening, rfl⟩
    have hparentheses : Fails call parentheses (opening :: more) e left :=
      fails_map.mpr (fails_skip_skipLeft.mpr (.inr ⟨_, _, hfirst, hfails⟩))
    exact ⟨e, left, fails_atom (kind_ne_of_text (hlex _ List.mem_cons_self) hopening (by decide))
      (by rw [hopening]; decide) (fails_or.mpr (.inl hparentheses))⟩
  | @condition tif hif =>
    obtain ⟨e, left, hfails⟩ := hinner _ _
    have hfirst : Accepts call (.literal "if") (tif :: more) tif.terminal more :=
      accepts_literal.mpr ⟨tif, rfl, hif, rfl⟩
    have hcondition : Fails call conditionPart (tif :: more) e left :=
      fails_skip_skipLeft.mpr (.inr ⟨_, _, hfirst, hfails⟩)
    have hyes : Fails call yesPart (tif :: more) e left :=
      fails_skip_seq.mpr (.inl hcondition)
    have hconditional : Fails call conditional (tif :: more) e left := by
      rw [conditional_eq]
      exact fails_map.mpr (fails_skip_seq.mpr (.inl hyes))
    exact ⟨e, left, fails_atom_conditional (hlex _ List.mem_cons_self) hif hconditional⟩
  | @yes tif tthen ts condition hif hcondition hthen =>
    simp only [List.forall_mem_cons, List.forall_mem_append] at hlex
    simp only [List.cons_append, List.append_assoc, List.nil_append, List.length_cons] at hlen ⊢
    have hinside := hparse.expression hcondition hlex.2.1 (tthen :: more)
      (.cons (by rw [hthen]; decide) _) (by omega)
    obtain ⟨e, left, hfails⟩ := hinner _ _
    have hyes : Fails call yesPart (tif :: (ts ++ tthen :: more)) e left :=
      fails_skip_seq.mpr (.inr ⟨_, _, accepts_conditionPart hif hinside hthen, hfails⟩)
    have hconditional : Fails call conditional (tif :: (ts ++ tthen :: more)) e left := by
      rw [conditional_eq]
      exact fails_map.mpr (fails_skip_seq.mpr (.inl hyes))
    exact ⟨e, left, fails_atom_conditional hlex.1 hif hconditional⟩
  | @no tif tthen telse ts us condition yes hif hcondition hthen hyes helse =>
    simp only [List.forall_mem_cons, List.forall_mem_append] at hlex
    simp only [List.cons_append, List.append_assoc, List.nil_append, List.length_cons,
      List.length_append] at hlen ⊢
    have hinside := hparse.expression hcondition hlex.2.1 (tthen :: (us ++ telse :: more))
      (.cons (by rw [hthen]; decide) _)
      (by simp only [List.length_append, List.length_cons]; omega)
    have hinside' := hparse.expression hyes hlex.2.2.2.1 (telse :: more)
      (.cons (by rw [helse]; decide) _)
      (by simp only [List.length_append, List.length_cons]; omega)
    have hfront := accepts_yesPart (accepts_conditionPart hif hinside hthen) hinside' helse
    obtain ⟨e, left, hfails⟩ := hinner _ _
    have hconditional : Fails call conditional
        (tif :: (ts ++ tthen :: (us ++ telse :: more))) e left := by
      rw [conditional_eq]
      exact fails_map.mpr (fails_skip_seq.mpr (.inr ⟨_, _, hfront, hfails⟩))
    exact ⟨e, left, fails_atom_conditional hlex.1 hif hconditional⟩

end Atoms

/-- The rules that are called by name stop where a formula is not finished, as long as there are few
enough tokens. -/
structure CallsStop (call : (rule : Rule) → List Token → Reply rule.Tree) (n : Nat) : Prop where
  expression {ts rest : List Token} {need : Need} (h : Stalls (.chain .logic) ts need)
    (hlex : ∀ t ∈ ts, t.word.Lexical) (hmissing : need.Missing rest)
    (hlen : (ts ++ rest).length < n) : StopsAt call (rule .expression) ts rest
  comparison {ts rest : List Token} {need : Need} (h : Stalls .comparison ts need)
    (hlex : ∀ t ∈ ts, t.word.Lexical) (hmissing : need.Missing rest)
    (hlen : (ts ++ rest).length < n) : StopsAt call (rule .comparison) ts rest

/-- Where a formula is not finished and what has to follow is missing, the parser stops. -/
theorem stopsAt_of_stalls (hquiet : Quiet call) (hparse : CallsParse call n) (hstop : CallsStop call n)
    {l : Level} {ts rest : List Token} {need : Need} (h : Stalls l ts need)
    (hlex : ∀ t ∈ ts, t.word.Lexical) (hmissing : need.Missing rest) (hlen : (ts ++ rest).length ≤ n) :
    StopsAt call (ofLevel l) ts rest := by
  induction h with
  | here => exact ⟨fun _ => declines_factor.mpr hmissing, fun hne => (hne rfl).elim⟩
  | operand h ih =>
    rw [ofLevel_chain]
    exact ((ih hlex hmissing hlen).seq _).map _
  | @link c ts us t left op need hleft hop hright ih =>
    rw [List.forall_mem_append, List.forall_mem_cons] at hlex
    rw [List.append_assoc, List.cons_append] at hlen
    have hshort : (us ++ rest).length ≤ n := by
      simp only [List.length_append, List.length_cons] at hlen ⊢
      omega
    obtain ⟨e, left', hfails⟩ := (ih hlex.2.2 hmissing hshort).expect hquiet (operandDescription c)
    have hlink : Fails call (link c) (t :: (us ++ rest)) e left' :=
      fails_seq.mpr (.inr ⟨op, _, accepts_connective.mpr ⟨t, rfl, hop⟩, hfails⟩)
    apply StopsAt.of_fails (by simp)
    rw [List.append_assoc, List.cons_append]
    exact exists_fails_chain hparse hleft hlex.1 (.connective hop _) hlen
      ⟨e, left', fails_many.mpr (.inl hlink)⟩
  | plain h ih => exact ((ih hlex hmissing hlen).seq _).map _
  | @compare ts us t left op need hleft hop hright ih =>
    rw [List.forall_mem_append, List.forall_mem_cons] at hlex
    rw [List.append_assoc, List.cons_append] at hlen
    have hvalue := (reads_of_derives hparse hleft hlex.1).accepts (.comparison hop _) hlen
    have hshort : (us ++ rest).length < n := by
      simp only [List.length_append, List.length_cons] at hlen ⊢
      omega
    obtain ⟨e, left', hfails⟩ := (hstop.comparison hright hlex.2.2 hmissing hshort).expect hquiet _
    have hcompared := fails_seq.mpr (.inr ⟨op, _, accepts_comparator.mpr ⟨t, rfl, hop⟩, hfails⟩)
    apply StopsAt.of_fails (by simp)
    rw [List.append_assoc, List.cons_append]
    exact ⟨e, left', fails_map.mpr (fails_seq.mpr (.inr ⟨_, _, hvalue, fails_optional.mpr hcompared⟩))⟩
  | bare h ih =>
    obtain ⟨t, us, rfl, ht⟩ := h.exists_first
    obtain ⟨e, left, hfails⟩ := (ih hlex hmissing hlen).later (by simp)
    have hunary : Declines call unary (t :: us ++ rest) := by
      refine declines_unary.mpr (forall_head?_cons.mpr ?_)
      rcases List.mem_pair.mp ht with htext | htext
      · rw [htext]
        decide
      · rw [htext]
        decide
    exact .of_fails (by simp) ⟨e, left, fails_map.mpr (fails_seq.mpr
      (.inr ⟨none, _, accepts_optional_none.mpr ⟨hunary, rfl⟩, hfails⟩))⟩
  | @unary t ts op need hop h ih =>
    rw [List.forall_mem_cons] at hlex
    rw [List.cons_append, List.length_cons] at hlen
    obtain ⟨u, us, rfl, -⟩ := h.exists_first
    obtain ⟨e, left, hfails⟩ := (ih hlex.2 hmissing (by omega)).later (by simp)
    exact .of_fails (by simp) ⟨e, left, fails_map.mpr (fails_seq.mpr
      (.inr ⟨some op, _, accepts_optional_some.mpr (accepts_unary.mpr ⟨t, rfl, hop⟩), hfails⟩))⟩
  | @inside ts us text need hopen h ih =>
    rw [List.forall_mem_append] at hlex
    rw [List.append_assoc] at hlen
    obtain ⟨t, vs, rfl, -⟩ := hopen.exists_first
    have hshort : (us ++ rest).length < n := by
      rw [List.cons_append, List.length_cons, List.length_append] at hlen
      omega
    apply StopsAt.of_fails (by simp)
    rw [List.append_assoc]
    refine exists_fails_atom hparse hopen hlex.1 hlen fun description _ => ?_
    obtain ⟨e, left, hfails⟩ :=
      (hstop.expression h hlex.2 hmissing hshort).expect hquiet description
    exact ⟨e, left, fails_skip.mpr (.inl hfails)⟩
  | @word ts us text x hopen hx =>
    rw [List.forall_mem_append] at hlex
    rw [List.append_assoc] at hlen
    obtain ⟨t, vs, rfl, -⟩ := hopen.exists_first
    have hshort : (us ++ rest).length < n := by
      rw [List.cons_append, List.length_cons, List.length_append] at hlen
      omega
    have hinside := hparse.expression hx hlex.2 rest hmissing.1 hshort
    apply StopsAt.of_fails (by simp)
    rw [List.append_assoc]
    refine exists_fails_atom hparse hopen hlex.1 hlen fun _ description => ?_
    have hword : Fails call (keyword description text) rest (.expected description rest.head?) rest :=
      (fails_expect hquiet).mpr (.inr ⟨declines_literal.mpr hmissing.2, rfl, rfl⟩)
    exact ⟨_, _, fails_skip.mpr (.inr ⟨x, rest, accepts_expected hinside, hword⟩)⟩

lemma CallsStop.guard (h : CallsStop call n) : CallsStop
    (fun rule ts => if ts.length < n then call rule ts else ⟨.noMatch, ts⟩) n := by
  have hsame {ts rest : List Token} (hlen : (ts ++ rest).length < n) (r : Rule)
      (hstop : StopsAt call (rule r) ts rest) : StopsAt
        (fun rule ts => if ts.length < n then call rule ts else ⟨.noMatch, ts⟩) (rule r) ts rest := by
    constructor
    · rintro rfl
      exact (congrArg Reply.outcome (if_pos hlen)).trans (hstop.start rfl)
    · intro hne
      obtain ⟨e, left, hfails⟩ := hstop.later hne
      exact ⟨e, left, (if_pos hlen).trans hfails⟩
  exact ⟨fun h' hlex hmissing hlen => hsame hlen _ (h.expression h' hlex hmissing hlen),
    fun h' hlex hmissing hlen => hsame hlen _ (h.comparison h' hlex hmissing hlen)⟩

lemma CallsStop.mono {m : Nat} (h : CallsStop call n) (hle : m ≤ n) : CallsStop call m :=
  ⟨fun h' hlex hmissing hlen => h.expression h' hlex hmissing (by omega),
    fun h' hlex hmissing hlen => h.comparison h' hlex hmissing (by omega)⟩

/-- A rule is called on fewer tokens than it has itself, so this is an induction on their number. -/
theorem callsStop_run (n : Nat) : CallsStop formulaGrammar.run n := by
  induction n with
  | zero =>
    exact ⟨fun _ _ _ hlen => absurd hlen (Nat.not_lt_zero _),
      fun _ _ _ hlen => absurd hlen (Nat.not_lt_zero _)⟩
  | succ n ih =>
    have hstep {l : Level} {ts rest : List Token} {need : Need} (h : Stalls l ts need)
        (hlex : ∀ t ∈ ts, t.word.Lexical) (hmissing : need.Missing rest)
        (hlen : (ts ++ rest).length ≤ n) := stopsAt_of_stalls
      (quiet_guard formulaGrammar (ts ++ rest).length) (callsParse_run _).guard
      (ih.mono hlen).guard h hlex hmissing (Nat.le_refl _)
    have hrun (r : Rule) {ts rest : List Token} (hbody : StopsAt (fun rule us =>
        if us.length < (ts ++ rest).length then formulaGrammar.run rule us else ⟨.noMatch, us⟩)
        (formulaGrammar r) ts rest) : StopsAt formulaGrammar.run (rule r) ts rest := by
      constructor
      · rintro rfl
        change (formulaGrammar.run r rest).outcome = .noMatch
        rw [Grammar.run]
        exact hbody.start rfl
      · intro hne
        obtain ⟨e, left, hfails⟩ := hbody.later hne
        refine ⟨e, left, ?_⟩
        change formulaGrammar.run r (ts ++ rest) = _
        rw [Grammar.run]
        exact hfails
    exact ⟨fun h hlex hmissing hlen =>
        hrun .expression (hstep h hlex hmissing (Nat.le_of_lt_succ hlen)),
      fun h hlex hmissing hlen => hrun .comparison (hstep h hlex hmissing (Nat.le_of_lt_succ hlen))⟩

end FormulaParser

end Tariff
