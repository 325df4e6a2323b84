import Tariff.Proofs.Completeness

/-!
# What is parsed is derived

The tokens that a parser of the grammar takes up are derived with the value that it gives. Each rule is
read off the combinators it is built from; what an alternative after others knows of the tokens is
that the others declined them. Tokens that are parsed as a document are derived with it
(`Document.derives_of_ofTokens`).
-/

namespace Tariff

open Tariff.Parser

/-- Tokens that are derived with the value stand at the front, and the rest after them. -/
def Takes {α : Type} (derives : List Token → α → Prop) (ts : List Token) (a : α)
    (rest : List Token) : Prop :=
  ∃ us : List Token, ts = us ++ rest ∧ derives us a

/-- The tokens are an operator of the chain and its operand. -/
inductive DerivesLink (c : Chain) : List Token → Connective c × Formula c.operand → Prop where
  | link {t : Token} {ts : List Token} {op : Connective c} {x : Formula c.operand}
      (hop : t.text = op.symbol) (hx : Derives ts x) : DerivesLink c (t :: ts) (op, x)

/-- A chain goes on with its links one by one. -/
lemma Derives.foldl_link {c : Chain} {ts us : List Token} {left : Formula (.chain c)}
    {links : List (Connective c × Formula c.operand)} (hleft : Derives ts left)
    (hlinks : DerivesEach (DerivesLink c) us links) :
    Derives (ts ++ us) (links.foldl (fun left (op, right) => .link left op right) left) := by
  induction hlinks generalizing ts left with
  | nil =>
    rw [List.append_nil]
    exact hleft
  | cons hlink hlinks ih =>
    obtain ⟨hop, hright⟩ := hlink
    have hlonger := ih (hleft.link hop hright)
    rw [List.append_assoc] at hlonger
    exact hlonger

lemma Derives.chain {c : Chain} {ts us : List Token} {first : Formula c.operand}
    {links : List (Connective c × Formula c.operand)} (hfirst : Derives ts first)
    (hlinks : DerivesEach (DerivesLink c) us links) :
    Derives (ts ++ us) (Formula.chainOf first links) :=
  (Derives.operand hfirst).foldl_link hlinks

namespace FormulaParser

variable {call : (rule : Rule) → List Token → Reply rule.Tree} {ts rest : List Token}

/-- The rules that are called by name take up what is derived from them. -/
structure CallsDerive (call : (rule : Rule) → List Token → Reply rule.Tree) : Prop where
  expression (ts : List Token) (f : Expression) (rest : List Token)
    (h : call .expression ts = ⟨.matched f, rest⟩) : Takes Derives ts f rest
  comparison (ts : List Token) (f : Formula .comparison) (rest : List Token)
    (h : call .comparison ts = ⟨.matched f, rest⟩) : Takes Derives ts f rest

/-- The rounds of a repetition are derived one after the other. -/
lemma takes_many {α : Type} {p : FormulaParser α} {derives : List Token → α → Prop}
    (hitem : ∀ ts x rest, Accepts call p ts x rest → Takes derives ts x rest) {xs : List α}
    (h : Accepts call (.many p) ts xs rest) : Takes (DerivesEach derives) ts xs rest := by
  induction xs generalizing ts with
  | nil =>
    obtain ⟨-, rfl, -⟩ | ⟨x, others, mid, hxs, -⟩ := accepts_many_cases h
    · exact ⟨[], rfl, .nil⟩
    · cases hxs
  | cons x xs ih =>
    obtain ⟨hxs, -⟩ | ⟨x', others, mid, hxs, hx, hothers⟩ := accepts_many_cases h
    · cases hxs
    · cases hxs
      obtain ⟨us, rfl, hus⟩ := hitem _ _ _ hx
      obtain hmany | ⟨-, rfl, rfl⟩ := hothers
      · obtain ⟨vs, rfl, hvs⟩ := ih hmany
        exact ⟨us ++ vs, (List.append_assoc us vs rest).symm, .cons hus hvs⟩
      · exact ⟨us ++ [], by rw [List.append_nil], .cons hus .nil⟩

lemma takes_number {x : Formula .atom} (h : Accepts call (.map .number number) ts x rest) :
    Takes Derives ts x rest := by
  obtain ⟨word, hword, rfl⟩ := accepts_map.mp h
  obtain ⟨t, rfl, hkind, rfl⟩ := accepts_token.mp hword
  exact ⟨[t], rfl, .number hkind⟩

lemma takes_boolean {x : Formula .atom} (h : Accepts call boolean ts x rest) :
    Takes Derives ts x rest := by
  obtain hyes | ⟨-, hno⟩ := accepts_or.mp h
  · obtain ⟨word, hword, rfl⟩ := accepts_map.mp hyes
    obtain ⟨t, rfl, htext, rfl⟩ := accepts_literal.mp hword
    exact ⟨[t], rfl, .boolean (show t.text = booleanText true from htext)⟩
  · obtain ⟨word, hword, rfl⟩ := accepts_map.mp hno
    obtain ⟨t, rfl, htext, rfl⟩ := accepts_literal.mp hword
    exact ⟨[t], rfl, .boolean (show t.text = booleanText false from htext)⟩

lemma exists_of_accepts_keyword {description text : String} {word : Terminal}
    (h : Accepts call (keyword description text) ts word rest) :
    ∃ t : Token, ts = t :: rest ∧ t.text = text := by
  obtain ⟨t, hts, htext, -⟩ := accepts_literal.mp (accepts_expect.mp h)
  exact ⟨t, hts, htext⟩

lemma CallsDerive.expected (hcall : CallsDerive call) {description : String} {f : Expression}
    (h : Accepts call (expected description) ts f rest) : Takes Derives ts f rest :=
  hcall.expression ts f rest (accepts_expect.mp h)

lemma takes_parentheses (hcall : CallsDerive call) {x : Formula .atom}
    (h : Accepts call parentheses ts x rest) : Takes Derives ts x rest := by
  obtain ⟨inner, hparts, rfl⟩ := accepts_map.mp h
  obtain ⟨_, mid, hfront, hlast⟩ := accepts_skip.mp hparts
  obtain ⟨closing, rfl, hclosing⟩ := exists_of_accepts_keyword hlast
  obtain ⟨_, mid, hfirst, hexpression⟩ := accepts_skipLeft.mp hfront
  obtain ⟨opening, rfl, hopening, -⟩ := accepts_literal.mp hfirst
  obtain ⟨us, rfl, hinner⟩ := hcall.expected hexpression
  exact ⟨opening :: (us ++ [closing]), by simp, .parentheses hopening hinner hclosing⟩

lemma exists_of_accepts_conditionPart (hcall : CallsDerive call) {condition : Expression}
    (h : Accepts call conditionPart ts condition rest) :
    ∃ (tif tthen : Token) (us : List Token), ts = tif :: (us ++ tthen :: rest) ∧ tif.text = "if" ∧
      Derives us condition ∧ tthen.text = "then" := by
  obtain ⟨_, mid, hparts, hword⟩ := accepts_skip.mp h
  obtain ⟨tthen, rfl, hthen⟩ := exists_of_accepts_keyword hword
  obtain ⟨_, mid, hword, hinner⟩ := accepts_skipLeft.mp hparts
  obtain ⟨tif, rfl, hif, -⟩ := accepts_literal.mp hword
  obtain ⟨us, rfl, hcondition⟩ := hcall.expected hinner
  exact ⟨tif, tthen, us, rfl, hif, hcondition, hthen⟩

lemma exists_of_accepts_yesPart {condition yes : Expression} (hcall : CallsDerive call)
    (h : Accepts call yesPart ts (condition, yes) rest) :
    ∃ (telse : Token) (mid us : List Token), Accepts call conditionPart ts condition mid ∧
      mid = us ++ telse :: rest ∧ Derives us yes ∧ telse.text = "else" := by
  obtain ⟨_, mid, hparts, hword⟩ := accepts_skip.mp h
  obtain ⟨telse, rfl, helse⟩ := exists_of_accepts_keyword hword
  obtain ⟨mid, hcondition, hinner⟩ := accepts_seq.mp hparts
  obtain ⟨us, rfl, hyes⟩ := hcall.expected hinner
  exact ⟨telse, _, us, hcondition, rfl, hyes, helse⟩

lemma takes_conditional (hcall : CallsDerive call) {x : Formula .atom}
    (h : Accepts call conditional ts x rest) : Takes Derives ts x rest := by
  rw [conditional_eq] at h
  obtain ⟨⟨⟨condition, yes⟩, no⟩, hparts, rfl⟩ := accepts_map.mp h
  obtain ⟨_, mid, hparts, hword⟩ := accepts_skip.mp hparts
  obtain ⟨tend, rfl, hend⟩ := exists_of_accepts_keyword hword
  obtain ⟨mid, hparts, hinner⟩ := accepts_seq.mp hparts
  obtain ⟨ns, rfl, hno⟩ := hcall.expected hinner
  obtain ⟨telse, _, ys, hparts, rfl, hyes, helse⟩ := exists_of_accepts_yesPart hcall hparts
  obtain ⟨tif, tthen, cs, rfl, hif, hcondition, hthen⟩ := exists_of_accepts_conditionPart hcall hparts
  exact ⟨tif :: (cs ++ tthen :: (ys ++ telse :: (ns ++ [tend]))), by simp,
    .conditional hif hcondition hthen hyes helse hno hend⟩

lemma not_mem_reservedWords {t : Token} {ts : List Token}
    (hboolean : Declines call boolean (t :: ts))
    (hconditional : Declines call conditional (t :: ts)) : t.text ∉ reservedWords := by
  have hvalue : t.text ∉ ["true", "false"] := forall_head?_cons.mp (declines_boolean.mp hboolean)
  have hif : t.text ≠ "if" := forall_head?_cons.mp (declines_conditional.mp hconditional)
  exact List.not_mem_cons_of_ne_of_not_mem hif hvalue

lemma takes_atom (hcall : CallsDerive call) {x : Formula .atom} (h : Accepts call atom ts x rest) :
    Takes Derives ts x rest := by
  obtain hnumber | ⟨-, h⟩ := accepts_or.mp h
  · exact takes_number hnumber
  obtain hboolean | ⟨hboolean, h⟩ := accepts_or.mp h
  · exact takes_boolean hboolean
  obtain hparentheses | ⟨-, h⟩ := accepts_or.mp h
  · exact takes_parentheses hcall hparentheses
  obtain hconditional | ⟨hconditional, h⟩ := accepts_or.mp h
  · exact takes_conditional hcall hconditional
  obtain ⟨word, hword, rfl⟩ := accepts_map.mp h
  obtain ⟨t, rfl, hkind, rfl⟩ := accepts_token.mp hword
  exact ⟨[t], rfl, .name hkind (not_mem_reservedWords hboolean hconditional)⟩

lemma takes_factor (hcall : CallsDerive call) {x : Formula .factor}
    (h : Accepts call factor ts x rest) : Takes Derives ts x rest := by
  obtain ⟨⟨op, base⟩, hparts, rfl⟩ := accepts_map.mp h
  obtain ⟨mid, hop, hbase⟩ := accepts_seq.mp hparts
  obtain ⟨us, rfl, hus⟩ := takes_atom hcall hbase
  cases op with
  | none =>
    obtain ⟨-, rfl⟩ := accepts_optional_none.mp hop
    exact ⟨us, rfl, .bare hus⟩
  | some op =>
    obtain ⟨t, rfl, htext⟩ := accepts_unary.mp (accepts_optional_some.mp hop)
    exact ⟨t :: us, rfl, .unary htext hus⟩

lemma takes_chain {c : Chain}
    (hoperand : ∀ ts x rest, Accepts call (ofLevel c.operand) ts x rest → Takes Derives ts x rest)
    {x : Formula (.chain c)} (h : Accepts call (ofLevel (.chain c)) ts x rest) :
    Takes Derives ts x rest := by
  rw [ofLevel_chain] at h
  obtain ⟨⟨first, links⟩, hparts, rfl⟩ := accepts_map.mp h
  obtain ⟨mid, hfirst, hlinks⟩ := accepts_seq.mp hparts
  obtain ⟨us, rfl, hus⟩ := hoperand _ _ _ hfirst
  have hlink : ∀ ts x rest, Accepts call (link c) ts x rest → Takes (DerivesLink c) ts x rest := by
    rintro ts ⟨op, operand⟩ rest hparts
    obtain ⟨mid, hop, hright⟩ := accepts_seq.mp hparts
    obtain ⟨t, rfl, htext⟩ := accepts_connective.mp hop
    obtain ⟨vs, rfl, hvs⟩ := hoperand _ _ _ (accepts_expect.mp hright)
    exact ⟨t :: vs, rfl, .link htext hvs⟩
  obtain ⟨vs, rfl, hvs⟩ := takes_many hlink hlinks
  exact ⟨us ++ vs, (List.append_assoc us vs rest).symm, hus.chain hvs⟩

lemma takes_comparison (hcall : CallsDerive call) {x : Formula .comparison}
    (h : Accepts call comparison ts x rest) : Takes Derives ts x rest := by
  obtain ⟨⟨value, compared⟩, hparts, rfl⟩ := accepts_map.mp h
  obtain ⟨mid, hvalue, hcompared⟩ := accepts_seq.mp hparts
  have hproduct : ∀ ts x rest, Accepts call product ts x rest → Takes Derives ts x rest :=
    fun _ _ _ h => takes_chain (c := .product) (fun _ _ _ h => takes_factor hcall h) h
  obtain ⟨us, rfl, hus⟩ := takes_chain (c := .sum) hproduct hvalue
  cases compared with
  | none =>
    obtain ⟨-, rfl⟩ := accepts_optional_none.mp hcompared
    exact ⟨us, rfl, .plain hus⟩
  | some compared =>
    obtain ⟨op, right⟩ := compared
    obtain ⟨mid, hop, hright⟩ := accepts_seq.mp (accepts_optional_some.mp hcompared)
    obtain ⟨t, rfl, htext⟩ := accepts_comparator.mp hop
    obtain ⟨vs, rfl, hvs⟩ := hcall.comparison _ _ _ (accepts_expect.mp hright)
    exact ⟨us ++ t :: vs, by simp, .compare hus htext hvs⟩

lemma takes_expression (hcall : CallsDerive call) {f : Expression}
    (h : Accepts call expression ts f rest) : Takes Derives ts f rest :=
  takes_chain (c := .logic) (fun _ _ _ h => takes_comparison hcall h) h

lemma callsDerive_guard (n : Nat) : CallsDerive fun rule ts =>
    if ts.length < n then formulaGrammar.run rule ts else ⟨.noMatch, ts⟩ := by
  -- a rule calls the others on fewer tokens than it has itself, so `ih` is about their calls
  induction n using Nat.strongRecOn with
  | _ n ih =>
    constructor
    · intro ts f rest h
      by_cases hlt : ts.length < n
      · rw [if_pos hlt, Grammar.run] at h
        exact takes_expression (ih ts.length hlt) h
      · rw [if_neg hlt] at h
        cases h
    · intro ts f rest h
      by_cases hlt : ts.length < n
      · rw [if_pos hlt, Grammar.run] at h
        exact takes_comparison (ih ts.length hlt) h
      · rw [if_neg hlt] at h
        cases h

theorem callsDerive_run : CallsDerive formulaGrammar.run := by
  constructor
  · intro ts f rest h
    rw [Grammar.run] at h
    exact takes_expression (callsDerive_guard ts.length) h
  · intro ts f rest h
    rw [Grammar.run] at h
    exact takes_comparison (callsDerive_guard ts.length) h

/-! ### Documents -/

lemma takes_next {name : Terminal}
    (h : Accepts call ((Parser.literal ",").skipLeft identifier) ts name rest) :
    Takes DerivesNext ts name rest := by
  obtain ⟨_, mid, hfront, hlast⟩ := accepts_skipLeft.mp h
  obtain ⟨comma, rfl, hcomma, -⟩ := accepts_literal.mp hfront
  obtain ⟨t, rfl, hkind, rfl⟩ := accepts_token.mp hlast
  exact ⟨[comma, t], rfl, .next hcomma hkind⟩

lemma takes_injectable {i : Injectable} (h : Accepts call injectable ts i rest) :
    Takes DerivesInjectable ts i rest := by
  obtain ⟨⟨⟨group, first⟩, others⟩, hparts, rfl⟩ := accepts_map.mp h
  obtain ⟨mid, hparts, hothers⟩ := accepts_seq.mp hparts
  obtain ⟨mid, hparts, hfourth⟩ := accepts_seq.mp hparts
  obtain ⟨_, mid, hparts, hthird⟩ := accepts_skip.mp hparts
  obtain ⟨_, mid, hfirst, hsecond⟩ := accepts_skipLeft.mp hparts
  obtain ⟨tdollar, rfl, hdollar, -⟩ := accepts_literal.mp hfirst
  obtain ⟨tgroup, rfl, hgroup, rfl⟩ := accepts_token.mp hsecond
  obtain ⟨tcolon, rfl, hcolon, -⟩ := accepts_literal.mp hthird
  obtain ⟨tname, rfl, hname, rfl⟩ := accepts_token.mp hfourth
  obtain ⟨us, rfl, hus⟩ := takes_many (fun _ _ _ h => takes_next h) hothers
  exact ⟨tdollar :: tgroup :: tcolon :: tname :: us, rfl, .group hdollar hgroup hcolon hname hus⟩

lemma takes_definition {d : Definition} (h : Accepts formulaGrammar.run definition ts d rest) :
    Takes DerivesDefinition ts d rest := by
  obtain ⟨⟨name, body⟩, hparts, rfl⟩ := accepts_map.mp h
  obtain ⟨mid, hheading, hbody⟩ := accepts_seq.mp hparts
  obtain ⟨tname, tsign, rfl, hname, hsign, rfl⟩ := accepts_heading.mp hheading
  obtain ⟨us, rfl, hus⟩ := takes_expression callsDerive_run (accepts_expect.mp hbody)
  exact ⟨tname :: tsign :: us, rfl, .definition hname hsign hus⟩

theorem takes_document {d : Document} (h : Accepts formulaGrammar.run document ts d rest) :
    Takes DerivesDocument ts d rest := by
  obtain ⟨⟨injectables, definitions⟩, hparts, rfl⟩ := accepts_map.mp h
  obtain ⟨mid, hinjectables, hdefinitions⟩ := accepts_seq.mp hparts
  obtain ⟨us, rfl, hus⟩ := takes_many (fun _ _ _ h => takes_injectable h) hinjectables
  obtain ⟨vs, rfl, hvs⟩ := takes_many (fun _ _ _ h => takes_definition h) hdefinitions
  exact ⟨us ++ vs, (List.append_assoc us vs rest).symm, .document hus hvs⟩

end FormulaParser

/-- Tokens that are parsed as a document are derived with it. -/
theorem Document.derives_of_ofTokens {ts : List Token} {d : Document}
    (h : Document.ofTokens ts = .ok d) : DerivesDocument ts d := by
  have hrun : FormulaParser.document.reply ts = ⟨.matched d, []⟩ := by
    unfold ofTokens at h
    split at h
    · cases h
    · cases h
    · next hreply =>
      cases h
      exact hreply
    · cases h
  obtain ⟨us, hts, hus⟩ := FormulaParser.takes_document hrun
  rw [List.append_nil] at hts
  rw [hts]
  exact hus

end Tariff
