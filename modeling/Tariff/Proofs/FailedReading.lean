import Tariff.Proofs.Soundness
import Tariff.Proofs.StalledReading

/-!
# Why the parser gives up

A formula is read as far as it goes (`endsBefore_of_accepts`). When the parser gives up, what it has
taken up is the beginning of a formula, what has to follow is missing, and the error names the token in
its place (`StallsBefore`).
-/

namespace Tariff

open Tariff.Parser

lemma Derives.ne_nil {l : Level} {ts : List Token} {f : Formula l} (h : Derives ts f) : ts ≠ [] := by
  induction h with
  | operand _ ih => exact ih
  | plain _ ih => exact ih
  | bare _ ih => exact ih
  | _ => simp

namespace FormulaParser

variable {call : (rule : Rule) → List Token → Reply rule.Tree} {n : Nat}

section Greedy

variable {ts rest : List Token}

/-- A repetition ends where its item does not match any more, behind the last item if there is one. -/
lemma ends_of_accepts_many {α : Type} {p : FormulaParser α} {ends : List Token → Prop}
    (hitem : ∀ ts x rest, Accepts call p ts x rest → ends rest ∧ rest.length < ts.length) {xs : List α}
    (h : Accepts call (.many p) ts xs rest) :
    (xs = [] ∧ rest = ts ∨ ends rest) ∧ Declines call p rest := by
  induction xs generalizing ts with
  | nil =>
    obtain ⟨-, rfl, hdeclines⟩ | ⟨x, others, mid, hxs, -⟩ := accepts_many_cases h
    · exact ⟨.inl ⟨rfl, rfl⟩, hdeclines⟩
    · cases hxs
  | cons x xs ih =>
    obtain ⟨hxs, -⟩ | ⟨x', others, mid, hxs, hx, hothers⟩ := accepts_many_cases h
    · cases hxs
    · cases hxs
      obtain ⟨hends, hlt⟩ := hitem _ _ _ hx
      obtain hmany | ⟨hle, -, -⟩ := hothers
      · obtain ⟨⟨-, rfl⟩ | hrest, hdeclines⟩ := ih hmany
        · exact ⟨.inr hends, hdeclines⟩
        · exact ⟨.inr hrest, hdeclines⟩
      · exact absurd hlt (Nat.not_lt_of_le hle)

lemma takes_ofLevel (hcall : CallsDerive call) {l : Level} {x : Formula l}
    (h : Accepts call (ofLevel l) ts x rest) : Takes Derives ts x rest := by
  have hproduct : ∀ ts x rest, Accepts call product ts x rest → Takes Derives ts x rest :=
    fun _ _ _ h => takes_chain (c := .product) (fun _ _ _ h => takes_factor hcall h) h
  cases l with
  | chain c =>
    cases c with
    | logic => exact takes_expression hcall h
    | sum => exact takes_chain (c := .sum) hproduct h
    | product => exact hproduct _ _ _ h
  | comparison => exact takes_comparison hcall h
  | factor => exact takes_factor hcall h
  | atom => exact takes_atom hcall h

lemma length_lt_of_takes {l : Level} {x : Formula l} (h : Takes Derives ts x rest) :
    rest.length < ts.length := by
  obtain ⟨us, rfl, hx⟩ := h
  have hpos := List.length_pos_iff.mpr hx.ne_nil
  rw [List.length_append]
  omega

/-- The rules that are called by name read as far as a formula goes. -/
structure CallsEnd (call : (rule : Rule) → List Token → Reply rule.Tree) : Prop where
  expression (ts : List Token) (f : Expression) (rest : List Token)
    (h : call .expression ts = ⟨.matched f, rest⟩) : (Level.chain .logic).EndsBefore rest
  comparison (ts : List Token) (f : Formula .comparison) (rest : List Token)
    (h : call .comparison ts = ⟨.matched f, rest⟩) : Level.comparison.EndsBefore rest

lemma endsBefore_chain_of_accepts (hcall : CallsDerive call) {c : Chain}
    (hoperand : ∀ ts x rest, Accepts call (ofLevel c.operand) ts x rest → c.operand.EndsBefore rest)
    {x : Formula (.chain c)} (h : Accepts call (ofLevel (.chain c)) ts x rest) :
    (Level.chain c).EndsBefore rest := by
  rw [ofLevel_chain] at h
  obtain ⟨⟨first, links⟩, hparts, -⟩ := accepts_map.mp h
  obtain ⟨mid, hfirst, hlinks⟩ := accepts_seq.mp hparts
  have hlink : ∀ ts x rest, Accepts call (link c) ts x rest →
      c.operand.EndsBefore rest ∧ rest.length < ts.length := by
    rintro ts ⟨op, operand⟩ rest hparts
    obtain ⟨mid, hop, hright⟩ := accepts_seq.mp hparts
    obtain ⟨t, rfl, -⟩ := accepts_connective.mp hop
    have hright' := accepts_expect.mp hright
    have hlt := length_lt_of_takes (takes_ofLevel hcall hright')
    exact ⟨hoperand _ _ _ hright', Nat.lt_succ_of_lt hlt⟩
  obtain ⟨hrest, hdeclines⟩ := ends_of_accepts_many hlink hlinks
  have hconnective : Declines call (connective c) rest := declines_seq_expect.mp hdeclines
  obtain ⟨-, rfl⟩ | hrest := hrest
  · exact endsBefore_chain.mpr ⟨hoperand _ _ _ hfirst, hconnective⟩
  · exact endsBefore_chain.mpr ⟨hrest, hconnective⟩

/-- No operator that could go on a formula is left behind it. -/
theorem endsBefore_of_accepts (hcall : CallsDerive call) (hend : CallsEnd call) {l : Level}
    {x : Formula l} (h : Accepts call (ofLevel l) ts x rest) : l.EndsBefore rest := by
  have hfactor {ts rest : List Token} {x : Formula .factor} (_ : Accepts call factor ts x rest) :
      Level.factor.EndsBefore rest := by
    simp [Level.EndsBefore, Level.continuations]
  have hproduct {ts rest : List Token} {x : Formula (.chain .product)}
      (h : Accepts call product ts x rest) : (Level.chain .product).EndsBefore rest :=
    endsBefore_chain_of_accepts hcall (fun _ _ _ h => hfactor h) h
  have hsum {ts rest : List Token} {x : Formula (.chain .sum)} (h : Accepts call sum ts x rest) :
      (Level.chain .sum).EndsBefore rest :=
    endsBefore_chain_of_accepts hcall (fun _ _ _ h => hproduct h) h
  have hcomparison {ts rest : List Token} {x : Formula .comparison}
      (h : Accepts call comparison ts x rest) : Level.comparison.EndsBefore rest := by
    obtain ⟨⟨value, compared⟩, hparts, -⟩ := accepts_map.mp h
    obtain ⟨mid, hvalue, hcompared⟩ := accepts_seq.mp hparts
    cases compared with
    | none =>
      obtain ⟨hdeclines, rfl⟩ := accepts_optional_none.mp hcompared
      exact endsBefore_comparison.mpr ⟨hsum hvalue, declines_seq_expect.mp hdeclines⟩
    | some compared =>
      obtain ⟨op, right⟩ := compared
      obtain ⟨mid, -, hright⟩ := accepts_seq.mp (accepts_optional_some.mp hcompared)
      exact hend.comparison _ _ _ (accepts_expect.mp hright)
  cases l with
  | chain c =>
    cases c with
    | logic => exact endsBefore_chain_of_accepts hcall (fun _ _ _ h => hcomparison h) h
    | sum => exact hsum h
    | product => exact hproduct h
  | comparison => exact hcomparison h
  | factor => exact hfactor h
  | atom => exact endsBefore_atom rest

lemma callsEnd_guard (n : Nat) : CallsEnd fun rule ts =>
    if ts.length < n then formulaGrammar.run rule ts else ⟨.noMatch, ts⟩ := by
  induction n using Nat.strongRecOn with
  | _ n ih =>
    constructor
    · intro ts f rest h
      by_cases hlt : ts.length < n
      · rw [if_pos hlt, Grammar.run] at h
        exact endsBefore_of_accepts (callsDerive_guard _) (ih ts.length hlt) h
      · rw [if_neg hlt] at h
        cases h
    · intro ts f rest h
      by_cases hlt : ts.length < n
      · rw [if_pos hlt, Grammar.run] at h
        exact endsBefore_of_accepts (callsDerive_guard _) (ih ts.length hlt) h
      · rw [if_neg hlt] at h
        cases h

theorem callsEnd_run : CallsEnd formulaGrammar.run := by
  constructor
  · intro ts f rest h
    rw [Grammar.run] at h
    exact endsBefore_of_accepts (callsDerive_guard _) (callsEnd_guard ts.length) h
  · intro ts f rest h
    rw [Grammar.run] at h
    exact endsBefore_of_accepts (callsDerive_guard _) (callsEnd_guard ts.length) h

end Greedy

/-- The tokens up to the rest are the beginning of a formula, what has to follow is missing, and the error
names the token in its place. -/
inductive StallsBefore (l : Level) : List Token → ParseError → List Token → Prop where
  | intro {us rest : List Token} {need : Need} {description : String} (stalls : Stalls l us need)
      (missing : need.Missing rest) (hdescription : description ≠ "a program") :
    StallsBefore l (us ++ rest) (.expected description rest.head?) rest

variable {ts rest : List Token} {e : ParseError}

lemma StallsBefore.after {l m : Level} (h : StallsBefore l ts e rest) (vs : List Token)
    (hstep : ∀ {us : List Token} {need : Need}, Stalls l us need → Stalls m (vs ++ us) need) :
    StallsBefore m (vs ++ ts) e rest := by
  obtain ⟨hstalls, hmissing, hdescription⟩ := h
  rw [← List.append_assoc]
  exact .intro (hstep hstalls) hmissing hdescription

/-- When the parser does not match the tokens or gives them up, they say why. -/
structure Explains (call : (rule : Rule) → List Token → Reply rule.Tree) {l : Level}
    (p : FormulaParser (Formula l)) (ts : List Token) : Prop where
  start : Stalls l [] .operand
  declines (h : Declines call p ts) : Need.operand.Missing ts
  fails {e : ParseError} {rest : List Token} (h : Fails call p ts e rest) : StallsBefore l ts e rest

lemma Explains.expect (hquiet : Quiet call) {l : Level} {p : FormulaParser (Formula l)}
    (h : Explains call p ts) {description : String} (hdescription : description ≠ "a program")
    (hfails : Fails call (.expect description p) ts e rest) : StallsBefore l ts e rest := by
  obtain hfails | ⟨hdeclines, rfl, rfl⟩ := (fails_expect hquiet).mp hfails
  · exact h.fails hfails
  · exact .intro h.start (h.declines hdeclines) hdescription

/-- The rules that are called by name say why, as long as there are few enough tokens. -/
structure CallsExplain (call : (rule : Rule) → List Token → Reply rule.Tree) (n : Nat) : Prop where
  expression (ts : List Token) (hlen : ts.length < n) :
    @Explains call (.chain .logic) (rule .expression) ts
  comparison (ts : List Token) (hlen : ts.length < n) :
    @Explains call .comparison (rule .comparison) ts

section Operators

lemma not_fails_sign {α : Type} {text : String} {value : α} :
    ¬Fails call (sign text value) ts e rest :=
  fun h => not_fails_literal (fails_map.mp h)

lemma not_fails_connective {c : Chain} : ¬Fails call (connective c) ts e rest := by
  cases c <;> simp [connective, fails_or, not_fails_sign]

lemma not_fails_comparator : ¬Fails call comparator ts e rest := by
  simp [comparator, fails_or, not_fails_sign]

lemma not_fails_unary : ¬Fails call unary ts e rest := by
  simp [unary, fails_or, not_fails_sign]

end Operators

section Atoms

variable (hquiet : Quiet call) (hderive : CallsDerive call) (hend : CallsEnd call)
  (hexplain : CallsExplain call n)
include hquiet hderive hend hexplain

/-- The formula inside an atom, or the word after it, is not there. -/
lemma stallsBefore_of_inner {os : List Token} {text description description' : String}
    (hopen : Opens os text) (hdescription : description ≠ "a program")
    (hdescription' : description' ≠ "a program") (hlen : ts.length < n)
    (h : Fails call ((expected description).skip (keyword description' text)) ts e rest) :
    StallsBefore .atom (os ++ ts) e rest := by
  obtain hinner | ⟨x, mid, hinner, hword⟩ := fails_skip.mp h
  · exact ((hexplain.expression ts hlen).expect hquiet hdescription hinner).after os (.inside hopen)
  · obtain ⟨us, rfl, hx⟩ := hderive.expected hinner
    have hends := hend.expression _ _ _ (accepts_expect.mp hinner)
    obtain hliteral | ⟨hliteral, rfl, rfl⟩ := (fails_expect hquiet).mp hword
    · exact (not_fails_literal hliteral).elim
    · rw [← List.append_assoc]
      exact .intro (.word hopen hx) ⟨hends, declines_literal.mp hliteral⟩ hdescription'

lemma stallsBefore_of_fails_parentheses (hlen : ts.length ≤ n)
    (h : Fails call parentheses ts e rest) : StallsBefore .atom ts e rest := by
  obtain hliteral | ⟨_, mid, hliteral, hinner⟩ := fails_skip_skipLeft.mp (fails_map.mp h)
  · exact (not_fails_literal hliteral).elim
  · obtain ⟨opening, rfl, hopening, -⟩ := accepts_literal.mp hliteral
    exact stallsBefore_of_inner hquiet hderive hend hexplain (.parentheses hopening) (by decide)
      (by decide) hlen hinner

lemma stallsBefore_of_fails_conditional (hlen : ts.length ≤ n)
    (h : Fails call conditional ts e rest) : StallsBefore .atom ts e rest := by
  rw [conditional_eq] at h
  obtain hyes | ⟨⟨condition, yes⟩, mid, hyes, hinner⟩ := fails_skip_seq.mp (fails_map.mp h)
  · obtain hcondition | ⟨condition, mid, hcondition, hinner⟩ := fails_skip_seq.mp hyes
    · obtain hliteral | ⟨_, mid, hliteral, hinner⟩ := fails_skip_skipLeft.mp hcondition
      · exact (not_fails_literal hliteral).elim
      · obtain ⟨tif, rfl, hif, -⟩ := accepts_literal.mp hliteral
        exact stallsBefore_of_inner hquiet hderive hend hexplain (.condition hif) (by decide)
          (by decide) hlen hinner
    · obtain ⟨tif, tthen, cs, rfl, hif, hcs, hthen⟩ :=
        exists_of_accepts_conditionPart hderive hcondition
      simp only [List.length_cons, List.length_append] at hlen
      have hstalls := stallsBefore_of_inner hquiet hderive hend hexplain (.yes hif hcs hthen)
        (by decide) (by decide) (by omega) hinner
      simpa using hstalls
  · obtain ⟨telse, _, ys, hcondition, rfl, hys, helse⟩ := exists_of_accepts_yesPart hderive hyes
    obtain ⟨tif, tthen, cs, rfl, hif, hcs, hthen⟩ :=
      exists_of_accepts_conditionPart hderive hcondition
    simp only [List.length_cons, List.length_append] at hlen
    have hstalls := stallsBefore_of_inner hquiet hderive hend hexplain (.no hif hcs hthen hys helse)
      (by decide) (by decide) (by omega) hinner
    simpa using hstalls

lemma stallsBefore_of_fails_atom (hlen : ts.length ≤ n) (h : Fails call atom ts e rest) :
    StallsBefore .atom ts e rest := by
  obtain hnumber | ⟨-, h⟩ := fails_or.mp h
  · exact (not_fails_token (fails_map.mp hnumber)).elim
  obtain hboolean | ⟨-, h⟩ := fails_or.mp h
  · obtain hyes | ⟨-, hno⟩ := fails_or.mp hboolean
    · exact (not_fails_literal (fails_map.mp hyes)).elim
    · exact (not_fails_literal (fails_map.mp hno)).elim
  obtain hparentheses | ⟨-, h⟩ := fails_or.mp h
  · exact stallsBefore_of_fails_parentheses hquiet hderive hend hexplain hlen hparentheses
  obtain hconditional | ⟨-, h⟩ := fails_or.mp h
  · exact stallsBefore_of_fails_conditional hquiet hderive hend hexplain hlen hconditional
  exact (not_fails_token (fails_map.mp h)).elim

end Atoms

lemma explains_factor (hatom : ∀ {us : List Token} {e : ParseError} {rest : List Token},
      us.length ≤ ts.length → Fails call atom us e rest → StallsBefore .atom us e rest) :
    Explains call factor ts where
  start := .here
  declines h := declines_factor.mp h
  fails h := by
    obtain hunary | ⟨op, mid, hop, hbase⟩ := fails_seq.mp (fails_map.mp h)
    · exact (not_fails_unary (fails_optional.mp hunary)).elim
    · cases op with
      | none =>
        obtain ⟨-, rfl⟩ := accepts_optional_none.mp hop
        exact (hatom (Nat.le_refl _) hbase).after [] .bare
      | some op =>
        obtain ⟨t, rfl, htext⟩ := accepts_unary.mp (accepts_optional_some.mp hop)
        exact (hatom (Nat.le_succ _) hbase).after [t] (.unary htext)

/-- A chain is given up at the first link that is. -/
lemma stallsBefore_of_fails_links (hquiet : Quiet call) (hderive : CallsDerive call) {c : Chain}
    (hoperand : ∀ us : List Token, us.length ≤ n → Explains call (ofLevel c.operand) us)
    {us : List Token} {left : Formula (.chain c)} (hleft : Derives us left) (hlen : ts.length ≤ n)
    (h : Fails call (.many (link c)) ts e rest) : StallsBefore (.chain c) (us ++ ts) e rest := by
  induction hn : ts.length using Nat.strongRecOn generalizing us left ts with
  | _ m ih =>
    obtain hlink | ⟨⟨op, x⟩, mid, hlink, hlt, hmany⟩ := fails_many.mp h
    · obtain hconnective | ⟨op, mid, hop, hright⟩ := fails_seq.mp hlink
      · exact (not_fails_connective hconnective).elim
      · obtain ⟨t, rfl, htext⟩ := accepts_connective.mp hop
        have hdescription : operandDescription c ≠ "a program" := by cases c <;> decide
        have hmid := (hoperand mid (Nat.le_of_succ_le hlen)).expect hquiet hdescription hright
        have hstalls := hmid.after (us ++ [t]) (m := .chain c) fun {vs _} h => by
          simpa using Stalls.link hleft htext h
        simpa using hstalls
    · obtain ⟨mid', hop, hright⟩ := accepts_seq.mp hlink
      obtain ⟨t, rfl, htext⟩ := accepts_connective.mp hop
      obtain ⟨vs, rfl, hx⟩ := takes_ofLevel hderive (accepts_expect.mp hright)
      have hstalls := ih mid.length (hn ▸ hlt) (hleft.link htext hx)
        (Nat.le_of_lt (hlt.trans_le hlen)) hmany rfl
      simpa using hstalls

lemma explains_chain (hquiet : Quiet call) (hderive : CallsDerive call) {c : Chain}
    (hstart : Stalls c.operand [] .operand)
    (hoperand : ∀ us : List Token, us.length ≤ ts.length → Explains call (ofLevel c.operand) us) :
    Explains call (ofLevel (.chain c)) ts where
  start := .operand hstart
  declines h := by
    rw [ofLevel_chain] at h
    obtain hfirst | ⟨_, mid, -, hlinks⟩ := declines_seq.mp (declines_map.mp h)
    · exact (hoperand ts (Nat.le_refl _)).declines hfirst
    · exact (not_declines_many hlinks).elim
  fails h := by
    rw [ofLevel_chain] at h
    obtain hfirst | ⟨x, mid, hfirst, hlinks⟩ := fails_seq.mp (fails_map.mp h)
    · exact ((hoperand ts (Nat.le_refl _)).fails hfirst).after [] .operand
    · obtain ⟨us, rfl, hx⟩ := takes_ofLevel hderive hfirst
      exact stallsBefore_of_fails_links hquiet hderive hoperand (.operand hx) (by simp) hlinks

lemma explains_comparison (hquiet : Quiet call) (hderive : CallsDerive call)
    (hexplain : CallsExplain call ts.length) (hsum : Explains call sum ts) :
    Explains call comparison ts where
  start := .plain hsum.start
  declines h := by
    obtain hvalue | ⟨_, mid, -, hcompared⟩ := declines_seq.mp (declines_map.mp h)
    · exact hsum.declines hvalue
    · exact (not_declines_optional hcompared).elim
  fails h := by
    obtain hvalue | ⟨x, mid, hvalue, hcompared⟩ := fails_seq.mp (fails_map.mp h)
    · exact (hsum.fails hvalue).after [] .plain
    · obtain hop | ⟨op, mid, hop, hright⟩ := fails_seq.mp (fails_optional.mp hcompared)
      · exact (not_fails_comparator hop).elim
      · obtain ⟨t, rfl, htext⟩ := accepts_comparator.mp hop
        obtain ⟨us, rfl, hx⟩ := takes_ofLevel (l := .chain .sum) hderive hvalue
        have hlt : mid.length < (us ++ t :: mid).length := by
          simp only [List.length_append, List.length_cons]
          omega
        have hmid := (hexplain.comparison mid hlt).expect hquiet (by decide) hright
        have hstalls := hmid.after (us ++ [t]) (m := .comparison) fun {vs _} h => by
          simpa using Stalls.compare hx htext h
        simpa using hstalls

lemma CallsExplain.mono {m : Nat} (h : CallsExplain call n) (hle : m ≤ n) : CallsExplain call m :=
  ⟨fun us hlen => h.expression us (hlen.trans_le hle),
    fun us hlen => h.comparison us (hlen.trans_le hle)⟩

/-- The rules say why, as long as those that they call do. -/
lemma explains_rule (hquiet : Quiet call) (hderive : CallsDerive call) (hend : CallsEnd call)
    (hexplain : CallsExplain call ts.length) :
    Explains call expression ts ∧ Explains call comparison ts := by
  have hfactor (us : List Token) (hus : us.length ≤ ts.length) : Explains call factor us :=
    explains_factor fun hvs h =>
      stallsBefore_of_fails_atom hquiet hderive hend hexplain (hvs.trans hus) h
  have hproduct (us : List Token) (hus : us.length ≤ ts.length) : Explains call product us :=
    explains_chain (c := .product) hquiet hderive .here fun vs hvs => hfactor vs (hvs.trans hus)
  have hsum (us : List Token) (hus : us.length ≤ ts.length) : Explains call sum us :=
    explains_chain (c := .sum) hquiet hderive (.operand .here) fun vs hvs => hproduct vs (hvs.trans hus)
  have hcomparison (us : List Token) (hus : us.length ≤ ts.length) : Explains call comparison us :=
    explains_comparison hquiet hderive (hexplain.mono hus) (hsum us hus)
  have hexpression : Explains call expression ts :=
    explains_chain (c := .logic) hquiet hderive (.plain (.operand (.operand .here))) hcomparison
  exact ⟨hexpression, hcomparison ts (Nat.le_refl _)⟩

lemma Explains.congr {l : Level} {p p' : FormulaParser (Formula l)}
    {call' : (rule : Rule) → List Token → Reply rule.Tree} (h : Explains call p ts)
    (hrun : p'.run call' ts = p.run call ts) : Explains call' p' ts where
  start := h.start
  declines h' := h.declines ((congrArg Reply.outcome hrun).symm.trans h')
  fails h' := h.fails (hrun.symm.trans h')

/-- A rule is called on fewer tokens than it has itself, so this is an induction on their number. -/
lemma callsExplain_guard (n : Nat) : CallsExplain (fun rule ts =>
    if ts.length < n then formulaGrammar.run rule ts else ⟨.noMatch, ts⟩) n := by
  induction n using Nat.strongRecOn with
  | _ n ih =>
    have hrules (ts : List Token) (hlen : ts.length < n) := explains_rule
      (quiet_guard formulaGrammar ts.length) (callsDerive_guard _) (callsEnd_guard _) (ih ts.length hlen)
    constructor
    · intro ts hlen
      refine (hrules ts hlen).1.congr ((if_pos hlen).trans ?_)
      rw [Grammar.run]
      rfl
    · intro ts hlen
      refine (hrules ts hlen).2.congr ((if_pos hlen).trans ?_)
      rw [Grammar.run]
      rfl

theorem callsExplain_run (n : Nat) : CallsExplain formulaGrammar.run n := by
  constructor
  · intro ts _
    exact ((callsExplain_guard (ts.length + 1)).expression ts (Nat.lt_succ_self _)).congr
      (if_pos (Nat.lt_succ_self _)).symm
  · intro ts _
    exact ((callsExplain_guard (ts.length + 1)).comparison ts (Nat.lt_succ_self _)).congr
      (if_pos (Nat.lt_succ_self _)).symm

/-- When an expression does not match or is given up, the tokens say why. -/
theorem explains_expression (ts : List Token) : Explains formulaGrammar.run expression ts :=
  (explains_rule (quiet_run _) callsDerive_run callsEnd_run (callsExplain_run _)).1

end FormulaParser

end Tariff
