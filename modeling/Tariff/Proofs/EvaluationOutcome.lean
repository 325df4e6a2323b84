import Tariff.Proofs.NestedLookups

/-!
# What an evaluation comes to

`Document.evaluate` gives a name its meaning and fills the table with the meanings of all defined
names that it reaches, if it reaches no cycle. If it does, it fails and names a term on one.
-/

namespace Tariff

namespace Definitions

variable {definitions : Definitions} {table memo : Table} {name other : String} {value : Value}

/-- The entries of the table after a look-up that succeeds. -/
theorem getElem?_after_resolve (hrun : definitions.resolve [] name table = (.ok value, memo))
    (other : String) (entry : Value) : memo[other]? = some entry ↔
      table[other]? = some entry ∨ (other ∉ table ∧ other ∈ definitions ∧
        definitions.Reaches table name other ∧ definitions.Denotes table other entry) := by
  have hfaithful := resolve_faithful (Memo.initial definitions table) name
  rw [hrun] at hfaithful
  have hmemo := hfaithful.invariant
  constructor
  · intro hentry
    have hmem := mem_of_getElem?_eq_some hentry
    by_cases htable : other ∈ table
    · obtain ⟨known, hknown⟩ := exists_getElem?_of_mem htable
      rw [hmemo.kept other known hknown] at hentry
      exact .inl (hknown.trans hentry)
    · exact .inr ⟨htable, hmemo.mem_definitions hmem htable, hfaithful.reached_name hmem htable,
        hmemo.denotes hentry⟩
  · rintro (hknown | ⟨-, hdefined, hreach, hmeaning⟩)
    · exact hmemo.kept other entry hknown
    · have hname := hfaithful.settled value rfl name (List.mem_singleton_self name)
      rcases hmemo.mem_of_reaches hname hreach with hmem | hundefined
      · obtain ⟨v, hv⟩ := exists_getElem?_of_mem hmem
        rw [hv, (hmemo.denotes hv).unique hmeaning]
      · exact (hundefined hdefined).elim

lemma resolve_fst_eq_recompute (definitions : Definitions) (table : Table) (name : String) :
    (definitions.resolve [] name table).1 = definitions.recompute table [] name :=
  (resolve_faithful (Memo.initial definitions table) name).outcome

/-- Evaluation gives a value if and only if no cycle is reached. -/
theorem exists_resolve_eq_ok_iff : (∃ value, (definitions.resolve [] name table).1 = .ok value) ↔
    definitions.Acyclic table name := by
  rw [resolve_fst_eq_recompute]
  constructor
  · rintro ⟨value, h⟩
    exact (denotes_of_recompute_eq_ok h).acyclic
  · intro h
    obtain ⟨value, hvalue⟩ := h.exists_denotes
    exact ⟨value, recompute_eq_ok_iff.mpr hvalue⟩

/-- Evaluation fails if and only if a cycle is reached. -/
theorem exists_resolve_eq_error_iff :
    (∃ term, (definitions.resolve [] name table).1 = .error (.circular term)) ↔
      ∃ other, definitions.Reaches table name other ∧ definitions.OnCycle table other := by
  have hcyclic : (∃ other, definitions.Reaches table name other ∧ definitions.OnCycle table other) ↔
      ¬definitions.Acyclic table name := by
    simp [Acyclic]
  rw [hcyclic, ← exists_resolve_eq_ok_iff]
  cases (definitions.resolve [] name table).1 with
  | ok value => simp
  | error e =>
    obtain ⟨term⟩ := e
    simp

end Definitions

variable (d : Document) (table : Table) (name : String)

/-- Without a cycle in reach, a name evaluates to its meaning. The table then holds what it held
before and the meaning of every other defined name in reach, whether or not its value mattered. -/
theorem evaluate_eq_meaning (h : d.definitionOf.Acyclic table name) :
    ∃ value memo, d.evaluate name table = (.ok value, memo) ∧
      (∀ v, d.definitionOf.Denotes table name v ↔ v = value) ∧
      ∀ other entry, memo[other]? = some entry ↔
        table[other]? = some entry ∨
          (other ∉ table ∧ other ∈ d.declaredTerms.map (·.text) ∧
            d.definitionOf.Reaches table name other ∧ d.definitionOf.Denotes table other entry) := by
  obtain ⟨value, hvalue⟩ := Definitions.exists_resolve_eq_ok_iff.mpr h
  rcases hrun : d.definitionOf.resolve [] name table with ⟨outcome, memo⟩
  rw [hrun] at hvalue
  obtain rfl : outcome = .ok value := hvalue
  have hmeaning : d.definitionOf.Denotes table name value := by
    rw [← Definitions.recompute_eq_ok_iff, ← Definitions.resolve_fst_eq_recompute, hrun]
  refine ⟨value, memo, hrun, fun v => ⟨fun hv => hv.unique hmeaning, ?_⟩, ?_⟩
  · rintro rfl
    exact hmeaning
  · intro other entry
    rw [Definitions.getElem?_after_resolve hrun, Document.mem_definitionOf]

/-- A formula of a single atom. -/
def Formula.single (atom : Formula .atom) : Expression :=
  .operand (.plain (.operand (.operand (.factor none atom))))

/-- A formula that is the name of a term. -/
def Formula.mention (name : String) : Expression :=
  .single (.name ⟨name, .start⟩)

@[simp] lemma Formula.uses_single (atom : Formula .atom) : (single atom).uses = atom.uses :=
  rfl

@[simp] lemma Formula.uses_mention (name : String) : (mention name).uses = [name] :=
  rfl

/-- A total with a branch that is not taken, a price that is defined twice, first in a circle, and a
rate that is in a circle with the total. -/
def rateDocument : Document where
  injectables := []
  definitions :=
    [⟨⟨"price", .start⟩, .mention "price"⟩,
      ⟨⟨"total", .start⟩, .single (.conditional (.single (.boolean true .start)) (.mention "price")
        (.mention "stock"))⟩,
      ⟨⟨"price", .start⟩, .mention "rate"⟩,
      ⟨⟨"rate", .start⟩, .mention "total"⟩,
      ⟨⟨"stock", .start⟩, .single (.boolean true .start)⟩]

/-- A known rate. -/
def rateTable : Table := (∅ : Table).insert "rate" (.boolean false)

lemma rateDocument_stock :
    rateDocument.definitionOf["stock"]? = some (.single (.boolean true .start)) := by decide

lemma rateDocument_price : rateDocument.definitionOf["price"]? = some (.mention "rate") := by decide

lemma rateDocument_total : rateDocument.definitionOf["total"]? = some (.single (.conditional
    (.single (.boolean true .start)) (.mention "price") (.mention "stock"))) := by decide

lemma rateDocument_denotes_stock :
    rateDocument.definitionOf.Denotes rateTable "stock" (.boolean true) :=
  .computed (fun _ => .boolean true) (by decide) rateDocument_stock (by simp)

lemma rateDocument_denotes_total :
    rateDocument.definitionOf.Denotes rateTable "total" (.boolean false) := by
  have hrate : rateDocument.definitionOf.Denotes rateTable "rate" (.boolean false) :=
    .known (by decide)
  have hprice : rateDocument.definitionOf.Denotes rateTable "price" (.boolean false) :=
    .computed (fun _ => .boolean false) (by decide) rateDocument_price (by simpa using hrate)
  refine .computed (fun use => .boolean (use = "stock")) (by decide) rateDocument_total ?_
  intro use huse
  obtain rfl | rfl : use = "price" ∨ use = "stock" := by simpa using huse
  · exact hprice
  · exact rateDocument_denotes_stock

/-- The known rate cuts both circles, and the branch that is not taken is evaluated. -/
theorem evaluate_rateDocument : rateDocument.definitionOf.Acyclic rateTable "total" ∧
    ∃ memo, rateDocument.evaluate "total" rateTable = (.ok (.boolean false), memo) ∧
      memo["stock"]? = some (.boolean true) := by
  refine ⟨rateDocument_denotes_total.acyclic, ?_⟩
  obtain ⟨value, memo, hrun, hvalue, hmemo⟩ := evaluate_eq_meaning rateDocument rateTable "total"
    rateDocument_denotes_total.acyclic
  obtain rfl := (hvalue _).mp rateDocument_denotes_total
  have hstep : rateDocument.definitionOf.RefersTo rateTable "total" "stock" :=
    ⟨by decide, _, rfl, by decide⟩
  exact ⟨memo, hrun, (hmemo "stock" (.boolean true)).mpr
    (.inr ⟨by decide, by decide, .single hstep, rateDocument_denotes_stock⟩)⟩

/-- Evaluation ends, no deeper than there are definitions. It fails if and only if a cycle is in
reach, and names a term in reach that is defined through itself, met while its own formula was
being evaluated. -/
theorem evaluate_fails_iff_cycle :
    (∀ inner : List Lookup, (⟨[], name, table⟩ :: inner).IsChain d.definitionOf.Asks →
      inner.length ≤ d.definitionOf.size) ∧
    ((∃ e, (d.evaluate name table).1 = .error e) ↔
      ∃ other, d.definitionOf.Reaches table name other ∧ d.definitionOf.OnCycle table other) ∧
    ∀ other, (d.evaluate name table).1 = .error (.circular other) →
      other ∈ d.declaredTerms.map (·.text) ∧ other ∉ table ∧
        d.definitionOf.Reaches table name other ∧ d.definitionOf.OnCycle table other ∧
        ∃ b, d.definitionOf.Meets ⟨[], name, table⟩ b ∧ b.name = other ∧ other ∈ b.resolving := by
  refine ⟨fun inner h => ?_, ⟨?_, ?_⟩, ?_⟩
  · have hle := Definitions.length_le_unopened h
    rwa [Definitions.unopened_nil] at hle
  · rintro ⟨e, he⟩
    by_contra hnone
    have hacyclic : d.definitionOf.Acyclic table name :=
      fun other hreach hcycle => hnone ⟨other, hreach, hcycle⟩
    obtain ⟨value, hvalue⟩ := Definitions.exists_resolve_eq_ok_iff.mpr hacyclic
    have hboth : Except.error e = Except.ok value := he.symm.trans hvalue
    cases hboth
  · rintro ⟨other, hreach, hcycle⟩
    cases houtcome : (d.evaluate name table).1 with
    | error e => exact ⟨e, rfl⟩
    | ok value =>
      have hacyclic := Definitions.exists_resolve_eq_ok_iff.mp ⟨value, houtcome⟩
      exact (hacyclic other hreach hcycle).elim
  · intro other herror
    have hplain : d.definitionOf.recompute table [] name = .error (.circular other) := by
      rw [← Definitions.resolve_fst_eq_recompute]
      exact herror
    obtain ⟨hreach, ⟨hopen, -⟩ | hcycle⟩ := Definitions.onCycle_of_recompute_eq_error hplain
    · cases hopen
    · rcases hrun : d.definitionOf.resolve [] name table with ⟨outcome, memo⟩
      obtain rfl : outcome = .error (.circular other) := by
        rw [← herror, Document.evaluate, hrun]
      exact ⟨Document.mem_definitionOf.mp hcycle.mem_definitions, hcycle.not_mem_table, hreach, hcycle,
        Definitions.meets_of_circular hrun⟩

end Tariff
