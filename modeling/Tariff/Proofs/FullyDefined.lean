import Tariff.Check
import Tariff.Proofs.EvaluationOutcome

/-!
# Fully defined names and evaluation

`Closure.close` gives the least set of names that contains the known ones and every name whose uses
are all in it. For the names that bottom out in injected ones this is what evaluation does:
`fullyDefined_iff_evaluates`.
-/

namespace Tariff

namespace Closure

variable {references : List (String × List String)} {known : Names} {name : String}
  {uses : List String}

lemma mem_round : name ∈ round references known ↔
    name ∉ known ∧ ∃ uses, (name, uses) ∈ references ∧ ∀ use ∈ uses, use ∈ known := by
  simp only [round, List.mem_map, List.mem_filter, Prod.exists]
  grind

lemma mem_insertMany_round : name ∈ known.insertMany (round references known) ↔
    name ∈ known ∨ name ∈ round references known := by
  simp [Std.ExtTreeSet.mem_insertMany_list]

theorem mem_close_of_known (h : name ∈ known) : name ∈ close references known := by
  induction known using close.induct references with
  | case1 known hround => rwa [close, if_pos hround]
  | case2 known hround ih =>
    rw [close, if_neg hround]
    exact ih (mem_insertMany_round.mpr (.inl h))

/-- A name belongs to the closure once everything that its entry refers to does. -/
theorem mem_close_of_uses (href : (name, uses) ∈ references)
    (huses : ∀ use ∈ uses, use ∈ close references known) : name ∈ close references known := by
  induction known using close.induct references with
  | case1 known hround =>
    rw [close, if_pos hround] at huses ⊢
    by_contra hname
    have hmem : name ∈ round references known := mem_round.mpr ⟨hname, uses, href, huses⟩
    rw [hround] at hmem
    cases hmem
  | case2 known hround ih =>
    rw [close, if_neg hround] at huses ⊢
    exact ih huses

/-- What holds of the known names and passes from the uses of an entry to its name holds of the
whole closure. -/
theorem close_induction {P : String → Prop} (hknown : ∀ name ∈ known, P name)
    (hstep : ∀ name uses, (name, uses) ∈ references → (∀ use ∈ uses, P use) → P name) :
    ∀ name ∈ close references known, P name := by
  induction known using close.induct references with
  | case1 known hround =>
    rw [close, if_pos hround]
    exact hknown
  | case2 known hround ih =>
    rw [close, if_neg hround]
    apply ih
    intro name hname
    rcases mem_insertMany_round.mp hname with hname | hname
    · exact hknown name hname
    · obtain ⟨-, uses, href, huses⟩ := mem_round.mp hname
      exact hstep name uses href fun use huse => hknown use (huses use huse)

end Closure

namespace Document

variable {d : Document} {table : Table} {name : String}

lemma mem_references {uses : List String} : (name, uses) ∈ d.references ↔
    ∃ body, d.definitionOf[name]? = some body ∧ uses = body.uses := by
  simp only [references, List.mem_map, Prod.exists, Prod.mk.injEq,
    Std.ExtTreeMap.mem_toList_iff_getElem?_eq_some]
  constructor
  · rintro ⟨name', body, hbody, rfl, rfl⟩
    exact ⟨body, hbody, rfl⟩
  · rintro ⟨body, hbody, rfl⟩
    exact ⟨name, body, hbody, rfl, rfl⟩

lemma mem_fullyDefined_of_injectable (h : name ∈ d.injectableTerms.map (·.text)) :
    name ∈ d.fullyDefined := by
  apply Closure.mem_close_of_known
  simpa [Std.ExtTreeSet.mem_ofList] using h

lemma mem_fullyDefined_of_uses {body : Expression} (hbody : d.definitionOf[name]? = some body)
    (huses : ∀ use ∈ body.uses, use ∈ d.fullyDefined) : name ∈ d.fullyDefined :=
  Closure.mem_close_of_uses (mem_references.mpr ⟨body, hbody, rfl⟩) huses

theorem fullyDefined_induction {P : String → Prop}
    (hinjected : ∀ name ∈ d.injectableTerms.map (·.text), P name)
    (hdefined : ∀ name body, d.definitionOf[name]? = some body → (∀ use ∈ body.uses, P use) → P name) :
    ∀ name ∈ d.fullyDefined, P name := by
  apply Closure.close_induction
  · intro name hname
    exact hinjected name (by simpa [Std.ExtTreeSet.mem_ofList] using hname)
  · intro name uses href huses
    obtain ⟨body, hbody, rfl⟩ := mem_references.mp href
    exact hdefined name body hbody huses

/-- Every name that is reached is in the table or has a definition. -/
def Grounded (d : Document) (table : Table) (name : String) : Prop :=
  ∀ other, d.definitionOf.Reaches table name other → other ∈ table ∨ other ∈ d.definitionOf

/-- A fully defined name reaches no cycle and no undeclared name. -/
lemma acyclic_and_grounded_of_fullyDefined
    (hkeys : ∀ key ∈ d.injectableTerms.map (·.text), key ∈ table) :
    ∀ name ∈ d.fullyDefined, d.definitionOf.Acyclic table name ∧ d.Grounded table name := by
  apply fullyDefined_induction
  · intro name hname
    have hnone : ∀ use, ¬d.definitionOf.RefersTo table name use :=
      Definitions.not_refersTo_of_mem_table (hkeys name hname)
    refine ⟨Definitions.acyclic_of_forall_not_refersTo hnone, fun other hreach => ?_⟩
    obtain rfl := hreach.eq_of_forall_not_refersTo hnone
    exact .inl (hkeys other hname)
  · intro name body hbody huses
    refine ⟨Definitions.acyclic_of_forall_use fun use hstep => (huses use (hstep.mem_uses hbody)).1,
      fun other hreach => ?_⟩
    obtain rfl | ⟨use, hstep, hrest⟩ := Relation.ReflTransGen.cases_head hreach
    · exact .inr (Definitions.mem_of_getElem?_eq_some hbody)
    · exact (huses use (hstep.mem_uses hbody)).2 other hrest

/-- A name with a meaning that reaches only declared names is fully defined. -/
lemma fullyDefined_of_denotes {value : Value}
    (hkeys : ∀ key ∈ table, key ∈ d.injectableTerms.map (·.text))
    (h : d.definitionOf.Denotes table name value) (hgrounded : d.Grounded table name) :
    name ∈ d.fullyDefined := by
  induction h with
  | known entry =>
    exact mem_fullyDefined_of_injectable (hkeys _ (Definitions.mem_of_getElem?_eq_some entry))
  | computed ρ missing defined uses ih =>
    apply mem_fullyDefined_of_uses defined
    intro use huse
    have hstep := Definitions.refersTo_of_use missing defined huse
    exact ih use huse fun other hreach => hgrounded other (.head hstep hreach)
  | free missing undefined =>
    rcases hgrounded _ .refl with hmem | hdefined
    · exact (missing hmem).elim
    · exact (undefined hdefined).elim

/-- With exactly the injected names known, a name is fully defined if and only if its evaluation
succeeds and meets no name that has neither an entry nor a definition. -/
theorem fullyDefined_iff_evaluates (d : Document) (table : Table)
    (hkeys : ∀ key, key ∈ table ↔ key ∈ d.injectableTerms.map (·.text)) (name : String) :
    name ∈ d.fullyDefined ↔
      (∃ value, (d.evaluate name table).1 = .ok value) ∧
        ∀ b, d.definitionOf.Meets ⟨[], name, table⟩ b →
          b.name ∈ table ∨ b.name ∈ d.declaredTerms.map (·.text) := by
  constructor
  · intro hname
    obtain ⟨hacyclic, hgrounded⟩ :=
      acyclic_and_grounded_of_fullyDefined (fun key => (hkeys key).mpr) name hname
    refine ⟨Definitions.exists_resolve_eq_ok_iff.mpr hacyclic, fun b hmeets => ?_⟩
    have hreach := (hmeets.invariant (Definitions.Memo.initial d.definitionOf table)).1
    exact (hgrounded b.name hreach).imp_right mem_definitionOf.mp
  · rintro ⟨⟨value, hvalue⟩, hmet⟩
    rcases hrun : d.definitionOf.resolve [] name table with ⟨outcome, memo⟩
    obtain rfl : outcome = .ok value := by rw [← hvalue, evaluate, hrun]
    have hmeaning : d.definitionOf.Denotes table name value := by
      rw [← Definitions.recompute_eq_ok_iff, ← Definitions.resolve_fst_eq_recompute, hrun]
    apply fullyDefined_of_denotes (fun key => (hkeys key).mp) hmeaning
    intro other hreach
    obtain ⟨b, hmeets, rfl⟩ := (Definitions.meets_iff_reaches hrun).mpr hreach
    exact (hmet b hmeets).imp_right mem_definitionOf.mpr

/-- The rate is announced from outside, and defined as well. -/
def billDocument : Document where
  injectables := [⟨⟨"known", .start⟩, [⟨"rate", .start⟩]⟩]
  definitions := rateDocument.definitions

lemma mem_rateTable_iff (key : String) :
    key ∈ rateTable ↔ key ∈ billDocument.injectableTerms.map (·.text) := by
  rw [rateTable, Definitions.mem_insert_name]
  simp [billDocument, injectableTerms, eq_comm]

lemma mem_fullyDefined_billDocument : "total" ∈ billDocument.fullyDefined := by
  have hrate : "rate" ∈ billDocument.fullyDefined := mem_fullyDefined_of_injectable (by decide)
  have hprice : "price" ∈ billDocument.fullyDefined :=
    mem_fullyDefined_of_uses rateDocument_price (by simpa using hrate)
  have hstock : "stock" ∈ billDocument.fullyDefined :=
    mem_fullyDefined_of_uses rateDocument_stock (by simp)
  have htotal : billDocument.definitionOf["total"]? = _ := rateDocument_total
  apply mem_fullyDefined_of_uses htotal
  intro use huse
  obtain rfl | rfl : use = "price" ∨ use = "stock" := by simpa using huse
  · exact hprice
  · exact hstock

theorem evaluate_billDocument :
    (∀ key, key ∈ rateTable ↔ key ∈ billDocument.injectableTerms.map (·.text)) ∧
      ∃ value, (billDocument.evaluate "total" rateTable).1 = .ok value :=
  ⟨mem_rateTable_iff, ((fullyDefined_iff_evaluates billDocument rateTable mem_rateTable_iff "total").mp
    mem_fullyDefined_billDocument).1⟩

end Document

end Tariff
