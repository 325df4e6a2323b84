import Tariff.Proofs.EvaluationOutcome
import Tariff.Proofs.Relocation

/-!
# What an evaluation depends on

An evaluation looks at the names that it reaches and at nothing else. Two documents with two tables
that agree on these names give the same answer, a failure included, and add the same entries
(`evaluate_depends_on_reached`). The two runs go on side by side, in tables that may differ wherever
neither of them looks (`Definitions.resolve_alike`).
-/

namespace Tariff

namespace Formula

variable {l : Level} {f g : Formula l}

lemma relocated_start (f : Formula l) : f.relocated (fun _ => .start) = f.unplaced := by
  induction f with
  | operand x ih => rw [relocated, unplaced, ih]
  | link left op right ihl ihr => rw [relocated, unplaced, ihl, ihr]
  | plain x ih => rw [relocated, unplaced, ih]
  | compare left op right ihl ihr => rw [relocated, unplaced, ihl, ihr]
  | factor op x ih => rw [relocated, unplaced, ih]
  | number word => rfl
  | boolean value location => rfl
  | parentheses x ih => rw [relocated, unplaced, ih]
  | conditional condition yes no ihc ihy ihn => rw [relocated, unplaced, ihc, ihy, ihn]
  | name word => rfl

lemma evalM_congr_unplaced {m : Type → Type} [Monad m] (lookup : String → m Value)
    (h : f.unplaced = g.unplaced) : f.evalM lookup = g.evalM lookup := by
  rw [← evalM_relocated (f := fun _ => .start) lookup f,
    ← evalM_relocated (f := fun _ => .start) lookup g, relocated_start, relocated_start, h]

lemma uses_congr_unplaced (h : f.unplaced = g.unplaced) : f.uses = g.uses := by
  have huses (x : Formula l) : x.uses = x.unplaced.uses := by
    rw [← relocated_start, uses, uses, names_relocated, Document.map_text_relocated]
  rw [huses f, huses g, h]

end Formula

namespace Definitions

/-- Two collections of formulas with two tables give a name the same entry, and if it has none the
same formula up to places. -/
structure AgreeOn (definitions definitions' : Definitions) (table table' : Table) (name : String) :
    Prop where
  entry : table[name]? = table'[name]?
  formula : name ∉ table →
    definitions[name]?.map (·.unplaced) = definitions'[name]?.map (·.unplaced)

/-- They do so for every name that is reached from a name. -/
def AgreeFrom (definitions definitions' : Definitions) (table table' : Table) (root : String) : Prop :=
  ∀ name, definitions.Reaches table root name → definitions.AgreeOn definitions' table table' name

variable {definitions definitions' : Definitions} {table table' memo memo' : Table}
  {resolving resolving' : List String} {root name other : String} {body : Expression}
  {region : String → Prop}

lemma mem_congr_getElem? (h : table[name]? = table'[name]?) : name ∈ table ↔ name ∈ table' := by
  rw [Std.ExtTreeMap.mem_iff_isSome_getElem?, h, Std.ExtTreeMap.mem_iff_isSome_getElem?]

namespace AgreeOn

lemma mem_definitions_iff (h : definitions.AgreeOn definitions' table table' name)
    (hname : name ∉ table) : name ∈ definitions ↔ name ∈ definitions' := by
  have hformula := congrArg Option.isSome (h.formula hname)
  rw [Option.isSome_map, Option.isSome_map] at hformula
  rw [Std.ExtTreeMap.mem_iff_isSome_getElem?, Std.ExtTreeMap.mem_iff_isSome_getElem?, hformula]

lemma exists_body (h : definitions.AgreeOn definitions' table table' name) (hname : name ∉ table)
    (hbody : definitions[name]? = some body) :
    ∃ body', definitions'[name]? = some body' ∧ body'.unplaced = body.unplaced := by
  have hformula := h.formula hname
  rw [hbody, Option.map_some] at hformula
  exact Option.map_eq_some_iff.mp hformula.symm

/-- What a name refers to on one side it refers to on the other. -/
lemma refersTo (h : definitions.AgreeOn definitions' table table' name)
    (hstep : definitions'.RefersTo table' name other) : definitions.RefersTo table name other := by
  obtain ⟨hname', body', hbody', huse⟩ := hstep
  have hname : name ∉ table := mt (mem_congr_getElem? h.entry).mp hname'
  obtain ⟨body, hbody⟩ := exists_getElem?_of_mem
    ((h.mem_definitions_iff hname).mpr (mem_of_getElem?_eq_some hbody'))
  obtain ⟨body'', hbody'', hplaces⟩ := h.exists_body hname hbody
  obtain rfl := Option.some.inj (hbody'.symm.trans hbody'')
  rw [Formula.uses_congr_unplaced hplaces] at huse
  exact refersTo_of_use hname hbody huse

end AgreeOn

lemma AgreeFrom.reaches (h : definitions.AgreeFrom definitions' table table' name)
    (hreach : definitions'.Reaches table' name other) : definitions.Reaches table name other := by
  induction hreach with
  | refl => exact .refl
  | tail _ hstep ih => exact ih.tail ((h _ ih).refersTo hstep)

/-- The tables of two runs have the same entries in a region, those that the first run started from
among them. -/
structure Alike (region : String → Prop) (table memo memo' : Table) : Prop where
  same : ∀ name, region name → memo[name]? = memo'[name]?
  kept : ∀ name ∈ table, name ∈ memo

/-- Two runs come to the same and leave tables that are alike. -/
structure AlikeRuns {α : Type} (region : String → Prop) (table : Table)
    (run run' : Except EvalError α × Table) : Prop where
  outcome : run.1 = run'.1
  tables : Alike region table run.2 run'.2

lemma Alike.not_mem (h : Alike region table memo memo') (hname : region name) (hmissing : name ∉ memo) :
    name ∉ memo' :=
  mt (mem_congr_getElem? (h.same name hname)).mpr hmissing

lemma Alike.insert (h : Alike region table memo memo') (name : String) (value : Value) :
    Alike region table (memo.insert name value) (memo'.insert name value) where
  same other hother := by
    rw [getElem?_insert_name, getElem?_insert_name, h.same other hother]
  kept other hother := mem_insert_name.mpr (.inr (h.kept other hother))

namespace AlikeRuns

variable {α β : Type}

lemma bind {x x' : Evaluation α} {f f' : α → Evaluation β}
    (h : AlikeRuns region table (x memo) (x' memo'))
    (hnext : ∀ a memo memo', Alike region table memo memo' →
      AlikeRuns region table (f a memo) (f' a memo')) :
    AlikeRuns region table ((x >>= f) memo) ((x' >>= f') memo') := by
  obtain ⟨houtcome, htables⟩ := h
  rcases hrun : x memo with ⟨e | a, last⟩
  · rcases hrun' : x' memo' with ⟨outcome, last'⟩
    rw [hrun, hrun'] at houtcome htables
    obtain rfl : Except.error e = outcome := houtcome
    rw [Attempt.bind_of_error hrun, Attempt.bind_of_error hrun']
    exact ⟨rfl, htables⟩
  · rcases hrun' : x' memo' with ⟨outcome, last'⟩
    rw [hrun, hrun'] at houtcome htables
    obtain rfl : Except.ok a = outcome := houtcome
    rw [Attempt.bind_of_ok hrun, Attempt.bind_of_ok hrun']
    exact hnext a last last' htables

lemma pure (h : Alike region table memo memo') (a : α) :
    AlikeRuns region table ((Pure.pure a : Evaluation α) memo) ((Pure.pure a : Evaluation α) memo') :=
  ⟨rfl, h⟩

lemma mapM {lookup lookup' : String → Evaluation Value} {names : List String}
    (hlookup : ∀ name ∈ names, ∀ memo memo', Alike region table memo memo' →
      AlikeRuns region table (lookup name memo) (lookup' name memo'))
    (h : Alike region table memo memo') :
    AlikeRuns region table (names.mapM lookup memo) (names.mapM lookup' memo') := by
  induction names generalizing memo memo' with
  | nil => exact ⟨rfl, h⟩
  | cons name names ih =>
    rw [List.forall_mem_cons] at hlookup
    rw [List.mapM_cons, List.mapM_cons]
    apply bind (hlookup.1 memo memo' h)
    intro value memo memo' h
    apply bind (ih hlookup.2 h)
    intro values memo memo' h
    exact pure h (value :: values)

/-- Formulas that differ in places only are evaluated alike if each look-up in them is. -/
lemma evalM {lookup lookup' : String → Evaluation Value} {body body' : Expression}
    (hplaces : body'.unplaced = body.unplaced)
    (hlookup : ∀ name ∈ body.uses, ∀ memo memo', Alike region table memo memo' →
      AlikeRuns region table (lookup name memo) (lookup' name memo'))
    (h : Alike region table memo memo') :
    AlikeRuns region table (body.evalM lookup memo) (body'.evalM lookup' memo') := by
  rw [Formula.evalM_congr_unplaced lookup' hplaces, Formula.evalM_eq_mapM, Formula.evalM_eq_mapM]
  apply bind (mapM hlookup h)
  intro values memo memo' h
  exact pure h (body.combine values)

lemma enterValue {run run' : Except EvalError Value × Table} (h : AlikeRuns region table run run')
    (name : String) :
    AlikeRuns region table (Definitions.enterValue name run) (Definitions.enterValue name run') := by
  obtain ⟨outcome, memo⟩ := run
  obtain ⟨outcome', memo'⟩ := run'
  obtain ⟨rfl, htables⟩ := h
  cases outcome with
  | error e => exact ⟨rfl, htables⟩
  | ok value => exact ⟨rfl, htables.insert name value⟩

end AlikeRuns

/-- Two runs stay alike as long as they look where both sides agree. The names whose formulas are
being evaluated need to be the same there too. -/
theorem resolve_alike
    (hagree : definitions.AgreeFrom definitions' table table' root)
    (hopen : ∀ other, definitions.Reaches table root other →
      (other ∈ resolving ↔ other ∈ resolving'))
    (hreach : definitions.Reaches table root name)
    (h : Alike (definitions.Reaches table root) table memo memo') :
    AlikeRuns (definitions.Reaches table root) table (definitions.resolve resolving name memo)
      (definitions'.resolve resolving' name memo') := by
  induction resolving using definitions.opening_induction
    generalizing resolving' name memo memo' with
  | step resolving ih =>
    have hname := hagree name hreach
    obtain ⟨v, entry⟩ | ⟨missing, undefined⟩ | ⟨missing, defined, hin⟩ |
      ⟨body, missing, defined, hnew⟩ := definitions.meeting_cases memo resolving name
    · have entry' : memo'[name]? = some v := (h.same name hreach).symm.trans entry
      rw [resolve_of_entry entry, resolve_of_entry entry']
      exact ⟨rfl, h⟩
    · have hfree := mt (h.kept name) missing
      rw [resolve_of_free missing undefined, resolve_of_free (h.not_mem hreach missing)
        (mt (hname.mem_definitions_iff hfree).mpr undefined)]
      exact ⟨rfl, h⟩
    · have hfree := mt (h.kept name) missing
      rw [resolve_of_open missing defined hin, resolve_of_open (h.not_mem hreach missing)
        ((hname.mem_definitions_iff hfree).mp defined) ((hopen name hreach).mp hin)]
      exact ⟨rfl, h⟩
    · have hfree := mt (h.kept name) missing
      obtain ⟨body', defined', hplaces⟩ := hname.exists_body hfree defined
      rw [resolve_of_body missing defined hnew, resolve_of_body (h.not_mem hreach missing) defined'
        (mt (hopen name hreach).mpr hnew)]
      apply AlikeRuns.enterValue
      apply AlikeRuns.evalM hplaces _ h
      intro use huse memo memo' h
      refine ih name (mem_of_getElem?_eq_some defined) hnew (fun other hother => ?_)
        (hreach.tail (refersTo_of_use hfree defined huse)) h
      rw [List.mem_cons, List.mem_cons, hopen other hother]

/-- A run adds entries for names that it reaches and leaves all others as they are. -/
lemma getElem?_resolve_of_not_reaches (hother : ¬definitions.Reaches table name other) :
    (definitions.resolve [] name table).2[other]? = table[other]? := by
  have hrun := resolve_faithful (Memo.initial definitions table) name
  by_cases htable : other ∈ table
  · obtain ⟨entry, hentry⟩ := exists_getElem?_of_mem htable
    rw [hentry, hrun.kept other entry hentry]
  · rw [getElem?_eq_none_of_not_mem htable]
    apply getElem?_eq_none_of_not_mem
    exact fun hmem => hother (hrun.reached_name hmem htable)

/-- The entries that a table has beyond those of an earlier one. -/
def added (table memo : Table) : Table :=
  memo.filter fun name _ => name ∉ table

lemma getElem?_added (table memo : Table) (name : String) :
    (added table memo)[name]? = if name ∈ table then none else memo[name]? := by
  rw [added, Std.ExtTreeMap.getElem?_filter']
  by_cases hname : name ∈ table
  · cases memo[name]? <;> simp [hname]
  · cases memo[name]? <;> simp [hname]

lemma not_mem_of_mem_added (h : name ∈ added table memo) : name ∉ table := by
  rw [Std.ExtTreeMap.mem_iff_isSome_getElem?, getElem?_added] at h
  by_contra hname
  rw [if_pos hname] at h
  cases h

/-- A run only adds entries. -/
lemma resolve_eq_union_added (definitions : Definitions) (table : Table) (name : String) :
    (definitions.resolve [] name table).2 =
      table ∪ added table (definitions.resolve [] name table).2 := by
  have hrun := resolve_faithful (Memo.initial definitions table) name
  apply Std.ExtTreeMap.ext_getElem?
  intro other
  rw [Std.ExtTreeMap.getElem?_union, getElem?_added]
  by_cases hother : other ∈ table
  · obtain ⟨entry, hentry⟩ := exists_getElem?_of_mem hother
    rw [if_pos hother, Option.none_or, hentry, hrun.kept other entry hentry]
  · rw [if_neg hother, getElem?_eq_none_of_not_mem hother, Option.or_none]

lemma AgreeFrom.resolve (hagree : definitions.AgreeFrom definitions' table table' name) :
    (definitions.resolve [] name table).1 = (definitions'.resolve [] name table').1 ∧
      added table (definitions.resolve [] name table).2 =
        added table' (definitions'.resolve [] name table').2 := by
  have hstart : Alike (definitions.Reaches table name) table table table' :=
    ⟨fun other hother => (hagree other hother).entry, fun _ h => h⟩
  have hopen (other : String) (_ : definitions.Reaches table name other) :
      other ∈ ([] : List String) ↔ other ∈ ([] : List String) := Iff.rfl
  obtain ⟨houtcome, htables⟩ := resolve_alike hagree hopen .refl hstart
  refine ⟨houtcome, ?_⟩
  apply Std.ExtTreeMap.ext_getElem?
  intro other
  rw [getElem?_added, getElem?_added]
  by_cases hother : definitions.Reaches table name other
  · have hmem : other ∈ table ↔ other ∈ table' := mem_congr_getElem? (hagree other hother).entry
    simp only [hmem, htables.same other hother]
  · rw [getElem?_resolve_of_not_reaches hother,
      getElem?_resolve_of_not_reaches (mt hagree.reaches hother)]
    by_cases hmem : other ∈ table <;> by_cases hmem' : other ∈ table' <;>
      simp [hmem, hmem']

/-- Against one table, runs that look where both sides agree leave the same table. -/
lemma AgreeFrom.resolve_eq (hagree : definitions.AgreeFrom definitions' table table name) :
    definitions'.resolve [] name table = definitions.resolve [] name table := by
  obtain ⟨houtcome, hadded⟩ := hagree.resolve
  apply Prod.ext houtcome.symm
  rw [resolve_eq_union_added, ← hadded, ← resolve_eq_union_added]

end Definitions

/-! ### Changes that an evaluation does not see -/

namespace Definitions

variable {ds ds' before shadowed after unrelated : List Definition} {name : String}

/-- Definitions of one name count in their order only. -/
lemma ofList_congr_filter
    (h : ∀ key, ds'.filter (·.name.text = key) = ds.filter (·.name.text = key)) :
    ofList ds' = ofList ds := by
  apply Std.ExtTreeMap.ext_getElem?
  intro key
  rw [getElem?_ofList, getElem?_ofList, ← List.head?_filter, ← List.head?_filter,
    List.filter_reverse, List.filter_reverse, h]

/-- Definitions that a later one replaces do not count. -/
lemma ofList_of_shadowed (h : ∀ e ∈ shadowed, e.name.text ∈ after.map (·.name.text)) :
    ofList (before ++ shadowed ++ after) = ofList (before ++ after) := by
  apply Std.ExtTreeMap.ext_getElem?
  intro key
  rw [getElem?_ofList, getElem?_ofList]
  simp only [List.reverse_append, List.find?_append]
  by_cases hkey : key ∈ after.map (·.name.text)
  · obtain ⟨e, he, hname⟩ := List.mem_map.mp hkey
    have hlast : (after.reverse.find? (·.name.text = key)).isSome = true := by
      rw [List.find?_isSome]
      exact ⟨e, List.mem_reverse.mpr he, by simpa using hname⟩
    rw [Option.or_of_isSome hlast, Option.or_of_isSome hlast]
  · have hnone : shadowed.reverse.find? (·.name.text = key) = none := by
      rw [List.find?_eq_none]
      intro e he hname
      rw [decide_eq_true_eq] at hname
      exact hkey (hname ▸ h e (List.mem_reverse.mp he))
    rw [hnone, Option.none_or]

/-- Definitions of other names do not count. -/
lemma getElem?_ofList_of_unrelated (h : ∀ e ∈ unrelated, e.name.text ≠ name) :
    (ofList (before ++ unrelated ++ after))[name]? = (ofList (before ++ after))[name]? := by
  have hnone : unrelated.reverse.find? (·.name.text = name) = none := by
    rw [List.find?_eq_none]
    intro e he
    simpa using h e (List.mem_reverse.mp he)
  rw [getElem?_ofList, getElem?_ofList]
  simp only [List.reverse_append, List.find?_append, hnone, Option.none_or]

end Definitions

/-- An evaluation depends on the names that it reaches only. Where another document and another table
agree on these, up to places in formulas, the answer is the same, a failure included, and the same
entries are added. So it does not matter in which order different names are defined, which definitions
later ones replace, and what is defined or known besides. -/
theorem evaluate_depends_on_reached (d : Document) (table : Table) (name : String) :
    (∀ (e : Document) (table' : Table),
      d.definitionOf.AgreeFrom e.definitionOf table table' name →
      (d.evaluate name table).1 = (e.evaluate name table').1 ∧
        ∃ added : Table, (d.evaluate name table).2 = table ∪ added ∧
          (e.evaluate name table').2 = table' ∪ added ∧
          ∀ other ∈ added, other ∉ table ∧ other ∉ table') ∧
    (∀ e : Document, (∀ key, e.definitions.filter (·.name.text = key) =
        d.definitions.filter (·.name.text = key)) →
      e.evaluate name table = d.evaluate name table) ∧
    (∀ (e : Document) (before shadowed shadowed' after : List Definition),
      d.definitions = before ++ shadowed ++ after → e.definitions = before ++ shadowed' ++ after →
      (∀ x ∈ shadowed ++ shadowed', x.name.text ∈ after.map (·.name.text)) →
      e.evaluate name table = d.evaluate name table) ∧
    (∀ (e : Document) (before unrelated after : List Definition),
      d.definitions = before ++ after → e.definitions = before ++ unrelated ++ after →
      (∀ x ∈ unrelated, ¬d.definitionOf.Reaches table name x.name.text) →
      e.evaluate name table = d.evaluate name table) ∧
    ∀ table' : Table, (∀ other, d.definitionOf.Reaches table name other →
        table'[other]? = table[other]?) →
      (d.evaluate name table').1 = (d.evaluate name table).1 := by
  unfold Document.evaluate Document.definitionOf
  refine ⟨fun e table' hagree => ?_, fun e hfilter => ?_, ?_, ?_, fun table' hsame => ?_⟩
  · obtain ⟨houtcome, hadded⟩ := hagree.resolve
    refine ⟨houtcome, _, Definitions.resolve_eq_union_added _ _ _, ?_, fun other hother => ⟨?_, ?_⟩⟩
    · rw [hadded]
      exact Definitions.resolve_eq_union_added _ _ _
    · exact Definitions.not_mem_of_mem_added hother
    · rw [hadded] at hother
      exact Definitions.not_mem_of_mem_added hother
  · rw [Definitions.ofList_congr_filter hfilter]
  · intro e before shadowed shadowed' after hd he hshadowed
    rw [List.forall_mem_append] at hshadowed
    rw [hd, he, Definitions.ofList_of_shadowed hshadowed.1,
      Definitions.ofList_of_shadowed hshadowed.2]
  · intro e before unrelated after hd he hunrelated
    apply Definitions.AgreeFrom.resolve_eq
    intro other hother
    refine ⟨rfl, fun _ => ?_⟩
    rw [hd, he, Definitions.getElem?_ofList_of_unrelated]
    rintro x hx rfl
    exact hunrelated x hx hother
  · have hagree : (Definitions.ofList d.definitions).AgreeFrom (.ofList d.definitions) table table'
        name := fun other hother => ⟨(hsame other hother).symm, fun _ => rfl⟩
    exact hagree.resolve.1.symm

/-- The price list of `rateDocument` as it may be written elsewhere: in another order, without what a
later definition replaces and without a rate, and with a sale that nothing refers to. -/
def movedDocument : Document where
  injectables := []
  definitions :=
    [⟨⟨"stock", ⟨1, 0⟩⟩, .single (.boolean true ⟨1, 8⟩)⟩,
      ⟨⟨"sale", ⟨2, 0⟩⟩, .mention "sale"⟩,
      ⟨⟨"price", ⟨3, 0⟩⟩, .single (.name ⟨"rate", ⟨3, 8⟩⟩)⟩,
      ⟨⟨"total", ⟨4, 0⟩⟩, .single (.conditional (.single (.boolean true ⟨4, 11⟩))
        (.single (.name ⟨"price", ⟨4, 21⟩⟩)) (.single (.name ⟨"stock", ⟨4, 32⟩⟩)))⟩]

/-- The known rate, and a bonus that nothing refers to. -/
def bonusTable : Table := rateTable.insert "bonus" (.boolean true)

lemma rateDocument_reaches {name : String}
    (h : rateDocument.definitionOf.Reaches rateTable "total" name) :
    name ∈ ["total", "price", "stock", "rate"] := by
  induction h with
  | refl => decide
  | @tail _ use _ hstep ih =>
    simp only [List.mem_cons, List.not_mem_nil, or_false] at ih
    obtain rfl | rfl | rfl | rfl := ih
    · obtain rfl | rfl : use = "price" ∨ use = "stock" := by
        simpa using hstep.mem_uses rateDocument_total
      · decide
      · decide
    · obtain rfl : use = "rate" := by simpa using hstep.mem_uses rateDocument_price
      decide
    · have huse := hstep.mem_uses rateDocument_stock
      cases huse
    · exact (hstep.1 (by decide)).elim

lemma rateDocument_agreeFrom : rateDocument.definitionOf.AgreeFrom movedDocument.definitionOf rateTable
    bonusTable "total" := by
  intro name hname
  have hmem := rateDocument_reaches hname
  simp only [List.mem_cons, List.not_mem_nil, or_false] at hmem
  obtain rfl | rfl | rfl | rfl := hmem
  · exact ⟨by decide, fun _ => by decide⟩
  · exact ⟨by decide, fun _ => by decide⟩
  · exact ⟨by decide, fun _ => by decide⟩
  · exact ⟨by decide, fun hmissing => (hmissing (by decide)).elim⟩

/-- Both price lists come to the same total. -/
theorem evaluate_movedDocument :
    rateDocument.definitionOf.AgreeFrom movedDocument.definitionOf rateTable bonusTable "total" ∧
      (movedDocument.evaluate "total" bonusTable).1 = .ok (.boolean false) := by
  obtain ⟨hsame, -⟩ := (evaluate_depends_on_reached rateDocument rateTable "total").1 movedDocument
    bonusTable rateDocument_agreeFrom
  refine ⟨rateDocument_agreeFrom, ?_⟩
  rw [← hsame, Document.evaluate, Definitions.resolve_fst_eq_recompute,
    Definitions.recompute_eq_ok_iff]
  exact rateDocument_denotes_total

end Tariff
