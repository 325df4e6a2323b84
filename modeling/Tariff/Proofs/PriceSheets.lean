import Mathlib
import Tariff.Pricing.Sheet
import Tariff.Proofs.EvaluationOutcome
import Tariff.Proofs.FirstFailure

/-!
# Prices one by one

A price sheet has for each item and term what the term comes to on its own, evaluated from the source
of the item's schema with nothing but the injected values (`price_eq_alone`). So neither other items
nor other terms have any part in a price, and the first of them that fails alone makes the sheet fail.
-/

namespace Tariff

namespace Registry

/-- The registries that are built by registering documents, with the source that was registered last
under each schema. Registering a source that cannot be read gives no registry. -/
inductive Holds : Registry → (String → Option String) → Prop
  | empty : Holds ∅ fun _ => none
  | register {registry registry' : Registry} {sources : String → Option String}
      {schema source : String} (h : Holds registry sources)
      (hregister : Registry.register schema source registry = (.ok (), registry')) :
      Holds registry' (Function.update sources schema (some source))
  | registerFile {registry registry' : Registry} {sources : String → Option String}
      {schema path source : String} (h : Holds registry sources)
      (hregister : Registry.registerFile schema path (.ok source) registry = (.ok (), registry')) :
      Holds registry' (Function.update sources schema (some source))

variable {registry registry' : Registry} {sources : String → Option String} {schema source : String}

lemma register_of_ofSource {document : Document} (h : Document.ofSource source = .ok document)
    (registry : Registry) (schema : String) :
    register schema source registry = (.ok (), registry.insert schema document) := by
  unfold register
  rw [h]
  rfl

/-- A source that cannot be read leaves the registry as it was. -/
lemma register_of_error {e : SourceError} (h : Document.ofSource source = .error e)
    (registry : Registry) (schema : String) :
    register schema source registry = (.error (.source e), registry) := by
  unfold register
  rw [h]
  rfl

lemma exists_of_register (h : register schema source registry = (.ok (), registry')) :
    ∃ document, Document.ofSource source = .ok document ∧
      registry' = registry.insert schema document := by
  cases hread : Document.ofSource source with
  | error e =>
    rw [register_of_error hread] at h
    cases h
  | ok document =>
    rw [register_of_ofSource hread] at h
    cases h
    exact ⟨document, rfl, rfl⟩

lemma schema_cases_insert {document : Document} (hread : Document.ofSource source = .ok document)
    {other : String}
    (h : sources other = none ∧ registry[other]? = none ∨
      ∃ source document, sources other = some source ∧ registry[other]? = some document ∧
        Document.ofSource source = .ok document) :
    Function.update sources schema (some source) other = none ∧
        (registry.insert schema document)[other]? = none ∨
      ∃ source' document', Function.update sources schema (some source) other = some source' ∧
        (registry.insert schema document)[other]? = some document' ∧
        Document.ofSource source' = .ok document' := by
  rw [Definitions.getElem?_insert_name, Function.update_apply]
  by_cases hother : schema = other
  · rw [if_pos hother.symm, if_pos hother]
    exact .inr ⟨source, document, rfl, rfl, hread⟩
  · rw [if_neg (Ne.symm hother), if_neg hother]
    exact h

/-- Under each schema there is the document of its source, if it has one. -/
theorem Holds.schema_cases (h : registry.Holds sources) (schema : String) :
    sources schema = none ∧ registry[schema]? = none ∨
      ∃ source document, sources schema = some source ∧ registry[schema]? = some document ∧
        Document.ofSource source = .ok document := by
  induction h with
  | empty => exact .inl ⟨rfl, Std.ExtTreeMap.getElem?_empty⟩
  | register _ hregister ih =>
    obtain ⟨document, hread, rfl⟩ := exists_of_register hregister
    exact schema_cases_insert hread ih
  | registerFile _ hregister ih =>
    obtain ⟨document, hread, rfl⟩ := exists_of_register hregister
    exact schema_cases_insert hread ih

lemma Holds.getElem?_eq_none (h : registry.Holds sources) (hnone : sources schema = none) :
    registry[schema]? = none := by
  obtain ⟨-, hunknown⟩ | ⟨source, document, hsource, -⟩ := h.schema_cases schema
  · exact hunknown
  · rw [hnone] at hsource
    cases hsource

lemma Holds.exists_document (h : registry.Holds sources) (hsource : sources schema = some source) :
    ∃ document, registry[schema]? = some document ∧ Document.ofSource source = .ok document := by
  obtain ⟨hnone, -⟩ | ⟨source', document, hsource', hdocument, hread⟩ := h.schema_cases schema
  · rw [hnone] at hsource
    cases hsource
  · obtain rfl := Option.some.inj (hsource.symm.trans hsource')
    exact ⟨document, hdocument, hread⟩

theorem Holds.insert {document : Document} (h : registry.Holds sources)
    (hread : Document.ofSource source = .ok document) (schema : String) :
    Holds (registry.insert schema document) (Function.update sources schema (some source)) :=
  h.register (register_of_ofSource hread registry schema)

end Registry

lemma evaluateSource_of_ofSource {source : String} {document : Document}
    (hread : Document.ofSource source = .ok document) (term : String) (table : Table) :
    evaluateSource source term table =
      (document.definitionOf.recompute table [] term).mapError .evaluation := by
  unfold evaluateSource
  rw [hread, ← Definitions.resolve_fst_eq_recompute]
  rfl

/-- A term has a value on its own if and only if it reaches no cycle. -/
lemma exists_evaluateSource_eq_ok_iff {source : String} {document : Document}
    (hread : Document.ofSource source = .ok document) {term : String} {table : Table} :
    (∃ value, evaluateSource source term table = .ok value) ↔
      document.definitionOf.Acyclic table term := by
  rw [evaluateSource_of_ofSource hread, ← Definitions.exists_resolve_eq_ok_iff,
    Definitions.resolve_fst_eq_recompute]
  cases document.definitionOf.recompute table [] term <;> simp [Except.mapError]

/-- Terms that are evaluated in one session come to what they come to without any. -/
lemma mapM_resolve_eq_recompute (definitions : Definitions) (table : Table) (terms : List String) :
    (terms.mapM (definitions.resolve []) table).1 =
      terms.mapM (definitions.recompute table []) :=
  (Definitions.Faithful.mapM (fun name _ hmemo => Definitions.resolve_faithful hmemo name) terms
    (.initial definitions table)).outcome

/-- A row of terms has the value of each of them, however often it is among them. -/
lemma Row.getElem?_ofList_map (terms : List String) (value : String → Value) (term : String) :
    (ofList (terms.map fun term => (term, value term)))[term]? =
      if term ∈ terms then some (value term) else none := by
  rw [ofList, List.foldl_map,
    Definitions.getElem?_foldl_insert_empty terms (fun term => term) value term]
  cases hfind : terms.reverse.find? (· = term) with
  | none =>
    have hnone := List.find?_eq_none.mp hfind
    rw [if_neg fun hterm => hnone term (List.mem_reverse.mpr hterm) (by simp)]
    rfl
  | some last =>
    obtain rfl : last = term := by simpa using List.find?_some hfind
    rw [if_pos (List.mem_reverse.mp (List.mem_of_find?_eq_some hfind))]
    rfl

/-- The schema of an item has a source, from which every term has a value on its own. -/
def Item.Priced (sources : String → Option String) (terms : List String) (injected : Table)
    (item : Item) : Prop :=
  ∃ source, sources item.schema = some source ∧
    ∀ term ∈ terms, ∃ value, evaluateSource source term injected = .ok value

/-- An item has no source, or one of its terms is the first to have no value on its own. -/
inductive Item.Fails (sources : String → Option String) (terms : List String) (injected : Table)
    (item : Item) : Failure → Prop
  | unknown (h : sources item.schema = none) :
      Fails sources terms injected item (.unknownSchema item.schema)
  | term {source : String} {e : Failure} (h : sources item.schema = some source)
      (first : FirstFailure (fun term => evaluateSource source term injected) terms e) :
      Fails sources terms injected item e

section OneItem

variable {registry : Registry} {sources : String → Option String} {terms : List String}
  {injected : Table} {item : Item} {source : String} {document : Document} {e : Failure}

lemma priceItem_of_unknown (h : registry[item.schema]? = none) :
    priceItem registry terms injected item = .error (.unknownSchema item.schema) := by
  unfold priceItem Registry.document
  rw [h]
  rfl

lemma priceItem_of_document (h : registry[item.schema]? = some document)
    (hread : Document.ofSource source = .ok document) :
    priceItem registry terms injected item =
      (terms.mapM fun term => evaluateSource source term injected) >>= fun values =>
        pure (Row.ofList (terms.zip values)) := by
  have hvalues : ((terms.mapM (document.definitionOf.resolve []) injected).1.mapError
      Failure.evaluation) = terms.mapM fun term => evaluateSource source term injected := by
    rw [mapM_resolve_eq_recompute, mapM_mapError]
    simp only [evaluateSource_of_ofSource hread]
  unfold priceItem Registry.document
  rw [h, ← hvalues]
  rfl

/-- An item that can be priced has a row of what its terms come to on their own. -/
lemma exists_row_of_priced (h : registry.Holds sources)
    (hpriced : item.Priced sources terms injected) :
    ∃ row source, priceItem registry terms injected item = .ok row ∧
      sources item.schema = some source ∧ (∀ term, term ∈ row ↔ term ∈ terms) ∧
      ∀ term value, row[term]? = some value → evaluateSource source term injected = .ok value := by
  obtain ⟨source, hsource, hvalues⟩ := hpriced
  obtain ⟨document, hdocument, hread⟩ := h.exists_document hsource
  choose! value hvalue using hvalues
  have hzip : terms.zip (terms.map value) = terms.map fun term => (term, value term) := by
    simpa using List.zip_map' (f := id) (g := value) (l := terms)
  have hrow : priceItem registry terms injected item =
      .ok (Row.ofList (terms.map fun term => (term, value term))) := by
    rw [priceItem_of_document hdocument hread, mapM_eq_ok hvalue, ← hzip]
    rfl
  refine ⟨_, source, hrow, hsource, fun term => ?_, fun term v hv => ?_⟩
  · rw [Std.ExtTreeMap.mem_iff_isSome_getElem?, Row.getElem?_ofList_map]
    split <;> simp [*]
  · rw [Row.getElem?_ofList_map, Option.ite_none_right_eq_some] at hv
    rw [hvalue term hv.1, Option.some.inj hv.2]

lemma priceItem_eq_error_of_fails (h : registry.Holds sources)
    (hfails : item.Fails sources terms injected e) :
    priceItem registry terms injected item = .error e := by
  cases hfails with
  | unknown hnone => exact priceItem_of_unknown (h.getElem?_eq_none hnone)
  | term hsource first =>
    obtain ⟨document, hdocument, hread⟩ := h.exists_document hsource
    rw [priceItem_of_document hdocument hread, mapM_eq_error_iff.mpr first]
    rfl

/-- An item can be priced or fails. -/
lemma priced_or_fails (sources : String → Option String) (terms : List String) (injected : Table)
    (item : Item) :
    item.Priced sources terms injected ∨ ∃ e, item.Fails sources terms injected e := by
  cases hsource : sources item.schema with
  | none => exact .inr ⟨_, .unknown hsource⟩
  | some source =>
    obtain hall | ⟨e, hfirst⟩ := forall_ok_or_firstFailure
      (fun term => evaluateSource source term injected) terms
    · exact .inl ⟨source, hsource, hall⟩
    · exact .inr ⟨e, .term hsource hfirst⟩

lemma exists_priceItem_eq_ok_iff (h : registry.Holds sources) :
    (∃ row, priceItem registry terms injected item = .ok row) ↔
      item.Priced sources terms injected := by
  constructor
  · rintro ⟨row, hrow⟩
    obtain hpriced | ⟨e, hfails⟩ := priced_or_fails sources terms injected item
    · exact hpriced
    · rw [priceItem_eq_error_of_fails h hfails] at hrow
      cases hrow
  · intro hpriced
    obtain ⟨row, -, hrow, -⟩ := exists_row_of_priced h hpriced
    exact ⟨row, hrow⟩

lemma priceItem_eq_error_iff (h : registry.Holds sources) :
    priceItem registry terms injected item = .error e ↔ item.Fails sources terms injected e := by
  constructor
  · intro herror
    obtain hpriced | ⟨e', hfails⟩ := priced_or_fails sources terms injected item
    · obtain ⟨row, hrow⟩ := (exists_priceItem_eq_ok_iff h).mpr hpriced
      rw [hrow] at herror
      cases herror
    · rw [priceItem_eq_error_of_fails h hfails] at herror
      obtain rfl := Except.error.inj herror
      exact hfails
  · exact priceItem_eq_error_of_fails h

/-- An item can be priced if and only if its schema is registered and no term reaches a cycle. -/
lemma priced_iff_acyclic (h : registry.Holds sources) : item.Priced sources terms injected ↔
    ∃ document, registry[item.schema]? = some document ∧
      ∀ term ∈ terms, document.definitionOf.Acyclic injected term := by
  obtain ⟨hnone, hunknown⟩ | ⟨source, document, hsource, hdocument, hread⟩ :=
    h.schema_cases item.schema
  · apply iff_of_false
    · rintro ⟨source, hsource, -⟩
      rw [hnone] at hsource
      cases hsource
    · rintro ⟨document, hdocument, -⟩
      rw [hunknown] at hdocument
      cases hdocument
  · simp only [Item.Priced, hsource, hdocument, Option.some.injEq, exists_eq_left',
      exists_evaluateSource_eq_ok_iff hread]

end OneItem

section AllItems

variable {registry : Registry} {sources : String → Option String} {terms : List String}
  {injected : Table} {items : List Item}

lemma exists_price_eq_ok {row : Item → Row}
    (hrow : ∀ item ∈ items, priceItem registry terms injected item = .ok (row item)) :
    ∃ sheet, price registry items terms injected = .ok sheet ∧
      ∀ name, sheet[name]? = (items.reverse.find? (·.name = name)).map row := by
  have hprice := foldlM_eq_ok (fun (sheet : Sheet) item (row : Row) => sheet.insert item.name row)
    hrow ∅
  refine ⟨_, hprice, fun name => ?_⟩
  rw [Definitions.getElem?_foldl_insert_empty]

lemma price_eq_error_iff {e : Failure} : price registry items terms injected = .error e ↔
    FirstFailure (priceItem registry terms injected) items e :=
  foldlM_eq_error_iff
    (fun (sheet : Sheet) (item : Item) (row : Row) => sheet.insert item.name row) ∅

lemma exists_price_eq_ok_iff (h : registry.Holds sources) :
    (∃ sheet, price registry items terms injected = .ok sheet) ↔
      ∀ item ∈ items, item.Priced sources terms injected := by
  simp only [← exists_priceItem_eq_ok_iff h]
  constructor
  · rintro ⟨sheet, hprice⟩
    obtain hall | ⟨e, hfirst⟩ := forall_ok_or_firstFailure (priceItem registry terms injected) items
    · exact hall
    · rw [price_eq_error_iff.mpr hfirst] at hprice
      cases hprice
  · intro hall
    choose! row hrow using hall
    obtain ⟨sheet, hprice, -⟩ := exists_price_eq_ok hrow
    exact ⟨sheet, hprice⟩

lemma find?_reverse_of_last {α : Type} {p : α → Bool} {before after : List α} {x : α} (hx : p x)
    (hafter : ∀ y ∈ after, ¬p y) : (before ++ x :: after).reverse.find? p = some x := by
  have hnone : after.reverse.find? p = none := by simpa using hafter
  simp [List.find?_append, hnone, hx]

/-- A sheet has a row for the last item of each name, with what the requested terms come to on their
own from the source of its schema. -/
lemma exists_rows_of_price {sheet : Sheet} (h : registry.Holds sources)
    (hprice : price registry items terms injected = .ok sheet) :
    ∃ row : Item → Row, (∀ name, sheet[name]? = (items.reverse.find? (·.name = name)).map row) ∧
      ∀ item ∈ items, ∃ source, sources item.schema = some source ∧
        (∀ term, term ∈ row item ↔ term ∈ terms) ∧ ∀ term value, (row item)[term]? = some value →
          evaluateSource source term injected = .ok value := by
  have hrows : ∀ item ∈ items, ∃ row source, priceItem registry terms injected item = .ok row ∧
      sources item.schema = some source ∧ (∀ term, term ∈ row ↔ term ∈ terms) ∧
      ∀ term value, row[term]? = some value → evaluateSource source term injected = .ok value :=
    fun item hitem =>
      exists_row_of_priced h ((exists_price_eq_ok_iff h).mp ⟨sheet, hprice⟩ item hitem)
  choose! row source hrow hsource hmem hvalue using hrows
  obtain ⟨sheet', hprice', hsheet⟩ := exists_price_eq_ok hrow
  obtain rfl := Except.ok.inj (hprice.symm.trans hprice')
  exact ⟨row, hsheet, fun item hitem =>
    ⟨source item, hsource item hitem, hmem item hitem, hvalue item hitem⟩⟩

/-- Pricing succeeds if and only if the schemas of all items are registered and no term reaches a
cycle. The sheet has the item names as its keys and the terms as the keys of each row. What is
entered for a name and a term is what the term comes to on its own, from the source of the schema
of the last item of that name and the injected values as they were given. A failure is that of the
first item that fails: its schema is unknown, or the first of its terms to fail on its own fails so. -/
theorem price_eq_alone (h : registry.Holds sources) (items : List Item) (terms : List String)
    (injected : Table) :
    ((∃ sheet, price registry items terms injected = .ok sheet) ↔
      ∀ item ∈ items, ∃ document, registry[item.schema]? = some document ∧
        ∀ term ∈ terms, document.definitionOf.Acyclic injected term) ∧
    (∀ sheet, price registry items terms injected = .ok sheet →
      (∀ name, name ∈ sheet ↔ name ∈ items.map (·.name)) ∧
      ∀ (before : List Item) (item : Item) (after : List Item), items = before ++ item :: after →
        item.name ∉ after.map (·.name) →
        ∃ row source, sheet[item.name]? = some row ∧ sources item.schema = some source ∧
          (∀ term, term ∈ row ↔ term ∈ terms) ∧
          ∀ term value, row[term]? = some value →
            evaluateSource source term injected = .ok value) ∧
    ∀ e, price registry items terms injected = .error e ↔
      ∃ (before : List Item) (item : Item) (after : List Item), items = before ++ item :: after ∧
        (∀ earlier ∈ before, earlier.Priced sources terms injected) ∧
        item.Fails sources terms injected e := by
  refine ⟨?_, ?_, ?_⟩
  · rw [exists_price_eq_ok_iff h]
    simp only [priced_iff_acyclic h]
  · intro sheet hprice
    obtain ⟨row, hsheet, hrows⟩ := exists_rows_of_price h hprice
    refine ⟨fun name => ?_, ?_⟩
    · rw [Std.ExtTreeMap.mem_iff_isSome_getElem?, hsheet, Option.isSome_map, List.find?_isSome]
      simp
    · rintro before item after rfl hlast
      obtain ⟨source, hsource, hmem, hvalue⟩ := hrows item (by simp)
      refine ⟨row item, source, ?_, hsource, hmem, hvalue⟩
      rw [hsheet, find?_reverse_of_last (by simp)]
      · rfl
      · intro other hother hname
        exact hlast (List.mem_map.mpr ⟨other, hother, by simpa using hname⟩)
  · intro e
    rw [price_eq_error_iff]
    simp only [FirstFailure, exists_priceItem_eq_ok_iff h, priceItem_eq_error_iff h]

end AllItems

/-- A price list that gives `total` through another term. -/
def chairDocument : Document where
  injectables := []
  definitions :=
    [⟨⟨"total", ⟨1, 0⟩⟩, .single (.name ⟨"seat", ⟨1, 8⟩⟩)⟩,
      ⟨⟨"seat", ⟨2, 0⟩⟩, .single (.name ⟨"sale", ⟨2, 7⟩⟩)⟩]

/-- A price list that gives `total` without any other. -/
def tableDocument : Document where
  injectables := []
  definitions := [⟨⟨"total", ⟨1, 0⟩⟩, .single (.boolean false ⟨1, 8⟩)⟩]

/-- Both price lists, each under a schema of its own. -/
def furniture : Registry :=
  ((∅ : Registry).insert "chair" chairDocument).insert "table" tableDocument

def furnitureSources : String → Option String :=
  Function.update (Function.update (fun _ => none) "chair" (some "total = seat\nseat = sale\n"))
    "table" (some "total = false\n")

lemma furniture_holds : furniture.Holds furnitureSources := by
  have hchair : Document.ofSource "total = seat\nseat = sale\n" = .ok chairDocument := by cbv
  have htable : Document.ofSource "total = false\n" = .ok tableDocument := by cbv
  exact (Registry.Holds.empty.insert hchair "chair").insert htable "table"

def saleTable : Table := (∅ : Table).insert "sale" (.boolean true)

lemma evaluateSource_chair_total :
    evaluateSource "total = seat\nseat = sale\n" "total" saleTable = .ok (.boolean true) := by
  decide +kernel

lemma priced_chair (name : String) :
    (⟨name, "chair"⟩ : Item).Priced furnitureSources ["seat", "total"] saleTable := by
  have hseat : evaluateSource "total = seat\nseat = sale\n" "seat" saleTable =
      .ok (.boolean true) := by decide +kernel
  exact ⟨_, rfl, by simp [hseat, evaluateSource_chair_total]⟩

lemma priced_table (name : String) :
    (⟨name, "table"⟩ : Item).Priced furnitureSources ["seat", "total"] saleTable := by
  have hseat : evaluateSource "total = false\n" "seat" saleTable = .ok (.text "seat") := by
    decide +kernel
  have htotal : evaluateSource "total = false\n" "total" saleTable = .ok (.boolean false) := by
    decide +kernel
  exact ⟨_, rfl, by simp [hseat, htotal]⟩

/-- Of two stools the last one is on the sheet. A schema that is not registered makes it fail. -/
theorem price_furniture : furniture.Holds furnitureSources ∧
    (∃ sheet row, price furniture [⟨"stool", "table"⟩, ⟨"stool", "chair"⟩] ["seat", "total"]
        saleTable = .ok sheet ∧
      sheet["stool"]? = some row ∧ row["total"]? = some (.boolean true)) ∧
    price furniture [⟨"stool", "table"⟩, ⟨"sofa", "couch"⟩] ["seat", "total"] saleTable =
      .error (.unknownSchema "couch") := by
  refine ⟨furniture_holds, ?_, ?_⟩
  · obtain ⟨hok, hsheet, -⟩ := price_eq_alone furniture_holds
      [⟨"stool", "table"⟩, ⟨"stool", "chair"⟩] ["seat", "total"] saleTable
    obtain ⟨sheet, hprice⟩ := hok.mpr (by
      simp only [← priced_iff_acyclic furniture_holds]
      simp [priced_chair, priced_table])
    obtain ⟨-, hrows⟩ := hsheet sheet hprice
    obtain ⟨row, source, hrow, hsource, hmem, hvalue⟩ :=
      hrows [⟨"stool", "table"⟩] ⟨"stool", "chair"⟩ [] rfl (by simp)
    obtain rfl := Option.some.inj hsource
    obtain ⟨value, hentry⟩ := Definitions.exists_getElem?_of_mem ((hmem "total").mpr (by simp))
    have htotal := (hvalue "total" value hentry).symm.trans evaluateSource_chair_total
    obtain rfl := Except.ok.inj htotal
    exact ⟨sheet, row, hprice, hrow, hentry⟩
  · obtain ⟨-, -, herror⟩ := price_eq_alone furniture_holds
      [⟨"stool", "table"⟩, ⟨"sofa", "couch"⟩] ["seat", "total"] saleTable
    have hcouch : furnitureSources "couch" = none := by simp [furnitureSources]
    refine (herror _).mpr ⟨[⟨"stool", "table"⟩], ⟨"sofa", "couch"⟩, [], rfl, ?_, .unknown hcouch⟩
    simp [priced_table]

end Tariff
