import Tariff.Proofs.PriceSheets

/-!
# Registries over many steps

A registry that is asked one thing after another answers as a map from schemas to sources would, in which
each schema has the source that was registered last under it (`Registry.serveAll_refines_lastSource`).
Documents are not read again for this, and registrations that fail and prices leave nothing behind.
-/

namespace Tariff.Registry

/-- What a registry is asked to do. A file is registered with what reading it gave. -/
inductive Step where
  | register (schema source : String)
  | registerFile (schema path : String) (content : Except FileError String)
  | contains (schema : String)
  | document (schema : String)
  | price (items : List Item) (terms : List String) (injected : Table)

inductive Answer where
  | registered (outcome : Except Failure Unit)
  | contained (known : Bool)
  | document (outcome : Except Failure Document)
  | priced (outcome : Except Failure Sheet)

/-- The answer to a step, and the registry after it. -/
def serve (registry : Registry) : Step → Answer × Registry
  | .register schema source =>
    let (outcome, next) := register schema source registry
    (.registered outcome, next)
  | .registerFile schema path content =>
    let (outcome, next) := registerFile schema path content registry
    (.registered outcome, next)
  | .contains schema => (.contained (registry.contains schema), registry)
  | .document schema => (.document (registry.document schema), registry)
  | .price items terms injected => (.priced (Tariff.price registry items terms injected), registry)

/-- The answers to steps one after another, and the registry after all of them. -/
def serveAll (registry : Registry) : List Step → List Answer × Registry
  | [] => ([], registry)
  | step :: steps =>
    let (answer, next) := registry.serve step
    let (answers, last) := next.serveAll steps
    (answer :: answers, last)

/-- The schema and the source that a step registers, if the source is there and can be read. -/
def Step.registration? : Step → Option (String × String)
  | .register schema source | .registerFile schema _ (.ok source) =>
    (Document.ofSource source).toOption.map fun _ => (schema, source)
  | _ => none

/-- The source that was registered last under a schema. -/
def lastSource (history : List Step) (schema : String) : Option String :=
  ((history.filterMap (·.registration?)).reverse.find? (·.1 = schema)).map (·.2)

section FromSources

variable (sources : String → Option String)

/-- The document that is read from the source of a schema. -/
def documentOf (schema : String) : Except Failure Document :=
  match sources schema with
  | some source => (Document.ofSource source).mapError .source
  | none => .error (.unknownSchema schema)

/-- The row of an item, each term evaluated on its own from the source of the schema. -/
def rowOf (terms : List String) (injected : Table) (item : Item) : Except Failure Row :=
  match sources item.schema with
  | some source => do
    let values ← terms.mapM fun term => evaluateSource source term injected
    return Row.ofList (terms.zip values)
  | none => .error (.unknownSchema item.schema)

def sheetOf (items : List Item) (terms : List String) (injected : Table) : Except Failure Sheet :=
  items.foldlM (fun sheet item => do
    let row ← rowOf sources terms injected item
    return sheet.insert item.name row) ∅

/-- The answer to a step where each schema has a source. -/
def Step.answer : Step → Answer
  | .register _ source => .registered do
    let _ ← (Document.ofSource source).mapError .source
  | .registerFile _ path content => .registered do
    let source ← content.mapError (.unreadable path)
    let _ ← (Document.ofSource source).mapError .source
  | .contains schema => .contained (sources schema).isSome
  | .document schema => .document (documentOf sources schema)
  | .price items terms injected => .priced (sheetOf sources items terms injected)

end FromSources

variable {registry : Registry} {sources : String → Option String} {schema source : String}
  {step : Step} {history : List Step}

lemma serve_register_of_ofSource {document : Document} (h : Document.ofSource source = .ok document)
    (registry : Registry) (schema : String) : registry.serve (.register schema source) =
      (.registered (.ok ()), registry.insert schema document) := by
  rw [serve, register_of_ofSource h]

lemma serve_register_of_error {e : SourceError} (h : Document.ofSource source = .error e)
    (registry : Registry) (schema : String) : registry.serve (.register schema source) =
      (.registered (.error (.source e)), registry) := by
  rw [serve, register_of_error h]

/-- A file that cannot be read leaves the registry as it was. -/
lemma serve_registerFile_of_error (registry : Registry) (schema path : String) (e : FileError) :
    registry.serve (.registerFile schema path (.error e)) =
      (.registered (.error (.unreadable path e)), registry) :=
  rfl

lemma Holds.contains_eq (h : registry.Holds sources) (schema : String) :
    registry.contains schema = (sources schema).isSome := by
  rw [Std.ExtTreeMap.contains_eq_isSome_getElem?]
  obtain ⟨hnone, hunknown⟩ | ⟨source, document, hsource, hdocument, -⟩ := h.schema_cases schema
  · rw [hnone, hunknown]
    rfl
  · rw [hsource, hdocument]
    rfl

lemma Holds.document_eq (h : registry.Holds sources) (schema : String) :
    registry.document schema = documentOf sources schema := by
  unfold Registry.document documentOf
  obtain ⟨hnone, hunknown⟩ | ⟨source, document, hsource, hdocument, hread⟩ := h.schema_cases schema
  · rw [hnone, hunknown]
  · rw [hsource, hdocument]
    dsimp only
    rw [hread]
    rfl

lemma Holds.priceItem_eq (h : registry.Holds sources) (terms : List String) (injected : Table)
    (item : Item) : priceItem registry terms injected item = rowOf sources terms injected item := by
  unfold rowOf
  obtain ⟨hnone, hunknown⟩ | ⟨source, document, hsource, hdocument, hread⟩ :=
    h.schema_cases item.schema
  · rw [hnone, priceItem_of_unknown hunknown]
  · rw [hsource, priceItem_of_document hdocument hread]

lemma Holds.price_eq (h : registry.Holds sources) (items : List Item) (terms : List String)
    (injected : Table) : Tariff.price registry items terms injected =
      sheetOf sources items terms injected := by
  unfold Tariff.price sheetOf
  simp only [h.priceItem_eq]

/-- What a step that registers something does to a registry, and what any other step does. -/
def Serves (registry : Registry) (step : Step) : Prop :=
  (∃ schema source document, step.registration? = some (schema, source) ∧
    Document.ofSource source = .ok document ∧
    registry.serve step = (.registered (.ok ()), registry.insert schema document)) ∨
  (step.registration? = none ∧ (registry.serve step).1 ≠ .registered (.ok ()) ∧
    (registry.serve step).2 = registry)

lemma serves_register (registry : Registry) (schema source : String) :
    registry.Serves (.register schema source) := by
  cases hread : Document.ofSource source with
  | error e =>
    have hserve := serve_register_of_error hread registry schema
    refine .inr ⟨?_, ?_, ?_⟩
    · rw [Step.registration?, hread]
      rfl
    · simp [hserve]
    · rw [hserve]
  | ok document =>
    refine .inl ⟨schema, source, document, ?_, hread, ?_⟩
    · rw [Step.registration?, hread]
      rfl
    · exact serve_register_of_ofSource hread registry schema

/-- A step registers a document that can be read, or leaves the registry as it is. -/
theorem serves (registry : Registry) (step : Step) : registry.Serves step := by
  cases step with
  | register schema source => exact serves_register registry schema source
  | registerFile schema path content =>
    cases content with
    | error e => exact .inr ⟨rfl, by simp [serve_registerFile_of_error], rfl⟩
    | ok source => exact serves_register registry schema source
  | contains schema => exact .inr ⟨rfl, by simp [serve], rfl⟩
  | document schema => exact .inr ⟨rfl, by simp [serve], rfl⟩
  | price items terms injected => exact .inr ⟨rfl, by simp [serve], rfl⟩

lemma answer_register (registry : Registry) (sources : String → Option String)
    (schema source : String) : (registry.serve (.register schema source)).1 =
      (Step.register schema source).answer sources := by
  cases hread : Document.ofSource source with
  | error e =>
    rw [serve_register_of_error hread, Step.answer, hread]
    rfl
  | ok document =>
    rw [serve_register_of_ofSource hread, Step.answer, hread]
    rfl

lemma Holds.answer_eq (h : registry.Holds sources) (step : Step) :
    (registry.serve step).1 = step.answer sources := by
  cases step with
  | register schema source => exact answer_register registry sources schema source
  | registerFile schema path content =>
    cases content with
    | error e => rfl
    | ok source => exact answer_register registry sources schema source
  | contains schema => exact congrArg Answer.contained (h.contains_eq schema)
  | document schema => exact congrArg Answer.document (h.document_eq schema)
  | price items terms injected => exact congrArg Answer.priced (h.price_eq items terms injected)

/-- The registry after a history that began with none. -/
def after (history : List Step) : Registry :=
  ((∅ : Registry).serveAll history).2

lemma serveAll_append (registry : Registry) (earlier later : List Step) :
    registry.serveAll (earlier ++ later) =
      ((registry.serveAll earlier).1 ++ ((registry.serveAll earlier).2.serveAll later).1,
        ((registry.serveAll earlier).2.serveAll later).2) := by
  induction earlier generalizing registry with
  | nil => rfl
  | cons step earlier ih => simp only [List.cons_append, serveAll, ih]

lemma length_serveAll (registry : Registry) (steps : List Step) :
    (registry.serveAll steps).1.length = steps.length := by
  induction steps generalizing registry with
  | nil => rfl
  | cons step steps ih => simp only [serveAll, List.length_cons, ih]

lemma after_concat (history : List Step) (step : Step) :
    after (history ++ [step]) = ((after history).serve step).2 := by
  rw [after, serveAll_append]
  rfl

lemma lastSource_concat_of_none (h : step.registration? = none) (history : List Step) :
    lastSource (history ++ [step]) = lastSource history := by
  funext schema
  simp [lastSource, h]

lemma lastSource_concat_of_some (h : step.registration? = some (schema, source))
    (history : List Step) :
    lastSource (history ++ [step]) = Function.update (lastSource history) schema (some source) := by
  funext other
  rw [Function.update_apply]
  by_cases hother : other = schema
  · simp [lastSource, h, hother]
  · simp [lastSource, h, hother, Ne.symm hother]

/-- After any history the registry holds what was registered last. -/
theorem holds_after (history : List Step) : (after history).Holds (lastSource history) := by
  induction history using List.reverseRecOn with
  | nil => exact .empty
  | append_singleton history step ih =>
    rw [after_concat]
    obtain ⟨schema, source, document, hregistration, hread, hserve⟩ | ⟨hnone, -, hkept⟩ :=
      serves (after history) step
    · rw [hserve, lastSource_concat_of_some hregistration]
      exact ih.insert hread schema
    · rw [hkept, lastSource_concat_of_none hnone]
      exact ih

lemma isSome_lastSource_iff : (lastSource history schema).isSome = true ↔
    ∃ step ∈ history, ∃ source, step.registration? = some (schema, source) := by
  rw [lastSource, Option.isSome_map, List.find?_isSome]
  simp only [List.mem_reverse, List.mem_filterMap, decide_eq_true_eq]
  constructor
  · rintro ⟨⟨_, source⟩, ⟨step, hstep, hregistration⟩, rfl⟩
    exact ⟨step, hstep, source, hregistration⟩
  · rintro ⟨step, hstep, source, hregistration⟩
    exact ⟨(schema, source), ⟨step, hstep, hregistration⟩, rfl⟩

/-- However a registry is used, each answer is the one that the sources registered last before it give.
A schema is known if and only if something was registered under it, and its document is that of the
last such source. A step that registers a source replaces the document of its schema, and one that
fails to, or does something else, changes nothing. -/
theorem serveAll_refines_lastSource (history : List Step) :
    (∀ earlier step later, history = earlier ++ step :: later →
      ((∅ : Registry).serveAll history).1[earlier.length]? =
        some (step.answer (lastSource earlier))) ∧
    (∀ schema, schema ∈ after history ↔
      ∃ step ∈ history, ∃ source, step.registration? = some (schema, source)) ∧
    (∀ schema, (∃ source document, lastSource history schema = some source ∧
        Document.ofSource source = .ok document ∧ (after history).document schema = .ok document) ∨
      lastSource history schema = none ∧
        (after history).document schema = .error (.unknownSchema schema)) ∧
    ∀ step, (∃ schema source document, step.registration? = some (schema, source) ∧
        Document.ofSource source = .ok document ∧
        ((after history).serve step).1 = .registered (.ok ()) ∧
        after (history ++ [step]) = (after history).insert schema document) ∨
      (step.registration? = none ∧ ((after history).serve step).1 ≠ .registered (.ok ()) ∧
        after (history ++ [step]) = after history) := by
  refine ⟨?_, fun schema => ?_, fun schema => ?_, fun step => ?_⟩
  · rintro earlier step later rfl
    have hanswer := (holds_after earlier).answer_eq step
    have hlength := length_serveAll ∅ earlier
    rw [serveAll_append, List.getElem?_append_right hlength.le, hlength, Nat.sub_self, serveAll,
      List.getElem?_cons_zero, ← hanswer]
    rfl
  · rw [← Std.ExtTreeMap.contains_iff_mem, (holds_after history).contains_eq, isSome_lastSource_iff]
  · obtain ⟨hnone, hunknown⟩ | ⟨source, document, hsource, hdocument, hread⟩ :=
      (holds_after history).schema_cases schema
    · exact .inr ⟨hnone, by rw [Registry.document, hunknown]⟩
    · exact .inl ⟨source, document, hsource, hread, by rw [Registry.document, hdocument]⟩
  · obtain ⟨schema, source, document, hregistration, hread, hserve⟩ | ⟨hnone, hanswer, hkept⟩ :=
      serves (after history) step
    · exact .inl ⟨schema, source, document, hregistration, hread, by rw [hserve],
        by rw [after_concat, hserve]⟩
    · exact .inr ⟨hnone, hanswer, by rw [after_concat, hkept]⟩

/-- A price list is registered, then one that ends too soon and a file that is not there. -/
def chairHistory : List Step :=
  [.register "chair" "total = seat\nseat = sale\n", .register "chair" "total =",
    .registerFile "chair" "chair.txt" (.error .notFound)]

/-- The first price list stays, and is known to whoever asks. -/
theorem serveAll_chairHistory :
    ((∅ : Registry).serveAll (chairHistory ++ [.contains "chair"])).1[3]? =
      some (.contained true) ∧
    (after chairHistory).document "chair" = .ok chairDocument ∧ "table" ∉ after chairHistory := by
  have hlast : lastSource chairHistory "chair" = some "total = seat\nseat = sale\n" := by cbv
  have hread : Document.ofSource "total = seat\nseat = sale\n" = .ok chairDocument := by cbv
  obtain ⟨-, hknown, hdocument, -⟩ := serveAll_refines_lastSource chairHistory
  refine ⟨?_, ?_, ?_⟩
  · obtain ⟨hanswers, -⟩ := serveAll_refines_lastSource (chairHistory ++ [.contains "chair"])
    have hanswer := hanswers chairHistory (.contains "chair") [] rfl
    rwa [Step.answer, hlast] at hanswer
  · obtain ⟨source, document, hsource, hread', hchair⟩ | ⟨hnone, -⟩ := hdocument "chair"
    · obtain rfl := Option.some.inj (hlast.symm.trans hsource)
      obtain rfl := Except.ok.inj (hread.symm.trans hread')
      exact hchair
    · rw [hlast] at hnone
      cases hnone
  · rw [hknown]
    simp [chairHistory, Step.registration?]

end Tariff.Registry
