import Tariff.CommandLine.Run
import Tariff.Proofs.PriceSheets

/-!
# Reports on terms

The command that evaluates terms reports what each of them comes to on its own, from the table of the
values file with the assignments put on top (`evaluate_command_reports_alone`). So terms that were
evaluated before, and have filled the table, make no difference. The first term that fails ends the
report: as lines, what was before it stays printed; as JSON, nothing is printed at all.
-/

namespace Tariff

/-- The elements in front of the first one on which `f` fails. -/
def upToFailure {α β ε : Type} (f : α → Except ε β) (xs : List α) : List α :=
  xs.takeWhile fun x => (f x).isOk

section UpToFailure

variable {α β ε : Type} {f : α → Except ε β} {xs : List α} {x : α}

lemma upToFailure_cons_of_ok {v : β} (h : f x = .ok v) (xs : List α) :
    upToFailure f (x :: xs) = x :: upToFailure f xs :=
  List.takeWhile_cons_of_pos (by rw [h]; rfl)

lemma upToFailure_cons_of_error {e : ε} (h : f x = .error e) (xs : List α) :
    upToFailure f (x :: xs) = [] :=
  List.takeWhile_cons_of_neg (by rw [h]; simp [Except.isOk, Except.toBool])

lemma forall_ok_upToFailure (f : α → Except ε β) (xs : List α) :
    ∀ x ∈ upToFailure f xs, ∃ v, f x = .ok v := by
  intro x hx
  unfold upToFailure at hx
  have hok : (f x).isOk = true := List.mem_takeWhile_imp (p := fun x => (f x).isOk) hx
  cases hf : f x with
  | error e =>
    rw [hf] at hok
    cases hok
  | ok v => exact ⟨v, rfl⟩

lemma upToFailure_eq_self (h : ∀ x ∈ xs, ∃ v, f x = .ok v) : upToFailure f xs = xs := by
  rw [upToFailure, List.takeWhile_eq_self_iff]
  intro x hx
  obtain ⟨v, hv⟩ := h x hx
  rw [hv]
  rfl

end UpToFailure

namespace Command

section Session

variable {definitions : Definitions} {table memo memo' : Table} {term : String}

lemma evaluateTerms_cons_of_ok {value : Value}
    (h : definitions.resolve [] term memo = (.ok value, memo')) (terms : List String) :
    evaluateTerms definitions (term :: terms) memo =
      ((term, value) :: (evaluateTerms definitions terms memo').1,
        (evaluateTerms definitions terms memo').2) := by
  rw [evaluateTerms, h]

lemma evaluateTerms_cons_of_error {e : EvalError}
    (h : definitions.resolve [] term memo = (.error e, memo')) (terms : List String) :
    evaluateTerms definitions (term :: terms) memo = ([], some e) := by
  rw [evaluateTerms, h]

/-- A session gives each term the value that it has on its own, up to the first that has none, and
fails as that one does. What earlier terms have entered into the table makes no difference. -/
theorem evaluateTerms_eq_alone {alone : String → Except Failure Value}
    (halone : ∀ term, alone term = (definitions.recompute table [] term).mapError .evaluation)
    (hmemo : definitions.Memo table [] memo) (terms : List String) {value : String → Value}
    (hvalue : ∀ term ∈ upToFailure alone terms, alone term = .ok (value term)) :
    (evaluateTerms definitions terms memo).1 =
        (upToFailure alone terms).map (fun term => (term, value term)) ∧
      ∀ e, (evaluateTerms definitions terms memo).2.map Failure.evaluation = some e ↔
        FirstFailure alone terms e := by
  induction terms generalizing memo with
  | nil => exact ⟨rfl, fun e => iff_of_false (by simp [evaluateTerms]) firstFailure_nil⟩
  | cons term terms ih =>
    have hfaithful := Definitions.resolve_faithful hmemo term
    have hterm := halone term
    rw [← hfaithful.outcome] at hterm
    rcases hrun : definitions.resolve [] term memo with ⟨e | v, memo'⟩
    · replace hterm : alone term = .error (.evaluation e) := by
        rw [hterm, hrun]
        rfl
      rw [evaluateTerms_cons_of_error hrun, upToFailure_cons_of_error hterm]
      refine ⟨rfl, fun e' => ?_⟩
      rw [firstFailure_cons, hterm]
      simp
    · replace hterm : alone term = .ok v := by
        rw [hterm, hrun]
        rfl
      -- The next term starts from another table, but from one that the same first table grew into.
      have hnext : definitions.Memo table [] memo' := by
        have hinvariant := hfaithful.invariant
        rwa [hrun] at hinvariant
      rw [upToFailure_cons_of_ok hterm, List.forall_mem_cons] at hvalue
      obtain ⟨hhere, hlater⟩ := hvalue
      obtain ⟨hvalues, herror⟩ := ih hnext hlater
      obtain rfl : v = value term := Except.ok.inj (hterm.symm.trans hhere)
      rw [evaluateTerms_cons_of_ok hrun, upToFailure_cons_of_ok hterm, List.map_cons, hvalues]
      refine ⟨rfl, fun e' => ?_⟩
      rw [firstFailure_cons, hterm]
      simpa using herror e'

end Session

end Command

/-- A report on terms, given what each of them comes to on its own. -/
structure Report.TellsAlone (json : Bool) (terms : List String)
    (alone : String → Except Failure Value) (report : Report) : Prop where
  /-- Every term in front of the first that fails has its line, as often as it was asked for. -/
  lines : json = false → ∃ value : String → Value,
    (∀ term ∈ upToFailure alone terms, alone term = .ok (value term)) ∧
      report.stdout = linesText
        ((upToFailure alone terms).map fun term => term ++ " = " ++ (value term).shown)
  /-- Every term is a member once, if none of them fails. -/
  members : json = true → (∀ term ∈ terms, ∃ value, alone term = .ok value) →
    ∃ members : List (String × Json), report.stdout = (Json.ofMembers members).printed ∧
      (members.map (·.1)).Nodup ∧ ∀ term tree, (term, tree) ∈ members ↔
        term ∈ terms ∧ ∃ value, alone term = .ok value ∧ tree = value.toJson
  silent : json = true → (∃ term ∈ terms, ∃ e, alone term = .error e) → report.stdout = ""
  ending : ((∀ term ∈ terms, ∃ value, alone term = .ok value) ∧
      report.exitCode = 0 ∧ report.stderr = "") ∨
    ∃ e, FirstFailure alone terms e ∧
      report.exitCode = 1 ∧ report.stderr = "Error: " ++ e.message ++ "\n"

namespace Command

/-- A row of terms is written with each of them once. -/
lemma exists_members (terms : List String) (value : String → Value) :
    ∃ members : List (String × Json),
      (Row.ofList (terms.map fun term => (term, value term))).toJson = .ofMembers members ∧
      (members.map (·.1)).Nodup ∧
      ∀ term tree, (term, tree) ∈ members ↔ term ∈ terms ∧ tree = (value term).toJson := by
  refine ⟨_, rfl, ?_, fun term tree => ?_⟩
  · rw [List.map_map, List.nodup_iff_pairwise_ne, List.pairwise_map]
    refine Std.ExtTreeMap.distinct_keys_toList.imp fun hdistinct hname => hdistinct ?_
    rw [Std.LawfulEqCmp.compare_eq_iff_eq]
    exact hname
  · have hentry (v : Value) :
        (term, v) ∈ (Row.ofList (terms.map fun term => (term, value term))).toList ↔
          term ∈ terms ∧ value term = v := by
      rw [Std.ExtTreeMap.mem_toList_iff_getElem?_eq_some, Row.getElem?_ofList_map,
        Option.ite_none_right_eq_some, Option.some.injEq]
    rw [List.mem_map]
    constructor
    · rintro ⟨⟨name, v⟩, hmem, hmember⟩
      obtain ⟨rfl, rfl⟩ := Prod.mk.inj hmember
      obtain ⟨hterm, rfl⟩ := (hentry v).mp hmem
      exact ⟨hterm, rfl⟩
    · rintro ⟨hterm, rfl⟩
      exact ⟨(term, value term), (hentry _).mpr ⟨hterm, rfl⟩, rfl⟩

theorem reportValues_tellsAlone {document : Document} {table : Table}
    {alone : String → Except Failure Value}
    (halone : ∀ term, alone term =
      (document.definitionOf.recompute table [] term).mapError .evaluation)
    (json : Bool) (terms : List String) :
    (reportValues json document terms table).TellsAlone json terms alone := by
  have hbefore := forall_ok_upToFailure alone terms
  choose! value hvalue using hbefore
  obtain ⟨hvalues, herror⟩ := evaluateTerms_eq_alone halone (.initial _ table) terms hvalue
  rcases hrun : evaluateTerms document.definitionOf terms table with ⟨entries, outcome⟩
  rw [hrun] at hvalues herror
  obtain rfl : entries = (upToFailure alone terms).map fun term => (term, value term) := hvalues
  have hlines (line : String × Value → String) :
      linesText (((upToFailure alone terms).map fun term => (term, value term)).map line) =
        linesText ((upToFailure alone terms).map fun term => line (term, value term)) := by
    rw [List.map_map]
    rfl
  unfold reportValues
  rw [hrun]
  cases outcome with
  | some e =>
    have hfirst : FirstFailure alone terms (.evaluation e) := (herror _).mp rfl
    have hnotAll := not_forall_ok_of_firstFailure hfirst
    cases json with
    | false =>
      exact ⟨fun _ => ⟨value, hvalue, hlines _⟩, by simp, by simp, .inr ⟨_, hfirst, rfl, rfl⟩⟩
    | true =>
      exact ⟨by simp, fun _ hall => (hnotAll hall).elim, fun _ _ => rfl, .inr ⟨_, hfirst, rfl, rfl⟩⟩
  | none =>
    have hall : ∀ term ∈ terms, ∃ value, alone term = .ok value := by
      rcases forall_ok_or_firstFailure alone terms with hall | ⟨e, hfirst⟩
      · exact hall
      · cases (herror e).mpr hfirst
    have hwhole := upToFailure_eq_self hall
    cases json with
    | false => exact ⟨fun _ => ⟨value, hvalue, hlines _⟩, by simp, by simp, .inl ⟨hall, rfl, rfl⟩⟩
    | true =>
      refine ⟨by simp, fun _ _ => ?_, ?_, .inl ⟨hall, rfl, rfl⟩⟩
      · rw [hwhole] at hvalue ⊢
        obtain ⟨members, hmembers, hnodup, hmem⟩ := exists_members terms value
        refine ⟨members, congrArg Json.printed hmembers, hnodup, fun term tree => ?_⟩
        rw [hmem]
        refine and_congr_right fun hterm => ?_
        simp [hvalue term hterm]
      · rintro - ⟨term, hterm, e, he⟩
        obtain ⟨v, hv⟩ := hall term hterm
        cases he.symm.trans hv

lemma run_bind_of_ok {α β ε : Type} {x : ExceptT ε Id α} {a : α} (h : x.run = .ok a)
    (f : α → ExceptT ε Id β) : (x >>= f).run = (f a).run := by
  rw [ExceptT.run_bind, h]
  rfl

lemma run_evaluate {read : String → Except FileError String} {file source : String}
    {document : Document} {values : Option String} {known : Table} (hfile : read file = .ok source)
    (hread : Document.ofSource source = .ok document)
    (hvalues : (loadValues (m := Id) read values).run = .ok known) (json verbose : Bool)
    (terms : List String) (assignments : List (String × Value)) :
    Invocation.run (m := Id) ⟨json, verbose, .evaluate file terms assignments values⟩ read =
      reportValues json document terms (seed known assignments) := by
  have hload : (load (m := Id) read file).run = .ok source := by
    unfold load
    rw [hfile]
    rfl
  have hdocument : (loadDocument (m := Id) read file).run = .ok document := by
    unfold loadDocument
    rw [run_bind_of_ok hload, hread]
    rfl
  have hreport : (report (m := Id) read json (.evaluate file terms assignments values)).run =
      .ok (reportValues json document terms (seed known assignments)) := by
    rw [report, run_bind_of_ok hdocument, run_bind_of_ok hvalues]
    rfl
  unfold Invocation.run
  rw [hreport]
  rfl

end Command

/-- The command that evaluates terms, for a document that can be read and values that are accepted.
The table has the last assignment to each name, and what the file gives for names without one. The
report tells what each term comes to on its own from this table, and success means that no term reaches
a cycle. -/
theorem evaluate_command_reports_alone {read : String → Except FileError String} {file : String}
    {values : Option String} {known : Table} {source : String} {document : Document}
    (hfile : read file = .ok source)
    (hread : Document.ofSource source = .ok document)
    (hvalues : (Command.loadValues (m := Id) read values).run = .ok known) (json verbose : Bool)
    (terms : List String) (assignments : List (String × Value)) :
    let table := Command.seed known assignments
    let report :=
      Invocation.run (m := Id) ⟨json, verbose, .evaluate file terms assignments values⟩ read
    (∀ name, table[name]? =
      ((assignments.reverse.find? (·.1 = name)).map (·.2)).or known[name]?) ∧
    report.TellsAlone json terms (evaluateSource source · table) ∧
    (report.exitCode = 0 ↔ ∀ term ∈ terms, document.definitionOf.Acyclic table term) := by
  intro table report
  have hreport : report = Command.reportValues json document terms table :=
    Command.run_evaluate hfile hread hvalues json verbose terms assignments
  have halone := fun term => evaluateSource_of_ofSource hread term table
  have htells := Command.reportValues_tellsAlone halone json terms
  rw [← hreport] at htells
  have htable := Definitions.getElem?_foldl_insert assignments (·.1) (·.2) known
  refine ⟨htable, htells, ?_⟩
  simp only [← exists_evaluateSource_eq_ok_iff hread]
  obtain ⟨hall, hcode, -⟩ | ⟨e, hfirst, hcode, -⟩ := htells.ending
  · exact iff_of_true hcode hall
  · exact iff_of_false (by rw [hcode]; decide) (not_forall_ok_of_firstFailure hfirst)

/-- A price list with a term that is in a circle. -/
def loopSource : String := "total = seat\nseat = sale\nloop = loop\n"

def loopDocument : Document where
  injectables := []
  definitions := chairDocument.definitions ++
    [⟨⟨"loop", ⟨3, 0⟩⟩, .single (.name ⟨"loop", ⟨3, 7⟩⟩)⟩]

/-- The price list, and a values file. -/
def loopFiles (path : String) : Except FileError String :=
  if path = "chair.price" then .ok loopSource
  else if path = "values.json" then .ok "\x7b\"sale\": false\x7d"
  else .error .notFound

lemma ofSource_loopSource : Document.ofSource loopSource = .ok loopDocument := by
  cbv

lemma loopFiles_chair : loopFiles "chair.price" = .ok loopSource := rfl

lemma loadValues_loopFiles : (Command.loadValues (m := Id) loopFiles (some "values.json")).run =
    .ok (Table.ofEntries [("sale", .boolean false)]) := by
  cbv

/-- What a term of the price list comes to on its own, when the values file is corrected. -/
def loopAlone (term : String) : Except Failure Value :=
  evaluateSource loopSource term
    (Command.seed (Table.ofEntries [("sale", .boolean false)]) [("sale", .boolean true)])

lemma loopAlone_of_name : loopAlone "total" = .ok (.boolean true) ∧
    loopAlone "seat" = .ok (.boolean true) ∧
    loopAlone "loop" = .error (.evaluation (.circular "loop")) := by
  decide +kernel

/-- The assignment beats the values file. The lines in front of the circle stay printed. -/
theorem evaluate_command_loopSource :
    loopFiles "chair.price" = .ok loopSource ∧ Document.ofSource loopSource = .ok loopDocument ∧
    (Command.loadValues (m := Id) loopFiles (some "values.json")).run =
      .ok (Table.ofEntries [("sale", .boolean false)]) ∧
    let report := Invocation.run (m := Id) ⟨false, false, .evaluate "chair.price"
      ["total", "seat", "total", "loop", "sale"] [("sale", .boolean true)] (some "values.json")⟩
      loopFiles
    report.stdout = "total = true\nseat = true\ntotal = true\n" ∧ report.exitCode = 1 ∧
      report.stderr = "Error: Term 'loop' has a circular definition.\n" := by
  refine ⟨loopFiles_chair, ofSource_loopSource, loadValues_loopFiles, ?_⟩
  intro report
  obtain ⟨-, htells, -⟩ := evaluate_command_reports_alone loopFiles_chair ofSource_loopSource
    loadValues_loopFiles false false ["total", "seat", "total", "loop", "sale"]
    [("sale", .boolean true)]
  replace htells : report.TellsAlone false ["total", "seat", "total", "loop", "sale"] loopAlone :=
    htells
  obtain ⟨htotal, hseat, hloop⟩ := loopAlone_of_name
  have hshown : upToFailure loopAlone ["total", "seat", "total", "loop", "sale"] =
      ["total", "seat", "total"] := by
    rw [upToFailure_cons_of_ok htotal, upToFailure_cons_of_ok hseat, upToFailure_cons_of_ok htotal,
      upToFailure_cons_of_error hloop]
  obtain ⟨value, hvalue, hlines⟩ := htells.lines rfl
  rw [hshown] at hvalue hlines
  have htotal' : .boolean true = value "total" :=
    Except.ok.inj (htotal.symm.trans (hvalue "total" (by simp)))
  have hseat' : .boolean true = value "seat" :=
    Except.ok.inj (hseat.symm.trans (hvalue "seat" (by simp)))
  obtain ⟨hall, -⟩ | ⟨e, hfirst, hcode, herror⟩ := htells.ending
  · obtain ⟨v, hv⟩ := hall "loop" (by simp)
    cases hloop.symm.trans hv
  · have he : Failure.evaluation (.circular "loop") = e := by
      simpa [firstFailure_cons, htotal, hseat, hloop] using hfirst
    refine ⟨?_, hcode, ?_⟩
    · rw [hlines, List.map_cons, List.map_cons, List.map_cons, List.map_nil, ← htotal', ← hseat']
      decide +kernel
    · rw [herror, ← he]
      rfl
end Tariff
