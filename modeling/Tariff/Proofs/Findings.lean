import Tariff.Proofs.CheckedDocument
import Tariff.Proofs.SourcePlaces

/-!
# What is found in a document

`Document.problems` lists what is wrong with a document by the rules, problem by problem: it asks for
names that bottom out (`BottomsOut`) and for definitions that no later one replaces
(`lastDefinitions`), and goes through the words of the document in source order. `Document.check`
finds exactly these, once each, in the order of their places (`check_perm_problems`).
-/

namespace Tariff

/-- The order of findings at one place. -/
def Problem.rank : Problem → ℕ
  | .unusedInjectable => 0
  | .duplicateInjectable => 1
  | .duplicateTerm => 2
  | .circularDefinition => 3
  | .notFullyDefined => 4
  | .notDeclared => 5

/-- The definitions that no later one of the same name replaces. -/
def lastDefinitions : List Definition → List Definition
  | [] => []
  | e :: later =>
    if e.name.text ∈ later.map (·.name.text) then lastDefinitions later
    else e :: lastDefinitions later

namespace Document

/-- The name is injected, or its formula mentions only names that bottom out. -/
inductive BottomsOut (d : Document) : String → Prop
  | injected {name : String} (h : name ∈ d.injectableTerms.map (·.text)) : BottomsOut d name
  | defined {name : String} {body : Expression} (hbody : d.definitionOf[name]? = some body)
      (huses : ∀ use ∈ body.uses, BottomsOut d use) : BottomsOut d name

open Classical in
/-- What is wrong with a definition that no later one replaces: it mentions its own name, or its name
does not bottom out and this is not for the sake of that name alone. -/
noncomputable def problemsOf (d : Document) (e : Definition) : List Diagnostic :=
  (if e.name.text ∈ e.body.uses then [⟨.circularDefinition, e.name⟩] else []) ++
    (if ¬d.BottomsOut e.name.text ∧ (e.name.text ∉ e.body.uses ∨
        ∃ use ∈ e.body.uses, use ≠ e.name.text ∧ ¬d.BottomsOut use)
      then [⟨.notFullyDefined, e.name⟩] else [])

/-- What is wrong with a document. -/
noncomputable def problems (d : Document) : List Diagnostic :=
  (d.injectableTerms.filter fun w => ∀ e ∈ d.definitions, w.text ∉ e.body.uses).map
      (⟨.unusedInjectable, ·⟩) ++
    (d.injectableTerms.filter fun w => 1 < (d.injectableTerms.map (·.text)).count w.text).map
      (⟨.duplicateInjectable, ·⟩) ++
    (d.declaredTerms.filter fun w => 1 < (d.declaredTerms.map (·.text)).count w.text).map
      (⟨.duplicateTerm, ·⟩) ++
    (lastDefinitions d.definitions).flatMap d.problemsOf ++
    ((d.definitions.flatMap (·.body.names)).filter fun w =>
      w.text ∉ d.injectableTerms.map (·.text) ∧ w.text ∉ d.declaredTerms.map (·.text)).map
      (⟨.notDeclared, ·⟩)

variable {d : Document} {name source : String}

theorem mem_fullyDefined_iff_bottomsOut : name ∈ d.fullyDefined ↔ d.BottomsOut name := by
  constructor
  · revert name
    apply fullyDefined_induction
    · intro name hname
      exact .injected hname
    · intro name body hbody huses
      exact .defined hbody huses
  · intro h
    induction h with
    | injected h => exact mem_fullyDefined_of_injectable h
    | defined hbody _ ih => exact mem_fullyDefined_of_uses hbody ih

lemma firstOfEachName_concat (seen : Names) (definitions : List Definition) (e : Definition) :
    firstOfEachName seen (definitions ++ [e]) = firstOfEachName seen definitions ++
      if e.name.text ∈ seen ∨ e.name.text ∈ definitions.map (·.name.text) then [] else [e] := by
  -- `lastDefinitions` goes through the same list from its other end, so it grows there.
  induction definitions generalizing seen with
  | nil => simp [firstOfEachName]
  | cons first rest ih =>
    simp only [List.cons_append, firstOfEachName, List.map_cons, List.mem_cons]
    by_cases hseen : first.name.text ∈ seen
    · have hsame : e.name.text = first.name.text → e.name.text ∈ seen := fun heq => heq ▸ hseen
      have hcontains := Std.ExtTreeSet.contains_iff_mem.mpr hseen
      rw [if_pos hcontains, if_pos hcontains, ih]
      congr 1
      apply if_congr _ rfl rfl
      tauto
    · have hcontains := mt Std.ExtTreeSet.contains_iff_mem.mp hseen
      rw [if_neg hcontains, if_neg hcontains, ih, List.cons_append]
      congr 2
      apply if_congr _ rfl rfl
      rw [Std.ExtTreeSet.mem_insert, Std.LawfulEqCmp.compare_eq_iff_eq]
      tauto

lemma effectiveDefinitions_eq (d : Document) :
    d.effectiveDefinitions = (lastDefinitions d.definitions).reverse := by
  have hall (definitions : List Definition) :
      firstOfEachName ∅ definitions.reverse = (lastDefinitions definitions).reverse := by
    induction definitions with
    | nil => rfl
    | cons e later ih =>
      rw [List.reverse_cons, firstOfEachName_concat, ih, lastDefinitions]
      by_cases hlater : e.name.text ∈ later.map (·.name.text)
      · simp [hlater]
      · simp [hlater]
  exact hall d.definitions

lemma unusedInjectables_eq (d : Document) : d.unusedInjectables =
    d.injectableTerms.filter fun w => ∀ e ∈ d.definitions, w.text ∉ e.body.uses := by
  unfold unusedInjectables
  apply List.filter_congr
  intro w hw
  have hused : w.text ∈ (Std.ExtTreeSet.ofList (d.mentions.map (·.text)) : Names) ↔
      ∃ e ∈ d.definitions, w.text ∈ e.body.uses := by
    simp [Std.ExtTreeSet.mem_ofList, mentions, Formula.uses, List.map_flatMap]
  rw [Bool.eq_iff_iff, Bool.not_eq_true', ← Bool.not_eq_true, Std.ExtTreeSet.contains_iff_mem, hused]
  simp

lemma undeclaredMentions_eq (d : Document) : d.undeclaredMentions =
    (d.definitions.flatMap (·.body.names)).filter fun w =>
      w.text ∉ d.injectableTerms.map (·.text) ∧ w.text ∉ d.declaredTerms.map (·.text) := by
  unfold undeclaredMentions mentions
  apply List.filter_congr
  intro w hw
  rw [Bool.eq_iff_iff, Bool.not_eq_true', ← Bool.not_eq_true, Std.ExtTreeSet.contains_iff_mem,
    Std.ExtTreeSet.mem_ofList, List.map_append]
  simp

lemma repeated_eq (words : List Terminal) :
    repeated words = words.filter fun w => 1 < (words.map (·.text)).count w.text := by
  unfold repeated
  apply List.filter_congr
  intro w hw
  rw [List.count_eq_countP, List.countP_map]
  rfl

open Classical in
lemma definitionProblems_eq (d : Document) (e : Definition) :
    definitionProblems d.fullyDefined e = d.problemsOf e := by
  have hmissing (name : String) : (!d.fullyDefined.contains name) = true ↔ ¬d.BottomsOut name := by
    rw [← mem_fullyDefined_iff_bottomsOut, ← Std.ExtTreeSet.contains_iff_mem, Bool.not_eq_true,
      Bool.not_eq_true']
  have hself : e.body.uses.contains e.name.text = true ↔ e.name.text ∈ e.body.uses :=
    List.contains_iff_mem
  have hblocked : (e.body.uses.any fun use =>
      decide (use ≠ e.name.text) && !d.fullyDefined.contains use) = true ↔
        ∃ use ∈ e.body.uses, use ≠ e.name.text ∧ ¬d.BottomsOut use := by
    simp only [List.any_eq_true, Bool.and_eq_true, decide_eq_true_eq, hmissing]
  unfold definitionProblems problemsOf
  refine congr_arg₂ _ (if_congr hself rfl rfl) ?_
  apply if_congr _ rfl rfl
  rw [Bool.and_eq_true, Bool.or_eq_true]
  refine and_congr (hmissing _) (or_congr ?_ hblocked)
  rw [Bool.not_eq_true', ← Bool.not_eq_true]
  exact not_congr hself

theorem findings_perm_problems (d : Document) : d.findings.Perm d.problems := by
  unfold findings problems
  rw [unusedInjectables_eq, undeclaredMentions_eq, repeated_eq, repeated_eq, effectiveDefinitions_eq,
    funext d.definitionProblems_eq]
  have hreverse := (List.reverse_perm (lastDefinitions d.definitions)).flatMap_right d.problemsOf
  exact (hreverse.append_left _).append_right _

/-- A stable sort leaves the elements of one rank as they are. -/
lemma filter_mergeSort {α : Type} {le : α → α → Bool} {p : α → Bool}
    (htrans : ∀ a b c, le a b = true → le b c = true → le a c = true)
    (htotal : ∀ a b, (le a b || le b a) = true)
    (hrank : ∀ a b, p a = true → p b = true → le a b = true) (xs : List α) :
    (xs.mergeSort le).filter p = xs.filter p := by
  have hsorted : (xs.filter p).Pairwise fun a b => le a b = true := by
    apply List.pairwise_of_forall_mem_list
    intro a ha b hb
    exact hrank a b (List.of_mem_filter ha) (List.of_mem_filter hb)
  have hsub : (xs.filter p).Sublist (xs.mergeSort le) :=
    List.sublist_mergeSort htrans htotal hsorted List.filter_sublist
  have hfilter := hsub.filter p
  rw [List.filter_filter] at hfilter
  simp only [Bool.and_self] at hfilter
  have hlength : (xs.filter p).length = ((xs.mergeSort le).filter p).length :=
    ((List.mergeSort_perm xs le).filter p).length_eq.symm
  exact (hfilter.eq_of_length hlength).symm

lemma pairwise_check (d : Document) :
    d.check.Pairwise fun a b => a.location.notAfter b.location = true := by
  apply List.pairwise_mergeSort
  · intro a b c
    exact Location.notAfter_trans
  · intro a b
    rw [Bool.or_eq_true]
    exact Location.notAfter_total _ _

/-- Findings at one place are found in the order of `Document.findings`. -/
lemma filter_check (d : Document) (l : Location) :
    d.check.filter (·.location = l) = d.findings.filter (·.location = l) := by
  apply filter_mergeSort
  · intro a b c
    exact Location.notAfter_trans
  · intro a b
    rw [Bool.or_eq_true]
    exact Location.notAfter_total _ _
  · intro a b ha hb
    rw [decide_eq_true_eq] at ha hb
    rw [ha, hb, Location.notAfter_iff]
    exact .inr ⟨rfl, Nat.le_refl _⟩

/-- What holds between any two elements of one key that follow each other holds in the list. -/
lemma pairwise_of_filter {α κ : Type} [DecidableEq κ] {key : α → κ} {r : α → α → Prop} {xs : List α}
    (h : ∀ k, (xs.filter (key · = k)).Pairwise r) :
    xs.Pairwise fun a b => key a = key b → r a b := by
  induction xs with
  | nil => exact .nil
  | cons x xs ih =>
    refine List.pairwise_cons.mpr ⟨fun y hy heq => ?_, ih fun k => ?_⟩
    · have hx := h (key x)
      rw [List.filter_cons_of_pos (by simp)] at hx
      exact List.rel_of_pairwise_cons hx (List.mem_filter.mpr ⟨hy, by simp [heq]⟩)
    · exact (h k).sublist ((List.sublist_cons_self x xs).filter _)

/-! ### Findings in a source -/

/-- Findings with ranks between two bounds, those at one place by their ranks. -/
structure Ranked (low high : ℕ) (findings : List Diagnostic) : Prop where
  pairwise : findings.Pairwise fun a b => a.location = b.location → a.problem.rank < b.problem.rank
  bounds : ∀ a ∈ findings, low ≤ a.problem.rank ∧ a.problem.rank < high

namespace Ranked

variable {low mid high : ℕ} {findings findings' : List Diagnostic}

lemma append (h : Ranked low mid findings) (h' : Ranked mid high findings') (hlow : low ≤ mid)
    (hhigh : mid ≤ high) : Ranked low high (findings ++ findings') where
  pairwise := by
    refine List.pairwise_append.mpr ⟨h.pairwise, h'.pairwise, fun a ha b hb _ => ?_⟩
    have hfirst := (h.bounds a ha).2
    have hsecond := (h'.bounds b hb).1
    omega
  bounds := by
    intro a ha
    rcases List.mem_append.mp ha with ha | ha
    · have hbounds := h.bounds a ha
      omega
    · have hbounds := h'.bounds a ha
      omega

/-- Findings of one kind about words at different places. -/
lemma map {words : List Terminal} (problem : Problem)
    (h : words.Pairwise fun v w => v.location ≠ w.location) :
    Ranked problem.rank (problem.rank + 1) (words.map (⟨problem, ·⟩)) where
  pairwise := by
    rw [List.pairwise_map]
    exact h.imp fun hne heq => (hne heq).elim
  bounds := by
    intro a ha
    obtain ⟨w, -, rfl⟩ := List.mem_map.mp ha
    exact ⟨Nat.le_refl _, Nat.lt_succ_self _⟩

end Ranked

lemma eq_of_mem_definitionProblems {defined : Names} {e : Definition} {finding : Diagnostic}
    (h : finding ∈ definitionProblems defined e) :
    finding = ⟨.circularDefinition, e.name⟩ ∨ finding = ⟨.notFullyDefined, e.name⟩ := by
  unfold definitionProblems at h
  rcases List.mem_append.mp h with h | h
  · exact .inl (List.mem_singleton.mp (List.mem_ite_nil_right.mp h).2)
  · exact .inr (List.mem_singleton.mp (List.mem_ite_nil_right.mp h).2)

lemma ranked_definitionProblems (defined : Names) (e : Definition) :
    Ranked 3 5 (definitionProblems defined e) where
  pairwise := by
    unfold definitionProblems
    dsimp only
    split <;> split <;> simp [Problem.rank]
  bounds := by
    intro a ha
    rcases eq_of_mem_definitionProblems ha with rfl | rfl
    · exact ⟨Nat.le_refl 3, Nat.lt_succ_of_lt (Nat.lt_succ_self 3)⟩
    · exact ⟨Nat.le_succ 3, Nat.lt_succ_self 4⟩

lemma firstOfEachName_sublist (seen : Names) (definitions : List Definition) :
    (firstOfEachName seen definitions).Sublist definitions := by
  induction definitions generalizing seen with
  | nil => exact List.Sublist.refl _
  | cons e rest ih =>
    rw [firstOfEachName]
    split
    · exact (ih seen).cons e
    · exact (ih _).cons_cons e

lemma ranked_effectiveDefinitions (h : ofSource source = .ok d) (defined : Names) :
    Ranked 3 5 (d.effectiveDefinitions.flatMap (definitionProblems defined)) where
  pairwise := by
    have hnames := pairwise_location_ne h d.declaredTerms_sublist_leaves
    rw [declaredTerms, List.pairwise_map] at hnames
    have hlast : d.effectiveDefinitions.Pairwise fun e f => e.name.location ≠ f.name.location :=
      (List.pairwise_reverse.mpr (hnames.imp Ne.symm)).sublist (firstOfEachName_sublist _ _)
    refine List.pairwise_flatMap.mpr ⟨fun e _ => (ranked_definitionProblems defined e).pairwise,
      hlast.imp fun hne a ha b hb heq => ?_⟩
    have hplace {e : Definition} {a : Diagnostic} (ha : a ∈ definitionProblems defined e) :
        a.location = e.name.location := by
      rcases eq_of_mem_definitionProblems ha with rfl | rfl <;> rfl
    rw [hplace ha, hplace hb] at heq
    exact (hne heq).elim
  bounds := by
    intro a ha
    obtain ⟨e, -, ha⟩ := List.mem_flatMap.mp ha
    exact (ranked_definitionProblems defined e).bounds a ha

/-- In a source, the findings at one place are listed by rank, one for each. -/
lemma ranked_findings (h : ofSource source = .ok d) : Ranked 0 6 d.findings := by
  have hinjectables := pairwise_location_ne h d.injectableTerms_sublist_leaves
  have hdeclared := pairwise_location_ne h d.declaredTerms_sublist_leaves
  have hmentions := pairwise_location_ne h d.mentions_sublist_leaves
  have hunused : Ranked 0 1 (d.unusedInjectables.map (⟨.unusedInjectable, ·⟩)) :=
    .map .unusedInjectable (hinjectables.sublist List.filter_sublist)
  have hinjected : Ranked 1 2 ((repeated d.injectableTerms).map (⟨.duplicateInjectable, ·⟩)) :=
    .map .duplicateInjectable (hinjectables.sublist List.filter_sublist)
  have hterm : Ranked 2 3 ((repeated d.declaredTerms).map (⟨.duplicateTerm, ·⟩)) :=
    .map .duplicateTerm (hdeclared.sublist List.filter_sublist)
  have hdefinition := ranked_effectiveDefinitions h d.fullyDefined
  have hundeclared : Ranked 5 6 (d.undeclaredMentions.map (⟨.notDeclared, ·⟩)) :=
    .map .notDeclared (hmentions.sublist List.filter_sublist)
  have hinjectable := hunused.append hinjected (Nat.zero_le 1) (Nat.le_succ 1)
  have hname := hinjectable.append hterm (Nat.zero_le 2) (Nat.le_succ 2)
  have hdefined := hname.append hdefinition (Nat.zero_le 3) (by decide)
  exact hdefined.append hundeclared (Nat.zero_le 5) (Nat.le_succ 5)

/-- What is found in a document is what is wrong with it, each problem once, in the order of the
places; in a document from a source, what is found at one place is in the order of `Problem.rank`.
Only a name that is not used is no error. -/
theorem check_perm_problems (d : Document) :
    d.check.Perm d.problems ∧
      d.check.Pairwise (fun a b => a.location.notAfter b.location = true) ∧
      (∀ finding ∈ d.check, finding.isError ↔ finding.problem ≠ .unusedInjectable) ∧
      ∀ source, ofSource source = .ok d →
        d.check.Pairwise fun a b => a.location = b.location → a.problem.rank < b.problem.rank := by
  refine ⟨(List.mergeSort_perm _ _).trans d.findings_perm_problems, d.pairwise_check, ?_, ?_⟩
  · intro finding _
    cases hproblem : finding.problem <;>
      simp [Diagnostic.isError, Diagnostic.severity, Problem.severity, hproblem]
  · intro source h
    -- Sorting keeps the findings at each single place as `findings` lists them.
    have hplace (l : Location) : (d.check.filter (·.location = l)).Pairwise fun a b =>
        a.location = b.location → a.problem.rank < b.problem.rank := by
      rw [filter_check]
      exact (ranked_findings h).pairwise.sublist List.filter_sublist
    exact (pairwise_of_filter hplace).imp fun hrank heq => hrank heq heq

end Document

end Tariff
