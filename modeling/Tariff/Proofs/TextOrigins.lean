import Tariff.Proofs.Session

/-!
# Where texts come from

No operator gives a text. Evaluation only passes texts on: the texts of the table that it starts from, and
the names that stand for nothing else. This holds of its values and of all that a session leaves in the
table, whether its requests succeed or fail (`texts_come_from_outside`).
-/

namespace Tariff

lemma Unary.apply_ne_text (op : Unary) (v : Value) (s : String) : op.apply v ≠ .text s := by
  cases op <;> simp [apply]

lemma Connective.apply_ne_text {c : Chain} (op : Connective c) (v w : Value) (s : String) :
    op.apply v w ≠ .text s := by
  cases op <;> simp [apply]

lemma Comparison.apply_ne_text (op : Comparison) (v w : Value) (s : String) :
    op.apply v w ≠ .text s := by
  simp [apply]

/-- A formula whose value is a text passes on the value of one of its names. -/
theorem Formula.exists_use_of_value_eq_text {l : Level} {f : Formula l} {ρ : String → Value} {s : String}
    (h : f.value ρ = .text s) : ∃ use ∈ f.uses, ρ use = .text s := by
  induction f with
  | operand x ih => exact ih h
  | link left op right => exact (op.apply_ne_text _ _ s h).elim
  | plain x ih => exact ih h
  | compare left op right => exact (op.apply_ne_text _ _ s h).elim
  | factor op x ih =>
    cases op with
    | none => exact ih h
    | some op => exact (op.apply_ne_text _ s h).elim
  | number word => cases h
  | boolean b location => cases h
  | parentheses x ih => exact ih h
  | conditional condition yes no _ ihy ihn =>
    rw [uses_conditional]
    rw [value] at h
    split at h
    · obtain ⟨use, huse, htext⟩ := ihy h
      exact ⟨use, List.mem_append_left _ (List.mem_append_right _ huse), htext⟩
    · obtain ⟨use, huse, htext⟩ := ihn h
      exact ⟨use, List.mem_append_right _ huse, htext⟩
  | name word => exact ⟨word.text, List.mem_singleton_self _, h⟩

namespace Definitions

variable {definitions : Definitions} {table memo : Table} {name term use : String}
  {asked : List String} {s : String}

/-- The formula of some term mentions the name. -/
def Mentions (definitions : Definitions) (name : String) : Prop :=
  ∃ (term : String) (body : Expression), definitions[term]? = some body ∧ name ∈ body.uses

/-- The texts that there are without evaluation: those in the table, and the names without entry and
formula, as far as they are asked for or mentioned. -/
inductive TextOrigin (definitions : Definitions) (table : Table) (asked : List String) (s : String) : Prop
  | entry {term : String} (h : table[term]? = some (.text s))
  | free (missing : s ∉ table) (undefined : s ∉ definitions)
      (named : s ∈ asked ∨ definitions.Mentions s)

lemma TextOrigin.mono {others : List String} (h : definitions.TextOrigin table asked s)
    (hasked : asked ⊆ others) : definitions.TextOrigin table others s := by
  cases h with
  | entry h => exact .entry h
  | free missing undefined named => exact .free missing undefined (named.imp_left fun hs => hasked hs)

/-- A name that a formula mentions need not be asked for. -/
lemma TextOrigin.of_use (h : definitions.TextOrigin table [use] s) (huse : definitions.Mentions use)
    (asked : List String) : definitions.TextOrigin table asked s := by
  cases h with
  | entry h => exact .entry h
  | free missing undefined named =>
    refine .free missing undefined (.inr ?_)
    rcases named with hs | hs
    · rwa [List.mem_singleton.mp hs]
    · exact hs

/-- A text that a name means is in the table, or a name that stands for nothing else. -/
theorem Denotes.textOrigin {value : Value} (h : definitions.Denotes table name value)
    (htext : value = .text s) : definitions.TextOrigin table [name] s := by
  induction h with
  | known entry => exact .entry (htext ▸ entry)
  | computed ρ missing defined uses ih =>
    obtain ⟨use, huse, hvalue⟩ := Formula.exists_use_of_value_eq_text htext
    exact (ih use huse hvalue).of_use ⟨_, _, defined, huse⟩ _
  | free missing undefined =>
    obtain rfl := Value.text.inj htext
    exact .free missing undefined (.inl (List.mem_singleton_self _))

/-- The texts of a table that runs have filled. -/
lemma Memo.textOrigin (h : definitions.Memo table [] memo) (hentry : memo[term]? = some (.text s)) :
    definitions.TextOrigin table [] s := by
  by_cases hterm : term ∈ table
  · obtain ⟨known, hknown⟩ := exists_getElem?_of_mem hterm
    obtain rfl := Option.some.inj ((h.kept term known hknown).symm.trans hentry)
    exact .entry hknown
  · have hdefined := h.mem_definitions (mem_of_getElem?_eq_some hentry) hterm
    cases (h.denotes hentry).textOrigin rfl with
    | entry h => exact .entry h
    | free missing undefined named =>
      refine .free missing undefined (.inr (named.resolve_left fun hs => ?_))
      obtain rfl := List.mem_singleton.mp hs
      exact undefined hdefined

end Definitions

section Sessions

variable (d : Document) (table : Table)

lemma Document.memo_evaluateAll (names : List String) :
    d.definitionOf.Memo table [] (d.evaluateAll names table).2 :=
  (askInTurn_of_invariant (fun name _ => evaluate_of_memo name) names (.initial _ table)).2

lemma Scope.memo_resolveAll (definitions : Definitions) (names : List String) :
    definitions.Memo table [] ((ofTable definitions table).resolveAll names).2.table :=
  (askInTurn_of_invariant (fun name _ => resolve_of_idle name) names (idle_ofTable definitions table)).2.memo

/-- A text that a name evaluates to is a text of the table, or a name that has neither an entry nor a
formula: the name itself or one that a formula mentions. The answers of a session are such texts, and the
table that it leaves holds no others, after failed requests as well. -/
theorem texts_come_from_outside :
    (∀ name s, (d.evaluate name table).1 = .ok (.text s) → d.definitionOf.TextOrigin table [name] s) ∧
    ∀ names : List String,
      (∀ s, .ok (.text s) ∈ (d.evaluateAll names table).1 → d.definitionOf.TextOrigin table names s) ∧
      (∀ (term : String) s, (d.evaluateAll names table).2[term]? = some (.text s) →
        d.definitionOf.TextOrigin table [] s) ∧
      ∀ (term : String) s,
        ((Scope.ofTable d.definitionOf table).resolveAll names).2.table[term]? = some (.text s) →
          d.definitionOf.TextOrigin table [] s := by
  have hanswer (name s : String) (h : (d.evaluate name table).1 = .ok (.text s)) :
      d.definitionOf.TextOrigin table [name] s := by
    rw [Document.evaluate, Definitions.resolve_fst_eq_recompute, Definitions.recompute_eq_ok_iff] at h
    exact h.textOrigin rfl
  refine ⟨hanswer, fun names => ⟨fun s hs => ?_, fun term s => ?_, fun term s => ?_⟩⟩
  · rw [d.fst_evaluateAll, List.mem_map] at hs
    obtain ⟨name, hname, hvalue⟩ := hs
    exact (hanswer name s hvalue).mono (List.cons_subset.mpr ⟨hname, List.nil_subset names⟩)
  · exact (d.memo_evaluateAll table names).textOrigin
  · exact (Scope.memo_resolveAll table d.definitionOf names).textOrigin

end Sessions

end Tariff
