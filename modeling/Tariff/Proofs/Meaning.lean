import Mathlib.Logic.Relation
import Tariff.Proofs.FormulaLookups

/-!
# What names mean

Against a table of known values, a name that is not in the table and has a definition refers to
every name in its formula. `Definitions.Denotes` is the meaning of a name along these references:
no name is remembered, and a name on a cycle means nothing.
-/

namespace Tariff

-- Lets `choose!` make a function of values that only some names have.
instance : Nonempty Value := ⟨.boolean true⟩

namespace Definitions

/-- The value of `name` has to be computed, and its formula mentions `use`. -/
def RefersTo (definitions : Definitions) (table : Table) (name use : String) : Prop :=
  name ∉ table ∧ ∃ body, definitions[name]? = some body ∧ use ∈ body.uses

/-- References lead from one name to another. A name reaches itself. -/
def Reaches (definitions : Definitions) (table : Table) : String → String → Prop :=
  Relation.ReflTransGen (definitions.RefersTo table)

/-- References lead from a name back to it. -/
def OnCycle (definitions : Definitions) (table : Table) (name : String) : Prop :=
  Relation.TransGen (definitions.RefersTo table) name name

/-- No cycle is reached from a name. -/
def Acyclic (definitions : Definitions) (table : Table) (name : String) : Prop :=
  ∀ other, definitions.Reaches table name other → ¬definitions.OnCycle table other

/-- The meaning of a name: its entry in the table, else the strict value of its formula where every
name has its meaning, else the text of the name itself. -/
inductive Denotes (definitions : Definitions) (table : Table) : String → Value → Prop
  | known {name : String} {value : Value} (entry : table[name]? = some value) :
      Denotes definitions table name value
  | computed {name : String} {body : Expression} (ρ : String → Value) (missing : name ∉ table)
      (defined : definitions[name]? = some body)
      (uses : ∀ use ∈ body.uses, Denotes definitions table use (ρ use)) :
      Denotes definitions table name (body.value ρ)
  | free {name : String} (missing : name ∉ table) (undefined : name ∉ definitions) :
      Denotes definitions table name (.text name)

section Entries

variable {α : Type} {entries : Std.ExtTreeMap String α} {name other : String} {entry : α}

lemma getElem?_eq_none_of_not_mem (h : name ∉ entries) : entries[name]? = none :=
  Std.ExtTreeMap.getElem?_eq_none h

lemma mem_of_getElem?_eq_some (h : entries[name]? = some entry) : name ∈ entries :=
  Std.ExtTreeMap.mem_iff_isSome_getElem?.mpr (by rw [h]; rfl)

lemma exists_getElem?_of_mem (h : name ∈ entries) : ∃ entry, entries[name]? = some entry :=
  Option.isSome_iff_exists.mp (Std.ExtTreeMap.mem_iff_isSome_getElem?.mp h)

lemma getElem?_insert_name (entries : Std.ExtTreeMap String α) (name other : String) (entry : α) :
    (entries.insert name entry)[other]? = if name = other then some entry else entries[other]? := by
  simp [Std.ExtTreeMap.getElem?_insert]

/-- An insertion replaces no entry of another name. -/
lemma getElem?_insert_of_not_mem {inserted : α} (h : name ∉ entries)
    (hother : entries[other]? = some entry) :
    (entries.insert name inserted)[other]? = some entry := by
  have hne : name ≠ other := by
    rintro rfl
    exact h (mem_of_getElem?_eq_some hother)
  rw [getElem?_insert_name, if_neg hne, hother]

lemma mem_insert_name : other ∈ entries.insert name entry ↔ name = other ∨ other ∈ entries := by
  simp [Std.ExtTreeMap.mem_insert]

/-- Of several entries that are made under one name, the last one stays. -/
theorem getElem?_foldl_insert {β : Type} (xs : List β) (key : β → String) (value : β → α)
    (entries : Std.ExtTreeMap String α) (name : String) :
    (xs.foldl (fun entries x => entries.insert (key x) (value x)) entries)[name]? =
      ((xs.reverse.find? (key · = name)).map value).or entries[name]? := by
  induction xs generalizing entries with
  | nil => rfl
  | cons x xs ih =>
    rw [List.foldl_cons, ih, List.reverse_cons, List.find?_append, getElem?_insert_name]
    cases xs.reverse.find? (key · = name) with
    | some last => rfl
    | none => by_cases hx : key x = name <;> simp [hx]

lemma getElem?_foldl_insert_empty {β : Type} (xs : List β) (key : β → String) (value : β → α)
    (name : String) :
    (xs.foldl (fun entries x => entries.insert (key x) (value x))
      (∅ : Std.ExtTreeMap String α))[name]? = (xs.reverse.find? (key · = name)).map value := by
  rw [getElem?_foldl_insert, Std.ExtTreeMap.getElem?_empty, Option.or_none]

lemma mem_foldl_insert_empty {β : Type} (xs : List β) (key : β → String) (value : β → α)
    (name : String) :
    name ∈ xs.foldl (fun entries x => entries.insert (key x) (value x))
      (∅ : Std.ExtTreeMap String α) ↔ name ∈ xs.map key := by
  rw [Std.ExtTreeMap.mem_iff_isSome_getElem?, getElem?_foldl_insert_empty, Option.isSome_map,
    List.find?_isSome]
  simp

end Entries

variable {definitions : Definitions} {table : Table} {name use other : String} {value : Value}

lemma RefersTo.mem_definitions (h : definitions.RefersTo table name use) : name ∈ definitions := by
  obtain ⟨-, body, hbody, -⟩ := h
  exact mem_of_getElem?_eq_some hbody

lemma refersTo_of_use {body : Expression} (hname : name ∉ table)
    (hbody : definitions[name]? = some body) (huse : use ∈ body.uses) :
    definitions.RefersTo table name use :=
  ⟨hname, body, hbody, huse⟩

lemma RefersTo.mem_uses {body : Expression} (h : definitions.RefersTo table name use)
    (hbody : definitions[name]? = some body) : use ∈ body.uses := by
  obtain ⟨-, body', hbody', huse⟩ := h
  rw [hbody] at hbody'
  obtain rfl := Option.some.inj hbody'
  exact huse

lemma OnCycle.mem_definitions (h : definitions.OnCycle table name) : name ∈ definitions := by
  obtain ⟨use, hstep, -⟩ := Relation.TransGen.head'_iff.mp h
  exact hstep.mem_definitions

lemma OnCycle.not_mem_table (h : definitions.OnCycle table name) : name ∉ table := by
  obtain ⟨use, hstep, -⟩ := Relation.TransGen.head'_iff.mp h
  exact hstep.1

/-- A name that refers to none reaches only itself. -/
lemma Reaches.eq_of_forall_not_refersTo (h : definitions.Reaches table name other)
    (hnone : ∀ use, ¬definitions.RefersTo table name use) : other = name := by
  obtain rfl | ⟨use, hstep, -⟩ := Relation.ReflTransGen.cases_head h
  · rfl
  · exact (hnone use hstep).elim

lemma not_refersTo_of_mem_table (h : name ∈ table) (use : String) :
    ¬definitions.RefersTo table name use :=
  fun hstep => hstep.1 h

lemma not_refersTo_of_not_mem_definitions (h : name ∉ definitions) (use : String) :
    ¬definitions.RefersTo table name use :=
  fun hstep => h hstep.mem_definitions

lemma acyclic_of_forall_not_refersTo (hnone : ∀ use, ¬definitions.RefersTo table name use) :
    definitions.Acyclic table name := by
  intro other hreach hcycle
  obtain rfl := hreach.eq_of_forall_not_refersTo hnone
  obtain ⟨use, hstep, -⟩ := Relation.TransGen.head'_iff.mp hcycle
  exact hnone use hstep

/-- A name whose references reach no cycle reaches none. -/
lemma acyclic_of_forall_use
    (h : ∀ use, definitions.RefersTo table name use → definitions.Acyclic table use) :
    definitions.Acyclic table name := by
  intro other hreach hcycle
  obtain rfl | ⟨use, hstep, hrest⟩ := Relation.ReflTransGen.cases_head hreach
  · obtain ⟨use, hstep, hback⟩ := Relation.TransGen.head'_iff.mp hcycle
    exact h use hstep name hback hcycle
  · exact h use hstep other hrest hcycle

/-! ### Meanings -/

/-- A name has at most one meaning. -/
theorem Denotes.unique {value' : Value} (h : definitions.Denotes table name value)
    (h' : definitions.Denotes table name value') : value = value' := by
  induction h generalizing value' with
  | known entry =>
    cases h' with
    | known entry' => exact Option.some.inj (entry.symm.trans entry')
    | computed _ missing => exact (missing (mem_of_getElem?_eq_some entry)).elim
    | free missing => exact (missing (mem_of_getElem?_eq_some entry)).elim
  | @computed _ body ρ missing defined _ ih =>
    cases h' with
    | known entry => exact (missing (mem_of_getElem?_eq_some entry)).elim
    | @computed _ body' ρ' _ defined' uses' =>
      obtain rfl := Option.some.inj (defined.symm.trans defined')
      have hmap : body.uses.map ρ = body.uses.map ρ' :=
        List.map_congr_left fun use huse => ih use huse (uses' use huse)
      rw [← Formula.combine_map ρ, hmap, Formula.combine_map ρ']
    | free _ undefined => exact (undefined (mem_of_getElem?_eq_some defined)).elim
  | free missing undefined =>
    cases h' with
    | known entry => exact (missing (mem_of_getElem?_eq_some entry)).elim
    | computed _ _ defined => exact (undefined (mem_of_getElem?_eq_some defined)).elim
    | free => rfl

/-- A name with a meaning reaches no cycle. -/
theorem Denotes.acyclic (h : definitions.Denotes table name value) :
    definitions.Acyclic table name := by
  induction h with
  | known entry =>
    exact acyclic_of_forall_not_refersTo (not_refersTo_of_mem_table (mem_of_getElem?_eq_some entry))
  | computed ρ missing defined uses ih =>
    exact acyclic_of_forall_use fun use hstep => ih use (hstep.mem_uses defined)
  | free missing undefined =>
    exact acyclic_of_forall_not_refersTo (not_refersTo_of_not_mem_definitions undefined)

end Definitions

namespace Definitions

/-- The formula of a name is the one of its last definition. -/
theorem getElem?_ofList (ds : List Definition) (name : String) :
    (ofList ds)[name]? = (ds.reverse.find? (·.name.text = name)).map (·.body) :=
  getElem?_foldl_insert_empty ds (·.name.text) (·.body) name

/-- The names with a formula are the names of the definitions. -/
theorem mem_ofList {ds : List Definition} {name : String} :
    name ∈ ofList ds ↔ name ∈ ds.map (·.name.text) :=
  mem_foldl_insert_empty ds (·.name.text) (·.body) name

end Definitions

/-- The names with a formula are the declared ones. -/
theorem Document.mem_definitionOf {d : Document} {name : String} :
    name ∈ d.definitionOf ↔ name ∈ d.declaredTerms.map (·.text) := by
  rw [definitionOf, Definitions.mem_ofList, declaredTerms, List.map_map]
  rfl

end Tariff
