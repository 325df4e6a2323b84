import Tariff.Proofs.Continuation
import Tariff.Proofs.NumberReading
import Tariff.Proofs.SourcePlaces
import Tariff.Proofs.VisitedNames

/-!
# Names that stand for nothing

A name with neither an entry nor a formula has itself as its value. In arithmetic that is no number, and so
is every sum and every product with the name or its negative among the operands. Only the words for
infinity are read as numbers (`Scope.evaluate_unresolved`).
-/

namespace Tariff

section Arithmetic

open Float.Model

variable (x : Float)

@[simp] lemma notANumber_add : notANumber + x = notANumber := rfl

@[simp] lemma notANumber_sub : notANumber - x = notANumber := rfl

@[simp] lemma notANumber_mul : notANumber * x = notANumber := rfl

@[simp] lemma notANumber_div : notANumber / x = notANumber := rfl

@[simp] lemma add_notANumber : x + notANumber = notANumber := by
  change Float.ofModel (.pack (UnpackedFloat.add _ x.toModel.unpack .notANumber)) = notANumber
  cases x.toModel.unpack <;> rfl

@[simp] lemma sub_notANumber : x - notANumber = notANumber := by
  change Float.ofModel (.pack (UnpackedFloat.sub _ x.toModel.unpack .notANumber)) = notANumber
  cases x.toModel.unpack <;> rfl

@[simp] lemma mul_notANumber : x * notANumber = notANumber := by
  change Float.ofModel (.pack (UnpackedFloat.mul _ x.toModel.unpack .notANumber)) = notANumber
  cases x.toModel.unpack <;> rfl

@[simp] lemma div_notANumber : x / notANumber = notANumber := by
  change Float.ofModel (.pack (UnpackedFloat.div _ x.toModel.unpack .notANumber)) = notANumber
  cases x.toModel.unpack <;> rfl

end Arithmetic

/-- Arithmetic on no number comes to no number. -/
lemma Connective.apply_of_notANumber {c : Chain} (hc : c ≠ .logic) (op : Connective c) {v w : Value}
    (h : v.toNumber = notANumber ∨ w.toNumber = notANumber) : op.apply v w = .number notANumber := by
  cases op with
  | and => exact (hc rfl).elim
  | or => exact (hc rfl).elim
  | add => rcases h with h | h <;> simp [apply, h]
  | subtract => rcases h with h | h <;> simp [apply, h]
  | multiply => rcases h with h | h <;> simp [apply, h]
  | divide => rcases h with h | h <;> simp [apply, h]

lemma Text.dropWhile_isBlank_eq_self {s : List Char} (h : ∀ c ∈ s, isBlank c = false) :
    s.dropWhile isBlank = s := by
  cases s with
  | nil => rfl
  | cons c s => exact List.dropWhile_cons_of_neg (by simp [h c List.mem_cons_self])

lemma Text.trimBlanks_eq_self {s : List Char} (h : ∀ c ∈ s, isBlank c = false) : trimBlanks s = s := by
  have hback : ∀ c ∈ s.reverse, isBlank c = false := fun c hc => h c (List.mem_reverse.mp hc)
  rw [trimBlanks, dropWhile_isBlank_eq_self h, dropWhile_isBlank_eq_self hback, List.reverse_reverse]

/-- What a name counts for that stands for itself. -/
theorem Value.toNumber_text_of_isIdentifier {x : String} (h : isIdentifier x.toList = true) :
    (text x).toNumber = if IsInfinityWord x.toList then infinity else notANumber := by
  have hword := readNumber?_of_isIdentifier h
  have hspells : TokenKind.identifier.Spells x.toList := TokenKind.spells_of_lexical (w := .identifier x) h
  rw [toNumber, Text.trimBlanks_eq_self hspells.isBlank_eq_false]
  generalize x.toList = s at h hword
  cases s with
  | nil => cases h
  | cons c s => exact hword

namespace Formula

variable {c : Chain} {ρ : String → Value}

/-- The operands of a chain in source order. -/
def operands (f : Formula (.chain c)) : List (Formula c.operand) :=
  f.first :: f.links.map (·.2)

lemma operands_operand (x : Formula c.operand) : (operand x).operands = [x] := by
  rw [operands, first_operand, links_operand, List.map_nil]

lemma operands_link (left : Formula (.chain c)) (op : Connective c) (right : Formula c.operand) :
    (link left op right).operands = left.operands ++ [right] := by
  rw [operands, operands, first_link, links_link, List.map_append, List.cons_append, List.map_singleton]

/-- The names in an operand are names in the chain. -/
lemma uses_subset_of_mem_operands {x : Formula c.operand} :
    (f : Formula (.chain c)) → x ∈ f.operands → x.uses ⊆ f.uses
  | .operand y, h => by
    rw [operands_operand, List.mem_singleton] at h
    rw [h, uses_operand]
    exact List.Subset.refl _
  | .link left op right, h => by
    rw [operands_link, List.mem_append, List.mem_singleton] at h
    rw [uses_link]
    rcases h with h | rfl
    · exact List.subset_append_of_subset_left _ (uses_subset_of_mem_operands left h)
    · exact List.subset_append_right _ _

/-- A sum or a product counts for no number as soon as one of its operands does. With an operator in it,
the value is itself no number. -/
lemma value_of_mem_operands (hc : c ≠ .logic) {x : Formula c.operand}
    (hx : (x.value ρ).toNumber = notANumber) :
    (f : Formula (.chain c)) → x ∈ f.operands →
      (f.value ρ).toNumber = notANumber ∧ (f.links ≠ [] → f.value ρ = .number notANumber)
  | .operand y, h => by
    rw [operands_operand, List.mem_singleton] at h
    subst h
    exact ⟨hx, fun hlinks => (hlinks (links_operand x)).elim⟩
  | .link left op right, h => by
    rw [operands_link, List.mem_append, List.mem_singleton] at h
    have hparts : (left.value ρ).toNumber = notANumber ∨ (right.value ρ).toNumber = notANumber := by
      rcases h with h | rfl
      · exact .inl (value_of_mem_operands hc hx left h).1
      · exact .inr hx
    have hvalue : (link left op right).value ρ = .number notANumber :=
      op.apply_of_notANumber hc hparts
    exact ⟨congrArg Value.toNumber hvalue, fun _ => hvalue⟩

/-- A factor where an operand of some chain is needed. -/
def ofFactor (x : Formula .factor) : (c : Chain) → Formula c.operand
  | .logic => .plain (.operand (.operand x))
  | .sum => .operand x
  | .product => x

lemma value_ofFactor (x : Formula .factor) (c : Chain) : (x.ofFactor c).value ρ = x.value ρ := by
  cases c <;> rfl

lemma uses_ofFactor (x : Formula .factor) (c : Chain) : (x.ofFactor c).uses = x.uses := by
  cases c <;> rfl

end Formula

namespace Scope

/-- A formula that evaluates has the value that it has where each name has its meaning. -/
lemma exists_value_of_evaluate {l : Level} {scope : Scope} {f : Formula l} {v : Value}
    (h : (scope.evaluate f).1 = .ok v) : ∃ ρ : String → Value,
      (∀ use ∈ f.uses, scope.definitions.Denotes scope.table use (ρ use)) ∧ v = f.value ρ := by
  have huses := Definitions.LeavesSound.mapM
    (fun name _ hmemo => Definitions.resolve_leavesSound hmemo scope.resolving name) f.uses
    (Definitions.Sound.refl scope.definitions scope.table)
  rw [evaluate, leave, Formula.evalM_eq_mapM] at h
  rcases hrun : f.uses.mapM (scope.definitions.resolve scope.resolving) scope.table with ⟨e | values, last⟩
  · rw [Attempt.bind_of_error hrun] at h
    cases h
  · rw [Attempt.bind_of_ok hrun] at h
    rw [hrun] at huses
    obtain ⟨ρ, hρ, hvalue⟩ := Definitions.exists_value_of_forall₂_denotes (huses.result values rfl)
    cases h
    exact ⟨ρ, hρ, hvalue⟩

variable {scope : Scope} {x : String}

/-- A name with neither an entry nor a formula evaluates to itself. -/
lemma evaluate_name_of_free (missing : x ∉ scope.table) (undefined : x ∉ scope.definitions)
    (place : Location) : scope.evaluate (.name ⟨x, place⟩) = (.ok (.text x), scope) := by
  rw [evaluate, Formula.evalM, Definitions.resolve_of_free missing undefined]
  rfl

lemma evaluate_negated_of_free (missing : x ∉ scope.table) (undefined : x ∉ scope.definitions)
    (place : Location) : scope.evaluate (.factor (some .negate) (.name ⟨x, place⟩)) =
      (.ok (.number (-(Value.text x).toNumber)), scope) := by
  have hlookup : scope.definitions.resolve scope.resolving x scope.table =
      (.ok (.text x), scope.table) := Definitions.resolve_of_free missing undefined
  rw [evaluate, Formula.evalM, Formula.evalM, Attempt.bind_of_ok hlookup]
  rfl

/-- A name with neither an entry nor a formula evaluates to itself. In arithmetic that is no number, unless
it is a word for infinity, and its negative is no number either. Then every sum and every product with an
operator in it that has the name or its negative among its operands comes to no number if it evaluates at
all, whatever its other operands are. -/
theorem evaluate_unresolved (scope : Scope) {x : String} (hname : isIdentifier x.toList = true)
    (missing : x ∉ scope.table) (undefined : x ∉ scope.definitions) :
    (∀ place, scope.evaluate (.name ⟨x, place⟩) = (.ok (.text x), scope)) ∧
    (Value.text x).toNumber = (if IsInfinityWord x.toList then infinity else notANumber) ∧
    (∀ place, scope.evaluate (.factor (some .negate) (.name ⟨x, place⟩)) =
      (.ok (.number (if IsInfinityWord x.toList then -infinity else notANumber)), scope)) ∧
    (¬IsInfinityWord x.toList → ∀ c ≠ .logic, ∀ f : Formula (.chain c), f.links ≠ [] →
      ∀ sign ≠ some .not, ∀ place, Formula.ofFactor (.factor sign (.name ⟨x, place⟩)) c ∈ f.operands →
        ∀ v, (scope.evaluate f).1 = .ok v → v = .number notANumber) := by
  have hnumber := Value.toNumber_text_of_isIdentifier hname
  refine ⟨evaluate_name_of_free missing undefined, hnumber, fun place => ?_, ?_⟩
  · rw [evaluate_negated_of_free missing undefined, hnumber]
    split <;> rfl
  · intro hword c hc f hlinks sign hsign place hmem v hv
    obtain ⟨ρ, hρ, rfl⟩ := exists_value_of_evaluate hv
    have huse : x ∈ f.uses := Formula.uses_subset_of_mem_operands f hmem (by
      rw [Formula.uses_ofFactor, Formula.uses_factor, Formula.uses_name]
      exact List.mem_singleton_self x)
    have hmeaning : ρ x = .text x := (hρ x huse).unique (.free missing undefined)
    rw [if_neg hword] at hnumber
    have hoperand : ((Formula.factor sign (.name ⟨x, place⟩)).value ρ).toNumber = notANumber := by
      match sign with
      | none => rw [Formula.value, Formula.value, hmeaning, hnumber]
      | some .not => exact (hsign rfl).elim
      | some .negate =>
        rw [Formula.value, Formula.value, hmeaning, Unary.apply, hnumber]
        rfl
    rw [← Formula.value_ofFactor _ c] at hoperand
    exact (Formula.value_of_mem_operands hc hoperand f hmem).2 hlinks

end Scope

/-- The formula `rate + -discount`. -/
def Formula.discountedRate : Formula (.chain .sum) :=
  .link (.operand (ofFactor (.factor none (.name ⟨"rate", .start⟩)) .sum)) .add
    (ofFactor (.factor (some .negate) (.name ⟨"discount", .start⟩)) .sum)

/-- A rate is known and a discount is not, so the rate less the discount is no number. -/
theorem Scope.evaluate_discountedRate : isIdentifier "discount".toList = true ∧ "discount" ∉ rateTable ∧
    "discount" ∉ rateDocument.definitionOf ∧ ¬IsInfinityWord "discount".toList ∧
    ((ofTable rateDocument.definitionOf rateTable).evaluate Formula.discountedRate).1 =
      .ok (.number notANumber) := by
  have hname : isIdentifier "discount".toList = true := by decide
  have missing : "discount" ∉ rateTable := by decide
  have undefined : "discount" ∉ rateDocument.definitionOf := by decide
  have hword : ¬IsInfinityWord "discount".toList := by decide
  have hrate : rateTable["rate"]? = some (.boolean false) := by decide
  have hvisits : Visits ask (ofTable rateDocument.definitionOf rateTable) Formula.discountedRate.uses
      [.boolean false, .text "discount"] (ofTable rateDocument.definitionOf rateTable) := by
    have hknown : ask "rate" (ofTable rateDocument.definitionOf rateTable) =
        (.ok (.boolean false), ofTable rateDocument.definitionOf rateTable) :=
      congrArg (leave _) (Definitions.resolve_of_entry hrate)
    have hunknown : ask "discount" (ofTable rateDocument.definitionOf rateTable) =
        (.ok (.text "discount"), ofTable rateDocument.definitionOf rateTable) :=
      congrArg (leave _) (Definitions.resolve_of_free missing undefined)
    exact .cons hknown (.cons hunknown (.nil _))
  have hrun := hvisits.evalM
  rw [evalM_ask] at hrun
  have hlinks : Formula.discountedRate.links ≠ [] := by simp [Formula.discountedRate]
  have hoperand : Formula.ofFactor (.factor (some .negate) (.name ⟨"discount", .start⟩)) .sum ∈
      Formula.discountedRate.operands := by
    rw [Formula.discountedRate, Formula.operands_link]
    exact List.mem_append_right _ (List.mem_singleton_self _)
  have hpoisoned := (evaluate_unresolved (ofTable rateDocument.definitionOf rateTable) hname missing
    undefined).2.2.2 hword .sum (by decide) Formula.discountedRate hlinks (some .negate) (by decide)
    .start hoperand _ (congrArg Prod.fst hrun)
  exact ⟨hname, missing, undefined, hword, by rw [hrun, hpoisoned]⟩

/-- A formula with a missing value that is called `inf`. -/
def infDocument : Document where
  injectables := []
  definitions := [⟨⟨"a", ⟨1, 0⟩⟩,
    .operand (.plain (.operand (.operand (.factor (some .negate) (.name ⟨"inf", ⟨1, 5⟩⟩)))))⟩]

/-- The negative of a missing value is a number when the value is called `inf`. -/
theorem Scope.evaluate_infDocument : Document.ofSource "a = -inf" = .ok infDocument ∧
    isIdentifier "inf".toList = true ∧ "inf" ∉ (∅ : Table) ∧ "inf" ∉ infDocument.definitionOf ∧
    (infDocument.evaluate "a" ∅).1 = .ok (.number (-infinity)) ∧ -infinity ≠ notANumber := by
  have htokens : tokenize "a = -inf" = .ok [⟨.identifier, "a", ⟨1, 0⟩⟩, ⟨.symbol, "=", ⟨1, 2⟩⟩,
      ⟨.symbol, "-", ⟨1, 4⟩⟩, ⟨.identifier, "inf", ⟨1, 5⟩⟩] := by cbv
  have hname : isIdentifier "inf".toList = true := by decide
  have missing : "inf" ∉ (∅ : Table) := by simp
  have undefined : "inf" ∉ infDocument.definitionOf := by decide
  have hbody : infDocument.definitionOf["a"]? = some (.operand (.plain (.operand (.operand
      (.factor (some .negate) (.name ⟨"inf", ⟨1, 5⟩⟩)))))) := by decide
  have hmeaning : infDocument.definitionOf.Denotes ∅ "a" (.number (-(Value.text "inf").toNumber)) := by
    refine .computed (fun _ => .text "inf") (by simp) hbody fun use huse => ?_
    obtain rfl := List.mem_singleton.mp huse
    exact .free missing undefined
  rw [Value.toNumber_text_of_isIdentifier hname, if_pos (by decide),
    ← Definitions.recompute_eq_ok_iff, ← Definitions.resolve_fst_eq_recompute] at hmeaning
  exact ⟨Document.ofSource_of_ofTokens htokens (by cbv), hname, missing, undefined, hmeaning, by decide⟩

end Tariff
