import Mathlib.Data.Set.Basic
import Mathlib.Logic.Function.Iterate
import Mathlib.Order.Bounds.Basic
import Tariff.Proofs.FullyDefined

/-!
# The closure as a least set

`Closure.close` takes its entries as a list, which stands for a map in the order in which it happens to
be gone through. Whatever that order is, the result is the least set that is closed under the map and
has the injected names in it, and it is there before there have been more rounds with something new
than there are names in the map (`Closure.close_is_least_in_any_order`).
-/

namespace Tariff

namespace Closure

/-- What is known after some rounds. -/
def knownAfter (references : List (String × List String)) (known : Names) (n : ℕ) : Names :=
  (fun known => known.insertMany (round references known))^[n] known

/-- What is known before the first round: the texts of the injected words. -/
def textsOf (injected : List Terminal) : Names :=
  .ofList (injected.map (·.text))

example (d : Document) : d.fullyDefined = close d.references (textsOf d.injectableTerms) := rfl

/-- A set that has the injected names in it, and each name of the map all of whose references are. -/
structure Closed (entries : Std.ExtTreeMap String (List String)) (injected : List Terminal)
    (names : Set String) : Prop where
  injected : ∀ word ∈ injected, word.text ∈ names
  entry : ∀ (name : String) (uses : List String), entries[name]? = some uses →
    (∀ use ∈ uses, use ∈ names) → name ∈ names

variable {references : List (String × List String)} {known : Names}
  {entries : Std.ExtTreeMap String (List String)} {injected : List Terminal}

lemma knownAfter_zero : knownAfter references known 0 = known := rfl

lemma knownAfter_succ (n : ℕ) : knownAfter references known (n + 1) =
    knownAfter references (known.insertMany (round references known)) n := rfl

/-- Rounds are made as long as they bring something new. Each of them takes at least one name off those
that are not known, so there are no more of them than such names. -/
lemma exists_last_round (references : List (String × List String)) (known : Names) :
    ∃ n ≤ unknown references known, (∀ m < n, round references (knownAfter references known m) ≠ []) ∧
      round references (knownAfter references known n) = [] ∧
      close references known = knownAfter references known n := by
  induction known using close.induct references with
  | case1 known hround =>
    refine ⟨0, Nat.zero_le _, by simp, hround, ?_⟩
    rw [close, if_pos hround, knownAfter_zero]
  | case2 known hround ih =>
    obtain ⟨n, hle, hbusy, hidle, hclose⟩ := ih
    have hlt := unknown_round_lt hround
    refine ⟨n + 1, by omega, fun m hm => ?_, hidle, ?_⟩
    · cases m with
      | zero => exact hround
      | succ m => exact hbusy m (by omega)
    · rw [close, if_neg hround, hclose, knownAfter_succ]

lemma mem_textsOf {name : String} :
    name ∈ textsOf injected ↔ ∃ word ∈ injected, word.text = name := by
  simp [textsOf, Std.ExtTreeSet.mem_ofList]

/-- The closure is closed, and part of every closed set. -/
theorem isLeast_close (horder : references.Perm entries.toList) :
    IsLeast {names | Closed entries injected names}
      {name | name ∈ close references (textsOf injected)} := by
  have hentry (name : String) (uses : List String) :
      (name, uses) ∈ references ↔ entries[name]? = some uses := by
    rw [horder.mem_iff, Std.ExtTreeMap.mem_toList_iff_getElem?_eq_some]
  constructor
  · constructor
    · intro word hword
      exact mem_close_of_known (mem_textsOf.mpr ⟨word, hword, rfl⟩)
    · intro name uses huses hall
      exact mem_close_of_uses ((hentry name uses).mpr huses) hall
  · intro names hclosed
    apply close_induction
    · intro name hname
      obtain ⟨word, hword, rfl⟩ := mem_textsOf.mp hname
      exact hclosed.injected word hword
    · intro name uses hmem hall
      exact hclosed.entry name uses ((hentry name uses).mp hmem) hall

/-- The closure of a map is the least set that is closed under it and has the injected names in it. The
order in which the map is gone through makes no difference to it, and in every order all but the last
of the rounds bring something new, and there are at most as many of these as names in the map. -/
theorem close_is_least_in_any_order (entries : Std.ExtTreeMap String (List String))
    (injected : List Terminal) :
    ∃ result : Names,
      IsLeast {names | Closed entries injected names} {name | name ∈ result} ∧
      ∀ references : List (String × List String), references.Perm entries.toList →
        close references (textsOf injected) = result ∧
        ∃ n ≤ entries.size,
          (∀ m < n, round references (knownAfter references (textsOf injected) m) ≠ []) ∧
          round references (knownAfter references (textsOf injected) n) = [] ∧
          result = knownAfter references (textsOf injected) n := by
  have hleast : IsLeast {names | Closed entries injected names}
      {name | name ∈ close entries.toList (textsOf injected)} :=
    isLeast_close (List.Perm.refl entries.toList)
  refine ⟨_, hleast, fun references horder => ?_⟩
  have hsame : close references (textsOf injected) =
      close entries.toList (textsOf injected) := by
    apply Std.ExtTreeSet.ext_mem
    intro name
    have hset := (isLeast_close horder).unique hleast
    exact Set.ext_iff.mp hset name
  obtain ⟨n, hle, hbusy, hidle, hclose⟩ :=
    exists_last_round references (textsOf injected)
  refine ⟨hsame, n, ?_, hbusy, hidle, hsame.symm.trans hclose⟩
  calc n ≤ unknown references (textsOf injected) := hle
    _ ≤ references.length := List.length_filter_le _ _
    _ = entries.size := by rw [horder.length_eq, Std.ExtTreeMap.length_toList]

end Closure

end Tariff
