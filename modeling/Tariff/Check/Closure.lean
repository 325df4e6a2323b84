import Std.Data.ExtTreeSet

/-!
# Names that bottom out

Starting from names that are known from outside, a name becomes known once everything that its
entry refers to is known. `Closure.close` repeats rounds until one brings nothing new.
-/

namespace Tariff

abbrev Names := Std.ExtTreeSet String

namespace Closure

/-- The names that one round adds: not known yet, with known references only. -/
def round (references : List (String × List String)) (known : Names) : List String :=
  (references.filter fun (name, uses) => !known.contains name && uses.all known.contains).map (·.1)

def unknown (references : List (String × List String)) (known : Names) : Nat :=
  (references.filter fun (name, _) => !known.contains name).length

theorem unknown_round_lt {references : List (String × List String)} {known : Names}
    (h : round references known ≠ []) :
    unknown references (known.insertMany (round references known)) < unknown references known := by
  have hsub : (references.filter fun (name, _) =>
      !(known.insertMany (round references known)).contains name) =
      (references.filter fun (name, _) => !known.contains name).filter fun (name, _) =>
        !(known.insertMany (round references known)).contains name := by
    simp only [List.filter_filter]
    apply List.filter_congr
    simp +contextual
  obtain ⟨name, hname⟩ := List.exists_mem_of_ne_nil _ h
  obtain ⟨⟨key, uses⟩, hmem, rfl⟩ := List.mem_map.mp hname
  rw [List.mem_filter] at hmem
  rw [unknown, unknown, hsub, List.length_filter_lt_length_iff_exists]
  refine ⟨(key, uses), List.mem_filter.mpr ⟨hmem.1, ?_⟩, ?_⟩
  · have := hmem.2
    simp only [Bool.and_eq_true] at this
    exact this.1
  · simp [hname]

/-- The known names and all that follow from them. -/
def close (references : List (String × List String)) (known : Names) : Names :=
  if round references known = [] then known
  else close references (known.insertMany (round references known))
termination_by unknown references known
decreasing_by exact unknown_round_lt ‹_›

end Closure

end Tariff
