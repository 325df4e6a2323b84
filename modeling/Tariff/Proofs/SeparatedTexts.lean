import Tariff.Proofs.LexicalErrors
import Tariff.Proofs.Relocation

/-!
# Texts with blanks between them

The place where a text starts only moves what the lexer says about it: lines are counted on, and on the
first line columns are (`Location.shift`, `tokenizeFrom_shift`). With blanks between them two texts are
therefore cut up as they are alone (`tokenize_separated`).
-/

namespace Tariff

/-- Where a place of a text stands when the text starts at `base`. -/
def Location.shift (base l : Location) : Location :=
  ⟨base.line + (l.line - 1), if l.line = 1 then base.column + l.column else l.column⟩

def LexError.relocated (f : Location → Location) (e : LexError) : LexError :=
  ⟨f e.location, e.snippet⟩

namespace Location

variable {base l : Location}

@[simp] lemma shift_start (base : Location) : base.shift start = base := rfl

lemma line_le_next (l : Location) (c : Char) : l.line ≤ (l.next c).line := by
  unfold next
  split
  · exact Nat.le_succ _
  · exact Nat.le_refl _

lemma line_le_advance (l : Location) (s : List Char) : l.line ≤ (l.advance s).line := by
  induction s generalizing l with
  | nil => exact Nat.le_refl _
  | cons c s ih => exact (line_le_next l c).trans (ih _)

lemma next_shift (hl : 0 < l.line) (c : Char) : (base.shift l).next c = base.shift (l.next c) := by
  by_cases hc : c = '\n'
  · have hline : base.line + (l.line - 1) + 1 = base.line + (l.line + 1 - 1) := by omega
    have hfirst : l.line + 1 ≠ 1 := by omega
    simp only [next, shift, hc, if_true, hline, if_neg hfirst]
  · simp only [next, shift, hc, if_false, mk.injEq, true_and]
    split <;> omega

/-- Moving along a text is the same wherever the text starts. -/
lemma advance_shift (hl : 0 < l.line) (s : List Char) :
    (base.shift l).advance s = base.shift (l.advance s) := by
  induction s generalizing l with
  | nil => rfl
  | cons c s ih => rw [advance_cons, advance_cons, next_shift hl, ih (hl.trans_le (line_le_next l c))]

end Location

lemma LexemeClass.tokens_relocated (f : Location → Location) (kind : LexemeClass) (lexeme : List Char)
    (l : Location) : kind.tokens lexeme (f l) = (kind.tokens lexeme l).map (Token.relocated f) := by
  cases kind <;> rfl

lemma tokenizeFrom_shift_ok (base : Location) {l : Location} {s : List Char} {tokens : List Token}
    (hl : 0 < l.line) (h : tokenizeFrom l s = .ok tokens) :
    tokenizeFrom (base.shift l) s = .ok (tokens.map (Token.relocated base.shift)) := by
  refine tokenizeFrom_induction (motive := fun l s tokens => 0 < l.line →
    tokenizeFrom (base.shift l) s = .ok (tokens.map (Token.relocated base.shift))) ?_ ?_ h hl
  · intro l _
    rw [tokenizeFrom, if_pos rfl, List.map_nil]
  · intro l kind lexeme rest tokens hkind hcut ih hl
    have hrest := ih (hl.trans_le (l.line_le_advance lexeme))
    rw [tokenizeFrom_lexeme _ rest hkind hcut fun k hk => hk, Location.advance_shift hl, hrest,
      LexemeClass.tokens_relocated, List.map_append]
    rfl

lemma tokenizeFrom_shift_error (base : Location) {l : Location} {s : List Char} {e : LexError}
    (hl : 0 < l.line) (h : tokenizeFrom l s = .error e) :
    tokenizeFrom (base.shift l) s = .error (e.relocated base.shift) := by
  refine tokenizeFrom_error_induction (motive := fun l s e => 0 < l.line →
    tokenizeFrom (base.shift l) s = .error (e.relocated base.shift)) ?_ ?_ h hl
  · intro l c rest hnone _
    exact tokenizeFrom_of_outside (LexemeClass.at?_eq_none_iff.mp hnone) _ rest
  · intro l kind lexeme rest e hkind hcut ih hl
    have hrest := ih (hl.trans_le (l.line_le_advance lexeme))
    rw [tokenizeFrom_lexeme _ rest hkind hcut fun k hk => hk, Location.advance_shift hl, hrest]
    rfl

/-- Where a text starts changes nothing but the places. -/
theorem tokenizeFrom_shift (base : Location) (s : List Char) : tokenizeFrom base s =
    ((tokenizeFrom .start s).map (·.map (Token.relocated base.shift))).mapError
      (LexError.relocated base.shift) := by
  have hstart : 0 < Location.start.line := Nat.one_pos
  have hbase := base.shift_start
  cases hrun : tokenizeFrom .start s with
  | ok tokens =>
    have hmoved := tokenizeFrom_shift_ok base hstart hrun
    rwa [hbase] at hmoved
  | error e =>
    have hmoved := tokenizeFrom_shift_error base hstart hrun
    rwa [hbase] at hmoved

/-- A text that cannot be read stays so when it is continued behind a blank. -/
theorem tokenizeFrom_continued_error {l : Location} {s : List Char} {e : LexError} {c : Char}
    (h : tokenizeFrom l s = .error e) (hc : Text.isBlank c = true) (more : List Char) :
    ∃ e', tokenizeFrom l (s ++ c :: more) = .error e' ∧ e'.location = e.location := by
  refine tokenizeFrom_error_induction (motive := fun l s e =>
    ∃ e', tokenizeFrom l (s ++ c :: more) = .error e' ∧ e'.location = e.location) ?_ ?_ h
  · intro l d rest hnone
    exact ⟨_, tokenizeFrom_of_outside (LexemeClass.at?_eq_none_iff.mp hnone) l _, rfl⟩
  · rintro l kind lexeme rest e hkind hcut ⟨e', hrest, hplace⟩
    have hlexeme := tokenizeFrom_lexeme l (rest ++ c :: more) hkind hcut
      fun k hk => hk.continued hc more
    rw [List.append_assoc, hlexeme, hrest]
    exact ⟨e', rfl, hplace⟩

theorem tokenizeFrom_separated {l : Location} {s gap : List Char} {tokens : List Token}
    (h : tokenizeFrom l s = .ok tokens) (hne : gap ≠ []) (hgap : ∀ c ∈ gap, Text.isBlank c = true)
    (t : List Char) : tokenizeFrom l (s ++ gap ++ t) =
      (tokenizeFrom (l.advance (s ++ gap)) t).map (tokens ++ ·) := by
  cases gap with
  | nil => exact (hne rfl).elim
  | cons c gap =>
    obtain ⟨hc, hgap⟩ := List.forall_mem_cons.mp hgap
    rw [List.append_assoc, List.cons_append, tokenizeFrom_continued h hc,
      tokenizeFrom_append_blanks hgap, ← Location.advance_append, List.append_assoc,
      List.singleton_append]

/-- Texts with blanks between them are cut up as they are alone. If the first one can be read, its tokens
come first. Those of the second one follow, moved to where it starts: lines are counted on from there, and
on its first line columns are. If the second one cannot be read, neither can the whole, with the same
snippet and the place moved alike. If the first one cannot be read, the whole cannot at the same place. -/
theorem tokenize_separated {gap : String} (hne : gap ≠ "")
    (hgap : ∀ c ∈ gap.toList, Text.isBlank c = true) (first second : String) :
    (∀ tokens, tokenize first = .ok tokens →
      (∀ last, tokenize second = .ok last → tokenize (first ++ gap ++ second) =
        .ok (tokens ++ last.map
          (Token.relocated (Location.behind (first ++ gap).toList).shift))) ∧
      ∀ e, tokenize second = .error e → tokenize (first ++ gap ++ second) =
        .error ⟨(Location.behind (first ++ gap).toList).shift e.location, e.snippet⟩) ∧
    ∀ e, tokenize first = .error e →
      ∃ e', tokenize (first ++ gap ++ second) = .error e' ∧ e'.location = e.location := by
  have hcharacters : gap.toList ≠ [] := fun h => hne (String.toList_eq_nil_iff.mp h)
  have htext : (first ++ gap ++ second).toList = first.toList ++ gap.toList ++ second.toList := by
    rw [String.toList_append, String.toList_append]
  refine ⟨fun tokens htokens => ?_, fun e he => ?_⟩
  · have hbase : Location.start.advance (first.toList ++ gap.toList) =
        .behind (first ++ gap).toList := by
      rw [Location.advance_start, String.toList_append]
    have hwhole : tokenize (first ++ gap ++ second) = (tokenizeFrom
        (.behind (first ++ gap).toList) second.toList).map (tokens ++ ·) := by
      rw [tokenize, htext, tokenizeFrom_separated htokens hcharacters hgap, hbase]
    rw [hwhole, tokenizeFrom_shift]
    refine ⟨fun last hlast => ?_, fun e he => ?_⟩
    · rw [show tokenizeFrom .start second.toList = .ok last from hlast]
      rfl
    · rw [show tokenizeFrom .start second.toList = .error e from he]
      rfl
  · cases hchars : gap.toList with
    | nil => exact (hcharacters hchars).elim
    | cons c rest =>
      have hc : Text.isBlank c = true := hgap c (by rw [hchars]; exact List.mem_cons_self)
      rw [tokenize, htext, hchars, List.append_assoc]
      exact tokenizeFrom_continued_error he hc (rest ++ second.toList)

/-- A line break and a blank between two texts. On the first line of the second one columns are moved. -/
theorem tokenize_separated_by_line_break :
    ("\n " ≠ "" ∧ ∀ c ∈ "\n ".toList, Text.isBlank c = true) ∧
      tokenize ("a<=b" ++ "\n " ++ "c\nd") = .ok [⟨.identifier, "a", ⟨1, 0⟩⟩, ⟨.symbol, "<=", ⟨1, 1⟩⟩,
        ⟨.identifier, "b", ⟨1, 3⟩⟩, ⟨.identifier, "c", ⟨2, 1⟩⟩, ⟨.identifier, "d", ⟨3, 0⟩⟩] := by
  have hgap : ∀ c ∈ "\n ".toList, Text.isBlank c = true := by
    rw [show "\n ".toList = ['\n', ' '] from rfl]
    rw [List.forall_mem_cons, List.forall_mem_singleton]
    decide
  have hfirst : tokenize "a<=b" = .ok [⟨.identifier, "a", ⟨1, 0⟩⟩, ⟨.symbol, "<=", ⟨1, 1⟩⟩,
      ⟨.identifier, "b", ⟨1, 3⟩⟩] := by cbv
  have hsecond : tokenize "c\nd" = .ok [⟨.identifier, "c", ⟨1, 0⟩⟩, ⟨.identifier, "d", ⟨2, 0⟩⟩] := by
    cbv
  refine ⟨⟨by decide, hgap⟩, ?_⟩
  exact ((tokenize_separated (by decide) hgap "a<=b" "c\nd").1 _ hfirst).1 _ hsecond

end Tariff
