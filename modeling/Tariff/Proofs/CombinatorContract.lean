import Tariff.Proofs.CursorWalks

/-!
# The contract of the combinators

Whatever parser is built from the combinators over whatever rules, its walks tell the same about where the
cursor stands after each outcome, end with the first fatal error, and do not depend on the tokens before the
start (`Parser.walk_keeps_contract`).
-/

namespace Tariff

variable {Rule : Type} {Tree : Rule → Type} {α β : Type} {grammar : Grammar Tree} {plan : Plan Tree α}
  {w : Walk α}

namespace Walk

variable {c : Cursor} {v : Walk β}

/-- If a parser ends with a fatal error, the walk has this error, and nothing is left but the ends of the
parsers around that one, with this error as well. -/
def StopsAtFatal (w : Walk α) : Prop :=
  ∀ before e after, w.events = before ++ .ends (.fatal e) :: after →
    w.outcome = .fatal e ∧ ∀ event ∈ after, event = .ends (.fatal e)

/-- No parser has ended with a fatal error. -/
def Quiet (events : List WalkEvent) : Prop :=
  ∀ e, .ends (.fatal e) ∉ events

namespace StopsAtFatal

lemma quiet_record (h : w.StopsAtFatal) (hw : ∀ e, w.outcome ≠ .fatal e) (c : Cursor) :
    Quiet (w.record c) := by
  intro e hmem
  have hinner : .ends (.fatal e) ∉ w.events := by
    intro hevent
    obtain ⟨before, after, hsplit⟩ := List.append_of_mem hevent
    exact hw e (h before e after hsplit).1
  rcases List.mem_cons.mp hmem with hstart | hmem
  · cases hstart
  rcases List.mem_append.mp hmem with hevent | hlast
  · exact hinner hevent
  · exact hw e (Outcome.map_eq_fatal.mp (WalkEvent.ends.inj (List.mem_singleton.mp hlast)).symm)

lemma map (f : α → β) (h : w.StopsAtFatal) : StopsAtFatal ⟨w.outcome.map f, w.cursor, w.events⟩ := by
  intro before e after hsplit
  obtain ⟨houtcome, hafter⟩ := h before e after hsplit
  exact ⟨Outcome.map_eq_fatal.mpr houtcome, hafter⟩

/-- A fatal error that is passed on. -/
lemma passed {e : ParseError} (h : w.StopsAtFatal) (hw : w.outcome = .fatal e) (c d : Cursor) :
    StopsAtFatal (⟨.fatal e, d, w.record c⟩ : Walk β) := by
  intro before e' after hsplit
  have hkind : w.outcome.kind = .fatal e := Outcome.map_eq_fatal.mpr hw
  rw [Walk.record, hkind] at hsplit
  cases before with
  | nil => cases hsplit
  | cons event before =>
    have hevents : w.events ++ [.ends (.fatal e)] = before ++ .ends (.fatal e') :: after :=
      (List.cons.inj hsplit).2
    -- The fatal end is the one that was added now, or it is from inside and the added one comes after.
    obtain rfl | ⟨inner, last, rfl⟩ := List.eq_nil_or_concat after
    · have hsame : e = e' := by simpa using (List.append_inj' hevents rfl).2
      exact ⟨by rw [hsame], by simp⟩
    · rw [List.concat_eq_append, ← List.cons_append, ← List.append_assoc] at hevents
      obtain ⟨hinner, hlast⟩ := List.append_inj' hevents rfl
      obtain ⟨houtcome, hafter⟩ := h before e' inner hinner
      obtain rfl := Outcome.fatal.inj (hw.symm.trans houtcome)
      rw [List.singleton_inj] at hlast
      refine ⟨rfl, fun event hevent => ?_⟩
      rw [List.concat_eq_append, List.mem_append, List.mem_singleton, ← hlast] at hevent
      exact hevent.elim (hafter event) id

lemma continued {events : List WalkEvent} (hquiet : Quiet events) (h : v.StopsAtFatal) :
    StopsAtFatal ⟨v.outcome, v.cursor, events ++ v.events⟩ := by
  intro before e after hsplit
  obtain ⟨middle, hbefore, hevents⟩ | ⟨middle, hevents, hafter⟩ := List.append_eq_append_iff.mp hsplit
  · exact h middle e after hevents
  · cases middle with
    | nil => exact h [] e after hafter.symm
    | cons event middle =>
      obtain ⟨rfl, -⟩ := List.cons.inj hafter
      exact (hquiet e (by simp [hevents])).elim

end StopsAtFatal

end Walk

namespace Plan

/-- When a parser that is started fails for good, the plan ends with its error. -/
def PassesFatal : Plan Tree α → Prop
  | .ends _ _ => True
  | .starts _ _ next => (∀ e d, next (.fatal e) d = .ends (.fatal e) d) ∧
      ∀ outcome d, (next outcome d).PassesFatal
  | .rounds _ _ _ => True

lemma passesFatal_plan (grammar : Grammar Tree) (p : Parser Tree α) (c : Cursor) :
    (p.plan grammar c).PassesFatal := by
  cases p with
  | literal text | token kind =>
    dsimp only [Parser.plan, terminalIf]
    split
    · split <;> trivial
    · trivial
  | seq p q =>
    refine ⟨fun _ _ => rfl, ?_⟩
    rintro (a | _ | e) d
    · refine ⟨fun _ _ => rfl, ?_⟩
      rintro (b | _ | e) d' <;> trivial
    · trivial
    · trivial
  | or p q =>
    refine ⟨fun _ _ => rfl, ?_⟩
    rintro (a | _ | e) d
    · trivial
    · exact ⟨fun _ _ => rfl, fun _ _ => trivial⟩
    · trivial
  | many item | optional item | expect description item =>
    refine ⟨fun _ _ => rfl, ?_⟩
    rintro (a | _ | e) d <;> trivial
  | map f source | call rule => exact ⟨fun _ _ => rfl, fun _ _ => trivial⟩

lemma Runs.stopsAtFatal (h : plan.Runs grammar w) (hplan : plan.PassesFatal) : w.StopsAtFatal := by
  induction h with
  | ends outcome c =>
    intro before e after hsplit
    simp at hsplit
  | @starts α β p c next w v first rest ihfirst ihrest =>
    have hfirst := ihfirst (passesFatal_plan grammar p c)
    by_cases hfatal : ∃ e, w.outcome = .fatal e
    · obtain ⟨e, he⟩ := hfatal
      rw [he, hplan.1 e w.cursor] at rest
      obtain rfl := rest.unique (.ends (.fatal e) w.cursor)
      rw [List.append_nil]
      exact hfirst.passed he c w.cursor
    · exact .continued (hfirst.quiet_record (not_exists.mp hfatal) c) (ihrest (hplan.2 _ _))
  | rounds _ ih => exact (ih (passesFatal_plan grammar _ _)).map _

end Plan

theorem Parser.Walks.stopsAtFatal {p : Parser Tree α} {c : Cursor} (h : p.Walks grammar c w) :
    w.StopsAtFatal :=
  Plan.Runs.stopsAtFatal h (Plan.passesFatal_plan grammar p c)

/-! ### Tokens before the start -/

namespace Cursor

/-- The cursor on all tokens, for one on what is left of them without the first `i`. -/
def shifted (tokens : List Token) (i : ℕ) (c : Cursor) : Cursor := ⟨tokens, i + c.position⟩

variable {tokens : List Token} {i : ℕ} {c : Cursor}

lemma rest_shifted (hc : c.tokens = tokens.drop i) : (c.shifted tokens i).rest = c.rest := by
  rw [rest, rest, hc, List.drop_drop, shifted]

lemma peek?_shifted (hc : c.tokens = tokens.drop i) : (c.shifted tokens i).peek? = c.peek? := by
  rw [← head?_rest, ← head?_rest, rest_shifted hc]

lemma advance_shifted (hc : c.tokens = tokens.drop i) :
    (c.shifted tokens i).advance = c.advance.shifted tokens i := by
  have hnext : (c.shifted tokens i).hasNext = c.hasNext := by
    rw [hasNext_eq_isSome_peek?, hasNext_eq_isSome_peek?, peek?_shifted hc]
  rw [advance, advance, hnext]
  split <;> rfl

end Cursor

def WalkEvent.shifted (i : ℕ) : WalkEvent → WalkEvent
  | .starts position => .starts (i + position)
  | .ends kind => .ends kind

/-- The same walk on all tokens. -/
def Walk.shifted (tokens : List Token) (i : ℕ) (w : Walk α) : Walk α :=
  ⟨w.outcome, w.cursor.shifted tokens i, w.events.map (·.shifted i)⟩

lemma Walk.record_shifted (tokens : List Token) (i : ℕ) (w : Walk α) (c : Cursor) :
    (w.shifted tokens i).record (c.shifted tokens i) = (w.record c).map (·.shifted i) := by
  simp [Walk.record, Walk.shifted, WalkEvent.shifted, Cursor.shifted]

namespace Plan

/-- One plan is for the tokens without the first `i`, and the other is the same plan for all of them. -/
inductive Shifts (tokens : List Token) (i : ℕ) : {α : Type} → Plan Tree α → Plan Tree α → Prop
  | ends {α : Type} (outcome : Outcome α) {c : Cursor} (hc : c.tokens = tokens.drop i) :
      Shifts tokens i (.ends outcome c) (.ends outcome (c.shifted tokens i))
  | starts {α β : Type} {p : Parser Tree β} {c : Cursor} {next next' : Outcome β → Cursor → Plan Tree α}
      (hc : c.tokens = tokens.drop i)
      (hnext : ∀ outcome d, d.tokens = tokens.drop i →
        Shifts tokens i (next outcome d) (next' outcome (d.shifted tokens i))) :
      Shifts tokens i (.starts p c next) (.starts p (c.shifted tokens i) next')
  | rounds {α β : Type} (item : Parser Tree β) (f : List β → α) {c : Cursor}
      (hc : c.tokens = tokens.drop i) :
      Shifts tokens i (.rounds item c f) (.rounds item (c.shifted tokens i) f)

variable {tokens : List Token} {i : ℕ} {plan' : Plan Tree α} {c : Cursor}

lemma shifts_terminalIf (test : Token → Bool) (hc : c.tokens = tokens.drop i) :
    Shifts tokens i (terminalIf test c : Plan Tree Terminal) (terminalIf test (c.shifted tokens i)) := by
  have hadvance : c.advance.tokens = tokens.drop i := (Cursor.LeadsTo.advance c).tokens.trans hc
  unfold terminalIf
  rw [Cursor.peek?_shifted hc, Cursor.advance_shifted hc]
  split
  · split
    · exact .ends _ hadvance
    · exact .ends _ hc
  · exact .ends _ hc

lemma shifts_plan (grammar : Grammar Tree) (p : Parser Tree α) (hc : c.tokens = tokens.drop i) :
    Shifts tokens i (p.plan grammar c) (p.plan grammar (c.shifted tokens i)) := by
  cases p with
  | literal text => exact shifts_terminalIf _ hc
  | token kind => exact shifts_terminalIf _ hc
  | seq p q =>
    refine .starts hc ?_
    rintro (a | _ | e) d hd
    · refine .starts hd ?_
      rintro (b | _ | e) d' hd'
      · exact .ends _ hd'
      · exact .ends (c := d'.restore c.position) _ hd'
      · exact .ends _ hd'
    · exact .ends (c := d.restore c.position) _ hd
    · exact .ends _ hd
  | or p q =>
    refine .starts hc ?_
    rintro (a | _ | e) d hd
    · exact .ends _ hd
    · exact .starts (c := d.restore c.position) hd fun _ _ => .ends _
    · exact .ends _ hd
  | many item =>
    refine .starts hc ?_
    rintro (a | _ | e) d hd
    · exact .rounds _ _ hd
    · exact .ends (c := d.restore c.position) _ hd
    · exact .ends _ hd
  | optional item =>
    refine .starts hc ?_
    rintro (a | _ | e) d hd
    · exact .ends _ hd
    · exact .ends (c := d.restore c.position) _ hd
    · exact .ends _ hd
  | map f source => exact .starts hc fun _ _ => .ends _
  | expect description inner =>
    refine .starts hc ?_
    rintro (a | _ | e) d hd
    · exact .ends _ hd
    · dsimp only
      rw [Cursor.peek?_shifted hd]
      exact .ends _ hd
    · exact .ends _ hd
  | call rule => exact .starts hc fun _ _ => .ends _

namespace Runs

/-- What is carried out without the first tokens is carried out in the same way behind them. -/
theorem shifted (h : plan.Runs grammar w) (hplan : Shifts tokens i plan plan') :
    plan'.Runs grammar (w.shifted tokens i) ∧ w.cursor.tokens = tokens.drop i := by
  induction h with
  | ends outcome c =>
    cases hplan with
    | ends _ hc => exact ⟨.ends outcome _, hc⟩
  | @starts α β p c next w v _ _ ihfirst ihrest =>
    cases hplan with
    | starts hc hnext =>
      obtain ⟨hfirst, hmid⟩ := ihfirst (shifts_plan grammar p hc)
      obtain ⟨hrest, hlast⟩ := ihrest (hnext w.outcome w.cursor hmid)
      have hruns := Runs.starts hfirst hrest
      rw [Walk.record_shifted] at hruns
      refine ⟨?_, hlast⟩
      simpa [Walk.shifted] using hruns
  | @rounds α β item c f w _ ih =>
    cases hplan with
    | rounds _ _ hc =>
      obtain ⟨hrest, hlast⟩ := ih (shifts_plan grammar (.many item) hc)
      exact ⟨.rounds hrest, hlast⟩

/-- What is carried out behind some tokens is carried out without them. -/
theorem exists_of_shifted {plan plan' : Plan Tree α} {w' : Walk α} (h : plan'.Runs grammar w')
    (hplan : Shifts tokens i plan plan') : ∃ w, plan.Runs grammar w ∧ w' = w.shifted tokens i := by
  induction h with
  | ends outcome c' =>
    cases hplan with
    | ends _ hc => exact ⟨_, .ends outcome _, rfl⟩
  | @starts α β p c' next w' v' _ _ ihfirst ihrest =>
    cases hplan with
    | starts hc hnext =>
      obtain ⟨w, hfirst, rfl⟩ := ihfirst (shifts_plan grammar p hc)
      have hmid := (hfirst.shifted (shifts_plan grammar p hc)).2
      obtain ⟨v, hrest, rfl⟩ := ihrest (hnext w.outcome w.cursor hmid)
      refine ⟨_, .starts hfirst hrest, ?_⟩
      rw [Walk.record_shifted]
      simp [Walk.shifted]
  | @rounds α β item c' f w' _ ih =>
    cases hplan with
    | rounds _ _ hc =>
      obtain ⟨w, hrest, rfl⟩ := ih (shifts_plan grammar (.many item) hc)
      exact ⟨_, .rounds hrest, rfl⟩

end Runs

end Plan

namespace Parser

variable {p : Parser Tree α} {c : Cursor}

/-- A parser that has to match, and does not, is reported with the token at which it started. -/
lemma Walks.expect_of_noMatch (h : p.Walks grammar c w) (hno : w.outcome = .noMatch)
    (description : String) : ∃ v, (expect description p).Walks grammar c v ∧
      v.outcome = .fatal (.expected description c.peek?) := by
  obtain ⟨_, d, events⟩ := w
  obtain rfl := hno
  obtain rfl := h.eq_start
  exact ⟨_, .starts h (.ends _ _), rfl⟩

/-- Every parser over every grammar keeps the contract of the combinators, from every position, if it ends.
There is one way in which it does. If it does not match, the cursor is where it was. The cursor is never
before the start, nor past the end if it did not start there. A fatal error of any parser inside is the error
of the whole, and nothing else is started after it. It names the token at which the cursor stands, and for a
parser that has to match this is the one at which that parser started. What happens is what happens without
the tokens before the start. A parser ends, and as it does when it is run, if each round of a repetition takes
up a token, in it and in the rules, and a rule takes up a token before it calls another one. -/
theorem walk_keeps_contract (grammar : Grammar Tree) (p : Parser Tree α) (tokens : List Token)
    (start : ℕ) :
    (∀ w, p.Walks grammar ⟨tokens, start⟩ w →
      (∀ v, p.Walks grammar ⟨tokens, start⟩ v → v = w) ∧
      (w.outcome = .noMatch → w.cursor = ⟨tokens, start⟩) ∧
      start ≤ w.cursor.position ∧ (start ≤ tokens.length → w.cursor.position ≤ tokens.length) ∧
      w.StopsAtFatal ∧
      (∀ e, w.outcome = .fatal e → ∃ description, e = .expected description tokens[w.cursor.position]?) ∧
      (w.outcome = .noMatch → ∀ description, ∃ v, (expect description p).Walks grammar ⟨tokens, start⟩ v ∧
        v.outcome = .fatal (.expected description tokens[start]?))) ∧
    (∀ w, p.Walks grammar ⟨tokens, start⟩ w ↔
      ∃ v, p.Walks grammar ⟨tokens.drop start, 0⟩ v ∧ w = v.shifted tokens start) ∧
    (grammar.Advances → p.Ends true = true → ∃ w, p.Walks grammar ⟨tokens, start⟩ w ∧
      p.runAt grammar ⟨tokens, start⟩ = (w.outcome, w.cursor)) := by
  refine ⟨fun w h => ⟨fun v hv => Plan.Runs.unique hv h, h.stands.rewound, h.stands.leadsTo.position_le,
    h.stands.leadsTo.position_le_length, h.stopsAtFatal, fun e he => ?_, fun hno => h.expect_of_noMatch hno⟩,
    fun w => ⟨fun h => ?_, ?_⟩, fun hgrammar hends => exists_walks hgrammar hends _⟩
  · obtain ⟨description, hfound⟩ := h.stands.found e he
    rw [Cursor.peek?, h.stands.leadsTo.tokens] at hfound
    exact ⟨description, hfound⟩
  · exact Plan.Runs.exists_of_shifted h (Plan.shifts_plan grammar p rfl)
  · rintro ⟨v, hv, rfl⟩
    exact (Plan.Runs.shifted hv (Plan.shifts_plan grammar p rfl)).1

/-- Two rules, of which one does nothing but call the other. -/
def aliasGrammar : Grammar fun _ : Bool => Terminal
  | true => .call false
  | false => .literal "x"

def letters : List Token := [⟨.identifier, "y", ⟨1, 0⟩⟩, ⟨.identifier, "x", ⟨1, 2⟩⟩]

/-- A rule is carried out although it takes up no token before it calls another one. Behind a letter it matches
as it does without it, and where it has to match and does not, the letter there is named. -/
theorem walk_aliasGrammar :
    (∃ w, (call true).Walks aliasGrammar ⟨letters, 1⟩ w ∧ w.outcome = .matched ⟨"x", ⟨1, 2⟩⟩ ∧
      w.cursor.position = 2) ∧
    ∃ w, (expect "a letter" (call true)).Walks aliasGrammar ⟨letters, 0⟩ w ∧
      w.outcome = .fatal (.expected "a letter" (some ⟨.identifier, "y", ⟨1, 0⟩⟩)) := by
  have hmatched : (literal "x").Walks aliasGrammar ⟨letters.drop 1, 0⟩
      ⟨.matched ⟨"x", ⟨1, 2⟩⟩, ⟨letters.drop 1, 1⟩, []⟩ := .ends _ _
  have hmissed : (literal "x").Walks aliasGrammar ⟨letters, 0⟩ ⟨.noMatch, ⟨letters, 0⟩, []⟩ := .ends _ _
  obtain ⟨-, hshifts, -⟩ := walk_keeps_contract aliasGrammar (call true) letters 1
  obtain ⟨hcontract, -, -⟩ := walk_keeps_contract aliasGrammar (call true) letters 0
  refine ⟨⟨_, (hshifts _).mpr ⟨_, .starts (.starts hmatched (.ends _ _)) (.ends _ _), rfl⟩, rfl, rfl⟩, ?_⟩
  obtain ⟨-, -, -, -, -, -, hexpect⟩ := hcontract _ (.starts (.starts hmissed (.ends _ _)) (.ends _ _))
  exact hexpect rfl "a letter"

end Parser

end Tariff
