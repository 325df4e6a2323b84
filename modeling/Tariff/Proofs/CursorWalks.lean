import Tariff.Proofs.Progress

/-!
# Parsers on a cursor

A parser moves a cursor on and sets it back itself. `Parser.plan` says what each form of parser does next,
and `Parser.Walks` carries this out, with a record of every parser that is started and of how it ended. A rule
is carried out wherever it is called, and a repetition goes on after every match, so a walk need not end.
Where it does, it has one end (`Plan.Runs.unique`), and `Parser.Walks.stands` tells where the cursor is. Plain
runs end as walks do (`Parser.PlainRun.exists_walks`), so there is a walk where `Parser.run` needs no guard
(`Parser.exists_walks`).
-/

namespace Tariff

namespace Outcome

variable {α β : Type}

def map (f : α → β) : Outcome α → Outcome β
  | .matched a => .matched (f a)
  | .noMatch => .noMatch
  | .fatal e => .fatal e

lemma map_eq_noMatch {f : α → β} {outcome : Outcome α} :
    outcome.map f = .noMatch ↔ outcome = .noMatch := by
  cases outcome <;> simp [map]

lemma map_eq_fatal {f : α → β} {outcome : Outcome α} {e : ParseError} :
    outcome.map f = .fatal e ↔ outcome = .fatal e := by
  cases outcome <;> simp [map]

/-- How a run ends, without the value. -/
def kind (outcome : Outcome α) : Outcome Unit :=
  outcome.map fun _ => ()

end Outcome

/-- What a parser does from where a cursor stands, up to the next parser that it starts. -/
inductive Plan {Rule : Type} (Tree : Rule → Type) (α : Type) : Type 1 where
  | ends (outcome : Outcome α) (c : Cursor)
  /-- Another parser is started, and how it ends tells what comes next. -/
  | starts {β : Type} (p : Parser Tree β) (c : Cursor) (next : Outcome β → Cursor → Plan Tree α)
  /-- The other rounds of a repetition. -/
  | rounds {β : Type} (item : Parser Tree β) (c : Cursor) (f : List β → α)

variable {Rule : Type} {Tree : Rule → Type} {α β : Type}

def Plan.terminalIf (test : Token → Bool) (c : Cursor) : Plan Tree Terminal :=
  match c.peek? with
  | some t => if test t then .ends (.matched t.terminal) c.advance else .ends .noMatch c
  | none => .ends .noMatch c

/-- What each form of parser does, with the rules of a grammar. -/
def Parser.plan (grammar : Grammar Tree) : {α : Type} → Parser Tree α → Cursor → Plan Tree α
  | _, .literal text, c => .terminalIf (·.text == text) c
  | _, .token kind, c => .terminalIf (·.kind == kind) c
  | _, .seq first second, c => .starts first c fun outcome d =>
    match outcome with
    | .matched a => .starts second d fun outcome e =>
      match outcome with
      | .matched b => .ends (.matched (a, b)) e
      | .noMatch => .ends .noMatch (e.restore c.position)
      | .fatal error => .ends (.fatal error) e
    | .noMatch => .ends .noMatch (d.restore c.position)
    | .fatal error => .ends (.fatal error) d
  | _, .or first second, c => .starts first c fun outcome d =>
    match outcome with
    | .matched a => .ends (.matched a) d
    | .noMatch => .starts second (d.restore c.position) .ends
    | .fatal error => .ends (.fatal error) d
  | _, .many item, c => .starts item c fun outcome d =>
    match outcome with
    | .matched a => .rounds item d (a :: ·)
    | .noMatch => .ends (.matched []) (d.restore c.position)
    | .fatal error => .ends (.fatal error) d
  | _, .optional item, c => .starts item c fun outcome d =>
    match outcome with
    | .matched a => .ends (.matched (some a)) d
    | .noMatch => .ends (.matched none) (d.restore c.position)
    | .fatal error => .ends (.fatal error) d
  | _, .map f source, c => .starts source c fun outcome d => .ends (outcome.map f) d
  | _, .expect description inner, c => .starts inner c fun outcome d =>
    match outcome with
    | .matched a => .ends (.matched a) d
    | .noMatch => .ends (.fatal (.expected description d.peek?)) d
    | .fatal error => .ends (.fatal error) d
  | _, .call rule, c => .starts (grammar rule) c .ends

/-- A parser starts at a position, or one ends. -/
inductive WalkEvent where
  | starts (position : Nat)
  | ends (kind : Outcome Unit)
deriving DecidableEq, Repr

/-- The outcome of a parser on a cursor, the cursor after it, and what has happened in between. -/
structure Walk (α : Type) where
  outcome : Outcome α
  cursor : Cursor
  events : List WalkEvent

/-- What has happened from the start of a parser to its end. -/
def Walk.record (c : Cursor) (w : Walk α) : List WalkEvent :=
  .starts c.position :: (w.events ++ [.ends w.outcome.kind])

/-- The walk that carries out a plan. -/
inductive Plan.Runs (grammar : Grammar Tree) : {α : Type} → Plan Tree α → Walk α → Prop
  | ends {α : Type} (outcome : Outcome α) (c : Cursor) : Runs grammar (.ends outcome c) ⟨outcome, c, []⟩
  | starts {α β : Type} {p : Parser Tree β} {c : Cursor} {next : Outcome β → Cursor → Plan Tree α}
      {w : Walk β} {v : Walk α} (first : Runs grammar (p.plan grammar c) w)
      (rest : Runs grammar (next w.outcome w.cursor) v) :
      Runs grammar (.starts p c next) ⟨v.outcome, v.cursor, w.record c ++ v.events⟩
  | rounds {α β : Type} {item : Parser Tree β} {c : Cursor} {f : List β → α} {w : Walk (List β)}
      (rest : Runs grammar ((Parser.many item).plan grammar c) w) :
      Runs grammar (.rounds item c f) ⟨w.outcome.map f, w.cursor, w.events⟩

/-- What a parser does from where a cursor stands. -/
def Parser.Walks (grammar : Grammar Tree) (p : Parser Tree α) (c : Cursor) (w : Walk α) : Prop :=
  (p.plan grammar c).Runs grammar w

variable {grammar : Grammar Tree} {plan : Plan Tree α} {w w' : Walk α}

/-- A plan is carried out in one way. -/
theorem Plan.Runs.unique (h : plan.Runs grammar w) (h' : plan.Runs grammar w') : w = w' := by
  induction h with
  | ends outcome c =>
    cases h'
    rfl
  | starts _ _ ihfirst ihrest =>
    cases h' with
    | starts first rest =>
      obtain rfl := ihfirst first
      obtain rfl := ihrest rest
      rfl
  | rounds _ ih =>
    cases h' with
    | rounds rest =>
      obtain rfl := ih rest
      rfl

/-! ### Where the cursor stands -/

namespace Cursor

variable {c d e : Cursor}

/-- A cursor is moved on by some of the tokens ahead. -/
def LeadsTo (c d : Cursor) : Prop :=
  ∃ n ≤ c.rest.length, d = c.restore (c.position + n)

lemma rest_restore_add (c : Cursor) (n : ℕ) : (c.restore (c.position + n)).rest = c.rest.drop n := by
  simp [rest, restore]

namespace LeadsTo

lemma refl (c : Cursor) : c.LeadsTo c := ⟨0, Nat.zero_le _, rfl⟩

lemma trans (h : c.LeadsTo d) (h' : d.LeadsTo e) : c.LeadsTo e := by
  obtain ⟨n, hn, rfl⟩ := h
  obtain ⟨m, hm, rfl⟩ := h'
  rw [rest_restore_add, List.length_drop] at hm
  refine ⟨n + m, by omega, ?_⟩
  simp [restore, Nat.add_assoc]

lemma advance (c : Cursor) : c.LeadsTo c.advance := by
  by_cases hnext : c.hasNext = true
  · have hlt : c.position < c.tokens.length := by simpa [hasNext] using hnext
    refine ⟨1, ?_, by rw [Cursor.advance, if_pos hnext]; rfl⟩
    rw [rest, List.length_drop]
    omega
  · rw [Cursor.advance, if_neg hnext]
    exact refl c

lemma tokens (h : c.LeadsTo d) : d.tokens = c.tokens := by
  obtain ⟨n, -, rfl⟩ := h
  rfl

/-- A cursor that was moved on can be set back. -/
lemma restore_eq (h : c.LeadsTo d) : d.restore c.position = c := by
  obtain ⟨n, -, rfl⟩ := h
  rfl

lemma position_le (h : c.LeadsTo d) : c.position ≤ d.position := by
  obtain ⟨n, -, rfl⟩ := h
  exact Nat.le_add_right _ _

lemma position_le_length (h : c.LeadsTo d) (hc : c.position ≤ c.tokens.length) :
    d.position ≤ c.tokens.length := by
  obtain ⟨n, hn, rfl⟩ := h
  rw [rest, List.length_drop] at hn
  change c.position + n ≤ c.tokens.length
  omega

/-- How far a cursor was moved on can be read off the tokens ahead. -/
lemma eq_restore (h : c.LeadsTo d) :
    d = c.restore (c.position + (c.rest.length - d.rest.length)) := by
  obtain ⟨n, hn, rfl⟩ := h
  rw [rest_restore_add, List.length_drop, Nat.sub_sub_self hn]

end LeadsTo

end Cursor

/-- Where the cursor may stand when a parser ends that was started at a cursor. -/
structure Outcome.Stands (c : Cursor) (outcome : Outcome α) (d : Cursor) : Prop where
  leadsTo : c.LeadsTo d
  rewound : outcome = .noMatch → d = c
  found : ∀ e, outcome = .fatal e → ∃ description, e = .expected description d.peek?

namespace Outcome.Stands

variable {c d : Cursor} {outcome : Outcome α}

lemma matched (h : c.LeadsTo d) (a : α) : (Outcome.matched a).Stands c d where
  leadsTo := h
  rewound hno := by cases hno
  found _ hfatal := by cases hfatal

lemma noMatch (h : c.LeadsTo d) : (Outcome.noMatch : Outcome α).Stands c (d.restore c.position) := by
  rw [h.restore_eq]
  exact ⟨.refl c, fun _ => rfl, fun _ hfatal => by cases hfatal⟩

/-- What had to match did not. -/
lemma missed (h : c.LeadsTo d) (description : String) :
    (Outcome.fatal (.expected description d.peek?) : Outcome α).Stands c d where
  leadsTo := h
  rewound hno := by cases hno
  found e hfatal := by
    cases hfatal
    exact ⟨description, rfl⟩

lemma fatal {e : ParseError} (h : (Outcome.fatal e : Outcome β).Stands c d) :
    (Outcome.fatal e : Outcome α).Stands c d where
  leadsTo := h.leadsTo
  rewound hno := by cases hno
  found e' hfatal := by
    cases hfatal
    exact h.found e rfl

lemma map (f : α → β) (h : outcome.Stands c d) : (outcome.map f).Stands c d where
  leadsTo := h.leadsTo
  rewound hno := h.rewound (map_eq_noMatch.mp hno)
  found e hfatal := h.found e (map_eq_fatal.mp hfatal)

/-- A parser that was started further on, and has matched or failed for good. -/
lemma trans {e : Cursor} (hc : c.LeadsTo d) (h : outcome.Stands d e) (hmatch : outcome ≠ .noMatch) :
    outcome.Stands c e where
  leadsTo := hc.trans h.leadsTo
  rewound hno := (hmatch hno).elim
  found := h.found

end Outcome.Stands

namespace Plan

/-- No end of a plan is that nothing matched. -/
def Matches : Plan Tree α → Prop
  | .ends outcome _ => outcome ≠ .noMatch
  | .starts _ _ next => ∀ outcome c, (next outcome c).Matches
  | .rounds _ _ _ => True

lemma matches_many (grammar : Grammar Tree) (item : Parser Tree β) (c : Cursor) :
    ((Parser.many item).plan grammar c).Matches := by
  rintro (a | _ | e) d
  · trivial
  · simp [Matches]
  · simp [Matches]

lemma Runs.outcome_ne_noMatch (h : plan.Runs grammar w) (hplan : plan.Matches) : w.outcome ≠ .noMatch := by
  induction h with
  | ends outcome c => exact hplan
  | starts _ _ _ ihrest => exact ihrest (hplan _ _)
  | rounds _ ih => exact mt Outcome.map_eq_noMatch.mp (ih (matches_many grammar _ _))

/-- The ends of a plan are where a parser may end that was started at a cursor, if the parsers that the plan
starts end where they may. -/
def KeepsPlace (c : Cursor) : Plan Tree α → Prop
  | .ends outcome d => outcome.Stands c d
  | .starts _ d next => c.LeadsTo d ∧ ∀ outcome e, outcome.Stands d e → (next outcome e).KeepsPlace c
  | .rounds _ d _ => c.LeadsTo d

lemma keepsPlace_terminalIf (test : Token → Bool) (c : Cursor) :
    (terminalIf test c : Plan Tree Terminal).KeepsPlace c := by
  have hstays : (Plan.ends .noMatch c : Plan Tree Terminal).KeepsPlace c := .noMatch (.refl c)
  unfold terminalIf
  split
  · split
    · exact .matched (.advance c) _
    · exact hstays
  · exact hstays

lemma keepsPlace_plan (grammar : Grammar Tree) (p : Parser Tree α) (c : Cursor) :
    (p.plan grammar c).KeepsPlace c := by
  cases p with
  | literal text => exact keepsPlace_terminalIf _ c
  | token kind => exact keepsPlace_terminalIf _ c
  | seq p q =>
    refine ⟨.refl c, ?_⟩
    rintro (a | _ | e) d hd
    · refine ⟨hd.leadsTo, ?_⟩
      rintro (b | _ | e) d' hd'
      · exact .matched (hd.leadsTo.trans hd'.leadsTo) _
      · exact .noMatch (hd.leadsTo.trans hd'.leadsTo)
      · exact .fatal (.trans hd.leadsTo hd' (by simp))
    · exact .noMatch hd.leadsTo
    · exact hd.fatal
  | or p q =>
    refine ⟨.refl c, ?_⟩
    rintro (a | _ | e) d hd
    · exact .matched hd.leadsTo a
    · change (Plan.starts q (d.restore c.position) .ends).KeepsPlace c
      rw [hd.leadsTo.restore_eq]
      exact ⟨.refl c, fun _ _ => id⟩
    · exact hd.fatal
  | many item =>
    refine ⟨.refl c, ?_⟩
    rintro (a | _ | e) d hd
    · exact hd.leadsTo
    · exact .matched (hd.leadsTo.restore_eq ▸ .refl c) []
    · exact hd.fatal
  | optional item =>
    refine ⟨.refl c, ?_⟩
    rintro (a | _ | e) d hd
    · exact .matched hd.leadsTo _
    · exact .matched (hd.leadsTo.restore_eq ▸ .refl c) none
    · exact hd.fatal
  | map f source => exact ⟨.refl c, fun _ _ hd => hd.map f⟩
  | expect description inner =>
    refine ⟨.refl c, ?_⟩
    rintro (a | _ | e) d hd
    · exact .matched hd.leadsTo a
    · exact .missed hd.leadsTo description
    · exact hd.fatal
  | call rule => exact ⟨.refl c, fun _ _ => id⟩

lemma Runs.stands (h : plan.Runs grammar w) {c : Cursor} (hplan : plan.KeepsPlace c) :
    w.outcome.Stands c w.cursor := by
  induction h generalizing c with
  | ends outcome d => exact hplan
  | starts _ _ ihfirst ihrest => exact ihrest (hplan.2 _ _ (ihfirst (keepsPlace_plan grammar _ _)))
  | rounds rest ih =>
    have hrounds := ih (keepsPlace_plan grammar _ _)
    exact (Outcome.Stands.trans hplan hrounds (rest.outcome_ne_noMatch (matches_many grammar _ _))).map _

end Plan

theorem Parser.Walks.stands {p : Parser Tree α} {c : Cursor} (h : p.Walks grammar c w) :
    w.outcome.Stands c w.cursor :=
  Plan.Runs.stands h (Plan.keepsPlace_plan grammar p c)

/-! ### Walks and runs -/

lemma Plan.exists_runs_terminalIf (grammar : Grammar Tree) (test : Token → Bool) (c : Cursor) :
    ∃ w, (terminalIf test c : Plan Tree Terminal).Runs grammar w ∧
      (⟨w.outcome, w.cursor.rest⟩ : Reply Terminal) = Reply.terminalIf test c.rest := by
  have hpeek := c.head?_rest
  have hadvance := c.rest_advance
  unfold terminalIf
  cases hrest : c.rest with
  | nil =>
    rw [hrest] at hpeek
    rw [← hpeek]
    exact ⟨_, .ends _ _, by rw [hrest]; rfl⟩
  | cons t ts =>
    rw [hrest] at hpeek hadvance
    rw [← hpeek]
    dsimp only [List.head?_cons, Reply.terminalIf]
    split
    · exact ⟨_, .ends _ _, by rw [hadvance]; rfl⟩
    · exact ⟨_, .ends _ _, by rw [hrest]⟩

namespace Parser

variable {p : Parser Tree α} {c d : Cursor} {a : α} {e : ParseError} {events : List WalkEvent}

/-- A parser that did not match has set the cursor back. -/
lemma Walks.eq_start (h : p.Walks grammar c ⟨.noMatch, d, events⟩) : d = c :=
  h.stands.rewound rfl

/-- Where a plain run ends a walk does, with the outcome and the tokens ahead that the run has. -/
theorem PlainRun.exists_walks {start ts : List Token} {r : Reply α} {moves : List Move}
    (h : PlainRun grammar start p ts r moves) (hc : c.rest = ts) :
    ∃ w, p.Walks grammar c w ∧ (⟨w.outcome, w.cursor.rest⟩ : Reply α) = r := by
  induction h generalizing c with
  | literal text => exact hc ▸ Plan.exists_runs_terminalIf grammar _ c
  | token kind => exact hc ▸ Plan.exists_runs_terminalIf grammar _ c
  | seqMatched _ _ ihp ihq =>
    obtain ⟨⟨_, d, events⟩, hp, hfirst⟩ := ihp hc
    obtain ⟨rfl, hd⟩ := Reply.mk.inj hfirst
    obtain ⟨⟨b | _ | e, d', events'⟩, hq, rfl⟩ := ihq hd
    · exact ⟨_, .starts hp (.starts hq (.ends _ _)), rfl⟩
    · refine ⟨_, .starts hp (.starts hq (.ends _ _)), ?_⟩
      rw [hq.eq_start, hp.stands.leadsTo.restore_eq, ← hc]
      rfl
    · exact ⟨_, .starts hp (.starts hq (.ends _ _)), rfl⟩
  | seqNoMatch _ ihp =>
    obtain ⟨⟨_, d, events⟩, hp, hfirst⟩ := ihp hc
    obtain ⟨rfl, hd⟩ := Reply.mk.inj hfirst
    refine ⟨_, .starts hp (.ends _ _), ?_⟩
    rw [hp.stands.leadsTo.restore_eq, hc]
  | seqFatal _ ihp =>
    obtain ⟨⟨_, d, events⟩, hp, hfirst⟩ := ihp hc
    obtain ⟨rfl, rfl⟩ := Reply.mk.inj hfirst
    exact ⟨_, .starts hp (.ends _ _), rfl⟩
  | orFirst _ hr ihp =>
    obtain ⟨⟨a | _ | e, d, events⟩, hp, rfl⟩ := ihp hc
    · exact ⟨_, .starts hp (.ends _ _), rfl⟩
    · exact (hr rfl).elim
    · exact ⟨_, .starts hp (.ends _ _), rfl⟩
  | orSecond _ _ ihp ihq =>
    obtain ⟨⟨_, d, events⟩, hp, hfirst⟩ := ihp hc
    obtain ⟨rfl, -⟩ := Reply.mk.inj hfirst
    obtain ⟨w, hq, rfl⟩ := ihq hc
    rw [← hp.stands.leadsTo.restore_eq] at hq
    exact ⟨_, .starts hp (.starts hq (.ends _ _)), rfl⟩
  | manyStops _ ih =>
    obtain ⟨⟨_, d, events⟩, hitem, hround⟩ := ih hc
    obtain ⟨rfl, -⟩ := Reply.mk.inj hround
    refine ⟨_, .starts hitem (.ends _ _), ?_⟩
    rw [hitem.stands.leadsTo.restore_eq, hc]
  | manyFatal _ ih =>
    obtain ⟨⟨_, d, events⟩, hitem, hround⟩ := ih hc
    obtain ⟨rfl, rfl⟩ := Reply.mk.inj hround
    exact ⟨_, .starts hitem (.ends _ _), rfl⟩
  | manyRound _ _ ihitem ihrest =>
    obtain ⟨⟨_, d, events⟩, hitem, hround⟩ := ihitem hc
    obtain ⟨rfl, hd⟩ := Reply.mk.inj hround
    obtain ⟨w, hrest, rfl⟩ := ihrest hd
    refine ⟨_, .starts hitem (.rounds hrest), ?_⟩
    rcases w with ⟨as | _ | e, d', events'⟩ <;> rfl
  | optional _ ih =>
    obtain ⟨⟨a | _ | e, d, events⟩, hitem, rfl⟩ := ih hc
    · exact ⟨_, .starts hitem (.ends _ _), rfl⟩
    · refine ⟨_, .starts hitem (.ends _ _), ?_⟩
      rw [hitem.stands.leadsTo.restore_eq, hc]
      rfl
    · exact ⟨_, .starts hitem (.ends _ _), rfl⟩
  | map f _ ih =>
    obtain ⟨⟨a | _ | e, d, events⟩, hsource, rfl⟩ := ih hc <;>
      exact ⟨_, .starts hsource (.ends _ _), rfl⟩
  | expectFound description _ hr ih =>
    obtain ⟨⟨a | _ | e, d, events⟩, hinner, rfl⟩ := ih hc
    · exact ⟨_, .starts hinner (.ends _ _), rfl⟩
    · exact (hr rfl).elim
    · exact ⟨_, .starts hinner (.ends _ _), rfl⟩
  | expectMissed description _ ih =>
    obtain ⟨⟨_, d, events⟩, hinner, hmissed⟩ := ih hc
    obtain ⟨rfl, rfl⟩ := Reply.mk.inj hmissed
    refine ⟨_, .starts hinner (.ends _ _), ?_⟩
    rw [Cursor.head?_rest]
  | call _ ih =>
    obtain ⟨w, hrule, rfl⟩ := ih hc
    exact ⟨_, .starts hrule (.ends _ _), rfl⟩

/-- Over rules that have the form that ends, a parser ends wherever it calls them, as it does when it is run. -/
theorem exists_walks (hgrammar : grammar.Advances) (hends : p.Ends true = true) (c : Cursor) :
    ∃ w, p.Walks grammar c w ∧ p.runAt grammar c = (w.outcome, w.cursor) := by
  -- No rule is running yet, so any list that is longer may be where one has started.
  have hreached : Reached (⟨.identifier, "", .start⟩ :: c.rest) true c.rest :=
    ⟨Nat.le_succ _, fun _ => Nat.lt_succ_self _⟩
  obtain ⟨moves, hplain⟩ := exists_plainRun hgrammar p (fun _ _ _ => rfl) hends hreached
  obtain ⟨w, hw, hrun⟩ := hplain.exists_walks (c := c) rfl
  refine ⟨w, hw, ?_⟩
  have hcursor := hw.stands.leadsTo.eq_restore
  rw [runAt, ← hrun]
  exact congrArg (Prod.mk w.outcome) hcursor.symm

end Parser

end Tariff
