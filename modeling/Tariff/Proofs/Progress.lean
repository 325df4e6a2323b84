import Mathlib.Data.Nat.Basic
import Mathlib.Order.Basic
import Mathlib.Tactic.Common
import Tariff.Proofs.SyntaxErrors

/-!
# Parsing moves on

`Parser.run` ends by its definition: a repetition stops after a round that takes up no token, and a rule
that is called too early does not match. `Parser.PlainRun` is a run without these two guards, so it need
not end. `Parser.Advances` and `Parser.Ends` say by the form of a parser that a match takes up a token and
that no guard is needed. Over a grammar whose rules have that form every plain run ends, and comes to what
`Parser.run` says (`Parser.exists_plainRun`, `Parser.PlainRun.comesTo`). The grammar of documents has it
(`FormulaParser.rules_progress`).
-/

namespace Tariff

/-- The steps of a run on which its end depends. -/
inductive Move where
  /-- A round of a repetition matched. -/
  | round (before after : List Token)
  /-- A rule is called. The innermost rule that is running started at `start`. -/
  | call (start here : List Token)

/-- Some tokens are taken up: by the round, or by the running rule before it calls another one. -/
def Move.Advances : Move → Prop
  | .round before after => after.length < before.length
  | .call start here => here.length < start.length

namespace Parser

variable {Rule : Type} {Tree : Rule → Type} {α β : Type}

/-- What a parser does to the tokens ahead, with the moves on the way, when nothing is checked: each round
of a repetition that matches is followed by another one, and a rule is run wherever it is called. The rule
that the parser is part of started at `start`. -/
inductive PlainRun (grammar : Grammar Tree) :
    {α : Type} → List Token → Parser Tree α → List Token → Reply α → List Move → Prop
  | literal {start ts : List Token} (text : String) :
      PlainRun grammar start (.literal text) ts (Reply.terminalIf (·.text == text) ts) []
  | token {start ts : List Token} (kind : TokenKind) :
      PlainRun grammar start (.token kind) ts (Reply.terminalIf (·.kind == kind) ts) []
  | seqMatched {α β : Type} {p : Parser Tree α} {q : Parser Tree β} {start ts mid : List Token} {a : α}
      {r : Reply β} {moves moves' : List Move} :
      PlainRun grammar start p ts ⟨.matched a, mid⟩ moves → PlainRun grammar start q mid r moves' →
      PlainRun grammar start (.seq p q) ts ((r.map fun b => (a, b)).rewindTo ts) (moves ++ moves')
  | seqNoMatch {α β : Type} {p : Parser Tree α} {q : Parser Tree β} {start ts rest : List Token}
      {moves : List Move} :
      PlainRun grammar start p ts ⟨.noMatch, rest⟩ moves →
      PlainRun grammar start (.seq p q) ts ⟨.noMatch, ts⟩ moves
  | seqFatal {α β : Type} {p : Parser Tree α} {q : Parser Tree β} {start ts rest : List Token}
      {e : ParseError} {moves : List Move} :
      PlainRun grammar start p ts ⟨.fatal e, rest⟩ moves →
      PlainRun grammar start (.seq p q) ts ⟨.fatal e, rest⟩ moves
  | orFirst {α : Type} {p q : Parser Tree α} {start ts : List Token} {r : Reply α} {moves : List Move} :
      PlainRun grammar start p ts r moves → r.outcome ≠ .noMatch →
      PlainRun grammar start (.or p q) ts r moves
  | orSecond {α : Type} {p q : Parser Tree α} {start ts rest : List Token} {r : Reply α}
      {moves moves' : List Move} :
      PlainRun grammar start p ts ⟨.noMatch, rest⟩ moves → PlainRun grammar start q ts r moves' →
      PlainRun grammar start (.or p q) ts r (moves ++ moves')
  | manyStops {α : Type} {item : Parser Tree α} {start ts rest : List Token} {moves : List Move} :
      PlainRun grammar start item ts ⟨.noMatch, rest⟩ moves →
      PlainRun grammar start (.many item) ts ⟨.matched [], ts⟩ moves
  | manyFatal {α : Type} {item : Parser Tree α} {start ts rest : List Token} {e : ParseError}
      {moves : List Move} :
      PlainRun grammar start item ts ⟨.fatal e, rest⟩ moves →
      PlainRun grammar start (.many item) ts ⟨.fatal e, rest⟩ moves
  | manyRound {α : Type} {item : Parser Tree α} {start ts mid : List Token} {a : α}
      {r : Reply (List α)} {moves moves' : List Move} :
      PlainRun grammar start item ts ⟨.matched a, mid⟩ moves →
      PlainRun grammar start (.many item) mid r moves' →
      PlainRun grammar start (.many item) ts (r.map (a :: ·)) (moves ++ .round ts mid :: moves')
  | optional {α : Type} {item : Parser Tree α} {start ts : List Token} {r : Reply α}
      {moves : List Move} :
      PlainRun grammar start item ts r moves →
      PlainRun grammar start (.optional item) ts ((r.map some).orElse fun _ => ⟨.matched none, ts⟩) moves
  | map {α β : Type} {source : Parser Tree α} {start ts : List Token} {r : Reply α} {moves : List Move}
      (f : α → β) :
      PlainRun grammar start source ts r moves → PlainRun grammar start (.map f source) ts (r.map f) moves
  | expectFound {α : Type} {inner : Parser Tree α} {start ts : List Token} {r : Reply α}
      {moves : List Move} (description : String) :
      PlainRun grammar start inner ts r moves → r.outcome ≠ .noMatch →
      PlainRun grammar start (.expect description inner) ts r moves
  | expectMissed {α : Type} {inner : Parser Tree α} {start ts rest : List Token} {moves : List Move}
      (description : String) :
      PlainRun grammar start inner ts ⟨.noMatch, rest⟩ moves →
      PlainRun grammar start (.expect description inner) ts
        ⟨.fatal (.expected description rest.head?), rest⟩ moves
  | call {rule : Rule} {start ts : List Token} {r : Reply (Tree rule)} {moves : List Move} :
      PlainRun grammar ts (grammar rule) ts r moves →
      PlainRun grammar start (.call rule) ts r (.call start ts :: moves)

/-- By its form, the parser takes up a token whenever it matches, provided that the rules do. -/
def Advances {α : Type} : Parser Tree α → Bool
  | .literal _ => true
  | .token _ => true
  | .seq first second => first.Advances || second.Advances
  | .or first second => first.Advances && second.Advances
  | .many _ => false
  | .optional _ => false
  | .map _ source => source.Advances
  | .expect _ inner => inner.Advances
  | .call _ => true

/-- By its form, what the parser repeats takes up tokens, and it calls no rule before it has moved on.
`moved` says that this has happened before it starts. -/
def Ends {α : Type} (moved : Bool) : Parser Tree α → Bool
  | .literal _ => true
  | .token _ => true
  | .seq first second => first.Ends moved && second.Ends (moved || first.Advances)
  | .or first second => first.Ends moved && second.Ends moved
  | .many item => item.Advances && item.Ends moved
  | .optional item => item.Ends moved
  | .map _ source => source.Ends moved
  | .expect _ inner => inner.Ends moved
  | .call _ => moved

end Parser

/-- Every rule takes up tokens, and calls rules only after it has done so. -/
def Grammar.Advances {Rule : Type} {Tree : Rule → Type} (grammar : Grammar Tree) : Prop :=
  ∀ rule, (grammar rule).Advances = true ∧ (grammar rule).Ends false = true

namespace Parser

variable {Rule : Type} {Tree : Rule → Type} {α : Type} {grammar : Grammar Tree}
  {call : (rule : Rule) → List Token → Reply (Tree rule)} {start ts mid : List Token} {moved : Bool}

/-- Where a parser starts inside a rule that started at `start`. -/
structure Reached (start : List Token) (moved : Bool) (ts : List Token) : Prop where
  le : ts.length ≤ start.length
  lt : moved = true → ts.length < start.length

/-- The calls do what the rules do, at least where fewer tokens are ahead than at the start. -/
def FollowsBelow (grammar : Grammar Tree) (start : List Token)
    (call : (rule : Rule) → List Token → Reply (Tree rule)) : Prop :=
  ∀ rule us, us.length < start.length → call rule us = grammar.run rule us

/-- What a plain run comes to: it replies as a guarded one does, a match takes up tokens as the form of the
parser says, and so does every move on the way. -/
structure ComesTo (call : (rule : Rule) → List Token → Reply (Tree rule)) (p : Parser Tree α)
    (ts : List Token) (r : Reply α) (moves : List Move) : Prop where
  run_eq : p.run call ts = r
  le : ∀ a rest, r = ⟨.matched a, rest⟩ → rest.length ≤ ts.length
  lt : p.Advances = true → ∀ a rest, r = ⟨.matched a, rest⟩ → rest.length < ts.length
  moves_advance : ∀ move ∈ moves, move.Advances

/-- After a match more may have been taken up. -/
lemma Reached.after {p : Parser Tree α} {a : α} {moves : List Move} (h : Reached start moved ts)
    (hp : ComesTo call p ts ⟨.matched a, mid⟩ moves) : Reached start (moved || p.Advances) mid := by
  have hle := hp.le a mid rfl
  refine ⟨hle.trans h.le, fun hmoved => ?_⟩
  rcases Bool.or_eq_true_iff.mp hmoved with hbefore | hadvances
  · exact hle.trans_lt (h.lt hbefore)
  · exact (hp.lt hadvances a mid rfl).trans_le h.le

lemma followsBelow_guard (grammar : Grammar Tree) (start : List Token) :
    FollowsBelow grammar start fun rule us =>
      if us.length < start.length then grammar.run rule us else ⟨.noMatch, us⟩ :=
  fun _ _ hlt => if_pos hlt

namespace ComesTo

variable {β : Type} {p : Parser Tree α} {a : α} {r : Reply α} {moves moves' : List Move}

lemma terminalIf {p : Parser Tree Terminal} {test : Token → Bool}
    (h : p.run call ts = Reply.terminalIf test ts) :
    ComesTo call p ts (Reply.terminalIf test ts) [] := by
  have hlt : ∀ a rest, Reply.terminalIf test ts = ⟨.matched a, rest⟩ → rest.length < ts.length := by
    intro a rest hmatched
    obtain ⟨t, rfl, -, -⟩ := Reply.terminalIf_eq_matched.mp hmatched
    simp
  exact ⟨h, fun a rest hmatched => (hlt a rest hmatched).le, fun _ => hlt, by simp⟩

/-- A parser that replies without a match takes up nothing. -/
lemma of_ne_matched {p : Parser Tree α} (h : p.run call ts = r)
    (hr : ∀ a rest, r ≠ ⟨.matched a, rest⟩) (hmoves : ∀ move ∈ moves, move.Advances) :
    ComesTo call p ts r moves :=
  ⟨h, fun a rest hmatched => (hr a rest hmatched).elim,
    fun _ a rest hmatched => (hr a rest hmatched).elim, hmoves⟩

lemma seq {q : Parser Tree β} {s : Reply β} (hp : ComesTo call p ts ⟨.matched a, mid⟩ moves)
    (hq : ComesTo call q mid s moves') :
    ComesTo call (.seq p q) ts ((s.map fun b => (a, b)).rewindTo ts) (moves ++ moves') := by
  have hresult : ∀ c rest, (s.map fun b => (a, b)).rewindTo ts = ⟨.matched c, rest⟩ →
      ∃ b, s = ⟨.matched b, rest⟩ := by
    intro c rest hmatched
    rw [Reply.rewindTo_eq_matched, Reply.map_eq_matched] at hmatched
    obtain ⟨b, hb, -⟩ := hmatched
    exact ⟨b, hb⟩
  refine ⟨by rw [run_seq, hp.run_eq, Reply.andThen, hq.run_eq], ?_, ?_, ?_⟩
  · intro c rest hmatched
    obtain ⟨b, hb⟩ := hresult c rest hmatched
    exact (hq.le b rest hb).trans (hp.le a mid rfl)
  · intro hadvances c rest hmatched
    obtain ⟨b, hb⟩ := hresult c rest hmatched
    rcases Bool.or_eq_true_iff.mp hadvances with hfirst | hsecond
    · exact (hq.le b rest hb).trans_lt (hp.lt hfirst a mid rfl)
    · exact (hq.lt hsecond b rest hb).trans_le (hp.le a mid rfl)
  · exact List.forall_mem_append.mpr ⟨hp.moves_advance, hq.moves_advance⟩

lemma orFirst {q : Parser Tree α} (hp : ComesTo call p ts r moves) (hr : r.outcome ≠ .noMatch) :
    ComesTo call (.or p q) ts r moves := by
  refine ⟨?_, hp.le, fun hadvances => hp.lt (Bool.and_eq_true_iff.mp hadvances).1, hp.moves_advance⟩
  change (p.run call ts).orElse _ = r
  rw [hp.run_eq]
  rcases r with ⟨a | _ | e, rest⟩
  · rfl
  · exact (hr rfl).elim
  · rfl

lemma orSecond {q : Parser Tree α} {rest : List Token} (hp : ComesTo call p ts ⟨.noMatch, rest⟩ moves)
    (hq : ComesTo call q ts r moves') : ComesTo call (.or p q) ts r (moves ++ moves') := by
  refine ⟨?_, hq.le, fun hadvances => hq.lt (Bool.and_eq_true_iff.mp hadvances).2,
    List.forall_mem_append.mpr ⟨hp.moves_advance, hq.moves_advance⟩⟩
  change (p.run call ts).orElse _ = r
  rw [hp.run_eq]
  exact hq.run_eq

/-- A round that takes up tokens, and the rounds after it. -/
lemma manyRound {rounds : Reply (List α)} (hitem : ComesTo call p ts ⟨.matched a, mid⟩ moves)
    (hlt : mid.length < ts.length) (hrest : ComesTo call (.many p) mid rounds moves') :
    ComesTo call (.many p) ts (rounds.map (a :: ·)) (moves ++ .round ts mid :: moves') := by
  refine ⟨?_, ?_, by simp [Advances], ?_⟩
  · rw [run_many, Reply.many_cons hitem.run_eq hlt, ← run_many, hrest.run_eq]
  · intro as rest hmatched
    obtain ⟨others, hothers, -⟩ := Reply.map_eq_matched.mp hmatched
    exact (hrest.le others rest hothers).trans hlt.le
  · exact List.forall_mem_append.mpr ⟨hitem.moves_advance,
      List.forall_mem_cons.mpr ⟨hlt, hrest.moves_advance⟩⟩

lemma optional (hp : ComesTo call p ts r moves) :
    ComesTo call (.optional p) ts ((r.map some).orElse fun _ => ⟨.matched none, ts⟩) moves := by
  refine ⟨by rw [run_optional, hp.run_eq], ?_, by simp [Advances], hp.moves_advance⟩
  intro b rest hmatched
  rw [Reply.orElse_eq_matched, Reply.map_eq_matched] at hmatched
  rcases hmatched with ⟨a, ha, -⟩ | ⟨-, hnone⟩
  · exact hp.le a rest ha
  · cases hnone
    exact le_rfl

lemma map (f : α → β) (hp : ComesTo call p ts r moves) : ComesTo call (.map f p) ts (r.map f) moves := by
  refine ⟨by rw [run_map, hp.run_eq], ?_, ?_, hp.moves_advance⟩
  · intro b rest hmatched
    obtain ⟨a, ha, -⟩ := Reply.map_eq_matched.mp hmatched
    exact hp.le a rest ha
  · intro hadvances b rest hmatched
    obtain ⟨a, ha, -⟩ := Reply.map_eq_matched.mp hmatched
    exact hp.lt hadvances a rest ha

lemma expectFound (description : String) (hp : ComesTo call p ts r moves) (hr : r.outcome ≠ .noMatch) :
    ComesTo call (.expect description p) ts r moves := by
  refine ⟨?_, hp.le, hp.lt, hp.moves_advance⟩
  rw [run_expect, hp.run_eq]
  rcases r with ⟨a | _ | e, rest⟩
  · rfl
  · exact (hr rfl).elim
  · rfl

end ComesTo

/-- A plain run comes to what the guarded one does, if the rules have the form that ends. -/
theorem PlainRun.comesTo (hgrammar : grammar.Advances) {p : Parser Tree α} {r : Reply α}
    {moves : List Move} (h : PlainRun grammar start p ts r moves) (hcall : FollowsBelow grammar start call)
    (hends : p.Ends moved = true) (hts : Reached start moved ts) : ComesTo call p ts r moves := by
  -- The induction is on the plain run, of which the rounds of a repetition and the called rules are parts.
  induction h generalizing call moved with
  | literal text => exact .terminalIf rfl
  | token kind => exact .terminalIf rfl
  | seqMatched _ _ ihp ihq =>
    obtain ⟨hp, hq⟩ := Bool.and_eq_true_iff.mp hends
    have hfirst := ihp hcall hp hts
    exact hfirst.seq (ihq hcall hq (hts.after hfirst))
  | seqNoMatch _ ihp =>
    have hfirst := ihp hcall (Bool.and_eq_true_iff.mp hends).1 hts
    exact .of_ne_matched (by rw [run_seq, hfirst.run_eq]; rfl) (by simp) hfirst.moves_advance
  | seqFatal _ ihp =>
    have hfirst := ihp hcall (Bool.and_eq_true_iff.mp hends).1 hts
    exact .of_ne_matched (by rw [run_seq, hfirst.run_eq]; rfl) (by simp) hfirst.moves_advance
  | orFirst _ hr ihp => exact (ihp hcall (Bool.and_eq_true_iff.mp hends).1 hts).orFirst hr
  | orSecond _ _ ihp ihq =>
    obtain ⟨hp, hq⟩ := Bool.and_eq_true_iff.mp hends
    exact (ihp hcall hp hts).orSecond (ihq hcall hq hts)
  | manyStops _ ih =>
    have hitem := ih hcall (Bool.and_eq_true_iff.mp hends).2 hts
    exact ⟨Reply.many_nil (by rw [hitem.run_eq]), by simp, by simp [Advances], hitem.moves_advance⟩
  | manyFatal _ ih =>
    have hitem := ih hcall (Bool.and_eq_true_iff.mp hends).2 hts
    exact .of_ne_matched (Reply.many_eq_fatal.mpr (.inl hitem.run_eq)) (by simp) hitem.moves_advance
  | manyRound _ _ ihitem ihrest =>
    obtain ⟨hadvances, hitem⟩ := Bool.and_eq_true_iff.mp hends
    have hround := ihitem hcall hitem hts
    have hlt := hround.lt hadvances _ _ rfl
    exact hround.manyRound hlt (ihrest hcall hends ⟨hlt.le.trans hts.le, fun _ => hlt.trans_le hts.le⟩)
  | optional _ ih => exact (ih hcall hends hts).optional
  | map f _ ih => exact (ih hcall hends hts).map f
  | expectFound description _ hr ih => exact (ih hcall hends hts).expectFound description hr
  | expectMissed description _ ih =>
    have hinner := ih hcall hends hts
    exact .of_ne_matched (by rw [run_expect, hinner.run_eq]) (by simp) hinner.moves_advance
  | @call rule start ts r moves _ ih =>
    obtain ⟨hadvances, hrule⟩ := hgrammar rule
    have hlt : ts.length < start.length := hts.lt hends
    have hinner := ih (followsBelow_guard grammar ts) hrule ⟨le_rfl, by simp⟩
    refine ⟨?_, hinner.le, fun _ => hinner.lt hadvances,
      List.forall_mem_cons.mpr ⟨hlt, hinner.moves_advance⟩⟩
    change call rule ts = r
    rw [hcall rule ts hlt, Grammar.run, hinner.run_eq]

/-- A plain run of a repetition, if there is one of what is repeated wherever the rounds may start. -/
lemma exists_plainRun_many {item : Parser Tree α} {n : ℕ}
    (hrounds : ∀ us : List Token, us.length ≤ n → ∃ moves,
      PlainRun grammar start item us (item.run call us) moves ∧
        ∀ a mid, item.run call us = ⟨.matched a, mid⟩ → mid.length < us.length)
    (hts : ts.length ≤ n) : ∃ moves, PlainRun grammar start (.many item) ts
      ((Parser.many item).run call ts) moves := by
  induction hlength : ts.length using Nat.strongRecOn generalizing ts with
  | _ length ih =>
    obtain ⟨moves, hitem, hlt⟩ := hrounds ts hts
    rcases hrun : item.run call ts with ⟨a | _ | e, mid⟩
    · rw [hrun] at hitem
      have hless := hlt a mid hrun
      obtain ⟨moves', hrest⟩ := ih mid.length (hlength ▸ hless) (hless.le.trans hts) rfl
      rw [run_many, Reply.many_cons hrun hless]
      exact ⟨_, .manyRound hitem hrest⟩
    · rw [hrun] at hitem
      rw [run_many, Reply.many_nil (by rw [hrun])]
      exact ⟨moves, .manyStops hitem⟩
    · rw [hrun] at hitem
      rw [run_many, Reply.many_eq_fatal.mpr (.inl hrun)]
      exact ⟨moves, .manyFatal hitem⟩

/-- Every parser of the form that ends has a plain run, over rules of that form. -/
theorem exists_plainRun (hgrammar : grammar.Advances) (p : Parser Tree α)
    (hcall : FollowsBelow grammar start call) (hends : p.Ends moved = true) (hts : Reached start moved ts) :
    ∃ moves, PlainRun grammar start p ts (p.run call ts) moves := by
  -- A rule is called with fewer tokens ahead than at the start of the one that calls it.
  induction hlength : start.length using Nat.strongRecOn generalizing start α p call moved ts with
  | _ n ihrules =>
    subst hlength
    induction p generalizing moved ts with
    | literal text => exact ⟨_, .literal text⟩
    | token kind => exact ⟨_, .token kind⟩
    | seq p q ihp ihq =>
      obtain ⟨hp, hq⟩ := Bool.and_eq_true_iff.mp hends
      obtain ⟨moves, hfirst⟩ := ihp hp hts
      have hcomes := hfirst.comesTo hgrammar hcall hp hts
      rw [run_seq]
      rcases hrun : p.run call ts with ⟨a | _ | e, mid⟩ <;> rw [hrun] at hfirst hcomes
      · obtain ⟨moves', hsecond⟩ := ihq hq (hts.after hcomes)
        exact ⟨_, .seqMatched hfirst hsecond⟩
      · exact ⟨moves, .seqNoMatch hfirst⟩
      · exact ⟨moves, .seqFatal hfirst⟩
    | or p q ihp ihq =>
      obtain ⟨hp, hq⟩ := Bool.and_eq_true_iff.mp hends
      obtain ⟨moves, hfirst⟩ := ihp hp hts
      obtain ⟨moves', hsecond⟩ := ihq hq hts
      change ∃ moves, PlainRun grammar start (.or p q) ts ((p.run call ts).orElse _) moves
      rcases hrun : p.run call ts with ⟨a | _ | e, mid⟩ <;> rw [hrun] at hfirst
      · exact ⟨moves, .orFirst hfirst (by simp [Reply.orElse])⟩
      · exact ⟨_, .orSecond hfirst hsecond⟩
      · exact ⟨moves, .orFirst hfirst (by simp [Reply.orElse])⟩
    | many item ih =>
      obtain ⟨hadvances, hitem⟩ := Bool.and_eq_true_iff.mp hends
      refine exists_plainRun_many (fun us hus => ?_) le_rfl
      have hreached : Reached start moved us :=
        ⟨hus.trans hts.le, fun hmoved => hus.trans_lt (hts.lt hmoved)⟩
      obtain ⟨moves, hround⟩ := ih hitem hreached
      exact ⟨moves, hround, (hround.comesTo hgrammar hcall hitem hreached).lt hadvances⟩
    | optional item ih =>
      obtain ⟨moves, hitem⟩ := ih hends hts
      exact ⟨moves, .optional hitem⟩
    | map f source ih =>
      obtain ⟨moves, hsource⟩ := ih hends hts
      exact ⟨moves, .map f hsource⟩
    | expect description inner ih =>
      obtain ⟨moves, hinner⟩ := ih hends hts
      rw [run_expect]
      rcases hrun : inner.run call ts with ⟨a | _ | e, mid⟩ <;> rw [hrun] at hinner
      · exact ⟨moves, .expectFound description hinner (by simp)⟩
      · exact ⟨moves, .expectMissed description hinner⟩
      · exact ⟨moves, .expectFound description hinner (by simp)⟩
    | call rule =>
      have hlt : ts.length < start.length := hts.lt hends
      obtain ⟨moves, hrule⟩ := ihrules ts.length hlt (grammar rule) (followsBelow_guard grammar ts)
        (hgrammar rule).2 ⟨le_rfl, by simp⟩ rfl
      change ∃ moves, PlainRun grammar start (.call rule) ts (call rule ts) moves
      rw [hcall rule ts hlt, Grammar.run]
      exact ⟨_, .call hrule⟩

/-- Without guards a parser ends, with one reply whatever happens on the way, and each of its moves takes
up tokens. -/
structure EndsWith (grammar : Grammar Tree) (p : Parser Tree α) (ts : List Token) (r : Reply α) :
    Prop where
  exists_plainRun : ∃ moves, PlainRun grammar ts p ts r moves
  unique : ∀ r' moves, PlainRun grammar ts p ts r' moves → r' = r
  moves_advance : ∀ r' moves, PlainRun grammar ts p ts r' moves → ∀ move ∈ moves, move.Advances

theorem endsWith_run (hgrammar : grammar.Advances) {p : Parser Tree α} (hends : p.Ends false = true)
    (ts : List Token) : EndsWith grammar p ts (p.run grammar.run ts) := by
  have hcall : FollowsBelow grammar ts grammar.run := fun _ _ _ => rfl
  have hts : Reached ts false ts := ⟨le_rfl, by simp⟩
  refine ⟨exists_plainRun hgrammar p hcall hends hts, fun r' moves h => ?_, fun r' moves h => ?_⟩
  · exact (h.comesTo hgrammar hcall hends hts).run_eq.symm
  · exact (h.comesTo hgrammar hcall hends hts).moves_advance

/-- A match of a parser that takes up a token by its form leaves fewer tokens. -/
theorem length_lt_of_run (hgrammar : grammar.Advances) {p : Parser Tree α} (hends : p.Ends false = true)
    (hadvances : p.Advances = true) {ts rest : List Token} {a : α}
    (h : p.run grammar.run ts = ⟨.matched a, rest⟩) : rest.length < ts.length := by
  obtain ⟨moves, hplain⟩ := (endsWith_run hgrammar hends ts).exists_plainRun
  exact (hplain.comesTo hgrammar (fun _ _ _ => rfl) hends ⟨le_rfl, by simp⟩).lt hadvances a rest h

end Parser

/-! ### The grammar of documents -/

theorem formulaGrammar_advances : formulaGrammar.Advances := by
  intro rule
  cases rule <;> exact ⟨rfl, rfl⟩

namespace FormulaParser

variable {α : Type} {p : FormulaParser α}

/-- The rules of the grammar, except the one of whole documents. -/
inductive IsRule : {α : Type} → FormulaParser α → Prop
  | identifier : IsRule identifier
  | number : IsRule number
  | boolean : IsRule boolean
  | unary : IsRule unary
  | connective (c : Chain) : IsRule (connective c)
  | comparator : IsRule comparator
  | parentheses : IsRule parentheses
  | conditional : IsRule conditional
  | atom : IsRule atom
  | factor : IsRule factor
  | product : IsRule product
  | sum : IsRule sum
  | comparison : IsRule comparison
  | expression : IsRule expression
  | injectable : IsRule injectable
  | definition : IsRule definition

lemma IsRule.advances (h : p.IsRule) : p.Advances = true ∧ p.Ends false = true := by
  cases h with
  | connective c => cases c <;> exact ⟨rfl, rfl⟩
  | _ => exact ⟨rfl, rfl⟩

/-- From every position in any tokens, also in tokens that no text has, each rule ends without any guard. If
it matches, the position has moved on. On the way each round of a repetition takes up a token, and so does
a rule before it calls another one. The same goes for the rule of whole documents, but that a match need not
move on. So reading tokens as a document ends, and gives the document or an error. -/
theorem rules_progress (tokens : List Token) (position : ℕ) :
    (∀ {α : Type} {p : FormulaParser α}, p.IsRule →
      Parser.EndsWith formulaGrammar p (tokens.drop position) (p.reply (tokens.drop position)) ∧
      ∀ a c, p.runAt ⟨tokens, position⟩ = (.matched a, c) → position < c.position) ∧
    Parser.EndsWith formulaGrammar document (tokens.drop position)
      (document.reply (tokens.drop position)) ∧
    ((∃ d, document.reply tokens = ⟨.matched d, []⟩ ∧ Document.ofTokens tokens = .ok d) ∨
      (∃ d t rest, document.reply tokens = ⟨.matched d, t :: rest⟩ ∧
        Document.ofTokens tokens = .error (.trailingInput t)) ∨
      ∃ e rest, document.reply tokens = ⟨.fatal e, rest⟩ ∧ Document.ofTokens tokens = .error e) := by
  refine ⟨fun h => ⟨?_, fun a c hrun => ?_⟩, ?_, ?_⟩
  · exact Parser.endsWith_run formulaGrammar_advances h.advances.2 _
  · have houtcome : (reply _ (tokens.drop position)).outcome = .matched a := congrArg Prod.fst hrun
    obtain rfl : _ = c := congrArg Prod.snd hrun
    have hlt := Parser.length_lt_of_run formulaGrammar_advances h.advances.2 h.advances.1
      (congrArg (Reply.mk · _) houtcome)
    exact Nat.lt_add_of_pos_right (Nat.sub_pos_of_lt hlt)
  · exact Parser.endsWith_run formulaGrammar_advances rfl _
  · unfold Document.ofTokens
    rcases hreply : document.reply tokens with ⟨d | _ | e, rest⟩
    · cases rest with
      | nil => exact .inl ⟨d, rfl, rfl⟩
      | cons t rest => exact .inr (.inl ⟨d, t, rest, rfl, rfl⟩)
    · exact (Document.not_declines_document (congrArg Reply.outcome hreply)).elim
    · exact .inr (.inr ⟨e, rest, rfl, rfl⟩)

end FormulaParser

end Tariff
