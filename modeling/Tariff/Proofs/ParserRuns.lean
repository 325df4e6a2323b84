import Mathlib.Tactic.Common
import Tariff.Parsing.Parser

/-!
# Runs of parsers

`Parser.Accepts`, `Parser.Declines` and `Parser.Fails` name the three ways a run ends: it matched and
left some tokens, it did not match, or it failed for good. For each combinator, these lemmas say what
its run is made of, so that no later proof opens `Parser.run`.
-/

namespace Tariff

namespace Reply

variable {α β : Type} {r : Reply α} {rest : List Token}

lemma map_eq_matched {f : α → β} {b : β} :
    r.map f = ⟨.matched b, rest⟩ ↔ ∃ a : α, r = ⟨.matched a, rest⟩ ∧ f a = b := by
  rcases r with ⟨a | _ | e, mid⟩ <;> simp [map, and_comm]

lemma map_noMatch {f : α → β} : (r.map f).outcome = .noMatch ↔ r.outcome = .noMatch := by
  rcases r with ⟨a | _ | e, mid⟩ <;> simp [map]

lemma andThen_eq_matched {next : α → List Token → Reply β} {b : β} :
    r.andThen next = ⟨.matched b, rest⟩ ↔
      ∃ (a : α) (mid : List Token), r = ⟨.matched a, mid⟩ ∧ next a mid = ⟨.matched b, rest⟩ := by
  rcases r with ⟨a | _ | e, mid⟩ <;> simp [andThen]

lemma andThen_noMatch {next : α → List Token → Reply β} :
    (r.andThen next).outcome = .noMatch ↔ r.outcome = .noMatch ∨
      ∃ (a : α) (mid : List Token), r = ⟨.matched a, mid⟩ ∧ (next a mid).outcome = .noMatch := by
  rcases r with ⟨a | _ | e, mid⟩ <;> simp [andThen]

lemma orElse_eq_matched {other : Unit → Reply α} {a : α} :
    r.orElse other = ⟨.matched a, rest⟩ ↔
      r = ⟨.matched a, rest⟩ ∨ r.outcome = .noMatch ∧ other () = ⟨.matched a, rest⟩ := by
  rcases r with ⟨a' | _ | e, mid⟩ <;> simp [orElse]

lemma orElse_noMatch {other : Unit → Reply α} :
    (r.orElse other).outcome = .noMatch ↔ r.outcome = .noMatch ∧ (other ()).outcome = .noMatch := by
  rcases r with ⟨a | _ | e, mid⟩ <;> simp [orElse]

lemma rewindTo_eq_matched {ts : List Token} {a : α} :
    r.rewindTo ts = ⟨.matched a, rest⟩ ↔ r = ⟨.matched a, rest⟩ := by
  rw [rewindTo, orElse_eq_matched]
  simp

lemma rewindTo_noMatch {ts : List Token} :
    (r.rewindTo ts).outcome = .noMatch ↔ r.outcome = .noMatch := by
  rw [rewindTo, orElse_noMatch]
  simp

lemma terminalIf_eq_matched {test : Token → Bool} {ts : List Token} {a : Terminal} :
    terminalIf test ts = ⟨.matched a, rest⟩ ↔
      ∃ t : Token, ts = t :: rest ∧ test t = true ∧ t.terminal = a := by
  cases ts with
  | nil => simp [terminalIf]
  | cons t us => by_cases h : test t = true <;> simp [terminalIf, h, and_comm]

lemma terminalIf_noMatch {test : Token → Bool} {ts : List Token} :
    (terminalIf test ts).outcome = .noMatch ↔ ∀ t ∈ ts.head?, test t = false := by
  cases ts with
  | nil => simp [terminalIf]
  | cons t us => by_cases h : test t = true <;> simp [terminalIf, h]

lemma map_eq_fatal {f : α → β} {e : ParseError} :
    r.map f = ⟨.fatal e, rest⟩ ↔ r = ⟨.fatal e, rest⟩ := by
  rcases r with ⟨a | _ | e', mid⟩ <;> simp [map]

lemma andThen_eq_fatal {next : α → List Token → Reply β} {e : ParseError} :
    r.andThen next = ⟨.fatal e, rest⟩ ↔ r = ⟨.fatal e, rest⟩ ∨
      ∃ (a : α) (mid : List Token), r = ⟨.matched a, mid⟩ ∧ next a mid = ⟨.fatal e, rest⟩ := by
  rcases r with ⟨a | _ | e', mid⟩ <;> simp [andThen]

lemma orElse_eq_fatal {other : Unit → Reply α} {e : ParseError} :
    r.orElse other = ⟨.fatal e, rest⟩ ↔
      r = ⟨.fatal e, rest⟩ ∨ r.outcome = .noMatch ∧ other () = ⟨.fatal e, rest⟩ := by
  rcases r with ⟨a | _ | e', mid⟩ <;> simp [orElse]

lemma rewindTo_eq_fatal {ts : List Token} {e : ParseError} :
    r.rewindTo ts = ⟨.fatal e, rest⟩ ↔ r = ⟨.fatal e, rest⟩ := by
  rw [rewindTo, orElse_eq_fatal]
  simp

lemma terminalIf_ne_fatal {test : Token → Bool} {ts : List Token} {e : ParseError} :
    terminalIf test ts ≠ ⟨.fatal e, rest⟩ := by
  cases ts with
  | nil => simp [terminalIf]
  | cons t us => by_cases h : test t = true <;> simp [terminalIf, h]

lemma rest_terminalIf {test : Token → Bool} {ts : List Token}
    (h : (terminalIf test ts).outcome = .noMatch) : (terminalIf test ts).rest = ts := by
  cases ts with
  | nil => rfl
  | cons t us => by_cases htest : test t = true <;> simp [terminalIf, htest] at h ⊢

lemma rest_rewindTo {ts : List Token} (h : (r.rewindTo ts).outcome = .noMatch) :
    (r.rewindTo ts).rest = ts := by
  rcases r with ⟨a | _ | e, mid⟩
  · cases h
  · rfl
  · cases h

lemma map_map {γ : Type} (g : β → γ) (f : α → β) (r : Reply α) :
    (r.map f).map g = r.map fun a => g (f a) := by
  rcases r with ⟨a | _ | e, mid⟩ <;> rfl

lemma map_nil_append (r : Reply (List α)) : r.map ([] ++ ·) = r := by
  rcases r with ⟨a | _ | e, mid⟩ <;> rfl

lemma rest_map (f : α → β) (r : Reply α) : (r.map f).rest = r.rest := by
  rcases r with ⟨a | _ | e, mid⟩ <;> rfl

lemma orElse_of_noMatch {other : Unit → Reply α} (h : r.outcome = .noMatch) :
    r.orElse other = other () := by
  rcases r with ⟨a | _ | e, mid⟩ <;> cases h
  rfl

lemma many_nil {step : List Token → Reply α} {ts : List Token} (h : (step ts).outcome = .noMatch) :
    many step ts = ⟨.matched [], ts⟩ := by
  rw [many]
  rcases hr : step ts with ⟨a | _ | e, mid⟩ <;> rw [hr] at h <;> cases h

lemma many_cons {step : List Token → Reply α} {ts mid : List Token} {a : α}
    (h : step ts = ⟨.matched a, mid⟩) (hlt : mid.length < ts.length) :
    many step ts = (many step mid).map (a :: ·) := by
  rw [many, h]
  exact if_pos hlt

lemma many_ne_noMatch (step : List Token → Reply α) (ts : List Token) :
    (many step ts).outcome ≠ .noMatch := by
  induction hn : ts.length using Nat.strongRecOn generalizing ts with
  | _ n ih =>
    rw [many]
    split
    · simp
    · simp
    · next a mid _ =>
      split
      · next hlt => exact map_noMatch.not.mpr (ih mid.length (hn ▸ hlt) mid rfl)
      · simp

lemma many_eq_fatal {step : List Token → Reply α} {ts : List Token} {e : ParseError} :
    many step ts = ⟨.fatal e, rest⟩ ↔ step ts = ⟨.fatal e, rest⟩ ∨
      ∃ (a : α) (mid : List Token), step ts = ⟨.matched a, mid⟩ ∧ mid.length < ts.length ∧
        many step mid = ⟨.fatal e, rest⟩ := by
  rw [many]
  rcases hstep : step ts with ⟨a | _ | e', mid⟩
  · by_cases hlt : mid.length < ts.length <;> simp [hlt, map_eq_fatal]
  · simp
  · simp

/-- The rounds of a repetition that matched: none, or one and the ones after it. A round that takes up
no token is the last one. -/
lemma many_eq_matched {step : List Token → Reply α} {ts : List Token} {as : List α}
    (h : many step ts = ⟨.matched as, rest⟩) :
    as = [] ∧ ts = rest ∧ (step ts).outcome = .noMatch ∨
      ∃ (a : α) (others : List α) (mid : List Token), as = a :: others ∧ step ts = ⟨.matched a, mid⟩ ∧
        (many step mid = ⟨.matched others, rest⟩ ∨
          ts.length ≤ mid.length ∧ others = [] ∧ mid = rest) := by
  rw [many] at h
  rcases hstep : step ts with ⟨a | _ | e, mid⟩
  · rw [hstep] at h
    dsimp only at h
    by_cases hlt : mid.length < ts.length
    · rw [if_pos hlt, map_eq_matched] at h
      obtain ⟨others, hothers, rfl⟩ := h
      exact .inr ⟨a, others, mid, rfl, rfl, .inl hothers⟩
    · rw [if_neg hlt] at h
      cases h
      exact .inr ⟨a, [], rest, rfl, rfl, .inr ⟨Nat.le_of_not_lt hlt, rfl, rfl⟩⟩
  · rw [hstep] at h
    cases h
    exact .inl ⟨rfl, rfl, rfl⟩
  · rw [hstep] at h
    cases h

end Reply

namespace Parser

variable {Rule : Type} {Tree : Rule → Type} {call : (rule : Rule) → List Token → Reply (Tree rule)}
variable {α β : Type} {ts rest : List Token}

section Unfolding

variable (call) (ts)

lemma run_literal (text : String) : (literal text : Parser Tree Terminal).run call ts =
    Reply.terminalIf (·.text == text) ts := rfl

lemma run_token (kind : TokenKind) : (token kind : Parser Tree Terminal).run call ts =
    Reply.terminalIf (·.kind == kind) ts := rfl

lemma run_seq (p : Parser Tree α) (q : Parser Tree β) : (seq p q).run call ts =
    ((p.run call ts).andThen fun a rest => (q.run call rest).map fun b => (a, b)).rewindTo ts := rfl

lemma run_many (p : Parser Tree α) : (many p).run call ts = Reply.many (p.run call) ts := rfl

lemma run_optional (p : Parser Tree α) : (optional p).run call ts =
    ((p.run call ts).map some).orElse fun _ => ⟨.matched none, ts⟩ := rfl

lemma run_map (f : α → β) (p : Parser Tree α) : (map f p).run call ts = (p.run call ts).map f := rfl

lemma run_expect (description : String) (p : Parser Tree α) : (expect description p).run call ts =
    match p.run call ts with
    | ⟨.noMatch, rest⟩ => ⟨.fatal (.expected description rest.head?), rest⟩
    | reply => reply := rfl

end Unfolding

/-- A run of the parser matches and leaves the rest. -/
def Accepts (call : (rule : Rule) → List Token → Reply (Tree rule)) (p : Parser Tree α)
    (ts : List Token) (a : α) (rest : List Token) : Prop :=
  p.run call ts = ⟨.matched a, rest⟩

/-- A run of the parser does not match. -/
def Declines (call : (rule : Rule) → List Token → Reply (Tree rule)) (p : Parser Tree α)
    (ts : List Token) : Prop :=
  (p.run call ts).outcome = .noMatch

/-- A run of the parser fails for good, with the cursor before the rest. -/
def Fails (call : (rule : Rule) → List Token → Reply (Tree rule)) (p : Parser Tree α)
    (ts : List Token) (e : ParseError) (rest : List Token) : Prop :=
  p.run call ts = ⟨.fatal e, rest⟩

lemma accepts_literal {text : String} {a : Terminal} :
    Accepts call (.literal text) ts a rest ↔
      ∃ t : Token, ts = t :: rest ∧ t.text = text ∧ t.terminal = a := by
  simp only [Accepts, run_literal, Reply.terminalIf_eq_matched, beq_iff_eq]

lemma declines_literal {text : String} :
    Declines call (.literal text) ts ↔ ∀ t ∈ ts.head?, t.text ≠ text := by
  simp only [Declines, run_literal, Reply.terminalIf_noMatch, beq_eq_false_iff_ne]

lemma accepts_token {kind : TokenKind} {a : Terminal} :
    Accepts call (.token kind) ts a rest ↔
      ∃ t : Token, ts = t :: rest ∧ t.kind = kind ∧ t.terminal = a := by
  simp only [Accepts, run_token, Reply.terminalIf_eq_matched, beq_iff_eq]

lemma declines_token {kind : TokenKind} :
    Declines call (.token kind) ts ↔ ∀ t ∈ ts.head?, t.kind ≠ kind := by
  simp only [Declines, run_token, Reply.terminalIf_noMatch, beq_eq_false_iff_ne]

lemma not_fails_literal {text : String} {e : ParseError} : ¬Fails call (.literal text) ts e rest :=
  Reply.terminalIf_ne_fatal

lemma not_fails_token {kind : TokenKind} {e : ParseError} : ¬Fails call (.token kind) ts e rest :=
  Reply.terminalIf_ne_fatal

section Combinations

variable {p p' : Parser Tree α} {q : Parser Tree β} {a : α} {b : β}

lemma accepts_seq : Accepts call (.seq p q) ts (a, b) rest ↔
    ∃ mid : List Token, Accepts call p ts a mid ∧ Accepts call q mid b rest := by
  simp only [Accepts, run_seq, Reply.rewindTo_eq_matched, Reply.andThen_eq_matched,
    Reply.map_eq_matched, Prod.mk.injEq]
  constructor
  · rintro ⟨_, mid, hp, _, hq, rfl, rfl⟩
    exact ⟨mid, hp, hq⟩
  · rintro ⟨mid, hp, hq⟩
    exact ⟨a, mid, hp, b, hq, rfl, rfl⟩

lemma declines_seq : Declines call (.seq p q) ts ↔ Declines call p ts ∨
    ∃ (a : α) (mid : List Token), Accepts call p ts a mid ∧ Declines call q mid := by
  simp only [Declines, Accepts, run_seq, Reply.rewindTo_noMatch, Reply.andThen_noMatch,
    Reply.map_noMatch]

lemma accepts_map {f : α → β} : Accepts call (.map f p) ts b rest ↔
    ∃ a : α, Accepts call p ts a rest ∧ f a = b := by
  simp only [Accepts, run_map, Reply.map_eq_matched]

lemma declines_map {f : α → β} : Declines call (.map f p) ts ↔ Declines call p ts := by
  simp only [Declines, run_map, Reply.map_noMatch]

lemma accepts_or : Accepts call (p <|> p') ts a rest ↔
    Accepts call p ts a rest ∨ Declines call p ts ∧ Accepts call p' ts a rest :=
  Reply.orElse_eq_matched

lemma Accepts.or (h : Accepts call p ts a rest) : Accepts call (p <|> p') ts a rest :=
  accepts_or.mpr (.inl h)

lemma Declines.or (h : Declines call p ts) (h' : Accepts call p' ts a rest) :
    Accepts call (p <|> p') ts a rest :=
  accepts_or.mpr (.inr ⟨h, h'⟩)

lemma declines_or : Declines call (p <|> p') ts ↔ Declines call p ts ∧ Declines call p' ts :=
  Reply.orElse_noMatch

lemma accepts_optional_some : Accepts call (.optional p) ts (some a) rest ↔
    Accepts call p ts a rest := by
  simp [Accepts, run_optional, Reply.orElse_eq_matched, Reply.map_eq_matched]

lemma accepts_optional_none : Accepts call (.optional p) ts none rest ↔
    Declines call p ts ∧ ts = rest := by
  simp [Accepts, Declines, run_optional, Reply.orElse_eq_matched, Reply.map_eq_matched,
    Reply.map_noMatch]

lemma not_declines_optional : ¬Declines call (.optional p) ts := by
  intro h
  cases (Reply.orElse_noMatch.mp h).2

lemma accepts_expect {description : String} : Accepts call (.expect description p) ts a rest ↔
    Accepts call p ts a rest := by
  unfold Accepts
  rw [run_expect]
  rcases p.run call ts with ⟨a' | _ | e, mid⟩ <;> simp

lemma accepts_skip : Accepts call (p.skip q) ts a rest ↔
    ∃ (b : β) (mid : List Token), Accepts call p ts a mid ∧ Accepts call q mid b rest := by
  rw [skip, accepts_map]
  constructor
  · rintro ⟨⟨_, b⟩, hseq, rfl⟩
    obtain ⟨mid, hp, hq⟩ := accepts_seq.mp hseq
    exact ⟨b, mid, hp, hq⟩
  · rintro ⟨b, mid, hp, hq⟩
    exact ⟨(a, b), accepts_seq.mpr ⟨mid, hp, hq⟩, rfl⟩

lemma declines_skip : Declines call (p.skip q) ts ↔ Declines call p ts ∨
    ∃ (a : α) (mid : List Token), Accepts call p ts a mid ∧ Declines call q mid := by
  rw [skip, declines_map, declines_seq]

lemma accepts_skipLeft : Accepts call (p.skipLeft q) ts b rest ↔
    ∃ (a : α) (mid : List Token), Accepts call p ts a mid ∧ Accepts call q mid b rest := by
  rw [skipLeft, accepts_map]
  constructor
  · rintro ⟨⟨a, _⟩, hseq, rfl⟩
    obtain ⟨mid, hp, hq⟩ := accepts_seq.mp hseq
    exact ⟨a, mid, hp, hq⟩
  · rintro ⟨a, mid, hp, hq⟩
    exact ⟨(a, b), accepts_seq.mpr ⟨mid, hp, hq⟩, rfl⟩

lemma declines_skipLeft : Declines call (p.skipLeft q) ts ↔ Declines call p ts ∨
    ∃ (a : α) (mid : List Token), Accepts call p ts a mid ∧ Declines call q mid := by
  rw [skipLeft, declines_map, declines_seq]

lemma accepts_many_nil (h : Declines call p ts) : Accepts call (.many p) ts [] ts :=
  Reply.many_nil h

lemma accepts_many_cons {mid : List Token} {as : List α} (h : Accepts call p ts a mid)
    (hlt : mid.length < ts.length) (hmany : Accepts call (.many p) mid as rest) :
    Accepts call (.many p) ts (a :: as) rest := by
  unfold Accepts at hmany ⊢
  rw [run_many] at hmany ⊢
  rw [Reply.many_cons h hlt, hmany]
  rfl

lemma accepts_many_cases {as : List α} (h : Accepts call (.many p) ts as rest) :
    as = [] ∧ ts = rest ∧ Declines call p ts ∨
      ∃ (a : α) (others : List α) (mid : List Token), as = a :: others ∧ Accepts call p ts a mid ∧
        (Accepts call (.many p) mid others rest ∨
          ts.length ≤ mid.length ∧ others = [] ∧ mid = rest) :=
  Reply.many_eq_matched h

section Failures

variable {e : ParseError}

lemma fails_seq : Fails call (.seq p q) ts e rest ↔ Fails call p ts e rest ∨
    ∃ (a : α) (mid : List Token), Accepts call p ts a mid ∧ Fails call q mid e rest := by
  simp only [Fails, Accepts, run_seq, Reply.rewindTo_eq_fatal, Reply.andThen_eq_fatal,
    Reply.map_eq_fatal]

lemma fails_map {f : α → β} : Fails call (.map f p) ts e rest ↔ Fails call p ts e rest := by
  simp only [Fails, run_map, Reply.map_eq_fatal]

lemma fails_or : Fails call (p <|> p') ts e rest ↔
    Fails call p ts e rest ∨ Declines call p ts ∧ Fails call p' ts e rest :=
  Reply.orElse_eq_fatal

lemma fails_optional : Fails call (.optional p) ts e rest ↔ Fails call p ts e rest := by
  simp [Fails, run_optional, Reply.orElse_eq_fatal, Reply.map_eq_fatal]

lemma fails_skip : Fails call (p.skip q) ts e rest ↔ Fails call p ts e rest ∨
    ∃ (a : α) (mid : List Token), Accepts call p ts a mid ∧ Fails call q mid e rest := by
  rw [skip, fails_map, fails_seq]

lemma fails_skipLeft : Fails call (p.skipLeft q) ts e rest ↔ Fails call p ts e rest ∨
    ∃ (a : α) (mid : List Token), Accepts call p ts a mid ∧ Fails call q mid e rest := by
  rw [skipLeft, fails_map, fails_seq]

/-- What stands after the first parser may as well be taken together. -/
lemma fails_skip_skipLeft {γ : Type} {r : Parser Tree γ} :
    Fails call ((p.skipLeft q).skip r) ts e rest ↔ Fails call p ts e rest ∨
      ∃ (a : α) (mid : List Token), Accepts call p ts a mid ∧ Fails call (q.skip r) mid e rest := by
  simp only [fails_skip, fails_skipLeft, accepts_skipLeft]
  grind

lemma fails_skip_seq {γ : Type} {r : Parser Tree γ} :
    Fails call ((p.seq q).skip r) ts e rest ↔ Fails call p ts e rest ∨
      ∃ (a : α) (mid : List Token), Accepts call p ts a mid ∧ Fails call (q.skip r) mid e rest := by
  simp only [fails_skip, fails_seq, Prod.exists, accepts_seq]
  grind

lemma fails_many : Fails call (.many p) ts e rest ↔ Fails call p ts e rest ∨
    ∃ (a : α) (mid : List Token), Accepts call p ts a mid ∧ mid.length < ts.length ∧
      Fails call (.many p) mid e rest :=
  Reply.many_eq_fatal

lemma not_fails_many (h : ∀ ts e rest, ¬Fails call p ts e rest) (ts : List Token) (e : ParseError)
    (rest : List Token) : ¬Fails call (.many p) ts e rest := by
  induction hn : ts.length using Nat.strongRecOn generalizing ts with
  | _ n ih =>
    intro hfails
    obtain hitem | ⟨a, mid, -, hlt, hmany⟩ := fails_many.mp hfails
    · exact h ts e rest hitem
    · exact ih mid.length (hn ▸ hlt) mid rfl hmany

lemma not_declines_many : ¬Declines call (.many p) ts :=
  Reply.many_ne_noMatch _ ts

end Failures

section Mandatory

variable {description : String}

lemma not_declines_expect : ¬Declines call (.expect description p) ts := by
  unfold Declines
  rw [run_expect]
  rcases p.run call ts with ⟨a | _ | e, mid⟩ <;> simp

lemma declines_seq_expect :
    Declines call (.seq p (.expect description q)) ts ↔ Declines call p ts := by
  rw [declines_seq]
  constructor
  · rintro (h | ⟨a, mid, -, h⟩)
    · exact h
    · exact (not_declines_expect h).elim
  · exact .inl

lemma declines_skip_expect :
    Declines call (p.skip (.expect description q)) ts ↔ Declines call p ts := by
  rw [skip, declines_map, declines_seq_expect]

lemma declines_skipLeft_expect :
    Declines call (p.skipLeft (.expect description q)) ts ↔ Declines call p ts := by
  rw [skipLeft, declines_map, declines_seq_expect]

end Mandatory

end Combinations

/-! ### A run that does not match leaves the tokens -/

section Quiet

/-- A rule that does not match leaves the tokens as they were. -/
def Quiet (call : (rule : Rule) → List Token → Reply (Tree rule)) : Prop :=
  ∀ rule ts, (call rule ts).outcome = .noMatch → (call rule ts).rest = ts

lemma rest_run_of_declines (hcall : Quiet call) {p : Parser Tree α} (h : Declines call p ts) :
    (p.run call ts).rest = ts := by
  induction p generalizing ts with
  | literal text => exact Reply.rest_terminalIf h
  | token kind => exact Reply.rest_terminalIf h
  | seq p q ihp ihq => exact Reply.rest_rewindTo h
  | or p q ihp ihq =>
    obtain ⟨hp, hq⟩ := declines_or.mp h
    have hrun : (Parser.or p q).run call ts = q.run call ts := Reply.orElse_of_noMatch hp
    rw [hrun, ihq hq]
  | many p ih => exact (not_declines_many h).elim
  | optional p ih => exact (not_declines_optional h).elim
  | map f p ih => rw [run_map, Reply.rest_map, ih (declines_map.mp h)]
  | expect description p ih => exact (not_declines_expect h).elim
  | call rule => exact hcall rule ts h

lemma fails_expect (hcall : Quiet call) {p : Parser Tree α} {description : String} {e : ParseError} :
    Fails call (.expect description p) ts e rest ↔ Fails call p ts e rest ∨
      Declines call p ts ∧ e = .expected description ts.head? ∧ rest = ts := by
  unfold Fails
  rw [run_expect]
  rcases hrun : p.run call ts with ⟨a | _ | e', mid⟩
  · simp [Declines, hrun]
  · have hdeclines : Declines call p ts := by rw [Declines, hrun]
    obtain rfl : mid = ts := by simpa [hrun] using rest_run_of_declines hcall hdeclines
    simp [hdeclines, eq_comm]
  · simp [Declines, hrun]

/-- A rule is called inside itself with fewer tokens, so this is an induction on their number. -/
lemma quiet_guard (grammar : Grammar Tree) (n : Nat) : Quiet fun rule ts =>
    if ts.length < n then grammar.run rule ts else ⟨.noMatch, ts⟩ := by
  induction n using Nat.strongRecOn with
  | _ n ih =>
    intro rule ts h
    by_cases hlt : ts.length < n
    · simp only [if_pos hlt] at h ⊢
      rw [Grammar.run] at h ⊢
      exact rest_run_of_declines (ih ts.length hlt) h
    · simp only [if_neg hlt]

lemma quiet_run (grammar : Grammar Tree) : Quiet grammar.run := by
  intro rule ts h
  rw [Grammar.run] at h ⊢
  exact rest_run_of_declines (quiet_guard grammar ts.length) h

end Quiet

end Parser

end Tariff
