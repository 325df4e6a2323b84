import Tariff.Proofs.Completeness

/-!
# Formulas that are not finished

A formula of which only the beginning is there waits for one of two things: an operand, or the word
that ends a formula inside it (`Need`). `Stalls l ts need` says so of tokens and a level. They are the
beginning of a formula of this level, whichever operand or word comes to meet the need
(`Stalls.exists_derives`).
-/

namespace Tariff

/-- An atom can start with the token. -/
def Token.StartsAtom (t : Token) : Prop :=
  t.kind ≠ .symbol ∨ t.text ∈ ["true", "false", "(", "if"]

/-- No atom is at the front. -/
def AtomMissing (ts : List Token) : Prop :=
  ∀ t ∈ ts.head?, ¬t.StartsAtom

lemma Derives.exists_startsAtom {ts : List Token} {x : Formula .atom} (h : Derives ts x) :
    ∃ (t : Token) (us : List Token), ts = t :: us ∧ t.StartsAtom := by
  cases h with
  | number hkind => exact ⟨_, _, rfl, .inl (by simp [hkind])⟩
  | @boolean t value htext =>
    refine ⟨_, _, rfl, .inr ?_⟩
    rw [htext]
    cases value <;> decide
  | parentheses hopening => exact ⟨_, _, rfl, .inr (by simp [hopening])⟩
  | conditional hif => exact ⟨_, _, rfl, .inr (by simp [hif])⟩
  | name hkind => exact ⟨_, _, rfl, .inl (by simp [hkind])⟩

/-- What has to follow. -/
inductive Need where
  | operand
  /-- The word that ends an inner formula. -/
  | word (text : String)
deriving DecidableEq, Repr

/-- The need is not met by what is at the front. An operator that stands before an operand is nothing
without it. And where the word is not, the inner formula does not go on either. -/
def Need.Missing : Need → List Token → Prop
  | .operand, [] => True
  | .operand, t :: ts => if t.text ∈ ["!", "-"] then AtomMissing ts else ¬t.StartsAtom
  | .word text, ts => (Level.chain .logic).EndsBefore ts ∧ ∀ t ∈ ts.head?, t.text ≠ text

/-- The tokens meet the need. -/
inductive Need.Meets : Need → List Token → Prop where
  | operand {ts : List Token} {x : Formula .factor} (hx : Derives ts x) : Meets .operand ts
  | word {t : Token} {text : String} (htext : t.text = text) : Meets (.word text) [t]

/-- The tokens of an atom before a formula inside it, and the word that has to follow that formula. -/
inductive Opens : List Token → String → Prop where
  | parentheses {opening : Token} (hopening : opening.text = "(") : Opens [opening] ")"
  | condition {tif : Token} (hif : tif.text = "if") : Opens [tif] "then"
  | yes {tif tthen : Token} {ts : List Token} {condition : Expression} (hif : tif.text = "if")
      (hcondition : Derives ts condition) (hthen : tthen.text = "then") :
    Opens (tif :: (ts ++ [tthen])) "else"
  | no {tif tthen telse : Token} {ts us : List Token} {condition yes : Expression}
      (hif : tif.text = "if") (hcondition : Derives ts condition) (hthen : tthen.text = "then")
      (hyes : Derives us yes) (helse : telse.text = "else") :
    Opens (tif :: (ts ++ tthen :: (us ++ [telse]))) "end"

/-- The tokens are the beginning of a formula of the level, which the need has to go on. -/
inductive Stalls : Level → List Token → Need → Prop where
  | here : Stalls .factor [] .operand
  | operand {c : Chain} {ts : List Token} {need : Need} (h : Stalls c.operand ts need) :
    Stalls (.chain c) ts need
  | link {c : Chain} {ts us : List Token} {t : Token} {left : Formula (.chain c)} {op : Connective c}
      {need : Need} (hleft : Derives ts left) (hop : t.text = op.symbol)
      (hright : Stalls c.operand us need) :
    Stalls (.chain c) (ts ++ t :: us) need
  | plain {ts : List Token} {need : Need} (h : Stalls (.chain .sum) ts need) :
    Stalls .comparison ts need
  | compare {ts us : List Token} {t : Token} {left : Formula (.chain .sum)} {op : Comparison}
      {need : Need} (hleft : Derives ts left) (hop : t.text = op.symbol)
      (hright : Stalls .comparison us need) :
    Stalls .comparison (ts ++ t :: us) need
  | bare {ts : List Token} {need : Need} (h : Stalls .atom ts need) : Stalls .factor ts need
  | unary {t : Token} {ts : List Token} {op : Unary} {need : Need} (hop : t.text = op.symbol)
      (h : Stalls .atom ts need) :
    Stalls .factor (t :: ts) need
  /-- The formula inside an atom is not finished. -/
  | inside {ts us : List Token} {text : String} {need : Need} (hopen : Opens ts text)
      (h : Stalls (.chain .logic) us need) :
    Stalls .atom (ts ++ us) need
  /-- The formula inside an atom is finished, and the word after it is missing. -/
  | word {ts us : List Token} {text : String} {x : Expression} (hopen : Opens ts text)
      (hx : Derives us x) :
    Stalls .atom (ts ++ us) (.word text)

/-- A formula that can stand wherever one has to. -/
lemma exists_derives_number : ∃ (t : Token) (f : Expression), Derives [t] f ∧ t.word.Lexical :=
  ⟨⟨.number, "0", .start⟩, _, .operand (.plain (.operand (.operand (.bare (.number rfl))))), by decide⟩

lemma Word.exists_token {w : Word} (h : w.Lexical) : ∃ t : Token, t.text = w.text ∧ t.word.Lexical :=
  ⟨⟨w.kind, w.text, .start⟩, rfl, h⟩

lemma Opens.exists_word {ts : List Token} {text : String} (h : Opens ts text) :
    ∃ t : Token, t.text = text ∧ t.word.Lexical := by
  cases h with
  | parentheses => exact Word.exists_token (w := .symbol ")") (by decide)
  | condition => exact Word.exists_token (w := .identifier "then") (by decide)
  | yes => exact Word.exists_token (w := .identifier "else") (by decide)
  | no => exact Word.exists_token (w := .identifier "end") (by decide)

/-- When a formula inside an atom is finished and the word after it is there, the atom can be
finished. -/
lemma Opens.exists_derives {ts us : List Token} {text : String} {x : Expression} (h : Opens ts text)
    (hx : Derives us x) {t : Token} (ht : t.text = text) :
    ∃ (vs : List Token) (f : Formula .atom), Derives (ts ++ (us ++ t :: vs)) f ∧
      ∀ v ∈ vs, v.word.Lexical := by
  obtain ⟨zero, filler, hzero, hzero'⟩ := exists_derives_number
  obtain ⟨telse, helse, helse'⟩ := Word.exists_token (w := .identifier "else") (by decide)
  obtain ⟨tend, hend, hend'⟩ := Word.exists_token (w := .identifier "end") (by decide)
  cases h with
  | parentheses hopening => exact ⟨[], _, .parentheses hopening hx ht, by simp⟩
  | condition hif =>
    have hwhole := Derives.conditional hif hx ht hzero helse hzero hend
    exact ⟨_, _, hwhole, by simp [hzero', helse', hend']⟩
  | yes hif hcondition hthen =>
    have hwhole := Derives.conditional hif hcondition hthen hx ht hzero hend
    exact ⟨[zero, tend], _, by simpa using hwhole, by simp [hzero', hend']⟩
  | no hif hcondition hthen hyes helse =>
    have hwhole := Derives.conditional hif hcondition hthen hyes helse hx ht
    exact ⟨[], _, by simpa using hwhole, by simp⟩

/-- Something meets the need of a formula that is not finished. -/
lemma Stalls.exists_meets {l : Level} {ts : List Token} {need : Need} (h : Stalls l ts need) :
    ∃ os : List Token, need.Meets os ∧ ∀ t ∈ os, t.word.Lexical := by
  induction h with
  | here => exact ⟨[⟨.number, "0", .start⟩], .operand (.bare (.number rfl)), by simp; decide⟩
  | word hopen hx =>
    obtain ⟨t, htext, ht⟩ := hopen.exists_word
    exact ⟨[t], .word htext, by simpa using ht⟩
  | operand _ ih => exact ih
  | link _ _ _ ih => exact ih
  | plain _ ih => exact ih
  | compare _ _ _ ih => exact ih
  | bare _ ih => exact ih
  | unary _ _ ih => exact ih
  | inside _ _ ih => exact ih

/-- A formula that is not finished can go on with whatever meets its need. -/
theorem Stalls.exists_derives {l : Level} {ts os : List Token} {need : Need} (h : Stalls l ts need)
    (hmeets : need.Meets os) : ∃ (vs : List Token) (f : Formula l), Derives (ts ++ (os ++ vs)) f ∧
      ∀ v ∈ vs, v.word.Lexical := by
  induction h with
  | here =>
    obtain ⟨hx⟩ := hmeets
    exact ⟨[], _, by simpa using hx, by simp⟩
  | operand h ih =>
    obtain ⟨vs, f, hf, hvs⟩ := ih hmeets
    exact ⟨vs, _, .operand hf, hvs⟩
  | link hleft hop hright ih =>
    obtain ⟨vs, f, hf, hvs⟩ := ih hmeets
    exact ⟨vs, _, by simpa using hleft.link hop hf, hvs⟩
  | plain h ih =>
    obtain ⟨vs, f, hf, hvs⟩ := ih hmeets
    exact ⟨vs, _, .plain hf, hvs⟩
  | compare hleft hop hright ih =>
    obtain ⟨vs, f, hf, hvs⟩ := ih hmeets
    exact ⟨vs, _, by simpa using hleft.compare hop hf, hvs⟩
  | bare h ih =>
    obtain ⟨vs, f, hf, hvs⟩ := ih hmeets
    exact ⟨vs, _, .bare hf, hvs⟩
  | unary hop h ih =>
    obtain ⟨vs, f, hf, hvs⟩ := ih hmeets
    exact ⟨vs, _, .unary hop hf, hvs⟩
  | inside hopen h ih =>
    obtain ⟨vs, f, hf, hvs⟩ := ih hmeets
    obtain ⟨t, htext, ht⟩ := hopen.exists_word
    obtain ⟨ws, atom, hatom, hws⟩ := hopen.exists_derives hf htext
    refine ⟨vs ++ t :: ws, atom, by simpa using hatom, ?_⟩
    rw [List.forall_mem_append, List.forall_mem_cons]
    exact ⟨hvs, ht, hws⟩
  | word hopen hx =>
    obtain ⟨⟩ | ⟨htext⟩ := hmeets
    obtain ⟨ws, atom, hatom, hws⟩ := hopen.exists_derives hx htext
    exact ⟨ws, atom, by simpa using hatom, hws⟩

end Tariff
