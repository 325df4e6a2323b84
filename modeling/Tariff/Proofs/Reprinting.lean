import Tariff.Proofs.Soundness

/-!
# What a document keeps of its source

A source and the document that is read from it have the same words: none is dropped, added, joined or
moved. So the text of the document is cut into the words of the source, and only blanks differ. The
document itself holds the tokens of the source that are no mark of its structure (`Document.leaves`),
each at its place. `Recorded` says both of some tokens, and is shown of each form the grammar has.
-/

namespace Tariff

/-- The words that say how a document is put together and are not kept in it. -/
def markWords : List Word :=
  ["if", "then", "else", "end"].map .identifier ++
    ["&&", "||", ">", ">=", "<", "<=", "==", "!=", "+", "-", "*", "/", "!", "$", ":", ",", "=", "(",
      ")"].map .symbol

lemma lexical_of_mem_markWords : ∀ w ∈ markWords, w.Lexical := by
  decide

lemma Connective.mem_markWords {c : Chain} (op : Connective c) : .symbol op.symbol ∈ markWords := by
  cases op <;> decide

lemma Comparison.mem_markWords (op : Comparison) : .symbol op.symbol ∈ markWords := by
  cases op <;> decide

lemma Unary.mem_markWords (op : Unary) : .symbol op.symbol ∈ markWords := by
  cases op <;> decide

/-- The tokens that are left when some marks are taken out. -/
inductive Keeps : List Token → List Token → Prop where
  | nil : Keeps [] []
  | keep (t : Token) {ts us : List Token} (h : Keeps ts us) : Keeps (t :: ts) (t :: us)
  | drop {t : Token} {ts us : List Token} (hmark : t.word ∈ markWords) (h : Keeps ts us) :
    Keeps (t :: ts) us

namespace Keeps

variable {ts us ts' us' : List Token}

theorem sublist (h : Keeps ts us) : us.Sublist ts := by
  induction h with
  | nil => exact .slnil
  | keep t _ ih => exact ih.cons_cons t
  | drop _ _ ih => exact ih.cons _

lemma append (h : Keeps ts us) (h' : Keeps ts' us') : Keeps (ts ++ ts') (us ++ us') := by
  induction h with
  | nil => exact h'
  | keep t _ ih => exact .keep t ih
  | drop hmark _ ih => exact .drop hmark ih

end Keeps

/-- The token of a kind that a terminal was read from. -/
def Terminal.token (kind : TokenKind) (t : Terminal) : Token :=
  ⟨kind, t.text, t.location⟩

/-- The tokens of the numbers, truth values and names of a formula, in source order. -/
def Formula.leaves : {l : Level} → Formula l → List Token
  | _, .operand x => x.leaves
  | _, .link left _ right => left.leaves ++ right.leaves
  | _, .plain x => x.leaves
  | _, .compare left _ right => left.leaves ++ right.leaves
  | _, .factor _ x => x.leaves
  | _, .number word => [word.token .number]
  | _, .boolean value location => [⟨.identifier, booleanText value, location⟩]
  | _, .parentheses x => x.leaves
  | _, .conditional condition yes no => condition.leaves ++ (yes.leaves ++ no.leaves)
  | _, .name word => [word.token .identifier]

/-- The tokens of the name of a group and of the names in it. -/
def Injectable.leaves (i : Injectable) : List Token :=
  i.group.token .identifier :: i.names.flatMap fun name => [name.token .identifier]

/-- The tokens of the name of a term and of what its formula keeps. -/
def Definition.leaves (d : Definition) : List Token :=
  d.name.token .identifier :: d.body.leaves

/-- The tokens that a document keeps, in source order. -/
def Document.leaves (d : Document) : List Token :=
  d.injectables.flatMap (·.leaves) ++ d.definitions.flatMap (·.leaves)

/-- The tokens have these words, and these of them are left when some marks are taken out. -/
structure Recorded (ts : List Token) (words : List Word) (leaves : List Token) : Prop where
  map_word : ts.map Token.word = words
  keeps : Keeps ts leaves

namespace Recorded

variable {t : Token} {ts us leaves leaves' : List Token} {words words' : List Word}

lemma nil : Recorded [] [] [] :=
  ⟨rfl, .nil⟩

lemma append (h : Recorded ts words leaves) (h' : Recorded us words' leaves') :
    Recorded (ts ++ us) (words ++ words') (leaves ++ leaves') := by
  refine ⟨?_, h.keeps.append h'.keeps⟩
  rw [List.map_append, h.map_word, h'.map_word]

/-- A token with the text of a mark is this mark. -/
lemma mark {w : Word} (hmark : w ∈ markWords) (ht : t.word.Lexical) (htext : t.text = w.text)
    (h : Recorded ts words leaves) : Recorded (t :: ts) (w :: words) leaves := by
  have hw : t.word = w := ht.eq_of_text (lexical_of_mem_markWords w hmark) htext
  subst hw
  exact ⟨congrArg _ h.map_word, .drop hmark h.keeps⟩

lemma leaf {kind : TokenKind} (hkind : t.kind = kind) (h : Recorded ts words leaves) :
    Recorded (t :: ts) (⟨kind, t.text⟩ :: words) (t.terminal.token kind :: leaves) := by
  subst hkind
  exact ⟨congrArg _ h.map_word, .keep t h.keeps⟩

lemma flatMap {α : Type} {derives : List Token → α → Prop} {wordsOf : α → List Word}
    {leavesOf : α → List Token} (hitem : ∀ ts x, derives ts x → (∀ t ∈ ts, t.word.Lexical) →
      Recorded ts (wordsOf x) (leavesOf x)) {xs : List α} (h : DerivesEach derives ts xs)
    (hlex : ∀ t ∈ ts, t.word.Lexical) : Recorded ts (xs.flatMap wordsOf) (xs.flatMap leavesOf) := by
  induction h with
  | nil => exact nil
  | cons hx hxs ih =>
    rw [List.forall_mem_append] at hlex
    exact (hitem _ _ hx hlex.1).append (ih hlex.2)

end Recorded

/-- Tokens that are derived with a formula have its words, and it keeps all of them except for
marks. -/
theorem Derives.recorded {l : Level} {ts : List Token} {f : Formula l} (h : Derives ts f)
    (hlex : ∀ t ∈ ts, t.word.Lexical) : Recorded ts f.words f.leaves := by
  induction h with
  | operand hx ih => exact ih hlex
  | @link c ts us t left op right hleft hop hright ihl ihr =>
    rw [List.forall_mem_append, List.forall_mem_cons] at hlex
    obtain ⟨hts, ht, hus⟩ := hlex
    exact (ihl hts).append ((ihr hus).mark op.mem_markWords ht hop)
  | plain hx ih => exact ih hlex
  | @compare ts us t left op right hleft hop hright ihl ihr =>
    rw [List.forall_mem_append, List.forall_mem_cons] at hlex
    obtain ⟨hts, ht, hus⟩ := hlex
    exact (ihl hts).append ((ihr hus).mark op.mem_markWords ht hop)
  | bare hx ih => exact ih hlex
  | @unary t ts op x hop hx ih =>
    rw [List.forall_mem_cons] at hlex
    exact (ih hlex.2).mark op.mem_markWords hlex.1 hop
  | number hkind => exact Recorded.nil.leaf hkind
  | @boolean t value htext =>
    have ht := hlex t List.mem_cons_self
    have hword : t.word = .identifier (booleanText value) :=
      ht.eq_of_text (lexical_booleanText value) htext
    obtain ⟨kind, text, location⟩ := t
    cases hword
    exact Recorded.nil.leaf rfl
  | parentheses hopening hx hclosing ih =>
    simp only [List.forall_mem_cons, List.forall_mem_append] at hlex
    obtain ⟨hfirst, hts, hlast, -⟩ := hlex
    have hinner := (ih hts).append (Recorded.nil.mark (w := .symbol ")") (by decide) hlast hclosing)
    rw [List.append_nil] at hinner
    exact hinner.mark (w := .symbol "(") (by decide) hfirst hopening
  | conditional hif hcondition hthen hyes helse hno hend ihc ihy ihn =>
    simp only [List.forall_mem_cons, List.forall_mem_append] at hlex
    obtain ⟨htif, hts, htthen, hus, htelse, hvs, htend, -⟩ := hlex
    have hlast := Recorded.nil.mark (w := .identifier "end") (by decide) htend hend
    have hno := (ihn hvs).append hlast
    have hyes := (ihy hus).append (hno.mark (w := .identifier "else") (by decide) htelse helse)
    have hwhole := (ihc hts).append (hyes.mark (w := .identifier "then") (by decide) htthen hthen)
    rw [List.append_nil] at hwhole
    exact hwhole.mark (w := .identifier "if") (by decide) htif hif
  | name hkind hfree => exact Recorded.nil.leaf hkind

section Documents

variable {ts : List Token}

lemma DerivesNext.recorded (ts : List Token) (name : Terminal) (h : DerivesNext ts name)
    (hlex : ∀ t ∈ ts, t.word.Lexical) :
    Recorded ts [.symbol ",", .identifier name.text] [name.token .identifier] := by
  obtain ⟨hcomma, hname⟩ := h
  have htcomma := hlex _ List.mem_cons_self
  exact (Recorded.nil.leaf hname).mark (w := .symbol ",") (by decide) htcomma hcomma

lemma DerivesInjectable.recorded (ts : List Token) (i : Injectable) (h : DerivesInjectable ts i)
    (hlex : ∀ t ∈ ts, t.word.Lexical) : Recorded ts i.words i.leaves := by
  obtain ⟨hdollar, hgroup, hcolon, hfirst, hothers⟩ := h
  simp only [List.forall_mem_cons] at hlex
  obtain ⟨htdollar, -, htcolon, -, hts⟩ := hlex
  have hnames := (Recorded.flatMap DerivesNext.recorded hothers hts).leaf hfirst
  have hlist := hnames.mark (w := .symbol ":") (by decide) htcolon hcolon
  exact (hlist.leaf hgroup).mark (w := .symbol "$") (by decide) htdollar hdollar

lemma DerivesDefinition.recorded (ts : List Token) (d : Definition) (h : DerivesDefinition ts d)
    (hlex : ∀ t ∈ ts, t.word.Lexical) : Recorded ts d.words d.leaves := by
  obtain ⟨hname, hsign, hbody⟩ := h
  simp only [List.forall_mem_cons] at hlex
  obtain ⟨-, htsign, hts⟩ := hlex
  exact ((hbody.recorded hts).mark (w := .symbol "=") (by decide) htsign hsign).leaf hname

/-- Tokens that are derived with a document have its words, and it keeps all of them except for
marks. -/
theorem DerivesDocument.recorded {d : Document} (h : DerivesDocument ts d)
    (hlex : ∀ t ∈ ts, t.word.Lexical) : Recorded ts d.words d.leaves := by
  obtain ⟨hinjectables, hdefinitions⟩ := h
  rw [List.forall_mem_append] at hlex
  exact (Recorded.flatMap DerivesInjectable.recorded hinjectables hlex.1).append
    (Recorded.flatMap DerivesDefinition.recorded hdefinitions hlex.2)

end Documents

section Readable

variable {t : Token} {ts : List Token}

lemma isIdentifier_of_kind (h : t.word.Lexical) (hkind : t.kind = .identifier) :
    isIdentifier t.text.toList = true := by
  obtain ⟨kind, text, location⟩ := t
  subst hkind
  exact h

lemma isNumberLiteral_of_kind (h : t.word.Lexical) (hkind : t.kind = .number) :
    isNumberLiteral t.text.toList = true := by
  obtain ⟨kind, text, location⟩ := t
  subst hkind
  exact h

theorem Derives.readable {l : Level} {f : Formula l} (h : Derives ts f)
    (hlex : ∀ t ∈ ts, t.word.Lexical) : f.Readable := by
  induction h with
  | operand hx ih => exact ih hlex
  | link hleft hop hright ihl ihr =>
    rw [List.forall_mem_append, List.forall_mem_cons] at hlex
    exact ⟨ihl hlex.1, ihr hlex.2.2⟩
  | plain hx ih => exact ih hlex
  | compare hleft hop hright ihl ihr =>
    rw [List.forall_mem_append, List.forall_mem_cons] at hlex
    exact ⟨ihl hlex.1, ihr hlex.2.2⟩
  | bare hx ih => exact ih hlex
  | unary hop hx ih =>
    rw [List.forall_mem_cons] at hlex
    exact ih hlex.2
  | number hkind => exact isNumberLiteral_of_kind (hlex _ List.mem_cons_self) hkind
  | boolean htext => exact trivial
  | parentheses hopening hx hclosing ih =>
    rw [List.forall_mem_cons, List.forall_mem_append] at hlex
    exact ih hlex.2.1
  | conditional hif hcondition hthen hyes helse hno hend ihc ihy ihn =>
    simp only [List.forall_mem_cons, List.forall_mem_append] at hlex
    obtain ⟨-, hts, -, hus, -, hvs, -⟩ := hlex
    exact ⟨ihc hts, ihy hus, ihn hvs⟩
  | name hkind hfree =>
    exact ⟨isIdentifier_of_kind (hlex _ List.mem_cons_self) hkind, hfree⟩

lemma DerivesEach.forall_mem {α : Type} {derives : List Token → α → Prop} {P : α → Prop}
    (hitem : ∀ ts x, derives ts x → (∀ t ∈ ts, t.word.Lexical) → P x) {xs : List α}
    (h : DerivesEach derives ts xs) (hlex : ∀ t ∈ ts, t.word.Lexical) : ∀ x ∈ xs, P x := by
  induction h with
  | nil => simp
  | cons hx hxs ih =>
    rw [List.forall_mem_append] at hlex
    rw [List.forall_mem_cons]
    exact ⟨hitem _ _ hx hlex.1, ih hlex.2⟩

lemma DerivesNext.isIdentifier (ts : List Token) (name : Terminal) (h : DerivesNext ts name)
    (hlex : ∀ t ∈ ts, t.word.Lexical) : Tariff.isIdentifier name.text.toList = true := by
  obtain ⟨hcomma, hname⟩ := h
  rw [List.forall_mem_cons] at hlex
  exact isIdentifier_of_kind (hlex.2 _ List.mem_cons_self) hname

lemma DerivesInjectable.readable (ts : List Token) (i : Injectable) (h : DerivesInjectable ts i)
    (hlex : ∀ t ∈ ts, t.word.Lexical) : i.Readable := by
  obtain ⟨hdollar, hgroup, hcolon, hfirst, hothers⟩ := h
  simp only [List.forall_mem_cons] at hlex
  obtain ⟨-, htgroup, -, htfirst, hts⟩ := hlex
  refine ⟨isIdentifier_of_kind htgroup hgroup, List.cons_ne_nil _ _, ?_⟩
  rw [List.forall_mem_cons]
  exact ⟨isIdentifier_of_kind htfirst hfirst, hothers.forall_mem DerivesNext.isIdentifier hts⟩

lemma DerivesDefinition.readable (ts : List Token) (d : Definition) (h : DerivesDefinition ts d)
    (hlex : ∀ t ∈ ts, t.word.Lexical) : d.Readable := by
  obtain ⟨hname, hsign, hbody⟩ := h
  simp only [List.forall_mem_cons] at hlex
  obtain ⟨htname, -, hts⟩ := hlex
  exact ⟨isIdentifier_of_kind htname hname, hbody.readable hts⟩

/-- Tokens of the lexer are derived with readable documents only. -/
theorem DerivesDocument.readable {d : Document} (h : DerivesDocument ts d)
    (hlex : ∀ t ∈ ts, t.word.Lexical) : d.Readable := by
  obtain ⟨hinjectables, hdefinitions⟩ := h
  rw [List.forall_mem_append] at hlex
  exact ⟨hinjectables.forall_mem DerivesInjectable.readable hlex.1,
    hdefinitions.forall_mem DerivesDefinition.readable hlex.2⟩

end Readable

/-- The text of a document that was read from a source has the words of the source, and the document
keeps the tokens of the source that are no marks of its structure, each as it stood there. -/
theorem Document.text_keeps_source {source : String} {tokens : List Token} {d : Document}
    (htokens : tokenize source = .ok tokens) (hparse : ofTokens tokens = .ok d) :
    (∃ printed : List Token, tokenize d.text = .ok printed ∧
      printed.map Token.word = tokens.map Token.word) ∧
      d.leaves.Sublist tokens ∧ Keeps tokens d.leaves := by
  have hlex : ∀ t ∈ tokens, t.word.Lexical := lexical_of_tokenizeFrom htokens
  have hderives := derives_of_ofTokens hparse
  have hrecorded := hderives.recorded hlex
  obtain ⟨printed, hprinted, hwords⟩ := tokenize_text (hderives.readable hlex)
  refine ⟨⟨printed, hprinted, ?_⟩, hrecorded.keeps.sublist, hrecorded.keeps⟩
  rw [hwords, hrecorded.map_word]

/-- A source that is laid out oddly, with words of the language for names. It is printed as the two
lines `$if: end, true` and `if = 1.50 < -then`. -/
def layoutSource : String := "$if:end ,\n  true if=1.50<-then"

def layoutTokens : List Token :=
  [⟨.symbol, "$", ⟨1, 0⟩⟩, ⟨.identifier, "if", ⟨1, 1⟩⟩, ⟨.symbol, ":", ⟨1, 3⟩⟩,
    ⟨.identifier, "end", ⟨1, 4⟩⟩, ⟨.symbol, ",", ⟨1, 8⟩⟩, ⟨.identifier, "true", ⟨2, 2⟩⟩,
    ⟨.identifier, "if", ⟨2, 7⟩⟩, ⟨.symbol, "=", ⟨2, 9⟩⟩, ⟨.number, "1.50", ⟨2, 10⟩⟩,
    ⟨.symbol, "<", ⟨2, 14⟩⟩, ⟨.symbol, "-", ⟨2, 15⟩⟩, ⟨.identifier, "then", ⟨2, 16⟩⟩]

def layoutDocument : Document where
  injectables := [⟨⟨"if", ⟨1, 1⟩⟩, [⟨"end", ⟨1, 4⟩⟩, ⟨"true", ⟨2, 2⟩⟩]⟩]
  definitions := [⟨⟨"if", ⟨2, 7⟩⟩,
    .operand (.compare (.operand (.operand (.factor none (.number ⟨"1.50", ⟨2, 10⟩⟩)))) .less
      (.plain (.operand (.operand (.factor (some .negate) (.name ⟨"then", ⟨2, 16⟩⟩))))))⟩]

theorem Document.text_keeps_layoutSource :
    tokenize layoutSource = .ok layoutTokens ∧ ofTokens layoutTokens = .ok layoutDocument ∧
      (∃ printed : List Token, tokenize layoutDocument.text = .ok printed ∧
        printed.map Token.word = layoutTokens.map Token.word) ∧
      layoutDocument.leaves.Sublist layoutTokens ∧ Keeps layoutTokens layoutDocument.leaves := by
  have htokens : tokenize layoutSource = .ok layoutTokens := by cbv
  have hparse : ofTokens layoutTokens = .ok layoutDocument := by cbv
  exact ⟨htokens, hparse, text_keeps_source htokens hparse⟩

end Tariff
