import Tariff.Proofs.PrintedWords

/-!
# Tokens derived from the grammar

`Derives ts f` says that the grammar derives the tokens `ts` with the tree `f`: one constructor for
each form a formula has, with the tokens that this form is written with. The same is said of groups,
definitions and documents. It knows nothing of the order in which a parser tries the forms.

A tree is read up to places through `unplaced`. The words of a readable tree, wherever they stand,
are derived with that tree but for the places (`Document.exists_derives`).
-/

namespace Tariff

/-- The tokens are derived with this formula. -/
inductive Derives : {l : Level} → List Token → Formula l → Prop where
  | operand {c : Chain} {ts : List Token} {x : Formula c.operand} (hx : Derives ts x) :
    Derives ts (.operand x)
  | link {c : Chain} {ts us : List Token} {t : Token} {left : Formula (.chain c)} {op : Connective c}
      {right : Formula c.operand} (hleft : Derives ts left) (hop : t.text = op.symbol)
      (hright : Derives us right) :
    Derives (ts ++ t :: us) (.link left op right)
  | plain {ts : List Token} {x : Formula (.chain .sum)} (hx : Derives ts x) : Derives ts (.plain x)
  | compare {ts us : List Token} {t : Token} {left : Formula (.chain .sum)} {op : Comparison}
      {right : Formula .comparison} (hleft : Derives ts left) (hop : t.text = op.symbol)
      (hright : Derives us right) :
    Derives (ts ++ t :: us) (.compare left op right)
  | bare {ts : List Token} {x : Formula .atom} (hx : Derives ts x) : Derives ts (.factor none x)
  | unary {t : Token} {ts : List Token} {op : Unary} {x : Formula .atom} (hop : t.text = op.symbol)
      (hx : Derives ts x) :
    Derives (t :: ts) (.factor (some op) x)
  | number {t : Token} (hkind : t.kind = .number) : Derives [t] (.number t.terminal)
  | boolean {t : Token} {value : Bool} (htext : t.text = booleanText value) :
    Derives [t] (.boolean value t.location)
  | parentheses {opening closing : Token} {ts : List Token} {x : Expression}
      (hopening : opening.text = "(") (hx : Derives ts x) (hclosing : closing.text = ")") :
    Derives (opening :: (ts ++ [closing])) (.parentheses x)
  | conditional {tif tthen telse tend : Token} {ts us vs : List Token} {condition yes no : Expression}
      (hif : tif.text = "if") (hcondition : Derives ts condition) (hthen : tthen.text = "then")
      (hyes : Derives us yes) (helse : telse.text = "else") (hno : Derives vs no)
      (hend : tend.text = "end") :
    Derives (tif :: (ts ++ tthen :: (us ++ telse :: (vs ++ [tend])))) (.conditional condition yes no)
  | name {t : Token} (hkind : t.kind = .identifier) (hfree : t.text ∉ reservedWords) :
    Derives [t] (.name t.terminal)

/-- The tokens are cut up into pieces, each derived with one of the trees. -/
inductive DerivesEach {α : Type} (derives : List Token → α → Prop) : List Token → List α → Prop where
  | nil : DerivesEach derives [] []
  | cons {ts us : List Token} {x : α} {xs : List α} (hx : derives ts x)
      (hxs : DerivesEach derives us xs) :
    DerivesEach derives (ts ++ us) (x :: xs)

lemma DerivesEach.concat {α : Type} {derives : List Token → α → Prop} {ts us : List Token}
    {xs : List α} {x : α} (h : DerivesEach derives ts xs) (hx : derives us x) :
    DerivesEach derives (ts ++ us) (xs ++ [x]) := by
  induction h with
  | nil =>
    have hone := DerivesEach.cons hx .nil
    rwa [List.append_nil] at hone
  | cons hy _ ih =>
    rw [List.append_assoc]
    exact .cons hy ih

/-- The tokens are a comma and a name. -/
inductive DerivesNext : List Token → Terminal → Prop where
  | next {comma name : Token} (hcomma : comma.text = ",") (hname : name.kind = .identifier) :
    DerivesNext [comma, name] name.terminal

/-- The tokens are derived with this group. -/
inductive DerivesInjectable : List Token → Injectable → Prop where
  | group {dollar group colon first : Token} {ts : List Token} {others : List Terminal}
      (hdollar : dollar.text = "$") (hgroup : group.kind = .identifier) (hcolon : colon.text = ":")
      (hfirst : first.kind = .identifier) (hothers : DerivesEach DerivesNext ts others) :
    DerivesInjectable (dollar :: group :: colon :: first :: ts)
      ⟨group.terminal, first.terminal :: others⟩

/-- The tokens are derived with this definition. -/
inductive DerivesDefinition : List Token → Definition → Prop where
  | definition {name sign : Token} {ts : List Token} {body : Expression}
      (hname : name.kind = .identifier) (hsign : sign.text = "=") (hbody : Derives ts body) :
    DerivesDefinition (name :: sign :: ts) ⟨name.terminal, body⟩

/-- The tokens are derived with this document. -/
inductive DerivesDocument : List Token → Document → Prop where
  | document {ts us : List Token} {injectables : List Injectable} {definitions : List Definition}
      (hinjectables : DerivesEach DerivesInjectable ts injectables)
      (hdefinitions : DerivesEach DerivesDefinition us definitions) :
    DerivesDocument (ts ++ us) ⟨injectables, definitions⟩

/-- The terminal with its place forgotten. -/
def Terminal.unplaced (t : Terminal) : Terminal :=
  ⟨t.text, .start⟩

/-- The formula with every place forgotten. -/
def Formula.unplaced : {l : Level} → Formula l → Formula l
  | _, .operand x => .operand x.unplaced
  | _, .link left op right => .link left.unplaced op right.unplaced
  | _, .plain x => .plain x.unplaced
  | _, .compare left op right => .compare left.unplaced op right.unplaced
  | _, .factor op x => .factor op x.unplaced
  | _, .number word => .number word.unplaced
  | _, .boolean value _ => .boolean value .start
  | _, .parentheses x => .parentheses x.unplaced
  | _, .conditional condition yes no => .conditional condition.unplaced yes.unplaced no.unplaced
  | _, .name word => .name word.unplaced

/-- The group with every place forgotten. -/
def Injectable.unplaced (i : Injectable) : Injectable :=
  ⟨i.group.unplaced, i.names.map (·.unplaced)⟩

/-- The definition with every place forgotten. -/
def Definition.unplaced (d : Definition) : Definition :=
  ⟨d.name.unplaced, d.body.unplaced⟩

/-- The document with every place forgotten. -/
def Document.unplaced (d : Document) : Document :=
  ⟨d.injectables.map (·.unplaced), d.definitions.map (·.unplaced)⟩

lemma Token.unplaced_terminal {t : Token} {kind : TokenKind} {word : Terminal}
    (h : t.word = ⟨kind, word.text⟩) : t.terminal.unplaced = word.unplaced := by
  have htext : t.text = word.text := congrArg Word.text h
  rw [Terminal.unplaced, Terminal.unplaced, terminal, htext]

theorem Formula.exists_derives {l : Level} {f : Formula l} (h : f.Readable) {ts : List Token}
    (hts : ts.map Token.word = f.words) : ∃ g : Formula l, Derives ts g ∧ g.unplaced = f.unplaced := by
  induction f generalizing ts with
  | operand x ih =>
    obtain ⟨g, hg, hgx⟩ := ih h hts
    exact ⟨.operand g, .operand hg, by rw [unplaced, unplaced, hgx]⟩
  | link left op right ihl ihr =>
    obtain ⟨ls, rs, rfl, hls, hrs⟩ := List.map_eq_append_iff.mp hts
    obtain ⟨t, rs, rfl, ht, hrs⟩ := List.map_eq_cons_iff.mp hrs
    obtain ⟨gl, hgl, hgl'⟩ := ihl h.1 hls
    obtain ⟨gr, hgr, hgr'⟩ := ihr h.2 hrs
    exact ⟨.link gl op gr, .link hgl (congrArg Word.text ht) hgr,
      by rw [unplaced, unplaced, hgl', hgr']⟩
  | plain x ih =>
    obtain ⟨g, hg, hgx⟩ := ih h hts
    exact ⟨.plain g, .plain hg, by rw [unplaced, unplaced, hgx]⟩
  | compare left op right ihl ihr =>
    obtain ⟨ls, rs, rfl, hls, hrs⟩ := List.map_eq_append_iff.mp hts
    obtain ⟨t, rs, rfl, ht, hrs⟩ := List.map_eq_cons_iff.mp hrs
    obtain ⟨gl, hgl, hgl'⟩ := ihl h.1 hls
    obtain ⟨gr, hgr, hgr'⟩ := ihr h.2 hrs
    exact ⟨.compare gl op gr, .compare hgl (congrArg Word.text ht) hgr,
      by rw [unplaced, unplaced, hgl', hgr']⟩
  | factor op x ih =>
    cases op with
    | none =>
      obtain ⟨g, hg, hgx⟩ := ih h hts
      exact ⟨.factor none g, .bare hg, by rw [unplaced, unplaced, hgx]⟩
    | some op =>
      obtain ⟨t, ts, rfl, ht, hts⟩ := List.map_eq_cons_iff.mp hts
      obtain ⟨g, hg, hgx⟩ := ih h hts
      exact ⟨.factor (some op) g, .unary (congrArg Word.text ht) hg, by rw [unplaced, unplaced, hgx]⟩
  | number word =>
    obtain ⟨t, rfl, ht⟩ := List.map_eq_singleton_iff.mp hts
    exact ⟨.number t.terminal, .number (congrArg Word.kind ht),
      congrArg Formula.number (t.unplaced_terminal ht)⟩
  | boolean value location =>
    obtain ⟨t, rfl, ht⟩ := List.map_eq_singleton_iff.mp hts
    exact ⟨.boolean value t.location, .boolean (congrArg Word.text ht), rfl⟩
  | parentheses x ih =>
    obtain ⟨opening, us, rfl, hopening, hus⟩ := List.map_eq_cons_iff.mp hts
    obtain ⟨us, vs, rfl, hinner, hvs⟩ := List.map_eq_append_iff.mp hus
    obtain ⟨closing, rfl, hclosing⟩ := List.map_eq_singleton_iff.mp hvs
    obtain ⟨g, hg, hgx⟩ := ih h hinner
    exact ⟨.parentheses g, .parentheses (congrArg Word.text hopening) hg (congrArg Word.text hclosing),
      by rw [unplaced, unplaced, hgx]⟩
  | conditional condition yes no ihc ihy ihn =>
    obtain ⟨hc, hy, hn⟩ := h
    obtain ⟨tif, ts₁, rfl, hif, hts₁⟩ := List.map_eq_cons_iff.mp hts
    obtain ⟨cs, ts₂, rfl, hcs, hts₂⟩ := List.map_eq_append_iff.mp hts₁
    obtain ⟨tthen, ts₃, rfl, hthen, hts₃⟩ := List.map_eq_cons_iff.mp hts₂
    obtain ⟨ys, ts₄, rfl, hys, hts₄⟩ := List.map_eq_append_iff.mp hts₃
    obtain ⟨telse, ts₅, rfl, helse, hts₅⟩ := List.map_eq_cons_iff.mp hts₄
    obtain ⟨ns, ts₆, rfl, hns, hts₆⟩ := List.map_eq_append_iff.mp hts₅
    obtain ⟨tend, rfl, hend⟩ := List.map_eq_singleton_iff.mp hts₆
    obtain ⟨gc, hgc, hgc'⟩ := ihc hc hcs
    obtain ⟨gy, hgy, hgy'⟩ := ihy hy hys
    obtain ⟨gn, hgn, hgn'⟩ := ihn hn hns
    exact ⟨.conditional gc gy gn, .conditional (congrArg Word.text hif) hgc (congrArg Word.text hthen)
      hgy (congrArg Word.text helse) hgn (congrArg Word.text hend),
      by rw [unplaced, unplaced, hgc', hgy', hgn']⟩
  | name word =>
    obtain ⟨t, rfl, ht⟩ := List.map_eq_singleton_iff.mp hts
    have htext : t.text = word.text := congrArg Word.text ht
    exact ⟨.name t.terminal, .name (congrArg Word.kind ht) (htext ▸ h.2),
      congrArg Formula.name (t.unplaced_terminal ht)⟩

lemma DerivesEach.exists_of_words {α : Type} {derives : List Token → α → Prop} {words : α → List Word}
    {unplaced : α → α} {xs : List α} (h : ∀ x ∈ xs, ∀ ts : List Token, ts.map Token.word = words x →
      ∃ y : α, derives ts y ∧ unplaced y = unplaced x) {ts : List Token}
    (hts : ts.map Token.word = xs.flatMap words) :
    ∃ ys : List α, DerivesEach derives ts ys ∧ ys.map unplaced = xs.map unplaced := by
  induction xs generalizing ts with
  | nil =>
    obtain rfl := List.map_eq_nil_iff.mp hts
    exact ⟨[], .nil, rfl⟩
  | cons x xs ih =>
    rw [List.flatMap_cons] at hts
    obtain ⟨ts, us, rfl, hts, hus⟩ := List.map_eq_append_iff.mp hts
    obtain ⟨y, hy, hyx⟩ := h x List.mem_cons_self ts hts
    obtain ⟨ys, hys, hysx⟩ := ih (fun z hz => h z (List.mem_cons_of_mem x hz)) hus
    exact ⟨y :: ys, .cons hy hys, by rw [List.map_cons, List.map_cons, hyx, hysx]⟩

lemma Terminal.exists_derivesNext (x : Terminal) (ts : List Token)
    (hts : ts.map Token.word = [.symbol ",", .identifier x.text]) :
    ∃ y : Terminal, DerivesNext ts y ∧ y.unplaced = x.unplaced := by
  obtain ⟨comma, ts, rfl, hcomma, hts⟩ := List.map_eq_cons_iff.mp hts
  obtain ⟨name, rfl, hname⟩ := List.map_eq_singleton_iff.mp hts
  exact ⟨name.terminal, .next (congrArg Word.text hcomma) (congrArg Word.kind hname),
    name.unplaced_terminal hname⟩

lemma Injectable.exists_derives {i : Injectable} (h : i.Readable) (ts : List Token)
    (hts : ts.map Token.word = i.words) :
    ∃ j : Injectable, DerivesInjectable ts j ∧ j.unplaced = i.unplaced := by
  obtain ⟨group, names⟩ := i
  obtain ⟨-, hne, -⟩ := h
  obtain ⟨name, names, rfl⟩ := List.exists_cons_of_ne_nil hne
  obtain ⟨dollar, ts, rfl, hdollar, hts⟩ := List.map_eq_cons_iff.mp hts
  obtain ⟨tgroup, ts, rfl, hgroup, hts⟩ := List.map_eq_cons_iff.mp hts
  obtain ⟨colon, ts, rfl, hcolon, hts⟩ := List.map_eq_cons_iff.mp hts
  obtain ⟨first, ts, rfl, hfirst, hts⟩ := List.map_eq_cons_iff.mp hts
  obtain ⟨others, hothers, hothers'⟩ :=
    DerivesEach.exists_of_words (fun x _ => x.exists_derivesNext) hts
  refine ⟨_, .group (congrArg Word.text hdollar) (congrArg Word.kind hgroup)
    (congrArg Word.text hcolon) (congrArg Word.kind hfirst) hothers, ?_⟩
  simp only [unplaced, List.map_cons, hothers', tgroup.unplaced_terminal hgroup,
    first.unplaced_terminal hfirst]

lemma Definition.exists_derives {d : Definition} (h : d.Readable) (ts : List Token)
    (hts : ts.map Token.word = d.words) :
    ∃ e : Definition, DerivesDefinition ts e ∧ e.unplaced = d.unplaced := by
  obtain ⟨name, ts, rfl, hname, hts⟩ := List.map_eq_cons_iff.mp hts
  obtain ⟨sign, ts, rfl, hsign, hts⟩ := List.map_eq_cons_iff.mp hts
  obtain ⟨body, hbody, hbody'⟩ := Formula.exists_derives h.2 hts
  refine ⟨_, .definition (congrArg Word.kind hname) (congrArg Word.text hsign) hbody, ?_⟩
  simp only [unplaced, hbody', name.unplaced_terminal hname]

/-- The words of a readable document are derived with it, up to places. -/
theorem Document.exists_derives {d : Document} (h : d.Readable) {ts : List Token}
    (hts : ts.map Token.word = d.words) :
    ∃ e : Document, DerivesDocument ts e ∧ e.unplaced = d.unplaced := by
  obtain ⟨ts, us, rfl, hts, hus⟩ := List.map_eq_append_iff.mp hts
  obtain ⟨injectables, hi, hi'⟩ :=
    DerivesEach.exists_of_words (fun i hmem => Injectable.exists_derives (h.1 i hmem)) hts
  obtain ⟨definitions, hd, hd'⟩ :=
    DerivesEach.exists_of_words (fun e hmem => Definition.exists_derives (h.2 e hmem)) hus
  exact ⟨_, .document hi hd, by simp only [unplaced, hi', hd']⟩

end Tariff
