import Tariff.Proofs.Soundness

/-!
# Derivation trees

A derivation tree says how tokens come from the grammar: for each rule it holds what the rule is
written with, down to the tokens. A chain is a first operand and its links in source order, as in

    expression := comparison { ("&&" | "||") comparison }
    comparison := sum [ (">" | ">=" | "<" | "<=" | "==" | "!=") comparison ]
    sum        := product { ("+" | "-") product }
    product    := factor { ("*" | "/") factor }
    factor     := [ "!" | "-" ] atom
    atom       := number | "true" | "false" | "(" expression ")" | conditional | id
    conditional := "if" expression "then" expression "else" expression "end"

where the last alternative of an atom is an identifier that is not reserved. The tokens of a tree are
read off it from left to right. Tokens of the lexer have at most one derivation tree, and exactly when
they have one they are parsed, as the document of this tree (`Document.parses_iff_derivation`).
-/

namespace Tariff

/-- A token with this text. -/
abbrev Written (text : String) : Type :=
  {t : Token // t.text = text}

/-- A token of this kind. -/
abbrev OfKind (kind : TokenKind) : Type :=
  {t : Token // t.kind = kind}

mutual

/-- A derivation from the rule of a level. -/
inductive DerivationTree : Level → Type where
  | chain {c : Chain} (first : DerivationTree c.operand) (links : DerivationLinks c) :
    DerivationTree (.chain c)
  | plain (value : DerivationTree (.chain .sum)) : DerivationTree .comparison
  | compare (left : DerivationTree (.chain .sum)) (op : Comparison) (sign : Written op.symbol)
      (right : DerivationTree .comparison) : DerivationTree .comparison
  | bare (base : DerivationTree .atom) : DerivationTree .factor
  | unary (op : Unary) (sign : Written op.symbol) (base : DerivationTree .atom) :
    DerivationTree .factor
  | number (word : OfKind .number) : DerivationTree .atom
  | boolean (value : Bool) (word : Written (booleanText value)) : DerivationTree .atom
  | parentheses (opening : Written "(") (inner : DerivationTree (.chain .logic))
      (closing : Written ")") : DerivationTree .atom
  | conditional (tif : Written "if") (condition : DerivationTree (.chain .logic))
      (tthen : Written "then") (yes : DerivationTree (.chain .logic)) (telse : Written "else")
      (no : DerivationTree (.chain .logic)) (tend : Written "end") : DerivationTree .atom
  | name (word : {t : Token // t.kind = .identifier ∧ t.text ∉ reservedWords}) :
    DerivationTree .atom

/-- The operators of a chain, each with the operand after it. -/
inductive DerivationLinks : Chain → Type where
  | nil {c : Chain} : DerivationLinks c
  | cons {c : Chain} (op : Connective c) (sign : Written op.symbol)
      (operand : DerivationTree c.operand) (rest : DerivationLinks c) : DerivationLinks c

end

mutual

/-- The tokens of a derivation, from left to right. -/
def DerivationTree.tokens : {l : Level} → DerivationTree l → List Token
  | _, .chain first links => first.tokens ++ links.tokens
  | _, .plain value => value.tokens
  | _, .compare left _ sign right => left.tokens ++ sign.val :: right.tokens
  | _, .bare base => base.tokens
  | _, .unary _ sign base => sign.val :: base.tokens
  | _, .number word => [word.val]
  | _, .boolean _ word => [word.val]
  | _, .parentheses opening inner closing => opening.val :: (inner.tokens ++ [closing.val])
  | _, .conditional tif condition tthen yes telse no tend =>
    tif.val :: (condition.tokens ++ tthen.val :: (yes.tokens ++ telse.val ::
      (no.tokens ++ [tend.val])))
  | _, .name word => [word.val]

def DerivationLinks.tokens : {c : Chain} → DerivationLinks c → List Token
  | _, .nil => []
  | _, .cons _ sign operand rest => (sign.val :: operand.tokens) ++ rest.tokens

end

mutual

/-- The formula of a derivation. -/
def DerivationTree.formula : {l : Level} → DerivationTree l → Formula l
  | _, .chain first links => .chainOf first.formula links.formulas
  | _, .plain value => .plain value.formula
  | _, .compare left op _ right => .compare left.formula op right.formula
  | _, .bare base => .factor none base.formula
  | _, .unary op _ base => .factor (some op) base.formula
  | _, .number word => .number word.val.terminal
  | _, .boolean value word => .boolean value word.val.location
  | _, .parentheses _ inner _ => .parentheses inner.formula
  | _, .conditional _ condition _ yes _ no _ =>
    .conditional condition.formula yes.formula no.formula
  | _, .name word => .name word.val.terminal

/-- The operators of a chain with their operands, in source order. -/
def DerivationLinks.formulas : {c : Chain} → DerivationLinks c →
    List (Connective c × Formula c.operand)
  | _, .nil => []
  | _, .cons op _ operand rest => (op, operand.formula) :: rest.formulas

end

mutual

theorem DerivationTree.derives : {l : Level} → (D : DerivationTree l) → Derives D.tokens D.formula
  | _, .chain first links => first.derives.chain links.derives
  | _, .plain value => .plain value.derives
  | _, .compare left _ sign right => .compare left.derives sign.property right.derives
  | _, .bare base => .bare base.derives
  | _, .unary _ sign base => .unary sign.property base.derives
  | _, .number word => .number word.property
  | _, .boolean _ word => .boolean word.property
  | _, .parentheses opening inner closing =>
    .parentheses opening.property inner.derives closing.property
  | _, .conditional tif condition tthen yes telse no tend =>
    .conditional tif.property condition.derives tthen.property yes.derives telse.property no.derives
      tend.property
  | _, .name word => .name word.property.1 word.property.2

lemma DerivationLinks.derives : {c : Chain} → (L : DerivationLinks c) →
    DerivesEach (DerivesLink c) L.tokens L.formulas
  | _, .nil => .nil
  | _, .cons _ sign operand rest => .cons (.link sign.property operand.derives) rest.derives

end

/-- The links with one more at the end. -/
def DerivationLinks.snoc {c : Chain} : DerivationLinks c → (op : Connective c) →
    Written op.symbol → DerivationTree c.operand → DerivationLinks c
  | .nil, op, sign, operand => .cons op sign operand .nil
  | .cons op' sign' operand' rest, op, sign, operand =>
    .cons op' sign' operand' (rest.snoc op sign operand)

namespace DerivationLinks

variable {c : Chain}

lemma tokens_snoc (op : Connective c) (sign : Written op.symbol) (operand : DerivationTree c.operand) :
    (L : DerivationLinks c) → (L.snoc op sign operand).tokens =
      L.tokens ++ sign.val :: operand.tokens
  | .nil => by simp only [snoc, tokens, List.append_nil, List.nil_append]
  | .cons op' sign' operand' rest => by
    simp only [snoc, tokens, tokens_snoc op sign operand rest, List.append_assoc, List.cons_append]

lemma formulas_snoc (op : Connective c) (sign : Written op.symbol)
    (operand : DerivationTree c.operand) : (L : DerivationLinks c) →
      (L.snoc op sign operand).formulas = L.formulas ++ [(op, operand.formula)]
  | .nil => by simp only [snoc, formulas, List.nil_append]
  | .cons op' sign' operand' rest => by
    simp only [snoc, formulas, formulas_snoc op sign operand rest, List.cons_append]

end DerivationLinks

theorem Derives.exists_tree {l : Level} {ts : List Token} {f : Formula l} (h : Derives ts f) :
    ∃ D : DerivationTree l, D.tokens = ts ∧ D.formula = f := by
  induction h with
  | operand hx ih =>
    obtain ⟨D, rfl, rfl⟩ := ih
    exact ⟨.chain D .nil, List.append_nil D.tokens, rfl⟩
  | @link c ts us t left op right hleft hop hright ihl ihr =>
    obtain ⟨L, rfl, rfl⟩ := ihl
    obtain ⟨R, rfl, rfl⟩ := ihr
    -- a formula ends with the last link of its chain, a tree begins with the first
    cases L with
    | chain first links =>
      refine ⟨.chain first (links.snoc op ⟨t, hop⟩ R), ?_, ?_⟩
      · simp only [DerivationTree.tokens, links.tokens_snoc, List.append_assoc]
      · simp only [DerivationTree.formula, links.formulas_snoc, Formula.chainOf_append_singleton]
  | plain hx ih =>
    obtain ⟨D, rfl, rfl⟩ := ih
    exact ⟨.plain D, rfl, rfl⟩
  | @compare ts us t left op right hleft hop hright ihl ihr =>
    obtain ⟨L, rfl, rfl⟩ := ihl
    obtain ⟨R, rfl, rfl⟩ := ihr
    exact ⟨.compare L op ⟨t, hop⟩ R, rfl, rfl⟩
  | bare hx ih =>
    obtain ⟨D, rfl, rfl⟩ := ih
    exact ⟨.bare D, rfl, rfl⟩
  | @unary t ts op x hop hx ih =>
    obtain ⟨D, rfl, rfl⟩ := ih
    exact ⟨.unary op ⟨t, hop⟩ D, rfl, rfl⟩
  | @number t hkind => exact ⟨.number ⟨t, hkind⟩, rfl, rfl⟩
  | @boolean t value htext => exact ⟨.boolean value ⟨t, htext⟩, rfl, rfl⟩
  | @parentheses opening closing ts x hopening hx hclosing ih =>
    obtain ⟨D, rfl, rfl⟩ := ih
    exact ⟨.parentheses ⟨opening, hopening⟩ D ⟨closing, hclosing⟩, rfl, rfl⟩
  | @conditional tif tthen telse tend ts us vs condition yes no hif hcondition hthen hyes helse hno
      hend ihc ihy ihn =>
    obtain ⟨C, rfl, rfl⟩ := ihc
    obtain ⟨Y, rfl, rfl⟩ := ihy
    obtain ⟨N, rfl, rfl⟩ := ihn
    exact ⟨.conditional ⟨tif, hif⟩ C ⟨tthen, hthen⟩ Y ⟨telse, helse⟩ N ⟨tend, hend⟩, rfl, rfl⟩
  | @name t hkind hfree => exact ⟨.name ⟨t, hkind, hfree⟩, rfl, rfl⟩

/-! ### Tokens and formula make up the tree

How many tokens a part of a tree has can be seen from its formula. So two trees with the same tokens
and the same formula are cut at the same places. -/

theorem Derives.length_eq {l : Level} {ts : List Token} {f : Formula l} (h : Derives ts f) :
    ts.length = f.words.length := by
  induction h with
  | operand hx ih => exact ih
  | link hleft hop hright ihl ihr =>
    simp only [Formula.words, List.length_append, List.length_cons, ihl, ihr]
  | plain hx ih => exact ih
  | compare hleft hop hright ihl ihr =>
    simp only [Formula.words, List.length_append, List.length_cons, ihl, ihr]
  | bare hx ih => exact ih
  | unary hop hx ih => simp only [Formula.words, List.length_cons, ih]
  | number hkind => rfl
  | boolean htext => rfl
  | parentheses hopening hx hclosing ih =>
    simp only [Formula.words, List.length_append, List.length_cons, List.length_nil, ih]
  | conditional hif hcondition hthen hyes helse hno hend ihc ihy ihn =>
    simp only [Formula.words, List.length_append, List.length_cons, List.length_nil, ihc, ihy, ihn]
  | name hkind hfree => rfl

lemma DerivationTree.length_eq {l : Level} {D E : DerivationTree l} (h : D.formula = E.formula) :
    D.tokens.length = E.tokens.length := by
  rw [D.derives.length_eq, E.derives.length_eq, h]

namespace Formula

variable {c : Chain} {x y : Formula c.operand} {xs ys : List (Connective c × Formula c.operand)}

/-- Links at the end leave the first operand as it is and stand after the links before them. -/
lemma first_and_links_foldl (left : Formula (.chain c))
    (xs : List (Connective c × Formula c.operand)) :
    (xs.foldl (fun left (op, right) => link left op right) left).first = left.first ∧
      (xs.foldl (fun left (op, right) => link left op right) left).links = left.links ++ xs := by
  induction xs generalizing left with
  | nil => exact ⟨rfl, (List.append_nil left.links).symm⟩
  | cons x xs ih =>
    obtain ⟨hfirst, hlinks⟩ := ih (link left x.1 x.2)
    rw [first_link] at hfirst
    rw [links_link, List.append_assoc, List.singleton_append] at hlinks
    exact ⟨hfirst, hlinks⟩

lemma chainOf_injective (h : chainOf x xs = chainOf y ys) : x = y ∧ xs = ys := by
  obtain ⟨hxfirst, hxlinks⟩ := first_and_links_foldl (operand x) xs
  obtain ⟨hyfirst, hylinks⟩ := first_and_links_foldl (operand y) ys
  unfold chainOf at h
  rw [h, hyfirst, first_operand, first_operand] at hxfirst
  rw [h, hylinks, links_operand, links_operand] at hxlinks
  exact ⟨hxfirst.symm, hxlinks.symm⟩

end Formula

mutual

theorem DerivationTree.eq_of_tokens : {l : Level} → (D E : DerivationTree l) →
    D.tokens = E.tokens → D.formula = E.formula → D = E
  | _, .chain first links, .chain first' links', htokens, hformula => by
    obtain ⟨hfirst, hlinks⟩ := Formula.chainOf_injective hformula
    obtain ⟨hts, hus⟩ := List.append_inj htokens (DerivationTree.length_eq hfirst)
    rw [first.eq_of_tokens first' hts hfirst, links.eq_of_tokens links' hus hlinks]
  | _, .plain value, E, htokens, hformula => by
    cases E with
    | plain value' => rw [value.eq_of_tokens value' htokens (Formula.plain.inj hformula)]
    | compare => cases hformula
  | _, .compare left op sign right, E, htokens, hformula => by
    cases E with
    | plain => cases hformula
    | compare left' op' sign' right' =>
      obtain ⟨hleft, rfl, hright⟩ := Formula.compare.inj hformula
      obtain ⟨hts, hus⟩ := List.append_inj htokens (DerivationTree.length_eq hleft)
      obtain ⟨hsign, hus⟩ := List.cons.inj hus
      rw [left.eq_of_tokens left' hts hleft, Subtype.ext hsign, right.eq_of_tokens right' hus hright]
  | _, .bare base, E, htokens, hformula => by
    cases E with
    | bare base' => rw [base.eq_of_tokens base' htokens (Formula.factor.inj hformula).2]
    | unary => cases hformula
  | _, .unary op sign base, E, htokens, hformula => by
    cases E with
    | bare => cases hformula
    | unary op' sign' base' =>
      obtain ⟨hop, hbase⟩ := Formula.factor.inj hformula
      obtain rfl := Option.some.inj hop
      obtain ⟨hsign, hts⟩ := List.cons.inj htokens
      rw [Subtype.ext hsign, base.eq_of_tokens base' hts hbase]
  | _, .number word, E, htokens, hformula => by
    cases E with
    | number word' => rw [Subtype.ext (List.head_eq_of_cons_eq htokens)]
    | _ => cases hformula
  | _, .boolean value word, E, htokens, hformula => by
    cases E with
    | boolean value' word' =>
      obtain ⟨rfl, -⟩ := Formula.boolean.inj hformula
      rw [Subtype.ext (List.head_eq_of_cons_eq htokens)]
    | _ => cases hformula
  | _, .parentheses opening inner closing, E, htokens, hformula => by
    cases E with
    | parentheses opening' inner' closing' =>
      have hinner := Formula.parentheses.inj hformula
      obtain ⟨hopening, htokens⟩ := List.cons.inj htokens
      obtain ⟨hts, hclosing⟩ := List.append_inj htokens (DerivationTree.length_eq hinner)
      rw [Subtype.ext hopening, inner.eq_of_tokens inner' hts hinner,
        Subtype.ext (List.head_eq_of_cons_eq hclosing)]
    | _ => cases hformula
  | _, .conditional tif condition tthen yes telse no tend, E, htokens, hformula => by
    cases E with
    | conditional tif' condition' tthen' yes' telse' no' tend' =>
      obtain ⟨hcondition, hyes, hno⟩ := Formula.conditional.inj hformula
      obtain ⟨hif, htokens⟩ := List.cons.inj htokens
      obtain ⟨hcs, htokens⟩ := List.append_inj htokens (DerivationTree.length_eq hcondition)
      obtain ⟨hthen, htokens⟩ := List.cons.inj htokens
      obtain ⟨hys, htokens⟩ := List.append_inj htokens (DerivationTree.length_eq hyes)
      obtain ⟨helse, htokens⟩ := List.cons.inj htokens
      obtain ⟨hns, hend⟩ := List.append_inj htokens (DerivationTree.length_eq hno)
      rw [Subtype.ext hif, condition.eq_of_tokens condition' hcs hcondition, Subtype.ext hthen,
        yes.eq_of_tokens yes' hys hyes, Subtype.ext helse, no.eq_of_tokens no' hns hno,
        Subtype.ext (List.head_eq_of_cons_eq hend)]
    | _ => cases hformula
  | _, .name word, E, htokens, hformula => by
    cases E with
    | name word' => rw [Subtype.ext (List.head_eq_of_cons_eq htokens)]
    | _ => cases hformula

lemma DerivationLinks.eq_of_tokens : {c : Chain} → (L M : DerivationLinks c) →
    L.tokens = M.tokens → L.formulas = M.formulas → L = M
  | _, .nil, .nil, _, _ => rfl
  | _, .cons op sign operand rest, .cons op' sign' operand' rest', htokens, hformulas => by
    obtain ⟨hlink, hrest⟩ := List.cons.inj hformulas
    obtain ⟨rfl, hoperand⟩ := Prod.mk.inj hlink
    obtain ⟨hsign, htokens⟩ := List.cons.inj htokens
    obtain ⟨hts, hus⟩ := List.append_inj htokens (DerivationTree.length_eq hoperand)
    rw [Subtype.ext hsign, operand.eq_of_tokens operand' hts hoperand,
      rest.eq_of_tokens rest' hus hrest]

end

section Lists

variable {α δ : Type} {derives : List Token → α → Prop} {tokens : δ → List Token} {value : δ → α}

lemma derivesEach_flatMap (h : ∀ D : δ, derives (tokens D) (value D)) (Ds : List δ) :
    DerivesEach derives (Ds.flatMap tokens) (Ds.map value) := by
  induction Ds with
  | nil => exact .nil
  | cons D Ds ih => exact .cons (h D) ih

lemma DerivesEach.exists_list (h : ∀ ts x, derives ts x → ∃ D : δ, tokens D = ts ∧ value D = x)
    {ts : List Token} {xs : List α} (hxs : DerivesEach derives ts xs) :
    ∃ Ds : List δ, Ds.flatMap tokens = ts ∧ Ds.map value = xs := by
  induction hxs with
  | nil => exact ⟨[], rfl, rfl⟩
  | cons hx _ ih =>
    obtain ⟨D, rfl, rfl⟩ := h _ _ hx
    obtain ⟨Ds, rfl, rfl⟩ := ih
    exact ⟨D :: Ds, rfl, rfl⟩

/-- Pieces whose number of tokens can be seen from their values are cut at the same places. -/
lemma eq_of_flatMap (hlength : ∀ D E : δ, value D = value E → (tokens D).length = (tokens E).length)
    (heq : ∀ D E : δ, tokens D = tokens E → value D = value E → D = E) {Ds Es : List δ}
    (htokens : Ds.flatMap tokens = Es.flatMap tokens) (hvalues : Ds.map value = Es.map value) :
    Ds = Es := by
  induction Ds generalizing Es with
  | nil => exact (List.map_eq_nil_iff.mp hvalues.symm).symm
  | cons D Ds ih =>
    obtain ⟨E, Es, rfl, hvalue, hvalues⟩ := List.map_eq_cons_iff.mp hvalues.symm
    rw [List.flatMap_cons, List.flatMap_cons] at htokens
    obtain ⟨hts, hus⟩ := List.append_inj htokens (hlength D E hvalue.symm)
    rw [heq D E hts hvalue.symm, ih hus hvalues.symm]

lemma length_flatMap_eq
    (hlength : ∀ D E : δ, value D = value E → (tokens D).length = (tokens E).length)
    {Ds Es : List δ} (hvalues : Ds.map value = Es.map value) :
    (Ds.flatMap tokens).length = (Es.flatMap tokens).length := by
  induction Ds generalizing Es with
  | nil => rw [List.map_eq_nil_iff.mp hvalues.symm]
  | cons D Ds ih =>
    obtain ⟨E, Es, rfl, hvalue, hvalues⟩ := List.map_eq_cons_iff.mp hvalues.symm
    rw [List.flatMap_cons, List.flatMap_cons, List.length_append, List.length_append,
      hlength D E hvalue.symm, ih hvalues.symm]

end Lists

/-! ### Documents -/

/-- A derivation of a comma and a name. -/
structure NextDerivation where
  comma : Written ","
  name : OfKind .identifier

/-- A derivation from `"$" id ":" id { "," id }`. -/
structure InjectableDerivation where
  dollar : Written "$"
  group : OfKind .identifier
  colon : Written ":"
  first : OfKind .identifier
  others : List NextDerivation

/-- A derivation from `id "=" expression`. -/
structure DefinitionDerivation where
  name : OfKind .identifier
  sign : Written "="
  body : DerivationTree (.chain .logic)

/-- A derivation from `{ injectable } { definition }`. -/
structure DocumentDerivation where
  injectables : List InjectableDerivation
  definitions : List DefinitionDerivation

namespace NextDerivation

def tokens (D : NextDerivation) : List Token :=
  [D.comma.val, D.name.val]

def terminal (D : NextDerivation) : Terminal :=
  D.name.val.terminal

lemma derives (D : NextDerivation) : DerivesNext D.tokens D.terminal :=
  .next D.comma.property D.name.property

lemma eq_of_tokens (D E : NextDerivation) (htokens : D.tokens = E.tokens) : D = E := by
  obtain ⟨hcomma, hrest⟩ := List.cons.inj htokens
  obtain ⟨comma, name⟩ := D
  obtain rfl := Subtype.ext hcomma
  obtain rfl := Subtype.ext (List.head_eq_of_cons_eq hrest)
  rfl

end NextDerivation

lemma DerivesNext.exists_derivation (ts : List Token) (name : Terminal) (h : DerivesNext ts name) :
    ∃ D : NextDerivation, D.tokens = ts ∧ D.terminal = name := by
  obtain ⟨hcomma, hname⟩ := h
  exact ⟨⟨⟨_, hcomma⟩, ⟨_, hname⟩⟩, rfl, rfl⟩

namespace InjectableDerivation

def tokens (D : InjectableDerivation) : List Token :=
  D.dollar.val :: D.group.val :: D.colon.val :: D.first.val :: D.others.flatMap (·.tokens)

def injectable (D : InjectableDerivation) : Injectable :=
  ⟨D.group.val.terminal, D.first.val.terminal :: D.others.map (·.terminal)⟩

lemma derives (D : InjectableDerivation) : DerivesInjectable D.tokens D.injectable :=
  .group D.dollar.property D.group.property D.colon.property D.first.property
    (derivesEach_flatMap NextDerivation.derives D.others)

lemma length_eq (D E : InjectableDerivation) (h : D.injectable = E.injectable) :
    D.tokens.length = E.tokens.length := by
  obtain ⟨-, hnames⟩ := Injectable.mk.inj h
  have hlength (D E : NextDerivation) (_ : D.terminal = E.terminal) :
      D.tokens.length = E.tokens.length :=
    rfl
  have hothers := length_flatMap_eq hlength (List.cons.inj hnames).2
  simp only [tokens, List.length_cons, hothers]

lemma eq_of_tokens (D E : InjectableDerivation) (htokens : D.tokens = E.tokens)
    (h : D.injectable = E.injectable) : D = E := by
  obtain ⟨-, hnames⟩ := Injectable.mk.inj h
  obtain ⟨hdollar, htokens⟩ := List.cons.inj htokens
  obtain ⟨hgroup, htokens⟩ := List.cons.inj htokens
  obtain ⟨hcolon, htokens⟩ := List.cons.inj htokens
  obtain ⟨hfirst, htokens⟩ := List.cons.inj htokens
  have hothers := eq_of_flatMap (fun _ _ _ => rfl) (fun D E h _ => D.eq_of_tokens E h) htokens
    (List.cons.inj hnames).2
  obtain ⟨dollar, group, colon, first, others⟩ := D
  obtain rfl := Subtype.ext hdollar
  obtain rfl := Subtype.ext hgroup
  obtain rfl := Subtype.ext hcolon
  obtain rfl := Subtype.ext hfirst
  obtain rfl := hothers
  rfl

end InjectableDerivation

lemma DerivesInjectable.exists_derivation (ts : List Token) (i : Injectable)
    (h : DerivesInjectable ts i) : ∃ D : InjectableDerivation, D.tokens = ts ∧ D.injectable = i := by
  obtain ⟨hdollar, hgroup, hcolon, hfirst, hothers⟩ := h
  obtain ⟨others, rfl, rfl⟩ := hothers.exists_list DerivesNext.exists_derivation
  exact ⟨⟨⟨_, hdollar⟩, ⟨_, hgroup⟩, ⟨_, hcolon⟩, ⟨_, hfirst⟩, others⟩, rfl, rfl⟩

namespace DefinitionDerivation

def tokens (D : DefinitionDerivation) : List Token :=
  D.name.val :: D.sign.val :: D.body.tokens

def definition (D : DefinitionDerivation) : Definition :=
  ⟨D.name.val.terminal, D.body.formula⟩

lemma derives (D : DefinitionDerivation) : DerivesDefinition D.tokens D.definition :=
  .definition D.name.property D.sign.property D.body.derives

lemma length_eq (D E : DefinitionDerivation) (h : D.definition = E.definition) :
    D.tokens.length = E.tokens.length := by
  obtain ⟨-, hbody⟩ := Definition.mk.inj h
  simp only [tokens, List.length_cons, DerivationTree.length_eq hbody]

lemma eq_of_tokens (D E : DefinitionDerivation) (htokens : D.tokens = E.tokens)
    (h : D.definition = E.definition) : D = E := by
  obtain ⟨-, hbody⟩ := Definition.mk.inj h
  obtain ⟨hname, htokens⟩ := List.cons.inj htokens
  obtain ⟨hsign, htokens⟩ := List.cons.inj htokens
  have hbody := D.body.eq_of_tokens E.body htokens hbody
  obtain ⟨name, sign, body⟩ := D
  obtain rfl := Subtype.ext hname
  obtain rfl := Subtype.ext hsign
  obtain rfl := hbody
  rfl

end DefinitionDerivation

lemma DerivesDefinition.exists_derivation (ts : List Token) (d : Definition)
    (h : DerivesDefinition ts d) : ∃ D : DefinitionDerivation, D.tokens = ts ∧ D.definition = d := by
  obtain ⟨hname, hsign, hbody⟩ := h
  obtain ⟨body, rfl, rfl⟩ := hbody.exists_tree
  exact ⟨⟨⟨_, hname⟩, ⟨_, hsign⟩, body⟩, rfl, rfl⟩

namespace DocumentDerivation

def tokens (D : DocumentDerivation) : List Token :=
  D.injectables.flatMap (·.tokens) ++ D.definitions.flatMap (·.tokens)

def document (D : DocumentDerivation) : Document :=
  ⟨D.injectables.map (·.injectable), D.definitions.map (·.definition)⟩

lemma derives (D : DocumentDerivation) : DerivesDocument D.tokens D.document :=
  .document (derivesEach_flatMap InjectableDerivation.derives D.injectables)
    (derivesEach_flatMap DefinitionDerivation.derives D.definitions)

theorem eq_of_tokens (D E : DocumentDerivation) (htokens : D.tokens = E.tokens)
    (h : D.document = E.document) : D = E := by
  obtain ⟨hinjectables, hdefinitions⟩ := Document.mk.inj h
  have hlength := length_flatMap_eq InjectableDerivation.length_eq hinjectables
  obtain ⟨hts, hus⟩ := List.append_inj htokens hlength
  obtain ⟨injectables, definitions⟩ := D
  obtain rfl := eq_of_flatMap InjectableDerivation.length_eq InjectableDerivation.eq_of_tokens hts
    hinjectables
  obtain rfl := eq_of_flatMap DefinitionDerivation.length_eq DefinitionDerivation.eq_of_tokens hus
    hdefinitions
  rfl

end DocumentDerivation

theorem DerivesDocument.exists_derivation {ts : List Token} {d : Document}
    (h : DerivesDocument ts d) : ∃ D : DocumentDerivation, D.tokens = ts ∧ D.document = d := by
  obtain ⟨hinjectables, hdefinitions⟩ := h
  obtain ⟨injectables, rfl, rfl⟩ := hinjectables.exists_list DerivesInjectable.exists_derivation
  obtain ⟨definitions, rfl, rfl⟩ := hdefinitions.exists_list DerivesDefinition.exists_derivation
  exact ⟨⟨injectables, definitions⟩, rfl, rfl⟩

/-- Tokens of the lexer are parsed if and only if they have a derivation. There is then only one, and
the parser gives its document. -/
theorem Document.parses_iff_derivation {source : String} {tokens : List Token}
    (htokens : tokenize source = .ok tokens) :
    ((∃ d : Document, ofTokens tokens = .ok d) ↔
      ∃ D : DocumentDerivation, D.tokens = tokens) ∧
      ∀ D : DocumentDerivation, D.tokens = tokens → ofTokens tokens = .ok D.document ∧
        ∀ E : DocumentDerivation, E.tokens = tokens → E = D := by
  have hlex : ∀ t ∈ tokens, t.word.Lexical := lexical_of_tokenizeFrom htokens
  have hparse : ∀ D : DocumentDerivation, D.tokens = tokens → ofTokens tokens = .ok D.document := by
    rintro D rfl
    exact ofTokens_of_derives D.derives hlex
  refine ⟨⟨?_, ?_⟩, fun D hD => ⟨hparse D hD, fun E hE => ?_⟩⟩
  · rintro ⟨d, hd⟩
    obtain ⟨D, hD, -⟩ := (derives_of_ofTokens hd).exists_derivation
    exact ⟨D, hD⟩
  · rintro ⟨D, hD⟩
    exact ⟨D.document, hparse D hD⟩
  · have hsame : Except.ok E.document = Except.ok D.document := (hparse E hE).symm.trans (hparse D hD)
    exact E.eq_of_tokens D (hE.trans hD.symm) (Except.ok.inj hsame)

def chainSource : String := "a = b - c - end < 2 then = true"

/-- The derivation of the two definitions in `chainSource`: a chain of three operands that is compared,
and a name that is a word of the language. -/
def chainDerivation : DocumentDerivation :=
  let symbol (text : String) (column : Nat) : Token := ⟨.symbol, text, ⟨1, column⟩⟩
  let word (text : String) (column : Nat) : Token := ⟨.identifier, text, ⟨1, column⟩⟩
  let single (x : DerivationTree .atom) : DerivationTree (.chain .product) := .chain (.bare x) .nil
  let b := single (.name ⟨word "b" 4, rfl, by decide⟩)
  let c := single (.name ⟨word "c" 8, rfl, by decide⟩)
  let d := single (.name ⟨word "end" 12, rfl, by decide⟩)
  let difference := .chain b (.cons .subtract ⟨symbol "-" 6, rfl⟩ c
    (.cons .subtract ⟨symbol "-" 10, rfl⟩ d .nil))
  let limit := single (.number ⟨⟨.number, "2", ⟨1, 18⟩⟩, rfl⟩)
  let compared := .compare difference .less ⟨symbol "<" 16, rfl⟩ (.plain (.chain limit .nil))
  let yes := single (.boolean true ⟨word "true" 27, rfl⟩)
  ⟨[], [⟨⟨word "a" 0, rfl⟩, ⟨symbol "=" 2, rfl⟩, .chain compared .nil⟩,
    ⟨⟨word "then" 20, rfl⟩, ⟨symbol "=" 25, rfl⟩, .chain (.plain (.chain yes .nil)) .nil⟩]⟩

theorem Document.parses_chainSource : tokenize chainSource = .ok chainDerivation.tokens ∧
    ofTokens chainDerivation.tokens = .ok chainDerivation.document ∧
    ∀ E : DocumentDerivation, E.tokens = chainDerivation.tokens → E = chainDerivation := by
  have htokens : tokenize chainSource = .ok chainDerivation.tokens := by cbv
  exact ⟨htokens, (parses_iff_derivation htokens).2 chainDerivation rfl⟩

end Tariff
