import Tariff.Proofs.Lexing
import Tariff.Proofs.Places

/-!
# Tokens tile their source

`TokenKind.Spells` says what the words of each kind look like, and `TokenKind.LongestAt` that a word
is the longest one at the front of a text. A source has certain tokens if and only if it consists of
their texts with blanks around them, each text the longest word where it begins and each token at its
true place (`tokenize_iff_tiles`).
-/

namespace Tariff

/-- The texts of the words of each kind. -/
inductive TokenKind.Spells : TokenKind → List Char → Prop where
  | identifier {c : Char} {s : List Char} (hfirst : LexemeClass.startsIdentifier c = true)
      (hrest : ∀ d ∈ s, LexemeClass.continuesIdentifier d = true) : Spells .identifier (c :: s)
  | whole {digits : List Char} (hne : digits ≠ []) (hdigits : ∀ d ∈ digits, d.isDigit = true) :
      Spells .number digits
  | decimal {whole fraction : List Char} (hwhole_ne : whole ≠ [])
      (hwhole : ∀ d ∈ whole, d.isDigit = true) (hfraction_ne : fraction ≠ [])
      (hfraction : ∀ d ∈ fraction, d.isDigit = true) : Spells .number (whole ++ '.' :: fraction)
  | symbol {s : List Char} (h : s ∈ LexemeClass.symbols) : Spells .symbol s

/-- A word of the kind stands at the front of a text, and no longer word of any kind does. -/
structure TokenKind.LongestAt (kind : TokenKind) (word text : List Char) : Prop where
  spells : kind.Spells word
  front : word <+: text
  longest : ∀ (other : TokenKind) (longer : List Char), other.Spells longer → longer <+: text →
    longer.length ≤ word.length

/-- What follows a word takes it no further: no letter, digit or underscore goes on an identifier, no
digit a number, no point with a digit a whole number, and no symbol reaches beyond a symbol. -/
def TokenKind.Stops : TokenKind → (word rest : List Char) → Prop
  | .identifier, _, rest => ∀ c ∈ rest.head?, LexemeClass.continuesIdentifier c = false
  | .number, word, rest => (∀ c ∈ rest.head?, c.isDigit = false) ∧
      ('.' ∉ word → ∀ d tail, rest = '.' :: d :: tail → d.isDigit = false)
  | .symbol, word, rest => ∀ other ∈ LexemeClass.symbols, other <+: word ++ rest →
      other.length ≤ word.length

/-- Behind the text `before`, a text consists of the tokens with blanks around them, each the longest
word where it begins and at its true place. -/
inductive Tiles : (before text : List Char) → List Token → Prop where
  | blanks {before gap : List Char} (hgap : ∀ c ∈ gap, Text.isBlank c = true) : Tiles before gap []
  | token {before gap rest : List Char} {t : Token} {ts : List Token}
      (hgap : ∀ c ∈ gap, Text.isBlank c = true)
      (hlongest : t.kind.LongestAt t.text.toList (t.text.toList ++ rest))
      (hplace : t.location = .behind (before ++ gap))
      (hrest : Tiles (before ++ gap ++ t.text.toList) rest ts) :
      Tiles before (gap ++ (t.text.toList ++ rest)) (t :: ts)

namespace TokenKind

variable {kind : TokenKind} {word rest text : List Char}

lemma Spells.ne_nil (h : kind.Spells word) : word ≠ [] := by
  cases h with
  | identifier => exact List.cons_ne_nil _ _
  | whole hne => exact hne
  | decimal hne => simp
  | symbol h => exact (LexemeClass.symbols_head word h).1

lemma spells_of_lexical {w : Word} (h : w.Lexical) : w.kind.Spells w.text.toList := by
  obtain ⟨kind, text⟩ := w
  cases kind with
  | identifier =>
    have hs : isIdentifier text.toList = true := h
    change Spells .identifier text.toList
    cases htext : text.toList with
    | nil =>
      rw [htext] at hs
      cases hs
    | cons c s =>
      rw [htext, isIdentifier, Bool.and_eq_true, List.all_eq_true] at hs
      exact .identifier hs.1 hs.2
  | number =>
    obtain ⟨whole, fraction, hne, hwhole, hfraction, htext⟩ :=
      LexemeClass.exists_numeral_of_isNumberLiteral (show isNumberLiteral text.toList = true from h)
    change Spells .number text.toList
    rw [htext, LexemeClass.numeral]
    by_cases hfraction_ne : fraction = []
    · rw [if_pos hfraction_ne, List.append_nil]
      exact .whole hne hwhole
    · rw [if_neg hfraction_ne]
      exact .decimal hne hwhole hfraction_ne hfraction
  | symbol => exact .symbol h

lemma le_numberExtent_of_digits (hne : word ≠ []) (h : ∀ d ∈ word, d.isDigit = true) :
    word.length ≤ LexemeClass.numberExtent (word ++ rest) := by
  have hrun := LexemeClass.run_append h rest
  have hpos := List.length_pos_iff.mpr hne
  unfold LexemeClass.numberExtent
  split
  · omega
  · omega

lemma le_symbolExtent (h : word ∈ LexemeClass.symbols) (rest : List Char) :
    word.length ≤ LexemeClass.symbolExtent (word ++ rest) := by
  have hfront : word.isPrefixOf (word ++ rest) = true :=
    List.isPrefixOf_iff_prefix.mpr (List.prefix_append word rest)
  unfold LexemeClass.symbolExtent
  cases hfind : LexemeClass.symbols.find? (·.isPrefixOf (word ++ rest)) with
  | none =>
    have hnone := List.find?_eq_none.mp hfind word h
    exact (hnone hfront).elim
  | some found =>
    obtain ⟨hfound, before, after, hsymbols, hbefore⟩ := List.find?_eq_some_iff_append.mp hfind
    have hprefix := List.isPrefixOf_iff_prefix.mp hfound
    rcases List.prefix_or_prefix_of_prefix (List.prefix_append word rest) hprefix with hle | hle
    · exact hle.length_le
    · -- a symbol that the found one begins would stand behind it in the list
      have hpairwise := LexemeClass.symbols_pairwise
      rw [hsymbols] at h hpairwise
      rcases List.mem_append.mp h with hmem | hmem
      · have hnot := hbefore word hmem
        rw [hfront] at hnot
        cases hnot
      · rcases List.mem_cons.mp hmem with rfl | hmem
        · exact Nat.le_refl _
        · have hnot := List.rel_of_pairwise_cons (List.pairwise_append.mp hpairwise).2.1 hmem
          rw [List.isPrefixOf_iff_prefix.mpr hle] at hnot
          cases hnot

/-- The lexer takes up a word at the front, or a longer one of its kind. -/
lemma Spells.at?_and_le_extent (h : kind.Spells word) (rest : List Char) :
    LexemeClass.at? (word ++ rest) = some (.token kind) ∧
      word.length ≤ (LexemeClass.token kind).extent (word ++ rest) := by
  cases h with
  | @identifier c s hfirst hrest =>
    have hrun := LexemeClass.run_append hrest rest
    refine ⟨LexemeClass.at?_of_startsIdentifier hfirst _, ?_⟩
    simp only [LexemeClass.extent, List.cons_append, LexemeClass.identifierExtent, if_pos hfirst,
      List.length_cons]
    omega
  | whole hne hdigits =>
    refine ⟨?_, le_numberExtent_of_digits hne hdigits⟩
    cases word with
    | nil => exact (hne rfl).elim
    | cons d word => exact LexemeClass.at?_of_isDigit (hdigits d List.mem_cons_self) _
  | @decimal whole fraction hwhole_ne hwhole hfraction_ne hfraction =>
    constructor
    · cases whole with
      | nil => exact (hwhole_ne rfl).elim
      | cons d whole => exact LexemeClass.at?_of_isDigit (hwhole d List.mem_cons_self) _
    · have hrun := LexemeClass.run_append hfraction rest
      have hpos := List.length_pos_iff.mpr hfraction_ne
      have hpoint : ∀ c ∈ ('.' :: (fraction ++ rest)).head?, c.isDigit = false := by simp
      simp only [LexemeClass.extent, List.append_assoc, List.cons_append]
      rw [LexemeClass.numberExtent_append hwhole_ne hwhole hpoint, LexemeClass.fractionExtent,
        List.length_append, List.length_cons]
      split
      · omega
      · omega
  | symbol h =>
    have hle := le_symbolExtent h rest
    refine ⟨?_, hle⟩
    obtain ⟨hne, hhead⟩ := LexemeClass.symbols_head word h
    cases word with
    | nil => exact (hne rfl).elim
    | cons c s =>
      simp only [List.head?_cons, Option.all_some, Bool.and_eq_true, Bool.not_eq_true'] at hhead
      obtain ⟨⟨hblank, hletter⟩, hdigit⟩ := hhead
      exact LexemeClass.at?_of_symbolExtent hblank hletter hdigit (by simp at hle ⊢; omega)

/-- What is cut off as a word is the longest word at the front. -/
lemma longestAt_of_at? (h : LexemeClass.at? text = some (.token kind)) :
    kind.LongestAt (text.take ((LexemeClass.token kind).extent text)) text where
  spells := by
    have hspells := spells_of_lexical (LexemeClass.lexical_of_at? h)
    rwa [String.toList_ofList] at hspells
  front := List.take_prefix _ _
  longest := by
    intro other longer hother hfront
    obtain ⟨rest, rfl⟩ := hfront
    obtain ⟨hkind, hle⟩ := hother.at?_and_le_extent rest
    rw [h] at hkind
    obtain rfl := LexemeClass.token.inj (Option.some.inj hkind)
    simp only [List.length_take, List.length_append]
    omega

/-- The longest word at the front is what is cut off. -/
lemma LongestAt.at? (h : kind.LongestAt word (word ++ rest)) :
    LexemeClass.at? (word ++ rest) = some (.token kind) ∧
      (word ++ rest).take ((LexemeClass.token kind).extent (word ++ rest)) = word ∧
      (word ++ rest).drop ((LexemeClass.token kind).extent (word ++ rest)) = rest := by
  obtain ⟨hkind, hle⟩ := h.spells.at?_and_le_extent rest
  have hcut := longestAt_of_at? hkind
  have htake : (word ++ rest).take ((LexemeClass.token kind).extent (word ++ rest)) = word := by
    have hlonger := h.longest _ _ hcut.spells hcut.front
    have hfront : word <+: (word ++ rest).take ((LexemeClass.token kind).extent (word ++ rest)) :=
      List.prefix_take_iff.mpr ⟨h.front, hle⟩
    exact (hfront.eq_of_length_le hlonger).symm
  refine ⟨hkind, htake, ?_⟩
  have hsplit := List.take_append_drop ((LexemeClass.token kind).extent (word ++ rest)) (word ++ rest)
  rw [htake] at hsplit
  exact List.append_cancel_left hsplit

/-- A longer word of any kind is not at the front. -/
lemma LongestAt.not_spells (h : kind.LongestAt word (word ++ rest)) {added tail : List Char}
    (hrest : rest = added ++ tail) (hne : added ≠ []) (other : TokenKind) :
    ¬other.Spells (word ++ added) := by
  intro hother
  have hfront : word ++ added <+: word ++ rest := by
    rw [hrest, ← List.append_assoc]
    exact List.prefix_append _ _
  have hle := h.longest other _ hother hfront
  have hpos := List.length_pos_iff.mpr hne
  rw [List.length_append] at hle
  omega

lemma exists_cons_of_mem_head? {c : Char} (h : c ∈ rest.head?) : ∃ tail, rest = [c] ++ tail := by
  cases rest with
  | nil => cases h
  | cons d tail =>
    obtain rfl := Option.some.inj h
    exact ⟨tail, rfl⟩

lemma forall_mem_concat {p : Char → Prop} {c : Char} (h : ∀ d ∈ word, p d) (hc : p c) :
    ∀ d ∈ word ++ [c], p d := by
  intro d hd
  rcases List.mem_append.mp hd with hd | hd
  · exact h d hd
  · rwa [List.mem_singleton.mp hd]

/-- A digit goes on every number. -/
lemma Spells.concat_digit {d : Char} (h : Spells .number word) (hd : d.isDigit = true) :
    Spells .number (word ++ [d]) := by
  cases h with
  | whole hne hdigits => exact .whole (by simp) (forall_mem_concat hdigits hd)
  | decimal hwhole_ne hwhole hfraction_ne hfraction =>
    rw [List.append_assoc, List.cons_append]
    exact .decimal hwhole_ne hwhole (by simp) (forall_mem_concat hfraction hd)

theorem LongestAt.stops (h : kind.LongestAt word (word ++ rest)) : kind.Stops word rest := by
  cases kind with
  | identifier =>
    intro c hc
    obtain ⟨tail, hrest⟩ := exists_cons_of_mem_head? hc
    by_contra hgoes
    rw [Bool.not_eq_false] at hgoes
    apply h.not_spells hrest (List.cons_ne_nil c []) .identifier
    cases h.spells with
    | identifier hfirst hlater => exact .identifier hfirst (forall_mem_concat hlater hgoes)
  | number =>
    constructor
    · intro c hc
      obtain ⟨tail, hrest⟩ := exists_cons_of_mem_head? hc
      by_contra hdigit
      rw [Bool.not_eq_false] at hdigit
      exact h.not_spells hrest (List.cons_ne_nil c []) .number (h.spells.concat_digit hdigit)
    · intro hpoint d tail hrest
      by_contra hdigit
      rw [Bool.not_eq_false] at hdigit
      have hadded : rest = ['.', d] ++ tail := hrest
      apply h.not_spells hadded (List.cons_ne_nil '.' [d]) .number
      cases h.spells with
      | whole hne hdigits => exact .decimal hne hdigits (List.cons_ne_nil d []) (by simpa using hdigit)
      | decimal => exact (hpoint (by simp)).elim
  | symbol =>
    intro other hother hfront
    exact h.longest .symbol other (.symbol hother) hfront

end TokenKind

/-! ### Sources as tilings -/

/-- A run of blanks that is cut off holds nothing else. -/
lemma forall_isBlank_of_cut {lexeme rest : List Char}
    (h : (lexeme ++ rest).take (LexemeClass.blank.extent (lexeme ++ rest)) = lexeme) :
    ∀ c ∈ lexeme, Text.isBlank c = true := by
  have hrun : lexeme = (lexeme ++ rest).takeWhile Text.isBlank :=
    h.symm.trans (LexemeClass.take_run Text.isBlank (lexeme ++ rest))
  rw [hrun]
  exact List.all_eq_true.mp List.all_takeWhile

lemma tokenizeFrom_append_blanks {gap : List Char} (h : ∀ c ∈ gap, Text.isBlank c = true)
    (l : Location) (s : List Char) :
    tokenizeFrom l (gap ++ s) = tokenizeFrom (l.advance gap) s := by
  rw [tokenizeFrom_dropWhile_isBlank, List.takeWhile_append_of_pos h, List.dropWhile_append_of_pos h,
    Location.advance_append, ← tokenizeFrom_dropWhile_isBlank]

namespace Tiles

variable {before gap text : List Char} {tokens : List Token}

lemma append_blanks (hgap : ∀ c ∈ gap, Text.isBlank c = true) (h : Tiles (before ++ gap) text tokens) :
    Tiles before (gap ++ text) tokens := by
  have hjoin {gap' : List Char} (hgap' : ∀ c ∈ gap', Text.isBlank c = true) :
      ∀ c ∈ gap ++ gap', Text.isBlank c = true :=
    List.forall_mem_append.mpr ⟨hgap, hgap'⟩
  cases h with
  | blanks hgap' => exact .blanks (hjoin hgap')
  | @token _ gap' rest t ts hgap' hlongest hplace hrest =>
    rw [List.append_assoc before] at hplace hrest
    rw [← List.append_assoc gap]
    exact .token (hjoin hgap') hlongest hplace hrest

/-- A word right at the front. -/
lemma cons_word {kind : TokenKind} {word rest : List Char}
    (hlongest : kind.LongestAt word (word ++ rest)) (hrest : Tiles (before ++ word) rest tokens) :
    Tiles before (word ++ rest) (⟨kind, String.ofList word, .behind before⟩ :: tokens) := by
  have hword : (String.ofList word).toList = word := String.toList_ofList
  generalize String.ofList word = text at hword
  subst hword
  have hplace : Location.behind before = .behind (before ++ []) := by rw [List.append_nil]
  rw [← List.append_nil before] at hrest
  exact @Tiles.token before [] rest ⟨kind, text, .behind before⟩ tokens (by simp) hlongest hplace hrest

theorem of_tokenizeFrom (h : tokenizeFrom (.behind before) text = .ok tokens) :
    Tiles before text tokens := by
  -- The lexer keeps a place only, so the text before it is any that leads there.
  refine tokenizeFrom_induction (motive := fun l text tokens =>
    ∀ before, Location.behind before = l → Tiles before text tokens) ?_ ?_ h before rfl
  · intro l before hl
    exact .blanks (by simp)
  · intro l kind lexeme rest tokens hkind hcut ih before hl
    have hrest : Tiles (before ++ lexeme) rest tokens := by
      apply ih
      rw [Location.behind_append, hl]
    cases kind with
    | blank =>
      exact hrest.append_blanks (forall_isBlank_of_cut hcut)
    | token kind =>
      have hlongest := TokenKind.longestAt_of_at? hkind
      rw [hcut] at hlongest
      rw [← hl]
      exact hrest.cons_word hlongest

theorem tokenizeFrom_eq_ok (h : Tiles before text tokens) :
    tokenizeFrom (.behind before) text = .ok tokens := by
  induction h with
  | @blanks before gap hgap =>
    have hblanks := tokenizeFrom_append_blanks hgap (.behind before) []
    rw [List.append_nil] at hblanks
    rw [hblanks, tokenizeFrom, if_pos rfl]
  | @token before gap rest t ts hgap hlongest hplace hrest ih =>
    obtain ⟨hkind, htake, hdrop⟩ := hlongest.at?
    rw [tokenizeFrom_append_blanks hgap, ← Location.behind_append, tokenizeFrom_of_at? _ hkind, htake,
      hdrop, ← Location.behind_append, ih, LexemeClass.tokens, String.ofList_toList, ← hplace]
    rfl

lemma eq_or_before (h : Tiles before text tokens) : ∀ t ∈ tokens,
    t.location = .behind before ∨ (Location.behind before).Before t.location := by
  induction h with
  | blanks hgap => simp
  | @token before gap rest t ts hgap hlongest hplace hrest ih =>
    have hfirst := Location.eq_or_before_advance (.behind before) (gap ++ t.text.toList)
    have hgap := Location.eq_or_before_advance (.behind before) gap
    rw [← Location.behind_append] at hfirst hgap
    intro u hu
    rcases List.mem_cons.mp hu with rfl | hu
    · rw [hplace]
      exact hgap
    · rw [List.append_assoc] at ih
      rcases ih u hu with heq | hlater
      · rw [heq]
        exact hfirst
      · rcases hfirst with heq | hfirst
        · rw [heq] at hlater
          exact .inr hlater
        · exact .inr (hfirst.trans hlater)

theorem pairwise_before (h : Tiles before text tokens) :
    tokens.Pairwise fun t u => t.location.Before u.location := by
  induction h with
  | blanks hgap => exact .nil
  | @token before gap rest t ts hgap hlongest hplace hrest ih =>
    have hend : t.location.Before (.behind (before ++ gap ++ t.text.toList)) := by
      rw [Location.behind_append, ← hplace]
      exact Location.before_advance _ hlongest.spells.ne_nil
    refine List.pairwise_cons.mpr ⟨fun u hu => ?_, ih⟩
    rcases hrest.eq_or_before u hu with heq | hlater
    · rwa [heq]
    · exact hend.trans hlater

/-- What each token of a tiling has before and behind it. -/
lemma exists_split (h : Tiles before text tokens) : ∀ t ∈ tokens, ∃ left right : List Char,
    before ++ text = left ++ (t.text.toList ++ right) ∧ t.location = .behind left ∧
      t.kind.LongestAt t.text.toList (t.text.toList ++ right) ∧
      t.kind.Stops t.text.toList right := by
  induction h with
  | blanks hgap => simp
  | @token before gap rest t ts hgap hlongest hplace hrest ih =>
    intro u hu
    rcases List.mem_cons.mp hu with rfl | hu
    · exact ⟨before ++ gap, rest, by simp only [List.append_assoc], hplace, hlongest, hlongest.stops⟩
    · obtain ⟨left, right, hsplit, hu'⟩ := ih u hu
      refine ⟨left, right, ?_, hu'⟩
      rw [← hsplit]
      simp only [List.append_assoc]

end Tiles

lemma tokenize_eq_ok_iff {source : String} {tokens : List Token} :
    tokenize source = .ok tokens ↔ Tiles [] source.toList tokens := by
  have hstart : tokenize source = tokenizeFrom (.behind []) source.toList := rfl
  rw [hstart]
  exact ⟨Tiles.of_tokenizeFrom, Tiles.tokenizeFrom_eq_ok⟩

/-- The places of the tokens of a source go up. -/
theorem pairwise_before_of_tokenize {source : String} {tokens : List Token}
    (h : tokenize source = .ok tokens) :
    tokens.Pairwise fun t u => t.location.Before u.location :=
  (tokenize_eq_ok_iff.mp h).pairwise_before

/-- A source has these tokens if and only if they tile it. Each of them is then the longest word
where it stands, its place is counted from the start of the source, and the places go up. -/
theorem tokenize_iff_tiles (source : String) (tokens : List Token) :
    (tokenize source = .ok tokens ↔ Tiles [] source.toList tokens) ∧
      (tokenize source = .ok tokens →
        (∀ t ∈ tokens, ∃ left right : List Char,
          source.toList = left ++ (t.text.toList ++ right) ∧ t.location = .behind left ∧
            t.kind.LongestAt t.text.toList (t.text.toList ++ right) ∧
            t.kind.Stops t.text.toList right) ∧
        tokens.Pairwise fun t u => t.location.Before u.location) := by
  refine ⟨tokenize_eq_ok_iff, fun h => ?_⟩
  have htiles := tokenize_eq_ok_iff.mp h
  exact ⟨htiles.exists_split, htiles.pairwise_before⟩

end Tariff
