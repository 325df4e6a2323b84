import Tariff.Json.Value
import Tariff.Proofs.JsonNumbers
import Tariff.Proofs.JsonText
import Tariff.Proofs.Meaning

/-!
# Tables in JSON

A written table is always read again, whatever order its entries are written in. It has the same names, the
same truth values and the same texts, since the form of a value tells its kind. A number is what its text is
read as, so the table is the same where each of its numbers comes back (`Table.read_written`).
-/

namespace Tariff

lemma Json.isNumber_numeral (x : Float) : IsNumber (numberFormat.numeral x) where
  toOfDigits := ofDigits_numeral x
  sign := by
    rw [NumberFormat.sign_numeral]
    split_ifs <;> simp
  leading := NumberFormat.leading_numeral _ x

/-- A writer and a reader of JSON, with what can be relied on: a tree is read as it was written, a double
that was written is in range when it is read, and one that is written with few digits and a small power of ten
is read exactly. -/
structure JsonCodec where
  write : Json → String
  read? : String → Option Json
  readDouble : Numeral → Option Float
  read?_write (j : Json) (h : j.NumbersWritten) : read? (write j) = some j
  isSome_readDouble (x : Float) (h : x.isFinite = true) :
    (readDouble (Json.numberFormat.numeral x)).isSome = true
  readDouble_of_short (x : Float) (h : x.isFinite = true) (hshort : (Json.numberFormat.numeral x).Short) :
    readDouble (Json.numberFormat.numeral x) = some x

namespace JsonCodec

/-- The reader of this library, with one of its writers. -/
def ofWriter (write : Json → String)
    (h : ∀ j : Json, j.NumbersWritten → Json.read? (write j) = some j) : JsonCodec where
  write
  read? := Json.read?
  readDouble := Json.readDouble
  read?_write := h
  isSome_readDouble _ := Json.isSome_reread
  readDouble_of_short _ := Json.reread_of_short

def pretty : JsonCodec :=
  ofWriter Json.pretty fun _ h => (Json.read?_pretty_and_compact h).1

def compact : JsonCodec :=
  ofWriter Json.compact fun _ h => (Json.read?_pretty_and_compact h).2

/-- The double that the text of a double is read as. -/
def reread (codec : JsonCodec) (x : Float) : Option Float :=
  codec.readDouble (Json.numberFormat.numeral x)

variable {codec : JsonCodec} {x : Float}

lemma isSome_reread (h : x.isFinite = true) : (codec.reread x).isSome = true :=
  codec.isSome_readDouble x h

lemma reread_of_short (h : x.isFinite = true) (hshort : (Json.numberFormat.numeral x).Short) :
    codec.reread x = some x :=
  codec.readDouble_of_short x h hshort

end JsonCodec

namespace Value

variable {codec : JsonCodec} {v : Value} {x : Float}

/-- The value that the text of a value is read as. -/
def reread (codec : JsonCodec) (v : Value) : Option Value :=
  ofJsonWith? codec.readDouble v.toJson

lemma reread_number (h : x.isFinite = true) :
    reread codec (.number x) = (codec.reread x).map .number := by
  rw [reread, toJson, Json.ofFloat, if_pos h]
  rfl

lemma reread_number_ne (h : ∀ x, v ≠ .number x) : reread codec (.number x) ≠ some v := by
  intro hread
  rw [reread, toJson, Json.ofFloat] at hread
  split_ifs at hread
  · obtain ⟨y, -, hy⟩ := Option.map_eq_some_iff.mp hread
    exact h y hy.symm
  · cases hread

lemma isSome_reread (codec : JsonCodec) (h : ∀ x, v = .number x → x.isFinite = true) :
    (v.reread codec).isSome = true := by
  cases v with
  | number x => rw [reread_number (h x rfl), Option.isSome_map, JsonCodec.isSome_reread (h x rfl)]
  | boolean b => rfl
  | text s => rfl

/-- A text or a truth value is read where it was written and nowhere else, whatever the text looks like. -/
lemma reread_eq_some_iff (h : ∀ x, v ≠ .number x) {w : Value} :
    w.reread codec = some v ↔ w = v := by
  cases w with
  | number x => exact iff_of_false (reread_number_ne h) (h x).symm
  | boolean b => exact Option.some_inj
  | text s => exact Option.some_inj

lemma numbersWritten_toJson (v : Value) : v.toJson.NumbersWritten := by
  cases v with
  | number x =>
    rw [toJson, Json.ofFloat]
    split_ifs
    · exact Json.isNumber_numeral x
    · trivial
  | boolean b => trivial
  | text s => trivial

end Value

namespace Table

variable {codec : JsonCodec} {table table' : Table} {entries entries' : List (String × Value)}
variable {name : String} {value : Value} {j : Json} {text : String}

lemma getElem?_ofEntries (entries : List (String × Value)) (name : String) :
    (ofEntries entries)[name]? = (entries.reverse.find? (·.1 = name)).map Prod.snd :=
  Definitions.getElem?_foldl_insert_empty entries Prod.fst Prod.snd name

lemma mem_ofEntries : name ∈ ofEntries entries ↔ name ∈ entries.map Prod.fst :=
  Definitions.mem_foldl_insert_empty entries Prod.fst Prod.snd name

lemma mem_of_getElem?_ofEntries (h : (ofEntries entries)[name]? = some value) :
    (name, value) ∈ entries := by
  rw [getElem?_ofEntries, Option.map_eq_some_iff] at h
  obtain ⟨entry, hfind, rfl⟩ := h
  have hname : entry.1 = name := by simpa using List.find?_some hfind
  rw [← hname]
  exact List.mem_reverse.mp (List.mem_of_find?_eq_some hfind)

/-- The order of the entries of a table does not matter. -/
lemma ofEntries_eq_of_perm (h : entries.Perm table.toList) : ofEntries entries = table := by
  refine Std.ExtTreeMap.ext_getElem? fun name => ?_
  have hnames : name ∈ ofEntries entries ↔ name ∈ table := by
    rw [mem_ofEntries, (h.map Prod.fst).mem_iff, Std.ExtTreeMap.map_fst_toList_eq_keys,
      Std.ExtTreeMap.mem_keys]
  rcases hvalue : (ofEntries entries)[name]? with _ | value
  · refine (Definitions.getElem?_eq_none_of_not_mem fun hmem => ?_).symm
    obtain ⟨other, hother⟩ := Definitions.exists_getElem?_of_mem (hnames.mpr hmem)
    exact Option.some_ne_none other (hother.symm.trans hvalue)
  · have hmem := h.mem_iff.mp (mem_of_getElem?_ofEntries hvalue)
    exact (Std.ExtTreeMap.mem_toList_iff_getElem?_eq_some.mp hmem).symm

/-- The objects that a table may be written as: its entries, in any order. -/
def WrittenAs (table : Table) (j : Json) : Prop :=
  ∃ entries : List (String × Value), entries.Perm table.toList ∧
    j = .ofMembers (entries.map fun (name, value) => (name, value.toJson))

lemma writtenAs_toJson (table : Table) : table.WrittenAs table.toJson :=
  ⟨table.toList, .rfl, rfl⟩

lemma WrittenAs.numbersWritten (h : table.WrittenAs j) : j.NumbersWritten := by
  obtain ⟨entries, -, rfl⟩ := h
  change Json.NumbersWrittenMembers ((entries.map _).map _)
  induction entries with
  | nil => trivial
  | cons entry entries ih => exact ⟨Value.numbersWritten_toJson entry.2, ih⟩

/-- The entry that the text of an entry is read as. -/
def rereadEntry (codec : JsonCodec) (entry : String × Value) : Option (String × Value) :=
  (entry.2.reread codec).map (entry.1, ·)

lemma rereadEntry_eq_some_iff {entry entry' : String × Value} :
    rereadEntry codec entry = some entry' ↔
      entry'.1 = entry.1 ∧ entry.2.reread codec = some entry'.2 := by
  obtain ⟨name', value'⟩ := entry'
  simp [rereadEntry, and_comm, eq_comm]

lemma ofJsonWith?_ofMembers (codec : JsonCodec) (entries : List (String × Value)) :
    ofJsonWith? codec.readDouble (.ofMembers (entries.map fun (name, value) => (name, value.toJson))) =
      (entries.mapM (rereadEntry codec)).map ofEntries := by
  change ((List.map _ (List.map _ entries)).mapM (entryOfMember? codec.readDouble)).map ofEntries = _
  rw [List.map_map, List.mapM_map]
  congr 2
  funext entry
  change (do return (entry.1, ← entry.2.reread codec)) = (entry.2.reread codec).map (entry.1, ·)
  cases entry.2.reread codec <;> rfl

lemma mapM_rereadEntry_eq_some_iff :
    entries.mapM (rereadEntry codec) = some entries' ↔
      List.Forall₂ (fun entry entry' => rereadEntry codec entry = some entry') entries entries' := by
  induction entries generalizing entries' with
  | nil => simp [eq_comm]
  | cons entry entries ih =>
    rw [List.mapM_cons, List.forall₂_cons_left_iff]
    simp only [← ih]
    cases rereadEntry codec entry <;> cases entries.mapM (rereadEntry codec) <;> simp [eq_comm]

/-- What is found in the table of entries that were read is what the entry found before is read as. -/
lemma getElem?_ofEntries_of_read (h : entries.mapM (rereadEntry codec) = some entries') (name : String) :
    (ofEntries entries')[name]?.map some = (ofEntries entries)[name]?.map (Value.reread codec) := by
  rw [getElem?_ofEntries, getElem?_ofEntries]
  have hreverse := List.forall₂_reverse_iff.mpr (mapM_rereadEntry_eq_some_iff.mp h)
  generalize entries.reverse = xs at hreverse
  generalize entries'.reverse = ys at hreverse
  induction hreverse with
  | nil => rfl
  | @cons entry entry' xs ys hentry _ ih =>
    obtain ⟨hsame, hvalue⟩ := rereadEntry_eq_some_iff.mp hentry
    by_cases hname : entry.1 = name
    · simp [hname, hsame, hvalue]
    · simpa [hname, hsame] using ih

/-- The same names, and for each the value that the text of its value is read as. -/
def RereadAs (codec : JsonCodec) (table table' : Table) : Prop :=
  ∀ name : String, table'[name]?.map some = table[name]?.map (Value.reread codec)

theorem WrittenAs.exists_ofJsonWith? (h : table.WrittenAs j) (codec : JsonCodec)
    (hvalues : ∀ (name : String) value, table[name]? = some value → (value.reread codec).isSome = true) :
    ∃ table', ofJsonWith? codec.readDouble j = some table' ∧ RereadAs codec table table' := by
  obtain ⟨entries, hperm, rfl⟩ := h
  have hread : entries.mapM (rereadEntry codec) =
      some (entries.map fun entry => (entry.1, (entry.2.reread codec).getD entry.2)) := by
    rw [mapM_rereadEntry_eq_some_iff, List.forall₂_map_right_iff, List.forall₂_same]
    intro entry hentry
    have hvalue : table[entry.1]? = some entry.2 :=
      Std.ExtTreeMap.mem_toList_iff_getElem?_eq_some.mp (hperm.mem_iff.mp hentry)
    obtain ⟨value, hsome⟩ := Option.isSome_iff_exists.mp (hvalues entry.1 entry.2 hvalue)
    rw [rereadEntry_eq_some_iff, hsome]
    exact ⟨rfl, rfl⟩
  refine ⟨ofEntries _, by rw [ofJsonWith?_ofMembers, hread, Option.map_some], fun name => ?_⟩
  rw [getElem?_ofEntries_of_read hread, ofEntries_eq_of_perm hperm]

namespace RereadAs

lemma mem_iff (h : RereadAs codec table table') (name : String) : name ∈ table' ↔ name ∈ table := by
  rw [Std.ExtTreeMap.mem_iff_isSome_getElem?, Std.ExtTreeMap.mem_iff_isSome_getElem?,
    ← Option.isSome_map (f := some), h name, Option.isSome_map]

lemma getElem?_iff (h : RereadAs codec table table') {v : Value} :
    table'[name]? = some v ↔ ∃ value, table[name]? = some value ∧ value.reread codec = some v := by
  have hsome : table'[name]? = some v ↔ table'[name]?.map some = some (some v) := by
    cases table'[name]? <;> simp
  rw [hsome, h name, Option.map_eq_some_iff]

lemma getElem?_of_not_number (h : RereadAs codec table table') (hvalue : ∀ x, value ≠ .number x) :
    table'[name]? = some value ↔ table[name]? = some value := by
  rw [h.getElem?_iff]
  simp only [Value.reread_eq_some_iff hvalue]
  exact ⟨fun ⟨_, hname, hsame⟩ => hsame ▸ hname, fun hname => ⟨value, hname, rfl⟩⟩

lemma exists_number (h : RereadAs codec table table') {x : Float} (hfinite : x.isFinite = true)
    (hx : table[name]? = some (.number x)) :
    ∃ y, codec.reread x = some y ∧ table'[name]? = some (.number y) := by
  obtain ⟨y, hy⟩ := Option.isSome_iff_exists.mp (JsonCodec.isSome_reread hfinite)
  refine ⟨y, hy, h.getElem?_iff.mpr ⟨.number x, hx, ?_⟩⟩
  rw [Value.reread_number hfinite, hy, Option.map_some]

lemma eq_iff (h : RereadAs codec table table')
    (hfinite : ∀ (name : String) x, table[name]? = some (.number x) → x.isFinite = true) :
    table' = table ↔ ∀ (name : String) x, table[name]? = some (.number x) → codec.reread x = some x := by
  constructor
  · rintro rfl name x hx
    obtain ⟨y, hy, hname⟩ := h.exists_number (hfinite name x hx) hx
    rw [hy, Value.number.inj (Option.some_inj.mp (hname.symm.trans hx))]
  · intro hnumbers
    refine Std.ExtTreeMap.ext_getElem? fun name => Option.map_injective (Option.some_injective _) ?_
    rw [h name]
    rcases hvalue : table[name]? with _ | value
    · rfl
    · have hreread : value.reread codec = some value := by
        cases value with
        | number x =>
          rw [Value.reread_number (hfinite name x hvalue), hnumbers name x hvalue, Option.map_some]
        | boolean b => rfl
        | text s => rfl
      rw [Option.map_some, hreread, Option.map_some]

end RereadAs

/-- A table of finite numbers, texts and truth values is written as a text that is read as a table. That has
the names, the texts and the truth values of the written one, whatever a text looks like. A number in it is
what the number was read as, and the same if it has few digits and a small power of ten. So the table is the
same just if each of its numbers comes back. -/
theorem read_written (codec : JsonCodec)
    (hfinite : ∀ (name : String) x, table[name]? = some (.number x) → x.isFinite = true)
    (hj : table.WrittenAs j) :
    ∃ table', (codec.read? (codec.write j) >>= ofJsonWith? codec.readDouble) = some table' ∧
      (∀ name, name ∈ table' ↔ name ∈ table) ∧
      (∀ (name : String) value, (∀ x, value ≠ .number x) →
        (table'[name]? = some value ↔ table[name]? = some value)) ∧
      (∀ (name : String) x, table[name]? = some (.number x) →
        ∃ y, codec.reread x = some y ∧ table'[name]? = some (.number y) ∧
          ((Json.numberFormat.numeral x).Short → y = x)) ∧
      (table' = table ↔
        ∀ (name : String) x, table[name]? = some (.number x) → codec.reread x = some x) := by
  obtain ⟨table', htable', hreread⟩ := hj.exists_ofJsonWith? codec fun name value hvalue =>
    Value.isSome_reread codec fun x hx => hfinite name x (hx ▸ hvalue)
  refine ⟨table', ?_, hreread.mem_iff, fun _ _ => hreread.getElem?_of_not_number, fun name x hx => ?_,
    hreread.eq_iff hfinite⟩
  · rw [codec.read?_write j hj.numbersWritten, Option.bind_eq_bind, Option.bind_some, htable']
  · obtain ⟨y, hy, hname⟩ := hreread.exists_number (hfinite name x hx) hx
    refine ⟨y, hy, hname, fun hshort => ?_⟩
    rw [JsonCodec.reread_of_short (hfinite name x hx) hshort] at hy
    exact (Option.some_inj.mp hy).symm

/-- A rate comes back in both layouts, and so does a label that looks like a number. -/
theorem read_labelled_rate :
    (ofEntries [("rate", .number 0.5), ("label", .text "0.5")]).WrittenAs
        (ofEntries [("rate", .number 0.5), ("label", .text "0.5")]).toJson ∧
      (Json.read? (ofEntries [("rate", .number 0.5), ("label", .text "0.5")]).toJson.pretty >>= ofJson?) =
        some (ofEntries [("rate", .number 0.5), ("label", .text "0.5")]) ∧
      (Json.read? (ofEntries [("rate", .number 0.5), ("label", .text "0.5")]).toJson.compact >>= ofJson?) =
        some (ofEntries [("rate", .number 0.5), ("label", .text "0.5")]) := by
  have hrate : ∀ (name : String) x, (ofEntries [("rate", .number 0.5), ("label", .text "0.5")])[name]? =
      some (.number x) → x = 0.5 := by
    intro name x hx
    have hentry : name = "rate" ∧ x = 0.5 := by simpa using mem_of_getElem?_ofEntries hx
    exact hentry.2
  have hfinite : (0.5 : Float).isFinite = true := by decide +kernel
  have hwritten := writtenAs_toJson (ofEntries [("rate", .number 0.5), ("label", .text "0.5")])
  have hsame (codec : JsonCodec) (hback : codec.reread 0.5 = some 0.5) :
      (codec.read? (codec.write (ofEntries [("rate", .number 0.5), ("label", .text "0.5")]).toJson) >>=
        ofJsonWith? codec.readDouble) = some (ofEntries [("rate", .number 0.5), ("label", .text "0.5")]) := by
    obtain ⟨table', hread, -, -, -, hiff⟩ :=
      read_written codec (fun name x hx => hrate name x hx ▸ hfinite) hwritten
    rwa [hiff.mpr fun name x hx => hrate name x hx ▸ hback] at hread
  exact ⟨hwritten, hsame .pretty (by decide +kernel), hsame .compact (by decide +kernel)⟩

/-- Seventeen digits that are read a rounding off: the table comes back with another number. -/
theorem read_seventeen_digits :
    (0.13999999999999999 : Float).isFinite = true ∧ (0.13999999999999999 : Float) ≠ 0.14 ∧
      (ofEntries [("a", .number 0.13999999999999999)]).toJson.pretty =
        "\x7b\n  \"a\": 0.13999999999999999\n\x7d" ∧
      (Json.read? (ofEntries [("a", .number 0.13999999999999999)]).toJson.pretty >>= ofJson?) =
        some (ofEntries [("a", .number 0.14)]) := by
  have hfinite : (0.13999999999999999 : Float).isFinite = true := by decide +kernel
  have hback : JsonCodec.pretty.reread 0.13999999999999999 = some 0.14 := by decide +kernel
  have hvalue : (Value.number 0.13999999999999999).reread .pretty = some (.number 0.14) := by
    rw [Value.reread_number hfinite, hback, Option.map_some]
  have hwritten := writtenAs_toJson (ofEntries [("a", .number 0.13999999999999999)])
  obtain ⟨table', htable', hreread⟩ := hwritten.exists_ofJsonWith? .pretty fun name value h => by
    have hentry : name = "a" ∧ value = .number 0.13999999999999999 := by
      simpa using mem_of_getElem?_ofEntries h
    rw [hentry.2, hvalue, Option.isSome_some]
  have hsame : table' = ofEntries [("a", .number 0.14)] := by
    refine Std.ExtTreeMap.ext_getElem? fun name => Option.map_injective (Option.some_injective _) ?_
    rw [hreread name, getElem?_ofEntries, getElem?_ofEntries]
    by_cases hname : "a" = name
    · simp [hname, hvalue]
    · simp [hname]
  refine ⟨hfinite, by decide +kernel, by decide +kernel, ?_⟩
  rw [(Json.read?_pretty_and_compact hwritten.numbersWritten).1, Option.bind_eq_bind, Option.bind_some,
    ← hsame]
  exact htable'

end Table

end Tariff
